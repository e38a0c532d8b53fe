import Abix.Runtime.Agreement
import Abix.Runtime.Lookup

/-! The room in an index. Twice the count, rounded up to a power of two, fits in 32 bits for counts up to
`2 ^ 30`, and then a slot is always left for the probes to end at. -/
namespace Abix.Runtime
open Abix.Probing

/-- The index lies in its array, which has more slots than there are entries, and its probes end. -/
structure HasRoom (t : Table) (idx : HashIndex) (slots : List HashSlot) : Prop where
  array : idx.slots = some slots
  allocated : slots.length = idx.capacity.toNat
  capacity : 0 < t.count → (∃ k, idx.capacity.toNat = 2 ^ k) ∧ t.count < idx.capacity
  free : ∃ s ∈ slots, s.indexPlus1 = 0
  find : ∀ name nh sig ver, ∃ found, findHash t idx name nh sig ver = .ok found
  lookup : ∀ name nh sig, ∃ found, lookupHash t idx name nh sig = .ok found

section Counts
variable {t : Table}

private theorem exists_hasRoom (hcount : t.count.toNat ≤ 2 ^ 30) :
    ∃ idx slots, HashIndex.build t true = .ok idx ∧ HasRoom t idx slots := by
  obtain ⟨idx, slots, k, hbuild, hslots, hcap, hm, hk, hroom, hb⟩ := build_eq t hcount
  refine ⟨idx, slots, hbuild, hslots, hb.length.trans hcap.symm, fun _ => ⟨⟨k, hcap⟩, ?_⟩, ?_,
    fun name nh sig ver => ?_, fun name nh sig => ?_⟩
  · rw [UInt32.lt_iff_toNat_lt, hcap, ← t.counted]
    exact hroom
  · have hfree : slots.countP (fun s => s.indexPlus1 ≠ 0) < slots.length := by
      rw [hb.used, length_slotsOf, hb.length]
      exact hroom
    rw [List.countP_eq_length_filter] at hfree
    obtain ⟨s, hs, hzero⟩ := List.length_filter_lt_length_iff_exists.mp hfree
    exact ⟨s, hs, by simpa using hzero⟩
  · cases name with
    | none => exact ⟨_, rfl⟩
    | some name =>
      by_cases hmagic : t.magic = tableMagic
      · exact ⟨_, findHash_eq hslots hm (by omega) hroom hb hmagic⟩
      · exact ⟨(.badTable, noIndex), by simp [findHash, hslots, hmagic]⟩
  · cases name with
    | none => exact ⟨_, rfl⟩
    | some name =>
      by_cases hmagic : t.magic = tableMagic
      · exact ⟨_, lookupHash_eq hslots hm (by omega) hroom hb hmagic⟩
      · exact ⟨none, by simp [lookupHash, hslots, hmagic]⟩

/-- Beyond it, the count is doubled or rounded past the end of the 32 bits. -/
theorem capacity_le_count (hcount : 2 ^ 30 < t.count.toNat) : nextPow2 (t.count * 2) ≤ t.count := by
  have hlt := t.count.toNat_lt
  have hdouble : (t.count * 2).toNat = t.count.toNat * 2 % 2 ^ 32 := UInt32.toNat_mul _ _
  rw [UInt32.le_iff_toNat_le]
  by_cases hv : (t.count * 2).toNat ≤ 2 ^ 31
  · obtain ⟨k, hk, hcap, -⟩ := nextPow2_eq hv
    have hpow : 2 ^ k ≤ 2 ^ 31 := Nat.pow_le_pow_right Nat.two_pos hk
    omega
  · rw [nextPow2_eq_zero (Nat.not_le.mp hv)]
    exact Nat.zero_le _

/-- An empty array has no place for a first entry. -/
theorem build_outOfBounds (hpos : 0 < t.count) (hcap : nextPow2 (t.count * 2) = 0) :
    HashIndex.build t true = .error .outOfBounds := by
  have hne : t.entries ≠ [] := by
    intro hnil
    have hlength := t.counted
    rw [hnil] at hlength
    exact absurd (UInt32.lt_iff_toNat_lt.mp hpos) (by rw [← hlength]; exact Nat.lt_irrefl 0)
  obtain ⟨e, rest, heq⟩ := List.exists_cons_of_ne_nil hne
  rw [HashIndex.build, if_pos rfl, hcap, heq]
  rfl

end Counts

private theorem build_capacity {t : Table} {idx : HashIndex} (h : HashIndex.build t true = .ok idx) :
    idx.capacity = nextPow2 (t.count * 2) := by
  rw [HashIndex.build, if_pos rfl] at h
  cases hfill : fill (nextPow2 (t.count * 2) - 1) 0 t.entries
      (List.replicate (nextPow2 (t.count * 2)).toNat ⟨0, 0⟩) with
  | error fault =>
    rw [hfill] at h
    cases h
  | ok slots =>
    rw [hfill] at h
    cases h
    rfl

/-- The index has room for exactly the tables of up to `2 ^ 30` entries, whatever their hashes are. -/
theorem index_has_room_iff (t : Table) :
    (∃ idx slots, HashIndex.build t true = .ok idx ∧ HasRoom t idx slots) ↔ t.count.toNat ≤ 2 ^ 30 := by
  constructor
  · rintro ⟨idx, slots, hbuild, hroom⟩
    apply Nat.not_lt.mp
    intro hcount
    have hpos : 0 < t.count := UInt32.lt_iff_toNat_lt.mpr (Nat.zero_lt_of_lt hcount)
    have hlt := (hroom.capacity hpos).2
    rw [build_capacity hbuild] at hlt
    exact UInt32.not_lt.mpr (capacity_le_count hcount) hlt
  · exact exists_hasRoom

def crowded : Table where
  count := 1073741825
  entries := List.replicate 1073741825 ⟨[102], 7, 1, 16, 5⟩
  counted := by rw [List.length_replicate]; rfl

theorem crowded_index_is_out_of_bounds :
    HashIndex.build crowded true = .error .outOfBounds ∧
      ¬ ∃ idx slots, HashIndex.build crowded true = .ok idx ∧ HasRoom crowded idx slots := by
  have hbuild : HashIndex.build crowded true = .error .outOfBounds := by
    apply build_outOfBounds
    · exact (by decide : (0 : UInt32) < 1073741825)
    · exact (by decide : nextPow2 (1073741825 * 2) = 0)
  refine ⟨hbuild, ?_⟩
  rintro ⟨idx, slots, hok, -⟩
  cases hbuild.symm.trans hok

end Abix.Runtime

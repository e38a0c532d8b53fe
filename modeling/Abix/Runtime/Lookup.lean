import Abix.Runtime.Probes

/-! `lookup_hash` and `lookup_linear`, which answer with the entry itself. Both test the hash, the name
and the signature, so the probe of the index comes to the entry that a scan comes to. -/
namespace Abix.Runtime

def signed (name : CString) (nh : UInt32) (sig : UInt64) (e : Entry) : Bool :=
  e.nameHash = nh ∧ e.name = name ∧ e.sig = sig

def lookupAnswer (name : CString) (sig : UInt64) (i : UInt32) (e : Entry) : Option (Option UInt32) :=
  if e.sig = sig ∧ e.name = name then some (some i) else none

variable {t : Table} {name : CString} {nh : UInt32} {sig : UInt64} {slots : List HashSlot}

private theorem lookupProbe_eq_probeFor {mask : UInt32} (fuel : Nat) (pos : UInt32) :
    lookupProbe t slots mask name nh sig fuel pos =
      probeFor t slots mask nh (lookupAnswer name sig) none fuel pos := by
  induction fuel generalizing pos with
  | zero => rfl
  | succ fuel ih =>
    rw [lookupProbe, probeFor]
    cases slots[pos.toNat]? with
    | none => rfl
    | some s =>
      dsimp only
      rw [ih]
      cases t.entries[(s.indexPlus1 - 1).toNat]? with
      | none => rfl
      | some e =>
        by_cases hsame : e.sig = sig ∧ e.name = name
        · simp only [lookupAnswer, hsame, and_self, if_true]
          rfl
        · simp only [lookupAnswer, hsame, if_false]
          rfl

/-- The scan and the answers of the entries pass over the same ones. -/
theorem answerEntries_eq_lookupScan (i : UInt32) (es : List Entry) :
    answerEntries nh (lookupAnswer name sig) none i es = lookupScan name nh sig i es := by
  induction es generalizing i with
  | nil => rfl
  | cons e rest ih =>
    rw [answerEntries, lookupScan, lookupAnswer, ih]
    by_cases hh : e.nameHash = nh
    · rw [if_pos hh, if_neg (not_not.mpr hh)]
      by_cases hs : e.sig = sig
      · rw [if_neg (not_not.mpr hs)]
        by_cases hn : e.name = name
        · rw [if_pos ⟨hs, hn⟩, if_pos hn, Option.getD_some]
        · rw [if_neg fun h => hn h.2, if_neg hn, Option.getD_none]
      · rw [if_neg fun h => hs h.1, if_pos hs, Option.getD_none]
    · rw [if_neg hh, if_pos hh]

/-- The scan comes to the first entry that has all three. -/
theorem lookupScan_eq_findIdx (i : UInt32) (es : List Entry) :
    lookupScan name nh sig i es = (es.findIdx? (signed name nh sig)).map fun j => i + .ofNat j := by
  induction es generalizing i with
  | nil => rfl
  | cons e rest ih =>
    rw [lookupScan, List.findIdx?_cons, ih]
    by_cases hsigned : signed name nh sig e = true
    · obtain ⟨hh, hn, hs⟩ := of_decide_eq_true hsigned
      rw [if_neg (not_not.mpr hh), if_neg (not_not.mpr hs), if_pos hn, if_pos hsigned, Option.map_some]
      congr 1
      exact (UInt32.add_zero i).symm
    · have hpass (a b : Option UInt32) :
          (if e.nameHash ≠ nh then a else if e.sig ≠ sig then a else if e.name = name then b else a) = a := by
        by_cases hh : e.nameHash = nh
        · by_cases hs : e.sig = sig
          · have hn : e.name ≠ name := fun hn => hsigned (decide_eq_true ⟨hh, hn, hs⟩)
            simp only [hn, if_false, ite_self]
          · simp only [hs, ne_eq, not_false_eq_true, if_true, ite_self]
        · simp only [hh, ne_eq, not_false_eq_true, if_true]
      rw [hpass, if_neg hsigned, Option.map_map]
      congr 1
      funext j
      simp only [Function.comp, UInt32.ofNat_add]
      rw [UInt32.add_assoc, UInt32.add_comm 1]
      rfl

theorem lookupHash_eq {idx : HashIndex} {k : Nat} (hslots : idx.slots = some slots) (hm : idx.mask.toNat = 2 ^ k - 1)
    (hk : k ≤ 32) (hroom : t.entries.length < 2 ^ k) (hb : Built idx.mask k slots (slotsOf 0 t.entries))
    (hmagic : t.magic = tableMagic) :
    lookupHash t idx (some name) nh sig = .ok (lookupScan name nh sig 0 t.entries) := by
  calc lookupHash t idx (some name) nh sig
      = lookupProbe t slots idx.mask name nh sig (slots.length + 1) (nh &&& idx.mask) := by
        simp [lookupHash, hslots, hmagic]
    _ = probeFor t slots idx.mask nh (lookupAnswer name sig) none (slots.length + 1) (nh &&& idx.mask) :=
        lookupProbe_eq_probeFor _ _
    _ = .ok (answerEntries nh (lookupAnswer name sig) none 0 t.entries) := probeFor_eq hm hk hroom hb
    _ = .ok (lookupScan name nh sig 0 t.entries) := by rw [answerEntries_eq_lookupScan]

/-- For a table with the right magic and up to `2 ^ 30` entries the index is built, and both lookups
give the first entry in table order with the hash, the name and the signature, or none. -/
theorem lookup_hash_eq_lookup_linear (t : Table) (hmagic : t.magic = tableMagic) (hcount : t.count.toNat ≤ 2 ^ 30) :
    ∃ idx, HashIndex.build t true = .ok idx ∧ idx.valid = true ∧
      ∀ (name : CString) (nh : UInt32) (sig : UInt64),
        lookupHash t idx (some name) nh sig = .ok (lookupLinear t (some name) nh sig) ∧
          lookupLinear t (some name) nh sig = (t.entries.findIdx? (signed name nh sig)).map UInt32.ofNat := by
  obtain ⟨idx, slots, k, hbuild, hslots, -, hm, hk, hroom, hb⟩ := build_eq t hcount
  refine ⟨idx, hbuild, by rw [HashIndex.valid, hslots, Option.isSome_some], fun name nh sig => ?_⟩
  have hlinear : lookupLinear t (some name) nh sig = lookupScan name nh sig 0 t.entries := by
    simp [lookupLinear, hmagic]
  rw [hlinear]
  refine ⟨lookupHash_eq hslots hm (by omega) hroom hb hmagic, ?_⟩
  rw [lookupScan_eq_findIdx]
  congr 1
  funext j
  exact UInt32.zero_add _

/-- One name with two signatures, and another name with the same hash before them. -/
private def twoSignatures : Table where
  count := 3
  entries := [⟨[103], 7, 1, 16, 5⟩, ⟨[102], 8, 1, 32, 5⟩, ⟨[102], 7, 1, 48, 5⟩]
  counted := rfl

theorem lookup_hash_eq_lookup_linear_second : ∃ idx, HashIndex.build twoSignatures true = .ok idx ∧
    lookupHash twoSignatures idx (some [102]) 5 7 = .ok (some 2) := by
  obtain ⟨idx, hbuild, -, h⟩ := lookup_hash_eq_lookup_linear twoSignatures rfl (by decide)
  exact ⟨idx, hbuild, (h [102] 5 7).1⟩

end Abix.Runtime

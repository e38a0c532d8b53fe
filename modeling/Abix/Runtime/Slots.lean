import Abix.Probing.Mask
import Abix.Probing.Path
import Abix.Runtime.Search

/-! What `build` leaves in the slots: a table of linear probing that holds the entries in
table order. -/
namespace Abix.Runtime
open Abix.Probing

def taken (slots : List HashSlot) (p : UInt32) : Option HashSlot :=
  (slots[p.toNat]?).filter fun s => s.indexPlus1 ≠ 0

section Taken
variable {slots : List HashSlot} {p q : UInt32} {s : HashSlot}

theorem taken_eq_some : taken slots p = some s ↔ slots[p.toNat]? = some s ∧ s.indexPlus1 ≠ 0 := by
  simp [taken, Option.filter_eq_some_iff]

theorem taken_eq_none : taken slots p = none ↔ ∀ s, slots[p.toNat]? = some s → s.indexPlus1 = 0 := by
  simp [taken, Option.filter_eq_none_iff]

private theorem taken_replicate (n : Nat) : taken (List.replicate n ⟨0, 0⟩) = fun _ => none := by
  funext p
  rw [taken_eq_none]
  intro s hs
  rw [List.getElem?_replicate] at hs
  split at hs <;> cases hs
  rfl

private theorem taken_set (hq : q.toNat < slots.length) (hs : s.indexPlus1 ≠ 0) :
    taken (slots.set q.toNat s) = Function.update (taken slots) q (some s) := by
  funext p
  by_cases hp : p = q
  · subst hp
    rw [Function.update_self, taken_eq_some]
    exact ⟨by rw [List.getElem?_set_self hq], hs⟩
  · have hne : q.toNat ≠ p.toNat := fun h => hp (UInt32.toNat_inj.mp h.symm)
    rw [Function.update_of_ne hp, taken, taken, List.getElem?_set_ne hne]

end Taken

section Walk
variable {slots : List HashSlot} {mask p q : UInt32} {ps : List UInt32} {k : Nat}

theorem path_inside (hm : mask.toNat = 2 ^ k - 1) (hk : k ≤ 32) (h : Path (step mask) (taken slots) p ps q)
    (hp : p.toNat < 2 ^ k) : q.toNat < 2 ^ k ∧ ∀ r ∈ ps, r.toNat < 2 ^ k := by
  induction h with
  | free => exact ⟨hp, by simp⟩
  | taken _ _ ih =>
    obtain ⟨hq, hps⟩ := ih (by rw [toNat_step hm hk]; exact Nat.mod_lt _ (Nat.two_pow_pos k))
    exact ⟨hq, List.forall_mem_cons.mpr ⟨hp, hps⟩⟩

/-- With a slot to spare every probe ends before it has been all around. -/
theorem exists_path (hm : mask.toNat = 2 ^ k - 1) (hk : k ≤ 32) (hlen : slots.length = 2 ^ k)
    (hfree : slots.countP (fun s => s.indexPlus1 ≠ 0) < slots.length) (p : UInt32) :
    ∃ ps q, Path (step mask) (taken slots) p ps q ∧ ps.length < slots.length := by
  by_cases hp : p.toNat < 2 ^ k
  · rw [List.countP_eq_length_filter] at hfree
    obtain ⟨s, hs, hzero⟩ := List.length_filter_lt_length_iff_exists.mp hfree
    obtain ⟨j, hj, rfl⟩ := List.mem_iff_getElem.mp hs
    have hjk : j < 2 ^ 32 := Nat.lt_of_lt_of_le (hlen ▸ hj) (Nat.pow_le_pow_right Nat.two_pos hk)
    have hnat : (UInt32.ofNat j).toNat = j := UInt32.toNat_ofNat_of_lt' hjk
    obtain ⟨n, hn, hreach⟩ := exists_iterate_step hm hk hp (q := UInt32.ofNat j) (by omega)
    have hnone : taken slots ((step mask)^[n] p) = none := by
      rw [hreach, taken_eq_none, hnat]
      intro s hs
      rw [List.getElem?_eq_getElem hj] at hs
      cases hs
      simpa using hzero
    obtain ⟨ps, q, hpath, hle⟩ := Path.exists_of_iterate n hnone
    exact ⟨ps, q, hpath, by omega⟩
  · refine ⟨[], p, .free ?_, Nat.zero_lt_of_lt hfree⟩
    rw [taken_eq_none]
    intro s hs
    rw [List.getElem?_eq_none (by omega)] at hs
    cases hs

/-- The loop of `build` finds the end of the path. -/
theorem freeSlot_eq (h : Path (step mask) (taken slots) p ps q) (hq : q.toNat < slots.length)
    {fuel : Nat} (hfuel : ps.length < fuel) : freeSlot slots mask fuel p = .ok q := by
  induction h generalizing fuel with
  | free hp =>
    obtain ⟨fuel, rfl⟩ := Nat.exists_eq_succ_of_ne_zero (Nat.ne_of_gt hfuel)
    have hzero := taken_eq_none.mp hp _ (List.getElem?_eq_getElem hq)
    simp [freeSlot, List.getElem?_eq_getElem hq, hzero]
  | taken hp _ ih =>
    obtain ⟨fuel, rfl⟩ := Nat.exists_eq_succ_of_ne_zero (Nat.ne_of_gt (Nat.zero_lt_of_lt hfuel))
    obtain ⟨hs, hne⟩ := taken_eq_some.mp hp
    rw [freeSlot, hs]
    simp only [hne, ne_eq, not_false_eq_true, if_true]
    exact ih hq (Nat.lt_of_succ_lt_succ hfuel)

end Walk

/-- An array of `2 ^ k` slots that took in `xs`, in that order. -/
structure Built (mask : UInt32) (k : Nat) (slots xs : List HashSlot) : Prop where
  length : slots.length = 2 ^ k
  used : slots.countP (fun s => s.indexPlus1 ≠ 0) = xs.length
  holds : Holds (step mask) (fun s => s.hash &&& mask) (taken slots) xs

section Build
variable {mask i : UInt32} {k : Nat} {slots xs : List HashSlot} {e : Entry}

private theorem built_empty : Built mask k (List.replicate (2 ^ k) ⟨0, 0⟩) [] := by
  refine ⟨List.length_replicate, ?_, ?_⟩
  · rw [List.countP_replicate]
    simp
  · rw [taken_replicate]
    exact holds_empty _ _

theorem home_lt (hm : mask.toNat = 2 ^ k - 1) (h : UInt32) : (h &&& mask).toNat < 2 ^ k := by
  rw [toNat_and_mask hm]
  exact Nat.mod_lt _ (Nat.two_pow_pos k)

/-- One entry goes in, as long as a slot stays free. -/
theorem place_built (hm : mask.toNat = 2 ^ k - 1) (hk : k ≤ 32) (hb : Built mask k slots xs)
    (hroom : xs.length + 1 < 2 ^ k) (hi : i + 1 ≠ 0) :
    ∃ slots', place slots mask i e = .ok slots' ∧ Built mask k slots' (xs ++ [⟨e.nameHash, i + 1⟩]) := by
  have hlen := hb.length
  have hfree : slots.countP (fun s => s.indexPlus1 ≠ 0) < slots.length := by rw [hb.used, hlen]; omega
  obtain ⟨ps, q, hpath, hshort⟩ := exists_path hm hk hlen hfree (e.nameHash &&& mask)
  have hq : q.toNat < slots.length := hlen ▸ (path_inside hm hk hpath (home_lt hm _)).1
  refine ⟨slots.set q.toNat ⟨e.nameHash, i + 1⟩, ?_, ?_⟩
  · rw [place, freeSlot_eq hpath hq (by omega)]
    rfl
  · have hempty : slots[q.toNat].indexPlus1 = 0 :=
      taken_eq_none.mp hpath.stop _ (List.getElem?_eq_getElem hq)
    have hused : (slots.set q.toNat ⟨e.nameHash, i + 1⟩).countP (fun s => s.indexPlus1 ≠ 0) = xs.length + 1 := by
      rw [List.countP_set hq, hb.used]
      simp [hempty, hi]
    have hlen' : (slots.set q.toNat (⟨e.nameHash, i + 1⟩ : HashSlot)).length = 2 ^ k := by rw [List.length_set, hlen]
    refine ⟨hlen', by rw [hused, List.length_append, List.length_singleton], ?_⟩
    have htaken := taken_set (s := ⟨e.nameHash, i + 1⟩) hq hi
    rw [htaken]
    refine hb.holds.insert hpath fun p => ?_
    rw [← htaken]
    obtain ⟨ps', q', hpath', -⟩ := exists_path hm hk hlen' (by rw [hused, hlen']; exact hroom) p
    exact ⟨ps', q', hpath'⟩

def slotsOf : UInt32 → List Entry → List HashSlot
  | _, [] => []
  | i, e :: rest => ⟨e.nameHash, i + 1⟩ :: slotsOf (i + 1) rest

theorem length_slotsOf (i : UInt32) (es : List Entry) : (slotsOf i es).length = es.length := by
  induction es generalizing i with
  | nil => rfl
  | cons e rest ih => rw [slotsOf, List.length_cons, ih, List.length_cons]

private theorem fill_built (hm : mask.toNat = 2 ^ k - 1) (hk : k ≤ 32) (es : List Entry) (hb : Built mask k slots xs)
    (hroom : xs.length + es.length < 2 ^ k) (hi : i.toNat + es.length < 2 ^ 32) :
    ∃ slots', fill mask i es slots = .ok slots' ∧ Built mask k slots' (xs ++ slotsOf i es) := by
  induction es generalizing i slots xs with
  | nil => exact ⟨slots, rfl, by rwa [slotsOf, List.append_nil]⟩
  | cons e rest ih =>
    rw [List.length_cons] at hroom hi
    have hi' : (i + 1).toNat = i.toNat + 1 := by
      rw [UInt32.toNat_add]
      exact Nat.mod_eq_of_lt (show i.toNat + 1 < 2 ^ 32 by omega)
    have hne : i + 1 ≠ 0 := by
      intro h
      rw [h] at hi'
      exact absurd hi' (by simp)
    obtain ⟨slots₁, hplace, hb₁⟩ := place_built (e := e) hm hk hb (by omega) hne
    obtain ⟨slots₂, hfill, hb₂⟩ := ih (i := i + 1) hb₁ (by rw [List.length_append, List.length_singleton]; omega) (by omega)
    refine ⟨slots₂, ?_, by rwa [List.append_assoc] at hb₂⟩
    rw [fill, hplace]
    exact hfill

end Build

def spread (v : UInt32) : UInt32 :=
  let v := v ||| v >>> 1
  let v := v ||| v >>> 2
  let v := v ||| v >>> 4
  let v := v ||| v >>> 8
  v ||| v >>> 16

theorem nextPow2_of_ne_zero {v : UInt32} (h : v ≠ 0) : nextPow2 v = spread (v - 1) + 1 := by
  rw [nextPow2, if_neg h]
  rfl

theorem toNat_spread (v : UInt32) : (spread v).toNat = 2 ^ v.toNat.size - 1 := by
  have hshift (x s : UInt32) : (x ||| x >>> s).toNat = x.toNat ||| x.toNat >>> (s.toNat % 32) := by
    rw [UInt32.toNat_or, UInt32.toNat_shiftRight]
  have h₁ := (smeared_self (w := v.toNat)).or_shiftRight (Nat.le_refl 1)
  have h₂ := h₁.or_shiftRight (Nat.le_refl 2)
  have h₄ := h₂.or_shiftRight (Nat.le_refl 4)
  have h₈ := h₄.or_shiftRight (Nat.le_refl 8)
  have h₁₆ := h₈.or_shiftRight (Nat.le_refl 16)
  rw [← h₁₆.eq (UInt32.toNat_lt v)]
  simp only [spread, hshift]
  rfl

/-- Rounding up to a power of two, as long as it fits. -/
theorem nextPow2_eq {v : UInt32} (hv : v.toNat ≤ 2 ^ 31) :
    ∃ k ≤ 31, (nextPow2 v).toNat = 2 ^ k ∧ v.toNat ≤ 2 ^ k := by
  by_cases hz : v = 0
  · exact ⟨0, by decide, by rw [nextPow2, if_pos hz]; rfl, by rw [hz]; decide⟩
  · have hpos : 0 < v.toNat := Nat.pos_of_ne_zero fun h => hz (UInt32.toNat_inj.mp h)
    have hsub : (v - 1).toNat = v.toNat - 1 := UInt32.toNat_sub_of_le _ _ (UInt32.le_iff_toNat_le.mpr hpos)
    have hsize : (v.toNat - 1).size ≤ 31 := Nat.size_le.mpr (by omega)
    have hself := Nat.lt_size_self (v.toNat - 1)
    refine ⟨(v.toNat - 1).size, hsize, ?_, by omega⟩
    have hle : 2 ^ (v.toNat - 1).size ≤ 2 ^ 31 := Nat.pow_le_pow_right Nat.two_pos hsize
    rw [nextPow2_of_ne_zero hz, UInt32.toNat_add, toNat_spread, hsub]
    show (2 ^ (v.toNat - 1).size - 1 + 1) % 2 ^ 32 = _
    rw [Nat.sub_add_cancel (by omega)]
    exact Nat.mod_eq_of_lt (by omega)

/-- Above the half of the numbers the next power of two does not fit. -/
theorem nextPow2_eq_zero {v : UInt32} (hv : 2 ^ 31 < v.toNat) : nextPow2 v = 0 := by
  have hne : v ≠ 0 := by
    rintro rfl
    exact absurd hv (Nat.not_lt_zero _)
  have hlt := v.toNat_lt
  have hsub : (v - 1).toNat = v.toNat - 1 :=
    UInt32.toNat_sub_of_le _ _ (UInt32.le_iff_toNat_le.mpr (Nat.lt_of_le_of_lt (Nat.zero_le _) hv))
  have hsize : (v.toNat - 1).size = 32 :=
    Nat.le_antisymm (Nat.size_le.mpr (by omega)) (Nat.lt_size.mpr (Nat.le_sub_one_of_lt hv))
  rw [nextPow2_of_ne_zero hne, ← UInt32.toNat_inj, UInt32.toNat_add, toNat_spread, hsub, hsize]
  rfl

/-- `build` leaves a free slot and holds the entries in table order. -/
theorem build_eq (t : Table) (hcount : t.count.toNat ≤ 2 ^ 30) :
    ∃ idx slots k, HashIndex.build t true = .ok idx ∧ idx.slots = some slots ∧ idx.capacity.toNat = 2 ^ k ∧
      idx.mask.toNat = 2 ^ k - 1 ∧ k ≤ 31 ∧ t.entries.length < 2 ^ k ∧
        Built idx.mask k slots (slotsOf 0 t.entries) := by
  have hdouble : (t.count * 2).toNat = t.count.toNat * 2 := by
    rw [UInt32.toNat_mul]
    exact Nat.mod_eq_of_lt (show t.count.toNat * 2 < 2 ^ 32 by omega)
  obtain ⟨k, hk, hcap, hle⟩ := nextPow2_eq (v := t.count * 2) (by rw [hdouble]; omega)
  have hpow := Nat.two_pow_pos k
  have hmask : (nextPow2 (t.count * 2) - 1).toNat = 2 ^ k - 1 := by
    rw [UInt32.toNat_sub_of_le _ _ (UInt32.le_iff_toNat_le.mpr (by rw [hcap]; exact hpow)), hcap]
    rfl
  have hroom : t.entries.length < 2 ^ k := by
    rw [t.counted]
    omega
  obtain ⟨slots, hfill, hbuilt⟩ := fill_built hmask (by omega) t.entries (i := 0) built_empty
    (by rw [List.length_nil, Nat.zero_add]; exact hroom) (by rw [t.counted]; have := UInt32.toNat_lt t.count; simpa)
  refine ⟨⟨some slots, nextPow2 (t.count * 2), nextPow2 (t.count * 2) - 1⟩, slots, k, ?_, rfl, hcap, hmask, hk, hroom,
    hbuilt⟩
  rw [HashIndex.build, if_pos rfl, hcap, hfill]
  rfl

end Abix.Runtime

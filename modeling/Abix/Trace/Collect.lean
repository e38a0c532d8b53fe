import Abix.Trace.Traced
import Abix.Trace.Stride
import Mathlib.Data.List.TakeWhile

/-! Loops that collect a list: each turn appends what it finds, or breaks off. -/
namespace Abix.Trace
open Traced
variable {ε α : Type} {P : ε → Prop} {E R : Prop}

namespace Traced.Spec
variable {n : UInt64} {turn : UInt64 → List α → Traced ε (List α ⊕ List α)}

/-- Every turn appends what there is at its index. -/
theorem collect {found : Nat → List α} (start : List α)
    (hturn : ∀ i list, i < n → Spec P E R (turn i list) (· = .inl (list ++ found i.toNat))) :
    Spec P E R (Traced.forUpTo n turn start) (· = start ++ (List.range n.toNat).flatMap found) := by
  refine Spec.forUpTo (I := fun i list => list = start ++ (List.range i.toNat).flatMap found)
    (List.append_nil start).symm (fun i list hi hlist => ?_) fun _ h => h
  refine (hturn i list hi).weaken ?_
  rintro _ rfl
  rw [Sum.elim_inl, toNat_succ hi, List.range_succ, List.flatMap_append, List.flatMap_singleton, hlist,
    List.append_assoc]

def before (found : Nat → Option (List α)) (n : Nat) : List α :=
  (((List.range n).map found).takeWhile Option.isSome).flatMap fun found => found.getD []

theorem before_succ_of_all {found : Nat → Option (List α)} {n : Nat} {last : List α}
    (hall : ∀ i < n, (found i).isSome = true) (hlast : found n = some last) :
    before found (n + 1) = before found n ++ last := by
  have htake : ∀ m, (∀ i < m, (found i).isSome = true) →
      ((List.range m).map found).takeWhile Option.isSome = (List.range m).map found := by
    intro m hm
    refine List.takeWhile_eq_self_iff.mpr fun x hx => ?_
    obtain ⟨i, hi, rfl⟩ := List.mem_map.mp hx
    exact hm i (List.mem_range.mp hi)
  have hall' : ∀ i < n + 1, (found i).isSome = true := by
    intro i hi
    rcases Nat.lt_succ_iff_lt_or_eq.mp hi with hi | rfl
    · exact hall i hi
    · rw [hlast, Option.isSome_some]
  rw [before, before, htake _ hall, htake _ hall', List.range_succ, List.map_append, List.flatMap_append,
    List.map_singleton, List.flatMap_singleton, hlast, Option.getD_some]

/-- Nothing behind the first index at which nothing can be found counts. -/
theorem before_of_none {found : Nat → Option (List α)} {m n : Nat} (hm : m < n) (hnone : found m = none) :
    before found n = before found m := by
  obtain ⟨d, rfl⟩ : ∃ d, n = m + (1 + d) := ⟨n - m - 1, by omega⟩
  have hrest : (List.map found ((List.range (1 + d)).map (m + ·))).takeWhile Option.isSome = [] := by
    rw [Nat.add_comm 1 d, List.range_succ_eq_map, List.map_cons, List.map_cons, Nat.add_zero, hnone,
      List.takeWhile_cons]
    rfl
  rw [before, before, List.range_add, List.map_append, List.takeWhile_append, hrest, List.append_nil]
  split
  · rename_i hall
    rw [(List.takeWhile_prefix Option.isSome).eq_of_length hall]
  · rfl

theorem exists_of_mem_before {found : Nat → Option (List α)} {n : Nat} {a : α} (h : a ∈ before found n) :
    ∃ i list, found i = some list ∧ a ∈ list := by
  obtain ⟨x, hx, ha⟩ := List.mem_flatMap.mp h
  obtain ⟨i, -, rfl⟩ := List.mem_map.mp ((List.takeWhile_prefix _).subset hx)
  obtain ⟨list, hlist⟩ := Option.isSome_iff_exists.mp (List.mem_takeWhile_imp hx)
  rw [hlist] at ha
  exact ⟨i, list, hlist, ha⟩

/-- A turn appends what there is at its index, and at the first where nothing can be the loop breaks off. -/
theorem collectUntil {found : Nat → Option (List α)}
    (hturn : ∀ i list, i < n → Spec P E R (turn i list)
      (· = (found i.toNat).elim (.inr list) fun last => .inl (list ++ last))) :
    Spec P E R (Traced.forUpTo n turn []) (· = before found n.toNat) := by
  refine Spec.forUpTo (I := fun i list => list = before found i.toNat ∧ ∀ j < i.toNat, (found j).isSome = true)
    ⟨rfl, fun j hj => absurd hj (Nat.not_lt_zero j)⟩ (fun i list hi hlist => ?_) fun _ h => h.1
  obtain ⟨rfl, hall⟩ := hlist
  refine (hturn i _ hi).weaken ?_
  rintro _ rfl
  cases hfound : found i.toNat with
  | none => exact (before_of_none (UInt64.lt_iff_toNat_lt.mp hi) hfound).symm
  | some last =>
    refine ⟨?_, fun j hj => ?_⟩
    · rw [toNat_succ hi, before_succ_of_all hall hfound]
    · rw [toNat_succ hi] at hj
      rcases Nat.lt_succ_iff_lt_or_eq.mp hj with hj | rfl
      · exact hall j hj
      · rw [hfound, Option.isSome_some]

end Traced.Spec

/-- How many items of that width, so far apart, end within the size. -/
def countOf (width size step : UInt64) : Nat :=
  if size < width then 0 else (size.toNat - width.toNat) / step.toNat + 1

/-- For sizes of buffers the counter leaves after so many steps. -/
theorem StopsAt.eq_count {width size step : UInt64} {k : Nat} (h : StopsAt width size step k)
    (hsize : size.toNat < 2 ^ 63) (hstep : step ≠ 0) : k = countOf width size step := by
  have hpos : 0 < step.toNat := Nat.pos_of_ne_zero fun hzero => hstep (UInt64.toNat_inj.mp hzero)
  have hzero : (strideAt step 0).toNat = 0 := by rw [toNat_strideAt, Nat.zero_mul, Nat.zero_mod]
  rw [countOf]
  split
  · rename_i hsmall
    have hsmall := UInt64.lt_iff_toNat_lt.mp hsmall
    by_contra hne
    have hfirst := h.inside 0 (Nat.pos_of_ne_zero hne)
    omega
  · rename_i hlarge
    have hlarge := UInt64.le_iff_toNat_le.mp (UInt64.not_lt.mp hlarge)
    -- on the way nothing wraps
    have hexact : ∀ j ≤ k, (strideAt step j).toNat = j * step.toNat := by
      intro j hj
      induction j with
      | zero => rw [hzero, Nat.zero_mul]
      | succ j ih =>
        refine toNat_strideAt_of_lt ?_
        have hstep := step.toNat_lt
        have hlast := h.inside j hj
        rw [ih (by omega)] at hlast
        rcases j with - | j
        · omega
        · have hone := h.inside 1 (by omega)
          rw [toNat_strideAt_of_lt (by omega)] at hone
          rw [Nat.succ_mul]
          omega
    have hout := h.outside
    rw [hexact k (Nat.le_refl k)] at hout
    obtain ⟨m, rfl⟩ : ∃ m, k = m + 1 := Nat.exists_eq_succ_of_ne_zero fun hk => by
      rw [hk] at hout
      omega
    have hin := h.inside m (Nat.lt_succ_self m)
    rw [hexact m (Nat.le_succ m)] at hin
    congr 1
    exact (Nat.div_eq_of_lt_le (by omega) (by omega)).symm

end Abix.Trace

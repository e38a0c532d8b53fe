import Mathlib.Data.List.Basic
import Mathlib.Logic.Function.Basic

/-! Folds whose steps can be undone: what they start from shows in what they end in, and so does a
change of one item. -/
namespace Abix.Folding
open Function
variable {σ α : Type} {step : σ → α → σ} {xs ys : List α}

structure OneChange (xs ys : List α) : Prop where
  length : xs.length = ys.length
  one : ∃! i : Nat, xs[i]? ≠ ys[i]?

theorem foldl_injective (h : ∀ a, Injective fun s => step s a) (xs : List α) :
    Injective fun s => xs.foldl step s := by
  induction xs with
  | nil => exact injective_id
  | cons x xs ih => exact ih.comp (h x)

/-- What stands before and after the position is the same. -/
theorem OneChange.split (h : OneChange xs ys) :
    ∃ before x y after, xs = before ++ x :: after ∧ ys = before ++ y :: after ∧ x ≠ y := by
  obtain ⟨hlength, i, hdiffer, honly⟩ := h
  have hsame (j : Nat) (hj : j ≠ i) : xs[j]? = ys[j]? := by
    by_contra hne
    exact hj (honly j hne)
  have hi : i < xs.length := by
    by_contra hge
    refine hdiffer ?_
    rw [List.getElem?_eq_none (Nat.not_lt.mp hge), List.getElem?_eq_none (hlength ▸ Nat.not_lt.mp hge)]
  have hi' : i < ys.length := hlength ▸ hi
  have hbefore : xs.take i = ys.take i := by
    apply List.ext_getElem?
    intro j
    by_cases hj : j < i
    · rw [List.getElem?_take_of_lt hj, List.getElem?_take_of_lt hj, hsame j (Nat.ne_of_lt hj)]
    · rw [List.getElem?_eq_none (by simp; omega), List.getElem?_eq_none (by simp; omega)]
  have hafter : xs.drop (i + 1) = ys.drop (i + 1) := by
    apply List.ext_getElem?
    intro j
    rw [List.getElem?_drop, List.getElem?_drop, hsame (i + 1 + j) (by omega)]
  refine ⟨xs.take i, xs[i], ys[i], xs.drop (i + 1), ?_, ?_, fun heq => hdiffer ?_⟩
  · rw [← List.drop_eq_getElem_cons hi, List.take_append_drop]
  · rw [hbefore, hafter, ← List.drop_eq_getElem_cons hi', List.take_append_drop]
  · rw [List.getElem?_eq_getElem hi, List.getElem?_eq_getElem hi', heq]

theorem oneChange_of_ne (before after : List α) {x y : α} (h : x ≠ y) :
    OneChange (before ++ x :: after) (before ++ y :: after) := by
  constructor
  · simp
  · refine ⟨before.length, by simpa using h, fun i hi => ?_⟩
    by_contra hne
    refine hi ?_
    rcases Nat.lt_or_gt_of_ne hne with hbefore | hafter
    · rw [List.getElem?_append_left hbefore, List.getElem?_append_left hbefore]
    · obtain ⟨k, rfl⟩ := Nat.exists_eq_add_of_lt hafter
      simp [List.getElem?_append_right, Nat.add_assoc]

/-- A change of one item is carried through whatever follows it. -/
theorem foldl_ne_of_oneChange (h : ∀ a, Injective fun s => step s a) (hitem : ∀ s, Injective (step s))
    (hchange : OneChange xs ys) (s : σ) : xs.foldl step s ≠ ys.foldl step s := by
  obtain ⟨before, x, y, after, rfl, rfl, hne⟩ := hchange.split
  rw [List.foldl_append, List.foldl_append, List.foldl_cons, List.foldl_cons]
  intro heq
  exact hne (hitem _ (foldl_injective h after heq))

end Abix.Folding

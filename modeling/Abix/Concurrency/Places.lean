import Mathlib.Logic.Equiv.Basic

/-! Items that are handed around between places, of which each holds one at most. An item comes from the
allocator to a place that is empty, changes places by swaps, and is freed from the place that holds it. -/
namespace Abix.Concurrency

variable {Place : Type} [DecidableEq Place]

/-- `frees` counts how often an item was freed, `next` is the first number that is not yet given out. -/
@[ext]
structure Places (Place : Type) where
  held : Place → Option Nat
  frees : Nat → Nat
  next : Nat

namespace Places

inductive Move : Places Place → Places Place → Prop
  | stay (s : Places Place) : Move s s
  | swap (s : Places Place) (p q : Place) : Move s { s with held := s.held ∘ Equiv.swap p q }
  | free (s : Places Place) {p : Place} {item : Nat} (h : s.held p = some item) :
    Move s { s with held := Function.update s.held p none, frees := Function.update s.frees item (s.frees item + 1) }
  | fresh (s : Places Place) {p : Place} (h : s.held p = none) :
    Move s { s with held := Function.update s.held p (some s.next), next := s.next + 1 }

/-- Every item that was given out is at one place, or was freed once and is at none. -/
structure Sole (s : Places Place) : Prop where
  unique : ∀ p q item, s.held p = some item → s.held q = some item → p = q
  live : ∀ p item, s.held p = some item → item < s.next ∧ s.frees item = 0
  kept : ∀ item < s.next, s.frees item = 0 → ∃ p, s.held p = some item
  once : ∀ item, s.frees item ≤ 1
  later : ∀ item, s.next ≤ item → s.frees item = 0

omit [DecidableEq Place] in
theorem sole_empty : Sole (⟨fun _ => none, fun _ => 0, 0⟩ : Places Place) where
  unique _ _ _ h := nomatch h
  live _ _ h := nomatch h
  kept _ h := absurd h (Nat.not_lt_zero _)
  once _ := Nat.zero_le 1
  later _ _ := rfl

variable {s s' : Places Place}

theorem Sole.swap (h : Sole s) (p q : Place) : Sole { s with held := s.held ∘ Equiv.swap p q } where
  unique p' q' item hp hq := (Equiv.swap p q).injective (h.unique _ _ item hp hq)
  live p' := h.live _
  kept item hlt hlive := by
    obtain ⟨r, hr⟩ := h.kept item hlt hlive
    refine ⟨Equiv.swap p q r, ?_⟩
    show s.held (Equiv.swap p q (Equiv.swap p q r)) = some item
    rw [Equiv.swap_apply_self, hr]
  once := h.once
  later := h.later

theorem Sole.free (h : Sole s) {p : Place} {item : Nat} (hp : s.held p = some item) :
    Sole { s with
      held := Function.update s.held p none, frees := Function.update s.frees item (s.frees item + 1) } := by
  obtain ⟨hlt, hzero⟩ := h.live p item hp
  -- who still holds something holds another item
  have hother : ∀ q other, Function.update s.held p none q = some other →
      q ≠ p ∧ s.held q = some other ∧ other ≠ item := by
    intro q other hq
    have hne : q ≠ p := by
      rintro rfl
      rw [Function.update_self] at hq
      cases hq
    rw [Function.update_of_ne hne] at hq
    refine ⟨hne, hq, ?_⟩
    rintro rfl
    exact hne (h.unique q p _ hq hp)
  refine ⟨fun q r other hq hr => ?_, fun q other hq => ?_, fun other hbound hlive => ?_, fun other => ?_,
    fun other hbound => ?_⟩
  · exact h.unique q r other (hother q other hq).2.1 (hother r other hr).2.1
  · obtain ⟨-, hheld, hne⟩ := hother q other hq
    dsimp only
    rw [Function.update_of_ne hne]
    exact h.live q other hheld
  · dsimp only at hlive
    have hne : other ≠ item := by
      rintro rfl
      rw [Function.update_self] at hlive
      cases hlive
    rw [Function.update_of_ne hne] at hlive
    obtain ⟨r, hr⟩ := h.kept other hbound hlive
    refine ⟨r, ?_⟩
    have hrp : r ≠ p := by
      rintro rfl
      exact hne (Option.some.inj (hr.symm.trans hp))
    dsimp only
    rw [Function.update_of_ne hrp, hr]
  · dsimp only
    by_cases heq : other = item
    · simp only [heq, Function.update_self, hzero, Nat.zero_add, Nat.le_refl]
    · rw [Function.update_of_ne heq]
      exact h.once other
  · dsimp only
    rw [Function.update_of_ne (Nat.ne_of_gt (Nat.lt_of_lt_of_le hlt hbound))]
    exact h.later other hbound

theorem Sole.fresh (h : Sole s) {p : Place} (hp : s.held p = none) :
    Sole { s with held := Function.update s.held p (some s.next), next := s.next + 1 } := by
  -- what was held before is not the new item
  have hcases : ∀ q item, Function.update s.held p (some s.next) q = some item →
      (q = p ∧ item = s.next) ∨ (q ≠ p ∧ s.held q = some item ∧ item < s.next) := by
    intro q item hq
    by_cases heq : q = p
    · rw [heq, Function.update_self] at hq
      exact .inl ⟨heq, (Option.some.inj hq).symm⟩
    · rw [Function.update_of_ne heq] at hq
      exact .inr ⟨heq, hq, (h.live q item hq).1⟩
  refine ⟨fun q r item hq hr => ?_, fun q item hq => ?_, fun item hbound hlive => ?_, h.once, fun item hbound => ?_⟩
  · rcases hcases q item hq with ⟨rfl, hitem⟩ | ⟨-, hq, hlt⟩
    · rcases hcases r item hr with ⟨rfl, -⟩ | ⟨-, -, hlt⟩
      · rfl
      · exact absurd hitem (Nat.ne_of_lt hlt)
    · rcases hcases r item hr with ⟨-, hitem⟩ | ⟨-, hr, -⟩
      · exact absurd hitem (Nat.ne_of_lt hlt)
      · exact h.unique q r item hq hr
  · rcases hcases q item hq with ⟨-, rfl⟩ | ⟨-, hq, hlt⟩
    · exact ⟨Nat.lt_succ_self _, h.later _ (Nat.le_refl _)⟩
    · exact ⟨Nat.lt_succ_of_lt hlt, (h.live q item hq).2⟩
  · rcases Nat.lt_succ_iff_lt_or_eq.mp hbound with hlt | rfl
    · obtain ⟨r, hr⟩ := h.kept item hlt hlive
      refine ⟨r, ?_⟩
      have hrp : r ≠ p := by
        rintro rfl
        cases hp.symm.trans hr
      dsimp only
      rw [Function.update_of_ne hrp, hr]
    · exact ⟨p, Function.update_self ..⟩
  · exact h.later item (Nat.le_of_succ_le hbound)

theorem Sole.move (h : Sole s) (hmove : Move s s') : Sole s' := by
  cases hmove with
  | stay => exact h
  | swap p q => exact h.swap p q
  | free hp => exact h.free hp
  | fresh hp => exact h.fresh hp

end Places

end Abix.Concurrency

import Abix.Concurrency.Alone
import Mathlib.Data.Fintype.Basic

/-! Runs that bring the threads to rest one after another. -/
namespace Abix.Concurrency.Program
variable {Tid Shared Local Action Answer : Type}

/-- With some of the answers that there may be, the thread comes from one state to the other. -/
inductive Comes (p : Program Tid Shared Local Action) (t : Tid) (act : Answer → Action)
    (may : Shared × Local → Answer → Prop) : Shared × Local → Shared × Local → Prop
  | refl (s) : Comes p t act may s s
  | turn {s s₁ s'} (y : Answer) : may s y → p.step t s.1 s.2 (act y) = some s₁ → Comes p t act may s₁ s' →
      Comes p t act may s s'

variable {p : Program Tid Shared Local Action} {t : Tid} {act : Answer → Action} {s s' s₁ : Shared × Local}
  {may : Shared × Local → Answer → Prop}

theorem Comes.one (y : Answer) (hy : may s y) (h : p.step t s.1 s.2 (act y) = some s') : p.Comes t act may s s' :=
  .turn y hy h (.refl _)

theorem Comes.trans (h : p.Comes t act may s s₁) (h' : p.Comes t act may s₁ s') : p.Comes t act may s s' := by
  induction h with
  | refl => exact h'
  | turn y hy hs _ ih => exact .turn y hy hs (ih h')

theorem Leads.comes (y : Answer) (hy : ∀ s, may s y) (h : p.Leads t act s s') : p.Comes t act may s s' := by
  obtain ⟨k, h⟩ := h
  induction h with
  | refl => exact .refl _
  | turn hs _ ih => exact .turn y (hy _) (hs y) ih

variable [DecidableEq Tid] {ok : Config Tid Shared Local → Tid → Action → Prop} {c : Config Tid Shared Local}

omit ok c in
/-- What holds of the thread that moved and of another one before holds of the other one after. -/
theorem update_of_both {P : Local → Prop} {locals : Tid → Local} {l : Local} {u : Tid} (hl : P l) (hu : P (locals u)) :
    P (Function.update locals t l u) := by
  by_cases hut : u = t
  · rw [hut, Function.update_self]
    exact hl
  · rw [Function.update_of_ne hut]
    exact hu

/-- The turns of one thread are a run of the program. -/
theorem Comes.reachable (hok : ∀ c y, may (c.shared, c.locals t) y → ok c t (act y))
    (h : p.Comes t act may (c.shared, c.locals t) s') :
    p.Reachable ok c ⟨s'.1, Function.update c.locals t s'.2⟩ := by
  generalize hs : (c.shared, c.locals t) = s at h
  induction h generalizing c with
  | refl =>
    subst hs
    simp only [Function.update_eq_self]
    exact .init
  | @turn s s₁ s' y hy hstep _ ih =>
    subst hs
    have hnext : p.next c t (act y) = some ⟨s₁.1, Function.update c.locals t s₁.2⟩ :=
      next_eq_some_iff.mpr ⟨s₁.1, s₁.2, hstep, rfl⟩
    have hrest := ih (c := ⟨s₁.1, Function.update c.locals t s₁.2⟩) (by simp)
    simp only [Function.update_idem] at hrest
    exact (Reachable.init.step (hok c y hy) hnext).trans hrest

/-- One step that may be of another kind, and the turns after it. -/
theorem Comes.reachable_of_step {a : Action} (hok : ∀ c y, may (c.shared, c.locals t) y → ok c t (act y))
    (ha : ok c t a) (hs : p.step t c.shared (c.locals t) a = some s₁) (h : p.Comes t act may s₁ s') :
    p.Reachable ok c ⟨s'.1, Function.update c.locals t s'.2⟩ := by
  have hnext : p.next c t a = some ⟨s₁.1, Function.update c.locals t s₁.2⟩ :=
    next_eq_some_iff.mpr ⟨s₁.1, s₁.2, hs, rfl⟩
  have hrest := Comes.reachable (c := ⟨s₁.1, Function.update c.locals t s₁.2⟩) hok (by simpa using h)
  simp only [Function.update_idem] at hrest
  exact (Reachable.init.step ha hnext).trans hrest

/-- What can be brought about for one thread without losing it for another can be brought about for all
of them, one after another. -/
theorem one_by_one [Fintype Tid] {I : Config Tid Shared Local → Prop} {Q : Config Tid Shared Local → Tid → Prop}
    (hone : ∀ c t, I c → ∃ c', p.Reachable ok c c' ∧ I c' ∧ Q c' t ∧ ∀ u, Q c u → Q c' u) (hc : I c) :
    ∃ c', p.Reachable ok c c' ∧ I c' ∧ ∀ t, Q c' t := by
  have hlist (ts : List Tid) : ∃ c', p.Reachable ok c c' ∧ I c' ∧ ∀ t ∈ ts, Q c' t := by
    induction ts with
    | nil => exact ⟨c, .init, hc, fun t ht => absurd ht List.not_mem_nil⟩
    | cons t ts ih =>
      obtain ⟨c₁, hr, hi, hq⟩ := ih
      obtain ⟨c₂, hr', hi', ht, hkeep⟩ := hone c₁ t hi
      refine ⟨c₂, hr.trans hr', hi', fun u hu => ?_⟩
      rcases List.mem_cons.mp hu with rfl | hu
      · exact ht
      · exact hkeep u (hq u hu)
  obtain ⟨c', hr, hi, hq⟩ := hlist Finset.univ.toList
  exact ⟨c', hr, hi, fun t => hq t (Finset.mem_toList.mpr (Finset.mem_univ t))⟩

end Abix.Concurrency.Program

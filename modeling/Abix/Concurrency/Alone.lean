import Abix.Concurrency.Program

/-! A thread that runs alone, from a place inside a call to its end. The environment answers each turn.
Where the answers make no difference, the call ends at one state and cannot fail to. -/
namespace Abix.Concurrency.Program
variable {Tid Shared Local Action Answer : Type}

inductive Ends (p : Program Tid Shared Local Action) (t : Tid) (act : Answer → Action) (done : Local → Prop) :
    Shared × Local → Shared × Local → Prop
  | done {s} : done s.2 → Ends p t act done s s
  | turn {s s₁ s'} (y : Answer) :
      p.step t s.1 s.2 (act y) = some s₁ → Ends p t act done s₁ s' → Ends p t act done s s'

inductive Finishes (p : Program Tid Shared Local Action) (t : Tid) (act : Answer → Action) (done : Local → Prop) :
    Shared × Local → Prop
  | done {s} : done s.2 → Finishes p t act done s
  | turn {s} (next : Answer → Shared × Local) : (∀ y, p.step t s.1 s.2 (act y) = some (next y)) →
      (∀ y, Finishes p t act done (next y)) → Finishes p t act done s

/-- So many turns bring the thread from one state to the other, whatever the answers. -/
inductive LeadsIn (p : Program Tid Shared Local Action) (t : Tid) (act : Answer → Action) :
    Nat → Shared × Local → Shared × Local → Prop
  | refl (s) : LeadsIn p t act 0 s s
  | turn {k s s₁ s'} :
      (∀ y, p.step t s.1 s.2 (act y) = some s₁) → LeadsIn p t act k s₁ s' → LeadsIn p t act (k + 1) s s'

def Leads (p : Program Tid Shared Local Action) (t : Tid) (act : Answer → Action) (s s' : Shared × Local) : Prop :=
  ∃ k, p.LeadsIn t act k s s'

def Stops (p : Program Tid Shared Local Action) (t : Tid) (act : Answer → Action) (done : Local → Prop) : Prop :=
  ∀ sh l y, done l → p.step t sh l (act y) = none

variable {p : Program Tid Shared Local Action} {t : Tid} {act : Answer → Action} {done : Local → Prop}
  {s s' s₁ s₂ : Shared × Local}

theorem LeadsIn.alone {k : Nat} (y : Answer) (h : p.LeadsIn t act k s s') :
    p.alone t s (List.replicate k (act y)) = some s' := by
  induction h with
  | refl => rfl
  | turn hs _ ih => exact alone_cons (hs y) ih

/-- As a run of the program, with one answer throughout. -/
theorem LeadsIn.exec [DecidableEq Tid] {c : Config Tid Shared Local} {k : Nat} (y : Answer)
    (h : p.LeadsIn t act k (c.shared, c.locals t) s') :
    p.exec anyStep c (List.replicate k (t, act y)) = some ⟨s'.1, Function.update c.locals t s'.2⟩ := by
  rw [← List.map_replicate, exec_alone, h.alone y, Option.map_some]

theorem Leads.refl (s : Shared × Local) : p.Leads t act s s := ⟨0, .refl s⟩

theorem Leads.turn (hs : ∀ y, p.step t s.1 s.2 (act y) = some s₁) (h : p.Leads t act s₁ s') : p.Leads t act s s' :=
  h.imp' Nat.succ fun _ => .turn hs

theorem Leads.one (h : ∀ y, p.step t s.1 s.2 (act y) = some s') : p.Leads t act s s' := .turn h (.refl _)

theorem Leads.trans (h : p.Leads t act s s₁) (h' : p.Leads t act s₁ s₂) : p.Leads t act s s₂ := by
  obtain ⟨k, h⟩ := h
  induction h with
  | refl => exact h'
  | turn hs _ ih => exact .turn hs (ih h')

theorem Leads.finishes (h : p.Leads t act s s') (hfin : p.Finishes t act done s') : p.Finishes t act done s := by
  obtain ⟨k, h⟩ := h
  induction h with
  | refl => exact hfin
  | turn hs _ ih => exact .turn _ hs fun _ => ih hfin

theorem Ends.of_done (hstop : p.Stops t act done) (hd : done s.2) (he : p.Ends t act done s s') : s' = s := by
  cases he with
  | done => rfl
  | turn y hy => cases (hstop _ _ y hd).symm.trans hy

/-- A thread that is not done takes a turn before it ends. -/
theorem Ends.inv (hd : ¬ done s.2) (he : p.Ends t act done s s') :
    ∃ y s₁, p.step t s.1 s.2 (act y) = some s₁ ∧ p.Ends t act done s₁ s' := by
  cases he with
  | done h => exact absurd h hd
  | turn y hy he => exact ⟨y, _, hy, he⟩

variable [Nonempty Answer]

theorem Leads.ends (h : p.Leads t act s s₁) (he : p.Ends t act done s₁ s') : p.Ends t act done s s' := by
  obtain ⟨k, h⟩ := h
  induction h with
  | refl => exact he
  | turn hs _ ih => exact .turn (Classical.arbitrary Answer) (hs _) (ih he)

/-- Where the thread ends, it ends from every place that it is led through. -/
theorem Leads.ends_of (hstop : p.Stops t act done) (h : p.Leads t act s s₁) (he : p.Ends t act done s s') :
    p.Ends t act done s₁ s' := by
  obtain ⟨k, h⟩ := h
  induction h with
  | refl => exact he
  | turn hs _ ih =>
    cases he with
    | done hd => cases (hstop _ _ (Classical.arbitrary Answer) hd).symm.trans (hs _)
    | turn y hy he =>
      obtain rfl := Option.some.inj ((hs y).symm.trans hy)
      exact ih he

/-- A thread that is led to a place where it is done ends there and nowhere else. -/
theorem Leads.ends_iff (hstop : p.Stops t act done) (h : p.Leads t act s s₁) (hd : done s₁.2) :
    p.Ends t act done s s' ↔ s' = s₁ := by
  constructor
  · exact fun he => (h.ends_of hstop he).of_done hstop hd
  · rintro rfl
    exact h.ends (.done hd)

end Abix.Concurrency.Program

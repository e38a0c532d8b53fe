import Mathlib.Logic.Function.Basic
import Mathlib.Data.List.Basic

/-! Programs run by many threads over one shared state. One step is one atomic access
of one thread; runs interleave the steps of all threads in any order. -/
namespace Abix.Concurrency

/-- The atomic step of a thread. The action records what the environment chose: which
call starts, what the allocator answered, whether a deadline had passed. -/
structure Program (Tid Shared Local Action : Type) where
  step : Tid → Shared → Local → Action → Option (Shared × Local)

structure Config (Tid Shared Local : Type) where
  shared : Shared
  locals : Tid → Local

namespace Program
variable {Tid Shared Local Action : Type} [DecidableEq Tid]

def next (p : Program Tid Shared Local Action) (c : Config Tid Shared Local) (t : Tid) (a : Action) :
    Option (Config Tid Shared Local) :=
  (p.step t c.shared (c.locals t) a).map fun r => ⟨r.1, Function.update c.locals t r.2⟩

/-- Runs the listed steps in order, refusing a step that breaks the discipline `ok`. -/
def exec (p : Program Tid Shared Local Action) (ok : Config Tid Shared Local → Tid → Action → Prop)
    [∀ c t a, Decidable (ok c t a)] (c : Config Tid Shared Local) :
    List (Tid × Action) → Option (Config Tid Shared Local)
  | [] => some c
  | (t, a) :: run => if ok c t a then (p.next c t a).bind fun c' => p.exec ok c' run else none

/-- One thread runs alone: only its own state and the shared one matter. -/
def alone (p : Program Tid Shared Local Action) (t : Tid) : Shared × Local → List Action → Option (Shared × Local)
  | s, [] => some s
  | s, a :: run => (p.step t s.1 s.2 a).bind fun s' => p.alone t s' run

/-- Configurations reached from `c₀` by steps that all keep the discipline `ok`. -/
inductive Reachable (p : Program Tid Shared Local Action) (ok : Config Tid Shared Local → Tid → Action → Prop)
    (c₀ : Config Tid Shared Local) : Config Tid Shared Local → Prop
  | init : p.Reachable ok c₀ c₀
  | step {c c' t a} : p.Reachable ok c₀ c → ok c t a → p.next c t a = some c' → p.Reachable ok c₀ c'

/-- No restriction on the steps of a run. -/
abbrev anyStep : Config Tid Shared Local → Tid → Action → Prop := fun _ _ _ => True

variable {p : Program Tid Shared Local Action} {ok : Config Tid Shared Local → Tid → Action → Prop}
  {c₀ c c' : Config Tid Shared Local} {t : Tid} {a : Action}

/-- What one step changes: the shared state and the state of the thread that moved. -/
theorem next_eq_some_iff : p.next c t a = some c' ↔
    ∃ sh l, p.step t c.shared (c.locals t) a = some (sh, l) ∧ c' = ⟨sh, Function.update c.locals t l⟩ := by
  simp only [next, Option.map_eq_some_iff, Prod.exists]
  exact exists₂_congr fun _ _ => and_congr_right fun _ => eq_comm

omit [DecidableEq Tid] in
theorem alone_cons {s s' : Shared × Local} {r : Option (Shared × Local)} {run : List Action}
    (h : p.step t s.1 s.2 a = some s') (hrun : p.alone t s' run = r) : p.alone t s (a :: run) = r := by
  rw [alone, h, Option.bind_some, hrun]

theorem exec_alone (run : List Action) : p.exec anyStep c (run.map (Prod.mk t)) =
    (p.alone t (c.shared, c.locals t) run).map fun r => ⟨r.1, Function.update c.locals t r.2⟩ := by
  induction run generalizing c with
  | nil => simp [exec, alone]
  | cons a run ih =>
    rw [List.map_cons, exec, if_pos trivial, next, alone]
    cases p.step t c.shared (c.locals t) a with
    | none => rfl
    | some s =>
      rw [Option.map_some, Option.bind_some, Option.bind_some, ih]
      simp only [Function.update_self, Function.update_idem]

theorem Reachable.of_exec [∀ c t a, Decidable (ok c t a)] {run : List (Tid × Action)}
    (h : p.Reachable ok c₀ c) (he : p.exec ok c run = some c') : p.Reachable ok c₀ c' := by
  induction run generalizing c with
  | nil => exact Option.some.inj he ▸ h
  | cons step run ih =>
    obtain ⟨t, a⟩ := step
    simp only [exec] at he
    split at he
    · rename_i hok
      obtain ⟨c₁, h₁, he⟩ := Option.bind_eq_some_iff.mp he
      exact ih (h.step hok h₁) he
    · cases he

theorem Reachable.of_alone {run : List Action} {s : Shared × Local} (h : p.Reachable anyStep c₀ c)
    (ha : p.alone t (c.shared, c.locals t) run = some s) :
    p.Reachable anyStep c₀ ⟨s.1, Function.update c.locals t s.2⟩ :=
  h.of_exec ((exec_alone run).trans (by rw [ha, Option.map_some]))

theorem Reachable.mono {ok' : Config Tid Shared Local → Tid → Action → Prop}
    (hok : ∀ c t a, ok c t a → ok' c t a) (h : p.Reachable ok c₀ c) : p.Reachable ok' c₀ c := by
  induction h with
  | init => exact .init
  | step _ hk hs ih => exact ih.step (hok _ _ _ hk) hs

theorem Reachable.trans (h : p.Reachable ok c₀ c) (h' : p.Reachable ok c c') : p.Reachable ok c₀ c' := by
  induction h' with
  | init => exact h
  | step _ hk hs ih => exact ih.step hk hs

theorem Reachable.invariant {P : Config Tid Shared Local → Prop} (h₀ : P c₀)
    (hstep : ∀ c t a c', P c → ok c t a → p.next c t a = some c' → P c')
    (h : p.Reachable ok c₀ c) : P c := by
  induction h with
  | init => exact h₀
  | step _ hk hs ih => exact hstep _ _ _ _ ih hk hs

/-- What is known of every reached configuration may be assumed of the next steps. -/
theorem Reachable.assuming {K : Config Tid Shared Local → Prop} (hK : ∀ c, p.Reachable ok c₀ c → K c)
    (h : p.Reachable ok c₀ c) : p.Reachable (fun c t a => K c ∧ ok c t a) c₀ c := by
  induction h with
  | init => exact .init
  | step hr hk hs ih => exact ih.step ⟨hK _ hr, hk⟩ hs

/-- A shared invariant `I` with a local assertion `J` for each thread: a step keeps
`I` and its own assertion, and does not interfere with the assertion of another thread. -/
structure Stable (p : Program Tid Shared Local Action) (ok : Config Tid Shared Local → Tid → Action → Prop)
    (I : Shared → Prop) (J : Shared → Tid → Local → Prop) : Prop where
  own : ∀ {c t a sh l}, ok c t a → I c.shared → (∀ u, J c.shared u (c.locals u)) →
    p.step t c.shared (c.locals t) a = some (sh, l) → I sh ∧ J sh t l
  others : ∀ {c t a sh l}, ok c t a → I c.shared → (∀ u, J c.shared u (c.locals u)) →
    p.step t c.shared (c.locals t) a = some (sh, l) → ∀ u, u ≠ t → J sh u (c.locals u)

theorem Stable.reachable {I : Shared → Prop} {J : Shared → Tid → Local → Prop} (hs : p.Stable ok I J)
    (hI : I c₀.shared) (hJ : ∀ t, J c₀.shared t (c₀.locals t)) (h : p.Reachable ok c₀ c) :
    I c.shared ∧ ∀ t, J c.shared t (c.locals t) := by
  refine h.invariant (P := fun c => I c.shared ∧ ∀ t, J c.shared t (c.locals t)) ⟨hI, hJ⟩ ?_
  rintro c t a c' ⟨hi, hj⟩ hk hn
  obtain ⟨sh, l, hstep, rfl⟩ := next_eq_some_iff.mp hn
  obtain ⟨hi', hj'⟩ := hs.own hk hi hj hstep
  refine ⟨hi', fun u => ?_⟩
  by_cases hu : u = t
  · subst hu
    simpa using hj'
  · simpa [Function.update_of_ne hu] using hs.others hk hi hj hstep u hu

/-- A program whose steps are steps of `q`, or leave it alone, seen through `f`. -/
theorem Reachable.project {Shared' Local' Action' : Type} {q : Program Tid Shared' Local' Action'}
    {ok' : Config Tid Shared' Local' → Tid → Action' → Prop} (f : Config Tid Shared Local → Config Tid Shared' Local')
    (hf : ∀ {c t a c'}, ok c t a → p.next c t a = some c' →
      f c' = f c ∨ ∃ u b, ok' (f c) u b ∧ q.next (f c) u b = some (f c'))
    (h : p.Reachable ok c₀ c) : q.Reachable ok' (f c₀) (f c) := by
  induction h with
  | init => exact .init
  | step _ hk hs ih =>
    rcases hf hk hs with he | ⟨u, b, hok, hq⟩
    · rwa [he]
    · exact ih.step hok hq

/-- The program with a record beside each thread that no step reads. `note` sees the step: the
shared states before and after it, the thread before it, and the action. -/
def recorded {Record : Type} (p : Program Tid Shared Local Action)
    (note : Shared → Local → Action → Shared → Record → Record) : Program Tid Shared (Local × Record) Action where
  step t sh l a := (p.step t sh l.1 a).map fun r => (r.1, r.2, note sh l.1 a r.1 l.2)

def forget {Record : Type} (c : Config Tid Shared (Local × Record)) : Config Tid Shared Local :=
  ⟨c.shared, fun t => (c.locals t).1⟩

section Recorded
variable {Record : Type} {note : Shared → Local → Action → Shared → Record → Record}
  {d d' : Config Tid Shared (Local × Record)}

omit [DecidableEq Tid] in
theorem recorded_step {sh sh' : Shared} {l l' : Local × Record} (h : (p.recorded note).step t sh l a = some (sh', l')) :
    p.step t sh l.1 a = some (sh', l'.1) ∧ l'.2 = note sh l.1 a sh' l.2 := by
  obtain ⟨r, hr, he⟩ := Option.map_eq_some_iff.mp h
  cases he
  exact ⟨hr, rfl⟩

theorem forget_update (sh : Shared) (l : Local × Record) :
    forget ⟨sh, Function.update d.locals t l⟩ = ⟨sh, Function.update (forget d).locals t l.1⟩ := by
  simp only [forget, Config.mk.injEq, true_and]
  funext u
  by_cases hu : u = t
  · simp [hu]
  · simp [Function.update_of_ne hu]

theorem forget_next (h : (p.recorded note).next d t a = some d') : p.next (forget d) t a = some (forget d') := by
  obtain ⟨sh, l, hs, rfl⟩ := next_eq_some_iff.mp h
  exact next_eq_some_iff.mpr ⟨sh, l.1, (recorded_step hs).1, forget_update sh l⟩

theorem Reachable.forget {d₀ : Config Tid Shared (Local × Record)}
    (h : (p.recorded note).Reachable (fun d t a => ok (forget d) t a) d₀ d) :
    p.Reachable ok (Program.forget d₀) (Program.forget d) :=
  h.project Program.forget fun hok hn => .inr ⟨_, _, hok, forget_next hn⟩

end Recorded

end Program
end Abix.Concurrency

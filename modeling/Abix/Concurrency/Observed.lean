import Abix.Concurrency.Program

/-! Runs with an observer beside them. A condition on the calls of a run often depends on calls
made long before; the observer keeps of them what the condition asks for. -/
namespace Abix.Concurrency.Program
variable {Tid Shared Local Action Record : Type} [DecidableEq Tid]

/-- The record is noted from each step before the step is taken. No step reads it, and the
discipline may. -/
inductive Observed (p : Program Tid Shared Local Action)
    (note : Config Tid Shared Local → Tid → Action → Record → Record)
    (ok : Record → Config Tid Shared Local → Tid → Action → Prop) (c₀ : Config Tid Shared Local) (r₀ : Record) :
    Config Tid Shared Local → Record → Prop
  | init : p.Observed note ok c₀ r₀ c₀ r₀
  | step {c c' r t a} : p.Observed note ok c₀ r₀ c r → ok r c t a → p.next c t a = some c' →
      p.Observed note ok c₀ r₀ c' (note c t a r)

/-- Runs the listed steps as `exec` does, with the observer beside them. -/
def observe (p : Program Tid Shared Local Action)
    (note : Config Tid Shared Local → Tid → Action → Record → Record)
    (ok : Record → Config Tid Shared Local → Tid → Action → Prop) [∀ r c t a, Decidable (ok r c t a)]
    (c : Config Tid Shared Local) (r : Record) : List (Tid × Action) → Option (Config Tid Shared Local × Record)
  | [] => some (c, r)
  | (t, a) :: run =>
    if ok r c t a then (p.next c t a).bind fun c' => p.observe note ok c' (note c t a r) run else none

variable {p : Program Tid Shared Local Action} {note : Config Tid Shared Local → Tid → Action → Record → Record}
  {ok : Record → Config Tid Shared Local → Tid → Action → Prop} {c₀ c c' : Config Tid Shared Local} {r₀ r r' : Record}

theorem Observed.of_observe [∀ r c t a, Decidable (ok r c t a)] {run : List (Tid × Action)}
    (h : p.Observed note ok c₀ r₀ c r) (he : p.observe note ok c r run = some (c', r')) :
    p.Observed note ok c₀ r₀ c' r' := by
  induction run generalizing c r with
  | nil =>
    cases he
    exact h
  | cons step run ih =>
    obtain ⟨t, a⟩ := step
    simp only [observe] at he
    split at he
    · rename_i hok
      obtain ⟨c₁, h₁, he⟩ := Option.bind_eq_some_iff.mp he
      exact ih (h.step hok h₁) he
    · cases he

/-- An observed run is a run, of any discipline that its own one implies. -/
theorem Observed.reachable {ok' : Config Tid Shared Local → Tid → Action → Prop} (h : p.Observed note ok c₀ r₀ c r)
    (hok : ∀ c r t a, p.Observed note ok c₀ r₀ c r → ok r c t a → ok' c t a) : p.Reachable ok' c₀ c := by
  induction h with
  | init => exact .init
  | step hr hk hs ih => exact ih.step (hok _ _ _ _ hr hk) hs

/-- Invariants of configuration and record together. What every run keeps may be assumed. -/
theorem Observed.invariant {P : Config Tid Shared Local → Record → Prop} (h₀ : P c₀ r₀)
    (hstep : ∀ c r t a c', p.Reachable anyStep c₀ c → P c r → ok r c t a → p.next c t a = some c' → P c' (note c t a r))
    (h : p.Observed note ok c₀ r₀ c r) : P c r := by
  induction h with
  | init => exact h₀
  | step hr hk hs ih => exact hstep _ _ _ _ _ (hr.reachable fun _ _ _ _ _ _ => trivial) ih hk hs

end Abix.Concurrency.Program

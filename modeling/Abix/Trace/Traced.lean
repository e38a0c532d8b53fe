import Mathlib.Data.List.Basic

/-! Programs that leave a trace of what they touch, with rules for what is in the trace and for
whether the program ends. -/
namespace Abix.Trace
variable {ε σ α β : Type}

inductive Outcome (α : Type) where
  | done (result : α)
  | failed (error : String)
  | running
  deriving DecidableEq

structure Traced (ε α : Type) where
  outcome : Outcome α
  trace : List ε

theorem toNat_succ {i n : UInt64} (h : i < n) : (i + 1).toNat = i.toNat + 1 := by
  have hn := n.toNat_lt
  have hone : (1 : UInt64).toNat = 1 := rfl
  rw [UInt64.lt_iff_toNat_lt] at h
  rw [UInt64.toNat_add, hone, Nat.mod_eq_of_lt (by omega)]

namespace Traced

/-- What follows is reached only when the first part is done. -/
def andThen (m : Traced ε α) (f : α → Traced ε β) : Traced ε β :=
  match m.outcome with
  | .done a => ⟨(f a).outcome, m.trace ++ (f a).trace⟩
  | .failed error => ⟨.failed error, m.trace⟩
  | .running => ⟨.running, m.trace⟩

instance : Monad (Traced ε) where
  pure a := ⟨.done a, []⟩
  bind := andThen

def emit (e : ε) : Traced ε Unit := ⟨.done (), [e]⟩

def fail (error : String) : Traced ε α := ⟨.failed error, []⟩

def failIf (refused : Prop) [Decidable refused] (error : String) : Traced ε Unit :=
  if refused then fail error else pure ()

/-- `if (!m) …`: a failure is an answer to whoever called. -/
def attempt (m : Traced ε α) : Traced ε (Except String α) :=
  match m.outcome with
  | .done a => ⟨.done (.ok a), m.trace⟩
  | .failed error => ⟨.done (.error error), m.trace⟩
  | .running => ⟨.running, m.trace⟩

/-- Turns, at most so many, of which each leads to the next or to the end. -/
def loop (turn : σ → Traced ε (σ ⊕ α)) : Nat → σ → Traced ε α
  | 0, _ => ⟨.running, []⟩
  | turns + 1, s => do
    match ← turn s with
    | .inl s => loop turn turns s
    | .inr a => pure a

def each (turn : UInt64 → σ → Traced ε (σ ⊕ σ)) : Nat → UInt64 → σ → Traced ε σ
  | 0, _, s => pure s
  | left + 1, i, s => do
    match ← turn i s with
    | .inl s => each turn left (i + 1) s
    | .inr s => pure s

def forUpTo (n : UInt64) (turn : UInt64 → σ → Traced ε (σ ⊕ σ)) (s : σ) : Traced ε σ := each turn n.toNat 0 s

/-- What is in the trace, what can make the program fail and what keep it running, and what it leaves. -/
structure Spec (P : ε → Prop) (E R : Prop) (m : Traced ε α) (Q : α → Prop) : Prop where
  trace : ∀ e ∈ m.trace, P e
  failed : ∀ error, m.outcome = .failed error → E
  running : m.outcome = .running → R
  done : ∀ a, m.outcome = .done a → Q a

/-- A program gets to a part of it, and does not end before the part does. -/
structure Reaches (m : Traced ε α) (part : Traced ε β) : Prop where
  trace : ∀ e ∈ part.trace, e ∈ m.trace
  running : part.outcome = .running → m.outcome = .running

theorem bind_outcome {m : Traced ε α} {f : α → Traced ε β} {a : α} (hm : m.outcome = .done a) :
    (m >>= f).outcome = (f a).outcome := by
  simp only [bind, andThen, hm]

/-- What a caller is left with when a part of it has failed or is done. -/
theorem attempt_done {m : Traced ε α} {answer : Except String α} (h : (attempt m).outcome = .done answer) :
    (∃ a, answer = .ok a ∧ m.outcome = .done a) ∨ ∃ error, answer = .error error ∧ m.outcome = .failed error := by
  obtain ⟨outcome, trace⟩ := m
  cases outcome with
  | done a => exact .inl ⟨a, (Outcome.done.inj h).symm, rfl⟩
  | failed error => exact .inr ⟨error, (Outcome.done.inj h).symm, rfl⟩
  | running => cases h

theorem bind_eq {a : α} {trace trace' : List ε} {f : α → Traced ε β} {outcome : Outcome β}
    (h : f a = ⟨outcome, trace'⟩) : (⟨.done a, trace⟩ : Traced ε α) >>= f = ⟨outcome, trace ++ trace'⟩ := by
  simp only [bind, andThen, h]

theorem bind_done {m : Traced ε α} {f : α → Traced ε β} {b : β} (h : (m >>= f).outcome = .done b) :
    ∃ a, m.outcome = .done a ∧ (f a).outcome = .done b := by
  obtain ⟨outcome, trace⟩ := m
  cases outcome with
  | done a => exact ⟨a, rfl, h⟩
  | failed error => cases h
  | running => cases h

namespace Reaches
variable {γ : Type} {m : Traced ε α} {f : α → Traced ε β} {part : Traced ε γ}

theorem refl (m : Traced ε α) : Reaches m m := ⟨fun _ he => he, id⟩

theorem trans {middle : Traced ε β} (h : Reaches m middle) (h' : Reaches middle part) : Reaches m part :=
  ⟨fun e he => h.trace e (h'.trace e he), fun hr => h.running (h'.running hr)⟩

theorem first (h : Reaches m part) : Reaches (m >>= f) part := by
  obtain ⟨outcome, trace⟩ := m
  cases outcome with
  | done a => exact ⟨fun e he => List.mem_append_left _ (h.trace e he), fun hr => nomatch h.running hr⟩
  | failed error => exact ⟨h.trace, fun hr => nomatch h.running hr⟩
  | running => exact ⟨h.trace, fun _ => rfl⟩

theorem next {a : α} (hm : m.outcome = .done a) (h : Reaches (f a) part) : Reaches (m >>= f) part := by
  obtain ⟨outcome, trace⟩ := m
  obtain rfl : outcome = .done a := hm
  exact ⟨fun e he => List.mem_append_right _ (h.trace e he), h.running⟩

variable {turn : UInt64 → σ → Traced ε (σ ⊕ σ)} {left : Nat} {i : UInt64} {s s' : σ}

theorem each_turn (h : Reaches (turn i s) part) : Reaches (each turn (left + 1) i s) part := first h

theorem each_rest (hturn : (turn i s).outcome = .done (.inl s')) :
    Reaches (each turn (left + 1) i s) (each turn left (i + 1) s') := next hturn (refl _)

end Reaches

variable {P : ε → Prop} {E E' R R' : Prop} {Q Q' : α → Prop}

namespace Spec

theorem pure {a : α} (h : Q a) : Spec P E R (Pure.pure a : Traced ε α) Q where
  trace _ he := absurd he List.not_mem_nil
  failed _ h := nomatch h
  running h := nomatch h
  done a' ha := by
    obtain rfl := Outcome.done.inj ha
    exact h

theorem emit {e : ε} (h : P e) : Spec P E R (emit e) fun _ => True where
  trace e' he := by
    obtain rfl := List.mem_singleton.mp he
    exact h
  failed _ h := nomatch h
  running h := nomatch h
  done _ _ := trivial

theorem fail {error : String} (h : E) : Spec P E R (fail error) Q where
  trace _ he := absurd he List.not_mem_nil
  failed _ _ := h
  running h := nomatch h
  done _ h := nomatch h

theorem failIf {refused : Prop} [Decidable refused] {error : String} (h : refused → E) :
    Spec P E R (failIf refused error) fun _ => ¬ refused := by
  rw [Traced.failIf]
  split
  · rename_i hrefused
    exact fail (h hrefused)
  · rename_i hrefused
    exact pure hrefused

theorem bind {m : Traced ε α} {f : α → Traced ε β} {Q' : β → Prop} (hm : Spec P E R m Q)
    (hf : ∀ a, Q a → Spec P E R (f a) Q') : Spec P E R (m >>= f) Q' := by
  obtain ⟨outcome, trace⟩ := m
  cases outcome with
  | done a =>
    have ha := hf a (hm.done a rfl)
    refine ⟨fun e he => ?_, ha.failed, ha.running, ha.done⟩
    rcases List.mem_append.mp he with he | he
    · exact hm.trace e he
    · exact ha.trace e he
  | failed error => exact ⟨hm.trace, fun _ _ => hm.failed error rfl, nofun, nofun⟩
  | running => exact ⟨hm.trace, nofun, fun _ => hm.running rfl, nofun⟩

theorem mono {m : Traced ε α} (hm : Spec P E R m Q) (hE : E → E') (hR : R → R') (hQ : ∀ a, Q a → Q' a) :
    Spec P E' R' m Q' :=
  ⟨hm.trace, fun error h => hE (hm.failed error h), fun h => hR (hm.running h), fun a h => hQ a (hm.done a h)⟩

theorem weaken {m : Traced ε α} (hm : Spec P E R m Q) (hQ : ∀ a, Q a → Q' a) : Spec P E R m Q' :=
  hm.mono id id hQ

theorem ite {c : Prop} [Decidable c] {m m' : Traced ε α} (hm : c → Spec P E R m Q) (hm' : ¬ c → Spec P E R m' Q) :
    Spec P E R (if c then m else m') Q := by
  split
  · rename_i hc
    exact hm hc
  · rename_i hc
    exact hm' hc

/-- A loop whose turns lead down from a number of them ends when it is given more. -/
theorem loop {turn : σ → Traced ε (σ ⊕ α)} {I : Nat → σ → Prop}
    (hturn : ∀ n s, I n s → Spec P E R (turn s) (Sum.elim (fun s' => ∃ m < n, I m s') Q))
    {turns n : Nat} {s : σ} (hs : I n s) (hR : turns ≤ n → R) : Spec P E R (loop turn turns s) Q := by
  induction turns generalizing n s with
  | zero => exact ⟨fun _ he => absurd he List.not_mem_nil, nofun, fun _ => hR (Nat.zero_le _), nofun⟩
  | succ turns ih =>
    refine (hturn n s hs).bind fun next hnext => ?_
    cases next with
    | inl s' =>
      obtain ⟨m, hm, hs'⟩ := hnext
      exact ih hs' fun hle => hR (Nat.lt_of_le_of_lt hle hm)
    | inr a => exact pure hnext

theorem each {turn : UInt64 → σ → Traced ε (σ ⊕ σ)} {n : UInt64} {I : UInt64 → σ → Prop} {Q : σ → Prop}
    (hturn : ∀ i s, i < n → I i s → Spec P E R (turn i s) (Sum.elim (I (i + 1)) Q))
    (hend : ∀ s, I n s → Q s) {left : Nat} {i : UInt64} {s : σ} (hleft : i.toNat + left = n.toNat) (hs : I i s) :
    Spec P E R (each turn left i s) Q := by
  induction left generalizing i s with
  | zero =>
    obtain rfl : i = n := UInt64.toNat_inj.mp hleft
    exact pure (hend s hs)
  | succ left ih =>
    have hlt : i < n := UInt64.lt_iff_toNat_lt.mpr (by omega)
    have hnext := toNat_succ hlt
    refine (hturn i s hlt hs).bind fun next h => ?_
    cases next with
    | inl s' => exact ih (by omega) h
    | inr s' => exact pure h

/-- A counted loop keeps what its turns keep, and always ends. -/
theorem forUpTo {turn : UInt64 → σ → Traced ε (σ ⊕ σ)} {n : UInt64} {I : UInt64 → σ → Prop} {Q : σ → Prop} {s : σ}
    (hs : I 0 s)
    (hturn : ∀ i s, i < n → I i s → Spec P E R (turn i s) (Sum.elim (I (i + 1)) Q))
    (hend : ∀ s, I n s → Q s) : Spec P E R (forUpTo n turn s) Q :=
  each hturn hend (Nat.zero_add _) hs

/-- What can neither fail nor be kept running is done. -/
theorem exists_done {m : Traced ε α} (hm : Spec P E R m Q) (hE : ¬ E) (hR : ¬ R) :
    ∃ a, m.outcome = .done a ∧ Q a := by
  cases houtcome : m.outcome with
  | done a => exact ⟨a, rfl, hm.done a houtcome⟩
  | failed error => exact absurd (hm.failed error houtcome) hE
  | running => exact absurd (hm.running houtcome) hR

/-- What follows on a part that is done is reached. -/
theorem reaches {γ : Type} {m : Traced ε α} {f : α → Traced ε β} {part : Traced ε γ} (hm : Spec P False False m Q)
    (hf : ∀ a, Q a → Reaches (f a) part) : Reaches (m >>= f) part := by
  obtain ⟨a, houtcome, ha⟩ := hm.exists_done not_false not_false
  exact .next houtcome (hf a ha)

end Spec

end Traced

end Abix.Trace

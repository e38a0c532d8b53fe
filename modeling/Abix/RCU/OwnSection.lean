import Abix.RCU.Completion

/-! A thread that waits for the readers while it is one of them. It holds the advancement meanwhile, so
the epoch stands still for everybody: without a deadline for good, with one until the thread gives up. -/
namespace Abix.RCU
open Abix.Concurrency
variable {Tid Obj Fn : Type} [DecidableEq Tid] {t u : Tid} {a : Action Obj Fn} {sh sh' : Shared Tid Obj Fn}
  {l l' : Local Tid Obj Fn} {c c' : Config Tid (Shared Tid Obj Fn) (Local Tid Obj Fn)} {grace : Grace} {old : Nat}

def Grace.bounded : Grace → Bool
  | .synchronize _ => false
  | .synchronizeUntil bounded _ => bounded

/-- The epoch word of a thread: it is that of a registered reader, it is not from the future, and not
newer than the epoch that the thread has left itself. -/
structure Entered (sh : Shared Tid Obj Fn) (t : Tid) (l : Local Tid Obj Fn) : Prop where
  registered : sh.readerEpoch t ≠ 0 → t ∈ sh.threads
  entering : (l.pc = .enterLoad ∨ ∃ e, l.pc = .enterStore e) → t ∈ sh.threads
  loaded : ∀ e, l.pc = .enterStore e → e ≤ sh.epoch.global
  epoch : sh.readerEpoch t ≤ sh.epoch.global
  left : ∀ old, l.pc.advancing = some old → sh.readerEpoch t ≤ old

private theorem entered_start {pc : Pc Tid Obj Fn} (h : Entered sh t l) (hs : start t sh a = some pc) :
    Entered sh t { l with pc } := by
  obtain ⟨hadvancing, -⟩ := (first_of_start hs).advancing
  refine ⟨h.registered, fun hpc => ?_, fun e hpc => ?_, h.epoch, fun old hold => nomatch hadvancing.symm.trans hold⟩
  · cases a with
    | enter | exit =>
      cases hs
      unfold getThread at hpc
      split at hpc
      · assumption
      · rcases hpc with hpc | ⟨e, hpc⟩ <;> cases hpc
    | _ => cases hs <;> rcases hpc with hpc | ⟨e, hpc⟩ <;> cases hpc
  · have hfirst := first_of_start hs
    rw [show pc = .enterStore e from hpc] at hfirst
    exact hfirst.elim

omit [DecidableEq Tid] in
/-- A step that leaves the word of the thread alone. -/
theorem Entered.keep (h : Entered sh t l) (hr : sh'.readerEpoch t = sh.readerEpoch t) (ht : sh.threads ⊆ sh'.threads)
    (hg : sh.epoch.global ≤ sh'.epoch.global) (hload : l'.pc ≠ .enterLoad) (hstore : ∀ e, l'.pc ≠ .enterStore e)
    (hleft : ∀ old, l'.pc.advancing = some old → l.pc.advancing = some old ∨ sh.epoch.global = old) :
    Entered sh' t l' := by
  refine ⟨fun hin => ht (h.registered (hr ▸ hin)), fun hpc => ?_, fun e hpc => absurd hpc (hstore e), ?_,
    fun old hold => ?_⟩
  · exact hpc.elim (absurd · hload) fun ⟨e, hpc⟩ => absurd hpc (hstore e)
  · exact hr ▸ h.epoch.trans hg
  · rw [hr]
    exact (hleft old hold).elim (h.left old) fun he => he ▸ h.epoch

private theorem entered_own (hm : Moves t sh a l sh' l') (h : Entered sh t l) : Entered sh' t l' := by
  have hthreads := hm.threads_subset
  have hglobal := hm.global_le
  cases hm with
  | called hs => exact entered_start h hs
  | exits | leaves => exact ⟨by simp, by simp, by simp, by simp, nofun⟩
  | @registers _ entering =>
    refine ⟨fun _ => List.mem_cons_self, fun _ => List.mem_cons_self, fun e hpc => ?_, h.epoch, fun old hold => ?_⟩
    · cases entering <;> cases hpc
    · cases entering <;> cases hold
  | loads =>
    refine ⟨h.registered, fun _ => h.entering (.inl rfl), fun e hpc => ?_, h.epoch, nofun⟩
    cases hpc
    exact Nat.le_refl _
  | @enters _ e =>
    refine ⟨fun _ => h.entering (.inr ⟨e, rfl⟩), by simp, by simp, ?_, nofun⟩
    simpa using h.loaded e rfl
  | begins | beginsUntil =>
    refine h.keep rfl hthreads hglobal nofun nofun fun old hold => .inr ?_
    exact Option.some.inj hold
  | advances | readersHead | passes | rescans | skips | completes | swept | reclaims | keeps | collectLock =>
    exact h.keep rfl hthreads hglobal nofun nofun fun _ => .inl
  | @passed _ g =>
    refine h.keep rfl hthreads hglobal nofun nofun fun old hold => .inl ?_
    cases g <;> exact hold
  | givesUp => exact h.keep rfl hthreads hglobal nofun nofun fun _ => .inl
  | _ => exact h.keep rfl hthreads hglobal nofun nofun nofun

theorem entered_of_reachable {ok : Config Tid (Shared Tid Obj Fn) (Local Tid Obj Fn) → Tid → Action Obj Fn → Prop}
    (h : (domain Tid Obj Fn).Reachable ok (initial Tid Obj Fn) c) (t : Tid) : Entered c.shared t (c.locals t) := by
  have hstable : (domain Tid Obj Fn).Stable ok (fun _ => True) Entered := by
    constructor
    · exact fun _ _ hj hs => ⟨trivial, entered_own (moves_of_step hs) (hj _)⟩
    · intro c t a sh l _ _ hj hs u hne
      have hm := moves_of_step hs
      have hu := hj u
      have hr := hm.readerEpoch_ne hne
      refine ⟨fun hin => hm.threads_subset (hu.registered (hr ▸ hin)), fun hpc => hm.threads_subset (hu.entering hpc),
        fun e hpc => (hu.loaded e hpc).trans hm.global_le, hr ▸ hu.epoch.trans hm.global_le, fun old hold => ?_⟩
      rw [hr]
      exact hu.left old hold
  have hstart (u : Tid) : Entered (initial Tid Obj Fn).shared u ((initial Tid Obj Fn).locals u) :=
    ⟨fun hin => absurd rfl hin, by simp [initial], by simp [initial], Nat.zero_le _, nofun⟩
  exact (hstable.reachable trivial hstart h).2 t

/-- Where a wait stands that its own section holds up: it scans as far as its own record, or it has
given up. -/
def HeldUp (t : Tid) (bounded : Bool) (old : Nat) : Pc Tid Obj Fn → Prop
  | .advanceStore grace old' | .readersHead grace old' => old' = old ∧ grace.bounded = bounded
  | .readersPassed grace old' rest => old' = old ∧ grace.bounded = bounded ∧ t ∈ rest
  | .collectLock safe fin | .collect safe fin => safe = old ∧ bounded = true ∧ fin = ⟨[], true, .answer false⟩
  | .idle r => bounded = true ∧ r = .answer false
  | _ => False

def Stays (t : Tid) (_c : Config Tid (Shared Tid Obj Fn) (Local Tid Obj Fn)) (u : Tid) (a : Action Obj Fn) : Prop :=
  u = t → ∃ x, a = .run x

omit [DecidableEq Tid] in
private theorem heldUp_notPassed (x : Bool) {bounded : Bool} (hb : grace.bounded = bounded) :
    HeldUp t bounded old (notPassed x old grace : Pc Tid Obj Fn) := by
  cases grace with
  | synchronize eager => exact ⟨rfl, hb⟩
  | synchronizeUntil bounded' polls =>
    simp only [notPassed]
    split
    · rename_i hgives
      exact ⟨rfl, hb.symm.trans hgives.2.1, rfl⟩
    · exact ⟨rfl, hb⟩

private theorem heldUp_own {x bounded : Bool} (h : HeldUp t bounded old l.pc) (hin : sh.readerEpoch t ≠ 0)
    (hle : sh.readerEpoch t ≤ old) (ht : t ∈ sh.threads) (hs : step t sh l (.run x) = some (sh', l')) :
    HeldUp t bounded old l'.pc ∧ sh'.readerEpoch t = sh.readerEpoch t := by
  obtain ⟨pc, b⟩ := l
  cases pc with
  | advanceStore grace old' =>
    cases hs
    exact ⟨h, rfl⟩
  | readersHead grace old' =>
    cases hs
    exact ⟨⟨h.1, h.2, ht⟩, rfl⟩
  | readersPassed grace old' rest =>
    obtain ⟨rfl, hb, hmem⟩ := h
    cases rest with
    | nil => cases hmem
    | cons v rest =>
      cases hs
      refine ⟨?_, rfl⟩
      dsimp only
      split
      · exact heldUp_notPassed x hb
      · rename_i hv
        refine ⟨rfl, hb, (List.mem_cons.mp hmem).resolve_left ?_⟩
        rintro rfl
        exact hv ⟨hin, hle⟩
  | collectLock safe fin =>
    simp only [step, run] at hs
    split at hs
    · cases hs
      exact ⟨h, rfl⟩
    · cases hs
  | collect safe fin =>
    obtain ⟨-, hb, rfl⟩ := h
    cases hs
    exact ⟨⟨hb, rfl⟩, rfl⟩
  | idle => cases hs
  | _ => exact h.elim

/-- A thread that takes the advancement inside a section of its own never finds the readers passed:
whatever all threads do, the call answers nothing but that it has given up, which takes a deadline, and
until then the epoch does not move for anybody. -/
theorem own_section_holds_up (h : (domain Tid Obj Fn).Reachable Program.anyStep (initial Tid Obj Fn) c)
    (hpc : (c.locals t).pc = .advanceStore grace old) (hin : c.shared.readerEpoch t ≠ 0)
    (hc : (domain Tid Obj Fn).Reachable (Stays t) c c') :
    (∀ r, (c'.locals t).pc = .idle r → r = .answer false) ∧
    (grace.bounded = false → ¬ (c'.locals t).pc.Returned) ∧
    (¬ (c'.locals t).pc.Returned → c'.shared.epoch.global = c.shared.epoch.global) := by
  have hentered := entered_of_reachable h t
  have hle : c.shared.readerEpoch t ≤ old := hentered.left old (by rw [hpc]; rfl)
  have hexclusive := exclusive_of_reachable h
  have hglobal : c.shared.epoch.global = old + 1 := hexclusive.global t old (by rw [hpc]; rfl)
  have hheld : HeldUp t grace.bounded old (c'.locals t).pc ∧ c'.shared.readerEpoch t = c.shared.readerEpoch t ∧
      (domain Tid Obj Fn).Reachable Program.anyStep (initial Tid Obj Fn) c' := by
    refine hc.invariant (P := fun c' => HeldUp t grace.bounded old (c'.locals t).pc ∧
      c'.shared.readerEpoch t = c.shared.readerEpoch t ∧
      (domain Tid Obj Fn).Reachable Program.anyStep (initial Tid Obj Fn) c') ⟨by rw [hpc]; exact ⟨rfl, rfl⟩, rfl, h⟩ ?_
    rintro c₁ u a c₂ ⟨hheld, hepoch, hr⟩ hok hn
    have hr' := hr.step trivial hn
    obtain ⟨sh, l, hs, rfl⟩ := Program.next_eq_some_iff.mp hn
    by_cases hu : u = t
    · subst hu
      obtain ⟨x, rfl⟩ := hok rfl
      have ht := (entered_of_reachable hr u).registered (hepoch ▸ hin)
      obtain ⟨hheld', hepoch'⟩ := heldUp_own hheld (hepoch ▸ hin) (hepoch ▸ hle) ht hs
      exact ⟨by simpa using hheld', hepoch'.trans hepoch, hr'⟩
    · refine ⟨by simpa [Function.update_of_ne (Ne.symm hu)] using hheld, ?_, hr'⟩
      exact ((moves_of_step hs).readerEpoch_ne (Ne.symm hu)).trans hepoch
  obtain ⟨hheld, -, hr'⟩ := hheld
  have hplace : (∀ r, (c'.locals t).pc = .idle r → r = .answer false) ∧
      (grace.bounded = false → ¬ (c'.locals t).pc.Returned) ∧
      (¬ (c'.locals t).pc.Returned → (c'.locals t).pc.advancing = some old) := by
    generalize (c'.locals t).pc = pc at hheld
    cases pc with
    | advanceStore | readersHead | readersPassed => exact ⟨nofun, fun _ => id, fun _ => congrArg some hheld.1⟩
    | collectLock safe fin | collect safe fin =>
      obtain ⟨rfl, -, rfl⟩ := hheld
      exact ⟨nofun, fun _ => id, fun _ => rfl⟩
    | idle r =>
      refine ⟨fun r' hr => ?_, fun hb => absurd (hb.symm.trans hheld.1) Bool.false_ne_true, fun hr => absurd trivial hr⟩
      cases hr
      exact hheld.2
    | _ => exact hheld.elim
  refine ⟨hplace.1, hplace.2.1, fun hout => ?_⟩
  exact ((exclusive_of_reachable hr').global t old (hplace.2.2 hout)).trans hglobal.symm

/-- The only thread waits inside its own section. -/
theorem own_section_holds_up_alone : ∃ c : Config Unit (Shared Unit Unit Unit) (Local Unit Unit Unit),
    (c.shared.readerEpoch (), c.shared.epoch.global) = (1, 2) ∧
      ∀ c', (domain Unit Unit Unit).Reachable (Stays ()) c c' → ¬ (c'.locals ()).pc.Returned := by
  have hrun : ((domain Unit Unit Unit).exec Program.anyStep (initial Unit Unit Unit)
      [((), .enter), ((), .run true), ((), .run true), ((), .run true), ((), .synchronizeEager), ((), .run true)]).map
      (fun c => ((c.shared.readerEpoch (), c.shared.epoch.global), (c.locals ()).pc)) =
        some ((1, 2), .advanceStore (.synchronize true) 1) := by
    decide
  obtain ⟨c, hc, he⟩ := Option.map_eq_some_iff.mp hrun
  obtain ⟨hwords, hpc⟩ := Prod.mk.injEq _ _ _ _ ▸ he
  have hword : c.shared.readerEpoch () = 1 := congrArg Prod.fst hwords
  have hin : c.shared.readerEpoch () ≠ 0 := by
    rw [hword]
    exact Nat.one_ne_zero
  exact ⟨c, hwords, fun c' hc' => (own_section_holds_up (.of_exec .init hc) hpc hin hc').2.1 rfl⟩

end Abix.RCU

import Abix.Concurrency.Completion
import Abix.RCU.Advancement
import Abix.RCU.Cadence
import Abix.RCU.ThreadExit

/-! Every call of the domain can be brought to its end. The lock is released, the calls that wait for
nobody return, the readers leave their sections, the owner of the advancement finishes, and those that
waited for it return after it. All this needs that nobody waits inside a section of its own. -/
namespace Abix.RCU
open Abix.Concurrency
variable {Tid Obj Fn : Type} [DecidableEq Tid] {t u : Tid} {a : Action Obj Fn} {sh sh' : Shared Tid Obj Fn}
  {l l' : Local Tid Obj Fn} {b : List (RetiredNode Obj Fn)}
  {c c' : Config Tid (Shared Tid Obj Fn) (Local Tid Obj Fn)}

def Action.waits : Action Obj Fn → Bool
  | .synchronize | .synchronizeEager | .synchronizeUntil _ => true
  | _ => false

/-- Nobody starts such a call inside a section of its own. -/
def WaitsOutside (c : Config Tid (Shared Tid Obj Fn) (Local Tid Obj Fn)) (t : Tid) (a : Action Obj Fn) : Prop :=
  a.waits = true → c.shared.readerEpoch t = 0

instance (c : Config Tid (Shared Tid Obj Fn) (Local Tid Obj Fn)) (t : Tid) (a : Action Obj Fn) :
    Decidable (WaitsOutside c t a) := inferInstanceAs (Decidable (_ → _))

def Allocates (s : Shared Tid Obj Fn × Local Tid Obj Fn) (x : Bool) : Prop := x = false → ∀ n, s.2.pc ≠ .retireQueue n

def Pc.allocates : Pc Tid Obj Fn → Bool
  | .retireQueue _ => true
  | _ => false

omit [DecidableEq Tid] in
theorem allocates_iff {s : Shared Tid Obj Fn × Local Tid Obj Fn} {x : Bool} :
    Allocates s x ↔ (x = false → s.2.pc.allocates = false) := by
  unfold Allocates
  cases s.2.pc with
  | retireQueue n => simp [Pc.allocates]
  | _ => simp [Pc.allocates]

omit [DecidableEq Tid] in
theorem allocates_of_pc {s : Shared Tid Obj Fn × Local Tid Obj Fn} {x : Bool} (h : s.2.pc.allocates = false) :
    Allocates s x := allocates_iff.mpr fun _ => h

omit [DecidableEq Tid] in
theorem allocates_true (s : Shared Tid Obj Fn × Local Tid Obj Fn) : Allocates s true := fun h => Bool.noConfusion h

omit [DecidableEq Tid] in
instance (s : Shared Tid Obj Fn × Local Tid Obj Fn) (x : Bool) : Decidable (Allocates s x) :=
  decidable_of_iff _ allocates_iff.symm

/-- No call starts but the exit of a thread that is inside a section, and no allocation fails. -/
def Completes (c : Config Tid (Shared Tid Obj Fn) (Local Tid Obj Fn)) (t : Tid) (a : Action Obj Fn) : Prop :=
  (∃ x, a = .run x ∧ Allocates (c.shared, c.locals t) x) ∨ (a = .exit ∧ c.shared.readerEpoch t ≠ 0)

def Pc.Waits : Pc Tid Obj Fn → Prop
  | .synchronizeLock _ | .synchronizeSpin | .untilLock _ | .untilContended _ | .advanceStore _ _ | .readersHead _ _
  | .readersPassed _ _ _ => True
  | _ => False

/-- A thread whose next access depends on another one, or that has none. -/
def Pc.Parked : Pc Tid Obj Fn → Prop
  | .idle _ | .exited | .synchronizeSpin | .untilLock _ | .readersHead _ _ => True
  | _ => False

def Sectioned (sh : Shared Tid Obj Fn) (t : Tid) (l : Local Tid Obj Fn) : Prop :=
  sh.readerEpoch t ≠ 0 → ¬ l.pc.Waits ∧ l.pc ≠ .exited

omit [DecidableEq Tid] in
theorem afterThread_not_waits (entering : Bool) : ¬ (afterThread entering : Pc Tid Obj Fn).Waits := by
  cases entering <;> exact id

private theorem start_not_waits {pc : Pc Tid Obj Fn} (h : start t sh a = some pc) (ha : a.waits = false) : ¬ pc.Waits := by
  cases a with
  | enter | exit =>
    cases h
    unfold getThread
    split
    · exact afterThread_not_waits _
    · exact id
  | synchronize | synchronizeEager | synchronizeUntil => cases ha
  | _ => cases h <;> exact id

private theorem sectioned_own (hm : Moves t sh a l sh' l') (hok : a.waits = true → sh.readerEpoch t = 0)
    (hl : Sectioned sh t l) : Sectioned sh' t l' := by
  cases hm with
  | called hs =>
    intro hin
    refine ⟨start_not_waits hs ?_, (first_of_start hs).ne_exited⟩
    cases ha : a.waits with
    | false => rfl
    | true => exact absurd (hok ha) hin
  | exits => exact fun hin => absurd (Function.update_self ..) hin
  | registers => exact fun _ => ⟨afterThread_not_waits _, (first_afterThread _).ne_exited⟩
  | contended | begins | beginsUntil | contendedUntil | retries | advances | readersHead | passes | rescans =>
    exact fun hin => absurd trivial (hl hin).1
  | _ => exact fun _ => ⟨id, nofun⟩

private theorem sectioned_of_reachable (h : (domain Tid Obj Fn).Reachable WaitsOutside (initial Tid Obj Fn) c) (t : Tid) :
    Sectioned c.shared t (c.locals t) := by
  have hstable : (domain Tid Obj Fn).Stable WaitsOutside (fun _ => True) Sectioned := by
    constructor
    · exact fun hok _ hj hs => ⟨trivial, sectioned_own (moves_of_step hs) hok (hj _)⟩
    · intro c t a sh l _ _ hj hs u hne hin
      rw [(moves_of_step hs).readerEpoch_ne hne] at hin
      exact hj u hin
  exact (hstable.reachable trivial (fun _ h => absurd rfl h) h).2 t

section Places

/-- A scan of the readers either starts again or finds that they have passed. -/
theorem comes_readersPassed (grace : Grace) (old : Nat) (rest : List Tid) :
    (∃ grace', (domain Tid Obj Fn).Comes t .run Allocates (sh, ⟨.readersPassed grace old rest, b⟩)
      (sh, ⟨.readersHead grace' old, b⟩)) ∨
    (domain Tid Obj Fn).Comes t .run Allocates (sh, ⟨.readersPassed grace old rest, b⟩)
      (sh, ⟨.collectLock old grace.finish, b⟩) := by
  induction rest with
  | nil => exact .inr (.one true (allocates_true _) rfl)
  | cons u rest ih =>
    by_cases hu : sh.readerEpoch u ≠ 0 ∧ sh.readerEpoch u ≤ old
    · left
      have hagain : ∃ grace', notPassed false old grace = (.readersHead grace' old : Pc Tid Obj Fn) := by
        cases grace with
        | synchronize eager => exact ⟨_, rfl⟩
        | synchronizeUntil bounded polls => exact ⟨_, if_neg fun h => Bool.noConfusion h.2.2⟩
      obtain ⟨grace', hagain⟩ := hagain
      refine ⟨grace', .one false (allocates_of_pc rfl) ?_⟩
      simp only [domain, step, run, if_pos hu, hagain]
    · have hstep : step t sh ⟨.readersPassed grace old (u :: rest), b⟩ (.run true) =
          some (sh, ⟨.readersPassed grace old rest, b⟩) := by
        simp only [step, run, if_neg hu]
      rcases ih with ⟨grace', h⟩ | h
      · exact .inl ⟨grace', .turn true (allocates_true _) hstep h⟩
      · exact .inr (.turn true (allocates_true _) hstep h)

private theorem comes_minScan (min : Nat) (rest : List Tid) : ∃ min',
    (domain Tid Obj Fn).Comes t .run Allocates (sh, ⟨.minScan min rest, b⟩) (sh, ⟨tryCollectFinish min', b⟩) := by
  induction rest generalizing min with
  | nil => exact ⟨min, .one true (allocates_true _) rfl⟩
  | cons u rest ih =>
    obtain ⟨min', h⟩ := ih (if sh.readerEpoch u ≠ 0 ∧ sh.readerEpoch u < min then sh.readerEpoch u else min)
    exact ⟨min', .turn true (allocates_true _) rfl h⟩

/-- The thread comes to a place where it is parked, and the lock is free there. -/
def Settles (t : Tid) (s : Shared Tid Obj Fn × Local Tid Obj Fn) : Prop :=
  ∃ s', (domain Tid Obj Fn).Comes t .run Allocates s s' ∧ s'.1.lock = none ∧ s'.2.pc.Parked

variable {s s₁ : Shared Tid Obj Fn × Local Tid Obj Fn}

theorem Settles.after (h : (domain Tid Obj Fn).Comes t .run Allocates s s₁) (hs : Settles t s₁) : Settles t s :=
  hs.imp fun _ hs => hs.imp_left h.trans

theorem Settles.turn (x : Bool) (hx : Allocates s x) (h : step t s.1 s.2 (.run x) = some s₁)
    (hs : Settles t s₁) : Settles t s :=
  hs.after (.one x hx h)

theorem Settles.here (hlock : s.1.lock = none) (hp : s.2.pc.Parked) : Settles t s := ⟨s, .refl s, hlock, hp⟩

theorem settles_afterThread (hlock : sh.lock = none) (entering : Bool) : Settles t (sh, ⟨afterThread entering, b⟩) := by
  cases entering with
  | true => exact .turn true (allocates_true _) rfl (.turn true (allocates_true _) rfl (.here hlock trivial))
  | false => exact .turn true (allocates_true _) rfl (.here hlock trivial)

theorem settles_collect (safe : Nat) (fin : Finish) : Settles t (sh, ⟨.collect safe fin, b⟩) :=
  .after ((leads_collect fin.todo fin.clear).comes true allocates_true) (.here rfl trivial)

theorem settles_collectLock (hlock : sh.lock = none) (safe : Nat) (fin : Finish) :
    Settles t (sh, ⟨.collectLock safe fin, b⟩) :=
  .after ((leads_collectLock hlock fin).comes true allocates_true) (.here rfl trivial)

theorem settles_minScan (hlock : sh.lock = none) (min : Nat) (rest : List Tid) :
    Settles t (sh, ⟨.minScan min rest, b⟩) := by
  obtain ⟨min', h⟩ : ∃ min', (domain Tid Obj Fn).Comes t .run Allocates (sh, ⟨.minScan min rest, b⟩) _ :=
    comes_minScan min rest
  refine .after h ?_
  unfold tryCollectFinish
  split
  · exact settles_collectLock hlock _ _
  · exact .here hlock trivial

private theorem settles_readersPassed (hlock : sh.lock = none) (grace : Grace) (old : Nat) (rest : List Tid) :
    Settles t (sh, ⟨.readersPassed grace old rest, b⟩) := by
  have hcomes : (∃ grace', (domain Tid Obj Fn).Comes t .run Allocates (sh, ⟨.readersPassed grace old rest, b⟩) _) ∨ _ :=
    comes_readersPassed grace old rest
  rcases hcomes with ⟨grace', h⟩ | h
  · exact .after h (.here hlock trivial)
  · exact .after h (settles_collectLock hlock _ _)

theorem settles_advanceStore (grace : Grace) (old : Nat) : Settles t (sh, ⟨.advanceStore grace old, b⟩) :=
  .turn true (allocates_true _) rfl (.here rfl trivial)

/-- A thread inside the locked section comes out of it. -/
theorem settles_of_locked (hp : Placed sh t l.pc) (hl : l.pc.Locked) : Settles t (sh, l) := by
  obtain ⟨pc, b⟩ := l
  cases pc with
  | advanceStore grace old => exact settles_advanceStore grace old
  | collect safe fin => exact settles_collect safe fin
  | sweep safe k kept rest fin =>
    exact .after (Program.Leads.comes true allocates_true ⟨_, leads_sweep sh fin rest kept hp.2⟩)
      (settles_collect safe fin)
  | _ => exact hl.elim

private theorem settles_synchronizeLock (hlock : sh.lock = none) (eager : Bool) :
    Settles t (sh, ⟨.synchronizeLock eager, b⟩) := by
  have hstep : step t sh ⟨.synchronizeLock eager, b⟩ (.run true) =
      some ((synchronizeImpl t eager (publishLocalBatchLocked sh b)).1,
        ⟨(synchronizeImpl t eager (publishLocalBatchLocked sh b)).2, []⟩) := by
    simp only [step, run, if_pos hlock]
  refine .turn true (allocates_true _) hstep ?_
  unfold synchronizeImpl
  split
  · exact .here hlock trivial
  · split
    · exact settles_advanceStore _ _
    · split
      · exact .here hlock trivial
      · exact settles_advanceStore _ _

theorem settles_retirePublish (hlock : sh.lock = none) (token : Nat) : Settles t (sh, ⟨.retirePublish token, b⟩) := by
  have hstep : step t sh ⟨.retirePublish token, b⟩ (.run true) =
      some (publishLocalBatchLocked sh b, ⟨.idle (.token token), []⟩) := by
    simp only [step, run, if_pos hlock]
  exact .turn true (allocates_true _) hstep (.here hlock trivial)

theorem settles_retireQueue (hlock : sh.lock = none) (node : RetiredNode Obj Fn) :
    Settles t (sh, ⟨.retireQueue node, b⟩) := by
  by_cases hroom : b.length + 1 < batchPublish
  · have hstep : step t sh ⟨.retireQueue node, b⟩ (.run true) =
        some ({ sh with queued := node :: sh.queued }, ⟨.idle (.token node.epoch), b ++ [node]⟩) := by
      simp only [step, run, if_true, if_pos hroom]
    exact .turn true (allocates_true _) hstep (.here hlock trivial)
  · have hstep : step t sh ⟨.retireQueue node, b⟩ (.run true) =
        some ({ sh with queued := node :: sh.queued }, ⟨.retirePublish node.epoch, b ++ [node]⟩) := by
      simp only [step, run, if_true, if_neg hroom]
    have hfree : { sh with queued := node :: sh.queued }.lock = none := hlock
    exact .turn true (allocates_true _) hstep (settles_retirePublish hfree _)

/-- With the lock free every thread comes to a place where it is parked. -/
theorem settles_of_free (hlock : sh.lock = none) (hp : Placed sh t l.pc) : Settles t (sh, l) := by
  by_cases hl : l.pc.Locked
  · exact settles_of_locked hp hl
  obtain ⟨pc, b⟩ := l
  cases pc with
  | idle | exited | synchronizeSpin | untilLock | readersHead => exact .here hlock trivial
  | registerThread entering =>
    have hstep : step t sh ⟨.registerThread entering, b⟩ (.run true) =
        some ({ sh with threads := t :: sh.threads }, ⟨afterThread entering, b⟩) := by
      simp only [step, run, if_pos hlock]
    have hfree : { sh with threads := t :: sh.threads }.lock = none := hlock
    exact .turn true (allocates_true _) hstep (settles_afterThread hfree entering)
  | enterLoad => exact settles_afterThread hlock true
  | enterStore epoch => exact .turn true (allocates_true _) rfl (.here hlock trivial)
  | exitStore => exact settles_afterThread hlock false
  | retireLoad object reclaim cls =>
    have hstep : step t sh ⟨.retireLoad object reclaim cls, b⟩ (.run true) =
        some ({ sh with tagged := ⟨object, sh.epoch.global, reclaim, cls⟩ :: sh.tagged },
          ⟨.retireQueue ⟨object, sh.epoch.global, reclaim, cls⟩, b⟩) := rfl
    have hfree : { sh with tagged := ⟨object, sh.epoch.global, reclaim, cls⟩ :: sh.tagged }.lock = none := hlock
    exact .turn true (allocates_true _) hstep (settles_retireQueue hfree _)
  | retireQueue node => exact settles_retireQueue hlock node
  | retirePublish token => exact settles_retirePublish hlock token
  | synchronizeLock eager => exact settles_synchronizeLock hlock eager
  | untilContended bounded =>
    have hstep : step t sh ⟨.untilContended bounded, b⟩ (.run false) = some (sh, ⟨.untilLock bounded, b⟩) := by
      simp only [step, run, Bool.and_false, Bool.false_eq_true, if_false]
    exact .turn false (allocates_of_pc rfl) hstep (.here hlock trivial)
  | readersPassed grace old rest => exact settles_readersPassed hlock grace old rest
  | tryLock =>
    have hstep : step t sh ⟨.tryLock, b⟩ (.run true) =
        some (publishLocalBatchLocked sh b, ⟨.minHead sh.epoch.global, []⟩) := by
      simp only [step, run, if_pos hlock]
    have hfree : (publishLocalBatchLocked sh b).lock = none := hlock
    exact .turn true (allocates_true _) hstep (.turn true (allocates_true _) rfl (settles_minScan hfree _ _))
  | minHead current => exact .turn true (allocates_true _) rfl (settles_minScan hlock _ _)
  | minScan min rest => exact settles_minScan hlock min rest
  | collectLock safe fin => exact settles_collectLock hlock safe fin
  | advanceStore | collect | sweep => exact absurd trivial hl

end Places

section Stages

/-- Where the continuation stands: it is a run of the domain, and the lock is free. -/
structure Freed (c : Config Tid (Shared Tid Obj Fn) (Local Tid Obj Fn)) : Prop where
  reachable : (domain Tid Obj Fn).Reachable WaitsOutside (initial Tid Obj Fn) c
  lock : c.shared.lock = none

omit [DecidableEq Tid] in
private theorem Completes.waitsOutside (h : Completes c t a) : WaitsOutside c t a := by
  rcases h with ⟨x, rfl, -⟩ | ⟨rfl, -⟩ <;> exact nofun

theorem reachable_completes (h : (domain Tid Obj Fn).Reachable WaitsOutside (initial Tid Obj Fn) c)
    (hc : (domain Tid Obj Fn).Reachable Completes c c') :
    (domain Tid Obj Fn).Reachable WaitsOutside (initial Tid Obj Fn) c' :=
  h.trans (hc.mono fun _ _ _ => Completes.waitsOutside)

theorem Settles.reachable (h : Settles t (c.shared, c.locals t)) : ∃ sh l,
    (domain Tid Obj Fn).Reachable Completes c ⟨sh, Function.update c.locals t l⟩ ∧ sh.lock = none ∧ l.pc.Parked := by
  obtain ⟨s, hs, hlock, hp⟩ := h
  exact ⟨s.1, s.2, hs.reachable fun _ x hx => .inl ⟨x, rfl, hx⟩, hlock, hp⟩

/-- The holder of the lock comes out of its section. -/
theorem lock_released (h : (domain Tid Obj Fn).Reachable WaitsOutside (initial Tid Obj Fn) c) :
    ∃ c', (domain Tid Obj Fn).Reachable Completes c c' ∧ Freed c' := by
  cases hlock : c.shared.lock with
  | none => exact ⟨c, .init, h, hlock⟩
  | some t =>
    have hcust := custody_of_reachable h
    obtain ⟨sh, l, hr, hfree, -⟩ := (settles_of_locked (hcust.placed t) (hcust.locked t hlock)).reachable
    exact ⟨_, hr, reachable_completes h hr, hfree⟩

private theorem all_parked [Fintype Tid] (h : Freed c) : ∃ c',
    (domain Tid Obj Fn).Reachable Completes c c' ∧ Freed c' ∧ ∀ t, (c'.locals t).pc.Parked := by
  refine Program.one_by_one (Q := fun c t => (c.locals t).pc.Parked) (fun c t h => ?_) h
  have hp := (custody_of_reachable h.reachable).placed t
  obtain ⟨sh, l, hr, hfree, hparked⟩ := (settles_of_free h.lock hp).reachable
  refine ⟨_, hr, ⟨reachable_completes h.reachable hr, hfree⟩, by simpa using hparked, fun u hu => ?_⟩
  exact Program.update_of_both (P := fun l : Local Tid Obj Fn => l.pc.Parked) hparked hu

/-- The exit of a thread, as a whole. The thread registers first if it has no record. -/
theorem comes_exit (hlock : sh.lock = none) : ∃ threads, (domain Tid Obj Fn).Comes t .run Allocates
    (sh, ⟨getThread t sh false, b⟩)
    ({ sh with threads, readerEpoch := Function.update sh.readerEpoch t 0 }, ⟨.idle .unit, b⟩) := by
  unfold getThread
  split
  · exact ⟨sh.threads, .one true (allocates_true _) rfl⟩
  · refine ⟨t :: sh.threads, ?_⟩
    have hstep : step t sh ⟨.registerThread false, b⟩ (.run true) =
        some ({ sh with threads := t :: sh.threads }, ⟨.exitStore, b⟩) := by
      simp only [step, run, if_pos hlock]
      rfl
    exact .turn true (allocates_true _) hstep (.one true (allocates_true _) rfl)

structure Vacated (c : Config Tid (Shared Tid Obj Fn) (Local Tid Obj Fn)) : Prop extends Freed c where
  parked : ∀ t, (c.locals t).pc.Parked
  readers : ∀ t, c.shared.readerEpoch t = 0

private theorem all_left [Fintype Tid] (h : Freed c) (hparked : ∀ t, (c.locals t).pc.Parked) :
    ∃ c', (domain Tid Obj Fn).Reachable Completes c c' ∧ Vacated c' := by
  suffices hstage : ∃ c', (domain Tid Obj Fn).Reachable Completes c c' ∧ (Freed c' ∧ ∀ t, (c'.locals t).pc.Parked) ∧
      ∀ t, c'.shared.readerEpoch t = 0 by
    obtain ⟨c', hr, ⟨hfreed, hparked⟩, hreaders⟩ := hstage
    exact ⟨c', hr, hfreed, hparked, hreaders⟩
  refine Program.one_by_one (I := fun c => Freed c ∧ ∀ t, (c.locals t).pc.Parked)
    (Q := fun c t => c.shared.readerEpoch t = 0) ?_ ⟨h, hparked⟩
  rintro c t ⟨h, hparked⟩
  by_cases hin : c.shared.readerEpoch t = 0
  · exact ⟨c, .init, ⟨h, hparked⟩, hin, fun _ hu => hu⟩
  obtain ⟨hwaits, hexited⟩ := sectioned_of_reachable h.reachable t hin
  obtain ⟨r, hidle⟩ : ∃ r, (c.locals t).pc = .idle r := by
    have hp := hparked t
    generalize (c.locals t).pc = pc at hp hwaits hexited
    cases pc with
    | idle r => exact ⟨r, rfl⟩
    | exited => exact absurd rfl hexited
    | synchronizeSpin | untilLock | readersHead => exact absurd trivial hwaits
    | _ => exact hp.elim
  have hstart : step t c.shared (c.locals t) .exit =
      some (c.shared, ⟨getThread t c.shared false, (c.locals t).batch⟩) := by
    simp only [step, hidle, start, Option.map_some]
  obtain ⟨threads, hcomes⟩ := comes_exit (t := t) (b := (c.locals t).batch) h.lock
  have hr : (domain Tid Obj Fn).Reachable Completes c _ :=
    hcomes.reachable_of_step (fun _ x hx => .inl ⟨x, rfl, hx⟩) (.inr ⟨rfl, hin⟩) hstart
  refine ⟨_, hr, ⟨⟨reachable_completes h.reachable hr, h.lock⟩, fun u => ?_⟩, Function.update_self .., fun u hu => ?_⟩
  · exact Program.update_of_both (P := fun l : Local Tid Obj Fn => l.pc.Parked) trivial (hparked u)
  · by_cases hut : u = t
    · simp [hut]
    · simpa [Function.update_of_ne hut] using hu

omit [DecidableEq Tid] in
theorem collectedAll_readers (sh : Shared Tid Obj Fn) (todo : List ReclaimClass) (safe : Nat) :
    (sh.collectedAll todo safe).readerEpoch = sh.readerEpoch ∧ (sh.collectedAll todo safe).threads = sh.threads := by
  have hone (k : ReclaimClass) (sh : Shared Tid Obj Fn) :
      (sh.collected k safe).readerEpoch = sh.readerEpoch ∧ (sh.collected k safe).threads = sh.threads := by
    unfold Shared.collected
    split <;> exact ⟨rfl, rfl⟩
  induction todo generalizing sh with
  | nil => exact ⟨rfl, rfl⟩
  | cons k todo ih =>
    obtain ⟨hepoch, hthreads⟩ := ih (sh.collected k safe)
    exact ⟨hepoch.trans (hone k sh).1, hthreads.trans (hone k sh).2⟩

omit [DecidableEq Tid] in
theorem Undisturbed.collectedAll (h : Undisturbed sh) (todo : List ReclaimClass) (safe : Nat) :
    Undisturbed (sh.collectedAll todo safe) := by
  have hsame : (sh.collectedAll todo safe).under none 0 = sh.collectedAll todo safe := by
    rw [← collectedAll_under, h.under]
  obtain ⟨hepoch, hthreads⟩ := collectedAll_readers sh todo safe
  refine ⟨congrArg Shared.lock hsame.symm, congrArg (fun sh => sh.epoch.sync) hsame.symm, ?_⟩
  rw [hepoch, hthreads]
  exact h.readers

/-- Nobody holds the lock or the epoch, and nobody is inside a section. -/
theorem Vacated.undisturbed (h : Vacated c) (hsync : c.shared.epoch.sync = 0) : Undisturbed c.shared :=
  ⟨h.lock, hsync, fun u _ => h.readers u⟩

/-- The owner of the advancement finishes, since all readers have passed. -/
theorem advancement_finished (h : Vacated c) :
    ∃ c', (domain Tid Obj Fn).Reachable Completes c c' ∧ Vacated c' ∧ c'.shared.epoch.sync = 0 := by
  by_cases hsync : c.shared.epoch.sync = 0
  · exact ⟨c, .init, h, hsync⟩
  obtain ⟨t, old, howns⟩ := (exclusive_of_reachable h.reachable).owned hsync
  obtain ⟨grace, hpc⟩ : ∃ grace, (c.locals t).pc = .readersHead grace old := by
    have hp := h.parked t
    generalize (c.locals t).pc = pc at hp howns
    cases pc with
    | readersHead grace old' =>
      obtain rfl : old' = old := Option.some.inj howns
      exact ⟨grace, rfl⟩
    | idle | exited | synchronizeSpin | untilLock => cases howns
    | _ => exact hp.elim
  have hclear : grace.finish.clear = true := by cases grace <;> rfl
  have hhead : (domain Tid Obj Fn).Leads t .run (c.shared, ⟨.readersHead grace old, (c.locals t).batch⟩)
      (c.shared, ⟨.readersPassed grace old c.shared.threads, (c.locals t).batch⟩) := .one fun _ => rfl
  have hlead := (hhead.trans (leads_readersPassed grace old _ fun u _ => h.readers u)).trans
    (leads_collectLock h.lock grace.finish)
  rw [hclear, if_pos rfl, ← hpc] at hlead
  have hr : (domain Tid Obj Fn).Reachable Completes c _ :=
    (hlead.comes true allocates_true).reachable fun _ x hx => .inl ⟨x, rfl, hx⟩
  refine ⟨_, hr, ⟨⟨reachable_completes h.reachable hr, rfl⟩, fun u => ?_, fun u => ?_⟩, rfl⟩
  · exact Program.update_of_both (P := fun l : Local Tid Obj Fn => l.pc.Parked) trivial (h.parked u)
  · exact (congrFun (collectedAll_readers _ _ _).1 u).trans (h.readers u)

/-- The turns of a call that ends where nobody is disturbed. -/
theorem Vacated.returns (h : Vacated c) (hok : (domain Tid Obj Fn).Reachable Completes c
      ⟨sh, Function.update c.locals t l⟩) (hundisturbed : Undisturbed sh)
    (hreaders : sh.readerEpoch = c.shared.readerEpoch)
    (hl : l.pc.Parked) : Vacated ⟨sh, Function.update c.locals t l⟩ := by
  refine ⟨⟨reachable_completes h.reachable hok, hundisturbed.lock⟩, fun u => ?_, fun u => ?_⟩
  · exact Program.update_of_both (P := fun l : Local Tid Obj Fn => l.pc.Parked) hl (h.parked u)
  · exact (congrFun hreaders u).trans (h.readers u)

/-- Those who waited for the advancement return. -/
theorem all_returned [Fintype Tid] (h : Vacated c) (hsync : c.shared.epoch.sync = 0) :
    ∃ c', (domain Tid Obj Fn).Reachable Completes c c' ∧ (Vacated c' ∧ c'.shared.epoch.sync = 0) ∧
      ∀ t, (c'.locals t).pc.Returned := by
  refine Program.one_by_one (I := fun c => Vacated c ∧ c.shared.epoch.sync = 0)
    (Q := fun c t => (c.locals t).pc.Returned) (fun c t h => ?_) ⟨h, hsync⟩
  obtain ⟨h, hsync⟩ := h
  have hundisturbed := h.undisturbed hsync
  have hparked := h.parked t
  cases hpc : (c.locals t).pc with
  | idle | exited => exact ⟨c, .init, ⟨h, hsync⟩, by rw [hpc]; trivial, fun _ hu => hu⟩
  | readersHead grace old =>
    have howns : (c.locals t).pc.owns = some old := by rw [hpc]; rfl
    exact absurd (hsync.symm.trans ((exclusive_of_reachable h.reachable).sync t old howns)) (Nat.succ_ne_zero _).symm
  | synchronizeSpin =>
    have hstep : step t c.shared (c.locals t) (.run true) = some (c.shared, { c.locals t with pc := .idle .unit }) := by
      simp only [step, run, hpc, if_pos hsync]
    have hcomes : (domain Tid Obj Fn).Comes t .run Allocates (c.shared, c.locals t)
        (c.shared, { c.locals t with pc := .idle .unit }) :=
      .one true (allocates_true _) hstep
    have hr : (domain Tid Obj Fn).Reachable Completes c _ := hcomes.reachable fun _ x hx => .inl ⟨x, rfl, hx⟩
    refine ⟨_, hr, ⟨h.returns hr hundisturbed rfl trivial, hsync⟩, by simp [Pc.Returned], fun u hu => ?_⟩
    exact Program.update_of_both (P := fun l : Local Tid Obj Fn => l.pc.Returned) trivial hu
  | untilLock bounded =>
    have hlead := leads_untilLock (t := t) (b := (c.locals t).batch) hundisturbed bounded
    rw [← hpc] at hlead
    have hr : (domain Tid Obj Fn).Reachable Completes c _ :=
      (hlead.comes true allocates_true).reachable fun _ x hx => .inl ⟨x, rfl, hx⟩
    have hend := hundisturbed.published (b := (c.locals t).batch) |>.advances.collectedAll [.eager, .batched]
      c.shared.epoch.global
    refine ⟨_, hr, ⟨h.returns hr hend (collectedAll_readers _ _ _).1 trivial, hend.sync⟩, by simp [Pc.Returned],
      fun u hu => ?_⟩
    exact Program.update_of_both (P := fun l : Local Tid Obj Fn => l.pc.Returned) trivial hu
  | _ =>
    rw [hpc] at hparked
    exact hparked.elim

theorem vacated_of_reachable [Fintype Tid] (h : (domain Tid Obj Fn).Reachable WaitsOutside (initial Tid Obj Fn) c) :
    ∃ c', (domain Tid Obj Fn).Reachable Completes c c' ∧ (Vacated c' ∧ c'.shared.epoch.sync = 0) ∧
      ∀ t, (c'.locals t).pc.Returned := by
  obtain ⟨c₁, hr₁, h₁⟩ := lock_released h
  obtain ⟨c₂, hr₂, h₂, hparked⟩ := all_parked h₁
  obtain ⟨c₃, hr₃, h₃⟩ := all_left h₂ hparked
  obtain ⟨c₄, hr₄, h₄, hsync⟩ := advancement_finished h₃
  obtain ⟨c₅, hr₅, h₅, hreturned⟩ := all_returned h₄ hsync
  exact ⟨c₅, (((hr₁.trans hr₂).trans hr₃).trans hr₄).trans hr₅, h₅, hreturned⟩

end Stages

/-- In every run in which no thread waits for a grace period inside a section of its own, whatever state
is reached, the threads that are in calls or sections can all come out of them, with no call that starts
but the exits of the readers: then the lock and the epoch are free and nobody is inside a section.
Reclaim callbacks make no call of the domain here. -/
theorem calls_can_complete [Fintype Tid] (h : (domain Tid Obj Fn).Reachable WaitsOutside (initial Tid Obj Fn) c) :
    ∃ c', (domain Tid Obj Fn).Reachable Completes c c' ∧ (∀ t, (c'.locals t).pc.Returned) ∧
      c'.shared.lock = none ∧ c'.shared.epoch.sync = 0 ∧ ∀ t, c'.shared.readerEpoch t = 0 := by
  obtain ⟨c', hr, ⟨hvacated, hsync⟩, hreturned⟩ := vacated_of_reachable h
  exact ⟨c', hr, hreturned, hvacated.lock, hsync, hvacated.readers⟩

/-- A reader is inside, the owner of an advancement scans, a third thread waits for the owner. -/
theorem calls_can_complete_waiting : ∃ c c' : Config (Fin 3) (Shared (Fin 3) Unit Unit) (Local (Fin 3) Unit Unit),
    (c.shared.readerEpoch 0, c.shared.epoch.sync, (c.locals 2).pc) = (1, 2, .synchronizeSpin) ∧
      (∀ t, (c'.locals t).pc.Returned) ∧ c'.shared.epoch.sync = 0 := by
  have hrun : ((domain (Fin 3) Unit Unit).exec WaitsOutside (initial (Fin 3) Unit Unit)
      ([(0, .enter), (0, .run true), (0, .run true), (0, .run true), (1, .synchronizeEager), (1, .run true),
        (1, .run true), (2, .synchronizeEager), (2, .run true)])).map
      (fun c => (c.shared.readerEpoch 0, c.shared.epoch.sync, (c.locals 2).pc)) = some (1, 2, .synchronizeSpin) := by
    decide
  obtain ⟨c, hc, he⟩ := Option.map_eq_some_iff.mp hrun
  obtain ⟨c', -, hreturned, -, hsync, -⟩ := calls_can_complete (.of_exec .init hc)
  exact ⟨c, c', he, hreturned, hsync⟩

end Abix.RCU

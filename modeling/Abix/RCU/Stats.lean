import Abix.RCU.Custody

/-! The diagnostics of the domain, as a build that enables them runs it. An increment made under the
writer lock belongs to the locked section. The others are accesses of their own: the thread that has
one to make makes it before its next access to the domain. -/
namespace Abix.RCU.Stats
open Abix.Concurrency
variable {Tid Obj Fn : Type} [DecidableEq Tid]

inductive Counter where
  | advanceAttempts
  | advanceContentions
  | advanceRetries
  | advanceTimeouts
  | advanceMaxWaitNs
  | gracePeriodTimeouts
  deriving DecidableEq, Repr

/-- The order in which `stats` loads them and `reset_stats` clears them. -/
def Counter.all : List Counter :=
  [.advanceAttempts, .advanceContentions, .advanceRetries, .advanceTimeouts, .advanceMaxWaitNs, .gracePeriodTimeouts]

inductive Note where
  | startsWait
  | increments (k : Counter)
  | measures
  | observes (ns : Nat)
  | exchanges (ns observed : Nat)
  | loads (k : Counter)
  | walks
  | clears (k : Counter)
  | unlocks
  deriving DecidableEq, Repr

/-- The fields of the snapshot but for `retired_oldest_age_ns`. -/
structure Snapshot where
  counters : Counter → Nat := fun _ => 0
  retiredBacklog : Nat := 0
  registeredThreads : Nat := 0

/-- The domain and its counters, 64-bit words that are assumed not to wrap. The last two fields are
history that no step reads: the epoch when the attempts and contentions were last cleared, and the waits
noted since the longest one was. -/
structure Measured (Tid Obj Fn : Type) where
  dom : Shared Tid Obj Fn := {}
  counters : Counter → Nat := fun _ => 0
  base : Nat := 1
  noted : List Nat := []

/-- A thread, when it began to wait for the advancement, the accesses it has to make, and the snapshot
it is taking or has taken last. -/
structure Watched (Tid Obj Fn : Type) where
  thread : Local Tid Obj Fn := {}
  waitStart : Option UInt64 := none
  notes : List Note := []
  snapshot : Snapshot := {}

/-- An access to the domain, one of the diagnostics calls, or an access to a counter with the reading
of the clock that it may need. -/
inductive StatAction (Obj Fn : Type) where
  | access (a : Action Obj Fn)
  | stats
  | resetStats
  | note (clock : UInt64)
  deriving DecidableEq

def increment (k : Counter) (counters : Counter → Nat) : Counter → Nat :=
  Function.update counters k (counters k + 1)

/-- What the locked section of `begin_advance` or `synchronize_impl` counts. -/
def tally (sh : Shared Tid Obj Fn) (counters : Counter → Nat) : Pc Tid Obj Fn → Counter → Nat
  | .untilLock _ =>
    let attempted := increment .advanceAttempts counters
    if sh.epoch.sync ≠ 0 then increment .advanceContentions attempted else attempted
  | .synchronizeLock eager =>
    if sh.epoch.sync ≠ 0 then increment .advanceContentions (increment .advanceAttempts counters)
    else if eager = false ∧ sh.syncCount + 1 < epochBatch then counters
    else increment .advanceAttempts counters
  | _ => counters

/-- What `synchronize_until` has to note between two of its accesses. -/
def due (waiting : Bool) : Pc Tid Obj Fn → Pc Tid Obj Fn → List Note
  | .untilLock _, .untilContended _ => [.startsWait, .increments .advanceRetries]
  | .untilContended _, .idle _ => [.increments .advanceTimeouts, .measures]
  | .advanceStore (.synchronizeUntil _ _) _, _ => if waiting then [.measures] else []
  | .readersPassed _ _ (_ :: _), .collectLock _ _ => [.increments .gracePeriodTimeouts]
  | _, _ => []

def restarts : Action Obj Fn → Bool
  | .synchronizeUntil _ => true
  | _ => false

/-- `note_max_wait_ns` once the word has been observed: the wait is noted unless it would be the
longest. -/
def compareMax (ns observed : Nat) (rest : List Note) (m : Measured Tid Obj Fn) (w : Watched Tid Obj Fn) :
    Measured Tid Obj Fn × Watched Tid Obj Fn :=
  if observed < ns then (m, { w with notes := .exchanges ns observed :: rest })
  else ({ m with noted := ns :: m.noted }, { w with notes := rest })

def perform (clock : UInt64) (rest : List Note) (m : Measured Tid Obj Fn) (w : Watched Tid Obj Fn) :
    Note → Measured Tid Obj Fn × Watched Tid Obj Fn
  | .startsWait => (m, { w with notes := rest, waitStart := some (w.waitStart.getD clock) })
  | .increments k => ({ m with counters := increment k m.counters }, { w with notes := rest })
  | .measures => (m, { w with notes := .observes (clock - w.waitStart.getD 0).toNat :: rest })
  | .observes ns => compareMax ns (m.counters .advanceMaxWaitNs) rest m w
  | .exchanges ns observed =>
    if m.counters .advanceMaxWaitNs = observed then
      ({ m with counters := Function.update m.counters .advanceMaxWaitNs ns, noted := ns :: m.noted },
        { w with notes := rest })
    else compareMax ns (m.counters .advanceMaxWaitNs) rest m w
  | .loads k =>
    (m, { w with
      notes := rest
      snapshot := { w.snapshot with counters := Function.update w.snapshot.counters k (m.counters k) } })
  | .walks =>
    (m, { w with
      notes := rest
      snapshot := { w.snapshot with
        retiredBacklog := m.dom.retired.length
        registeredThreads := m.dom.threads.length } })
  | .clears k =>
    ({ m with
      counters := Function.update m.counters k 0
      base := if k = .advanceContentions then m.dom.epoch.global else m.base
      noted := if k = .advanceMaxWaitNs then [] else m.noted }, { w with notes := rest })
  | .unlocks => ({ m with dom := { m.dom with lock := none } }, { w with notes := rest })

def statsNotes : List Note := Counter.all.map .loads ++ [.walks, .unlocks]

def resetNotes : List Note := Counter.all.map .clears ++ [.unlocks]

/-- A diagnostics call takes the lock and makes its accesses under it. -/
def locks (t : Tid) (notes : List Note) (m : Measured Tid Obj Fn) (w : Watched Tid Obj Fn) :
    Option (Measured Tid Obj Fn × Watched Tid Obj Fn) :=
  match w.thread.pc with
  | .idle _ =>
    if m.dom.lock = none then
      some ({ m with dom := { m.dom with lock := some t } }, { w with notes })
    else none
  | _ => none

def step (t : Tid) (m : Measured Tid Obj Fn) (w : Watched Tid Obj Fn) (a : StatAction Obj Fn) :
    Option (Measured Tid Obj Fn × Watched Tid Obj Fn) :=
  match a, w.notes with
  | .note clock, n :: rest => some (perform clock rest m w n)
  | .access a, [] =>
    (RCU.step t m.dom w.thread a).map fun r =>
      ({ m with dom := r.1, counters := tally m.dom m.counters w.thread.pc },
        { w with
          thread := r.2
          waitStart := if restarts a then none else w.waitStart
          notes := due w.waitStart.isSome w.thread.pc r.2.pc })
  | .stats, [] => locks t statsNotes m { w with snapshot := {} }
  | .resetStats, [] => locks t resetNotes m w
  | _, _ => none

def measured (Tid Obj Fn : Type) [DecidableEq Tid] :
    Program Tid (Measured Tid Obj Fn) (Watched Tid Obj Fn) (StatAction Obj Fn) where
  step := step

def start (Tid Obj Fn : Type) : Config Tid (Measured Tid Obj Fn) (Watched Tid Obj Fn) := ⟨{}, fun _ => {}⟩

variable {t u : Tid} {a : StatAction Obj Fn} {m m' : Measured Tid Obj Fn} {w w' wu : Watched Tid Obj Fn}
  {c c' : Config Tid (Measured Tid Obj Fn) (Watched Tid Obj Fn)} {n : Note} {rest : List Note}

def Note.Compares (ns : Nat) : Note → Prop
  | .observes ns' | .exchanges ns' _ => ns' = ns
  | _ => False

inductive Does (t : Tid) (m : Measured Tid Obj Fn) :
    StatAction Obj Fn → Watched Tid Obj Fn → Measured Tid Obj Fn → Watched Tid Obj Fn → Prop
  | accesses {l s x a d l'} : Moves t m.dom a l d l' →
      Does t m (.access a) ⟨l, s, [], x⟩ { m with dom := d, counters := tally m.dom m.counters l.pc }
        ⟨l', if restarts a then none else s, due s.isSome l.pc l'.pc, x⟩
  | reads {r b s x} : m.dom.lock = none → Does t m .stats ⟨⟨.idle r, b⟩, s, [], x⟩
      { m with dom := { m.dom with lock := some t } } ⟨⟨.idle r, b⟩, s, statsNotes, {}⟩
  | resets {r b s x} : m.dom.lock = none → Does t m .resetStats ⟨⟨.idle r, b⟩, s, [], x⟩
      { m with dom := { m.dom with lock := some t } } ⟨⟨.idle r, b⟩, s, resetNotes, x⟩
  | startsWait {clock l s rest x} :
      Does t m (.note clock) ⟨l, s, .startsWait :: rest, x⟩ m ⟨l, some (s.getD clock), rest, x⟩
  | increments {clock k l s rest x} : Does t m (.note clock) ⟨l, s, .increments k :: rest, x⟩
      { m with counters := increment k m.counters } ⟨l, s, rest, x⟩
  | measures {clock ns l s rest x} : ns = (clock - s.getD 0).toNat →
      Does t m (.note clock) ⟨l, s, .measures :: rest, x⟩ m ⟨l, s, .observes ns :: rest, x⟩
  | observes {clock n ns l s rest x} : n.Compares ns → m.counters .advanceMaxWaitNs < ns →
      Does t m (.note clock) ⟨l, s, n :: rest, x⟩ m
        ⟨l, s, .exchanges ns (m.counters .advanceMaxWaitNs) :: rest, x⟩
  | keeps {clock n ns l s rest x} : n.Compares ns → ns ≤ m.counters .advanceMaxWaitNs →
      Does t m (.note clock) ⟨l, s, n :: rest, x⟩ { m with noted := ns :: m.noted } ⟨l, s, rest, x⟩
  | raises {clock ns l s rest x} :
      Does t m (.note clock) ⟨l, s, .exchanges ns (m.counters .advanceMaxWaitNs) :: rest, x⟩
        { m with counters := Function.update m.counters .advanceMaxWaitNs ns, noted := ns :: m.noted } ⟨l, s, rest, x⟩
  | loads {clock k l s rest x} : Does t m (.note clock) ⟨l, s, .loads k :: rest, x⟩ m
      ⟨l, s, rest, { x with counters := Function.update x.counters k (m.counters k) }⟩
  | walks {clock l s rest x} : Does t m (.note clock) ⟨l, s, .walks :: rest, x⟩ m
      ⟨l, s, rest, { x with retiredBacklog := m.dom.retired.length, registeredThreads := m.dom.threads.length }⟩
  | clears {clock k l s rest x} : Does t m (.note clock) ⟨l, s, .clears k :: rest, x⟩
      { m with
        counters := Function.update m.counters k 0
        base := if k = .advanceContentions then m.dom.epoch.global else m.base
        noted := if k = .advanceMaxWaitNs then [] else m.noted } ⟨l, s, rest, x⟩
  | unlocks {clock l s rest x} : Does t m (.note clock) ⟨l, s, .unlocks :: rest, x⟩
      { m with dom := { m.dom with lock := none } } ⟨l, s, rest, x⟩

omit [DecidableEq Tid] in
theorem locks_inv {notes : List Note} (h : locks t notes m w = some (m', w')) : (∃ r, w.thread.pc = .idle r) ∧
    m.dom.lock = none ∧ m' = { m with dom := { m.dom with lock := some t } } ∧ w' = { w with notes } := by
  unfold locks at h
  split at h
  · rename_i r hpc
    by_cases hlock : m.dom.lock = none
    · rw [if_pos hlock] at h
      cases h
      exact ⟨⟨r, hpc⟩, hlock, rfl, rfl⟩
    · rw [if_neg hlock] at h
      cases h
  · cases h

theorem does_of_compareMax {clock : UInt64} {ns : Nat} (hn : n.Compares ns) (hw : w.notes = n :: rest)
    (h : compareMax ns (m.counters .advanceMaxWaitNs) rest m w = (m', w')) : Does t m (.note clock) w m' w' := by
  obtain ⟨l, s, notes, x⟩ := w
  obtain rfl := hw
  unfold compareMax at h
  split at h
  · cases h
    exact .observes hn ‹_›
  · cases h
    exact .keeps hn (Nat.not_lt.mp ‹_›)

private theorem does_of_perform {clock : UInt64} {l : Local Tid Obj Fn} {s : Option UInt64} {x : Snapshot}
    (h : perform clock rest m ⟨l, s, n :: rest, x⟩ n = (m', w')) :
    Does t m (.note clock) ⟨l, s, n :: rest, x⟩ m' w' := by
  cases n with
  | startsWait =>
    cases h
    exact .startsWait
  | increments k =>
    cases h
    exact .increments
  | measures =>
    cases h
    exact .measures rfl
  | observes ns => exact does_of_compareMax (n := .observes ns) rfl rfl h
  | exchanges ns observed =>
    simp only [perform] at h
    split at h
    · rename_i hsame
      cases h
      subst hsame
      exact .raises
    · exact does_of_compareMax (n := .exchanges ns observed) rfl rfl h
  | loads k =>
    cases h
    exact .loads
  | walks =>
    cases h
    exact .walks
  | clears k =>
    cases h
    exact .clears
  | unlocks =>
    cases h
    exact .unlocks

theorem does_of_step (h : step t m w a = some (m', w')) : Does t m a w m' w' := by
  obtain ⟨l, s, notes, x⟩ := w
  cases notes with
  | nil =>
    cases a with
    | access a =>
      obtain ⟨⟨d, l'⟩, hs, he⟩ := Option.map_eq_some_iff.mp h
      cases he
      exact .accesses (moves_of_step hs)
    | stats =>
      obtain ⟨⟨r, hpc⟩, hlock, rfl, rfl⟩ := locks_inv h
      obtain ⟨pc, b⟩ := l
      obtain rfl := hpc
      exact .reads hlock
    | resetStats =>
      obtain ⟨⟨r, hpc⟩, hlock, rfl, rfl⟩ := locks_inv h
      obtain ⟨pc, b⟩ := l
      obtain rfl := hpc
      exact .resets hlock
    | note clock => cases h
  | cons n rest =>
    cases a with
    | note clock => exact does_of_perform (Option.some.inj h)
    | _ => cases h

end Abix.RCU.Stats

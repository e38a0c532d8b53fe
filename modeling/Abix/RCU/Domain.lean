import Abix.Concurrency.Program

/-! The reclamation domain: the words its threads share, the place of each thread inside
the call it is running, and the next atomic access of that call. A section under the
writer lock is one step, except where another thread can see into it: an advancement
stores the epoch and then `sync`, and a collection raises the watermark and then walks
the retired list node by node. -/
namespace Abix.RCU
open Abix.Concurrency

inductive ReclaimClass where
  | batched
  | eager
  deriving DecidableEq, Repr

def epochBatch : Nat := 8

def batchPublish : Nat := 64

/-- `RetiredNode` without its link; a null `object` or `reclaim` is `none`. -/
structure RetiredNode (Obj Fn : Type) where
  object : Option Obj
  epoch : Nat
  reclaim : Option Fn
  cls : ReclaimClass
  deriving DecidableEq, Repr

/-- The four epoch words. They are naturals: all that is proved about the domain assumes that
the 64-bit words do not wrap, which takes 2^64 steps. -/
structure Epoch where
  global : Nat := 1
  completed : Nat := 0
  completedEager : Nat := 0
  sync : Nat := 0
  deriving DecidableEq, Repr

def Epoch.completedOf (e : Epoch) : ReclaimClass → Nat
  | .eager => e.completedEager
  | .batched => e.completed

def Epoch.complete (e : Epoch) (cls : ReclaimClass) (safe : Nat) : Epoch :=
  match cls with
  | .eager => { e with completedEager := safe }
  | .batched => { e with completed := safe }

/-- The shared words. `lock` records the holder of the writer lock. The last four lists are
history that no step reads: the nodes tagged with an epoch, the nodes queued, the nodes a
collection has unlinked and called back, and the nodes in batches of threads that exited. -/
structure Shared (Tid Obj Fn : Type) where
  epoch : Epoch := {}
  threads : List Tid := []
  readerEpoch : Tid → Nat := fun _ => 0
  retired : List (RetiredNode Obj Fn) := []
  lock : Option Tid := none
  syncCount : Nat := 0
  tagged : List (RetiredNode Obj Fn) := []
  queued : List (RetiredNode Obj Fn) := []
  reclaimed : List (RetiredNode Obj Fn) := []
  lost : List (RetiredNode Obj Fn) := []

inductive Result where
  | unit
  | token (epoch : Nat)
  | answer (b : Bool)
  deriving DecidableEq, Repr

inductive Grace where
  | synchronize (eager : Bool)
  | synchronizeUntil (bounded : Bool) (polls : Nat)
  deriving DecidableEq, Repr

structure Finish where
  todo : List ReclaimClass
  clear : Bool
  result : Result
  deriving DecidableEq, Repr

/-- Where a thread stands between two atomic accesses. -/
inductive Pc (Tid Obj Fn : Type) where
  | idle (result : Result)
  | exited
  | registerThread (entering : Bool)
  | enterLoad
  | enterStore (epoch : Nat)
  | exitStore
  | retireLoad (object : Option Obj) (reclaim : Option Fn) (cls : ReclaimClass)
  | retireQueue (node : RetiredNode Obj Fn)
  | retirePublish (token : Nat)
  | synchronizeLock (eager : Bool)
  | synchronizeSpin
  | untilLock (bounded : Bool)
  | untilContended (bounded : Bool)
  | advanceStore (grace : Grace) (oldEpoch : Nat)
  | readersHead (grace : Grace) (oldEpoch : Nat)
  | readersPassed (grace : Grace) (oldEpoch : Nat) (rest : List Tid)
  | tryLock
  | minHead (current : Nat)
  | minScan (min : Nat) (rest : List Tid)
  | collectLock (safe : Nat) (finish : Finish)
  | collect (safe : Nat) (finish : Finish)
  | sweep (safe : Nat) (cls : ReclaimClass) (kept rest : List (RetiredNode Obj Fn)) (finish : Finish)
  deriving DecidableEq, Repr

/-- A thread: its place and its thread-local `RetiredBatch`. -/
structure Local (Tid Obj Fn : Type) where
  pc : Pc Tid Obj Fn := .idle .unit
  batch : List (RetiredNode Obj Fn) := []

/-- A call that starts, the exit of a thread, or the next access of the running call.
`answer` is what the environment said at that access: the allocation succeeded, or the
deadline has passed. -/
inductive Action (Obj Fn : Type) where
  | enter
  | exit
  | retire (object : Option Obj) (reclaim : Option Fn)
  | retireEager (object : Option Obj) (reclaim : Option Fn)
  | retireToken (object : Option Obj) (reclaim : Option Fn)
  | synchronize
  | synchronizeEager
  | synchronizeUntil (bounded : Bool)
  | tryCollect
  | reclaimedThrough (token : Nat) (cls : ReclaimClass)
  | threadExit
  | run (answer : Bool)
  deriving DecidableEq, Repr

variable {Tid Obj Fn : Type} [DecidableEq Tid]

/-- `reclaimed_through`: one load of the class's watermark. -/
def reclaimedThrough (sh : Shared Tid Obj Fn) (token : Nat) (cls : ReclaimClass) : Bool :=
  token ≠ 0 ∧ token ≤ sh.epoch.completedOf cls

def afterThread (entering : Bool) : Pc Tid Obj Fn := if entering then .enterLoad else .exitStore

/-- `get_thread`: a thread that has no record yet registers one first. -/
def getThread (t : Tid) (sh : Shared Tid Obj Fn) (entering : Bool) : Pc Tid Obj Fn :=
  if t ∈ sh.threads then afterThread entering else .registerThread entering

def retireImpl (object : Option Obj) (reclaim : Option Fn) (cls : ReclaimClass) : Pc Tid Obj Fn :=
  .retireLoad object reclaim cls

def start (t : Tid) (sh : Shared Tid Obj Fn) : Action Obj Fn → Option (Pc Tid Obj Fn)
  | .enter => some (getThread t sh true)
  | .exit => some (getThread t sh false)
  | .retire o f => some (retireImpl o f .batched)
  | .retireEager o f => some (retireImpl o f .eager)
  | .retireToken o f => some (retireImpl o f .batched)
  | .synchronize => some (.synchronizeLock false)
  | .synchronizeEager => some (.synchronizeLock true)
  | .synchronizeUntil bounded => some (.untilLock bounded)
  | .tryCollect => some .tryLock
  | .reclaimedThrough token cls => some (.idle (.answer (reclaimedThrough sh token cls)))
  | .threadExit | .run _ => none

/-- `publish_local_batch_locked`: the whole batch goes in front of the retired list. -/
def publishLocalBatchLocked (sh : Shared Tid Obj Fn) (batch : List (RetiredNode Obj Fn)) : Shared Tid Obj Fn :=
  { sh with retired := batch ++ sh.retired }

/-- The epoch moves with the lock held; the store to `sync` is the next access. -/
def advance (t : Tid) (grace : Grace) (sh : Shared Tid Obj Fn) : Shared Tid Obj Fn × Pc Tid Obj Fn :=
  ({ sh with epoch := { sh.epoch with global := sh.epoch.global + 1 }, lock := some t },
    .advanceStore grace sh.epoch.global)

/-- The first locked section of `synchronize_impl`, after the batch is published. -/
def synchronizeImpl (t : Tid) (eager : Bool) (sh : Shared Tid Obj Fn) : Shared Tid Obj Fn × Pc Tid Obj Fn :=
  if sh.epoch.sync ≠ 0 then (sh, .synchronizeSpin)
  else if eager then advance t (.synchronize true) sh
  else if sh.syncCount + 1 < epochBatch then ({ sh with syncCount := sh.syncCount + 1 }, .idle .unit)
  else advance t (.synchronize false) { sh with syncCount := 0 }

/-- `begin_advance` as `synchronize_until` calls it, after the batch is published. -/
def beginAdvance (t : Tid) (bounded : Bool) (sh : Shared Tid Obj Fn) : Shared Tid Obj Fn × Pc Tid Obj Fn :=
  if sh.epoch.sync ≠ 0 then (sh, .untilContended bounded)
  else advance t (.synchronizeUntil bounded 0) sh

def Grace.finish : Grace → Finish
  | .synchronize eager => ⟨[if eager then .eager else .batched], true, .unit⟩
  | .synchronizeUntil _ _ => ⟨[.eager, .batched], true, .answer true⟩

/-- A reader that has not passed: scan again, unless the deadline is polled and has passed. -/
def notPassed (answer : Bool) (oldEpoch : Nat) : Grace → Pc Tid Obj Fn
  | .synchronize eager => .readersHead (.synchronize eager) oldEpoch
  | .synchronizeUntil bounded polls =>
    if (polls + 1) % 256 = 0 ∧ bounded = true ∧ answer = true then .collectLock oldEpoch ⟨[], true, .answer false⟩
    else .readersHead (.synchronizeUntil bounded (polls + 1)) oldEpoch

/-- `try_collect`'s locked collection, skipped when even the first epoch is not safe. -/
def tryCollectFinish (min : Nat) : Pc Tid Obj Fn :=
  if 1 < min then .collectLock (min - 1) ⟨[.eager, .batched], false, .unit⟩ else .idle .unit

/-- `collect` for the next class, or the end of the locked section. -/
def collect (safe : Nat) (finish : Finish) (sh : Shared Tid Obj Fn) : Shared Tid Obj Fn × Pc Tid Obj Fn :=
  match finish.todo with
  | [] => ({ sh with lock := none, epoch := { sh.epoch with sync := if finish.clear then 0 else sh.epoch.sync } },
      .idle finish.result)
  | cls :: todo =>
    if safe ≤ sh.epoch.completedOf cls then (sh, .collect safe { finish with todo })
    else ({ sh with epoch := sh.epoch.complete cls safe }, .sweep safe cls [] sh.retired { finish with todo })

/-- One turn of the loop in `collect`: unlink the node and call it back, or step over it. -/
def sweep (safe : Nat) (cls : ReclaimClass) (kept : List (RetiredNode Obj Fn)) (n : RetiredNode Obj Fn)
    (rest : List (RetiredNode Obj Fn)) (finish : Finish) (sh : Shared Tid Obj Fn) :
    Shared Tid Obj Fn × Pc Tid Obj Fn :=
  if n.cls = cls ∧ n.epoch ≤ safe then
    ({ sh with retired := kept ++ rest, reclaimed := n :: sh.reclaimed }, .sweep safe cls kept rest finish)
  else (sh, .sweep safe cls (kept ++ [n]) rest finish)

/-- The next access of the running call. A thread that waits for the lock or spins on
`sync` has no step. -/
def run (t : Tid) (answer : Bool) (sh : Shared Tid Obj Fn) (l : Local Tid Obj Fn) :
    Option (Shared Tid Obj Fn × Local Tid Obj Fn) :=
  match l.pc with
  | .idle _ | .exited => none
  | .registerThread entering =>
    if sh.lock = none then some ({ sh with threads := t :: sh.threads }, { l with pc := afterThread entering })
    else none
  | .enterLoad => some (sh, { l with pc := .enterStore sh.epoch.global })
  | .enterStore epoch =>
    some ({ sh with readerEpoch := Function.update sh.readerEpoch t epoch }, { l with pc := .idle .unit })
  | .exitStore => some ({ sh with readerEpoch := Function.update sh.readerEpoch t 0 }, { l with pc := .idle .unit })
  | .retireLoad object reclaim cls =>
    let node : RetiredNode Obj Fn := { object, epoch := sh.epoch.global, reclaim, cls }
    some ({ sh with tagged := node :: sh.tagged }, { l with pc := .retireQueue node })
  | .retireQueue node =>
    if answer then
      some ({ sh with queued := node :: sh.queued },
        { pc := if l.batch.length + 1 < batchPublish then .idle (.token node.epoch) else .retirePublish node.epoch,
          batch := l.batch ++ [node] })
    else some (sh, { l with pc := .idle (.token 0) })
  | .retirePublish token =>
    if sh.lock = none then some (publishLocalBatchLocked sh l.batch, ⟨.idle (.token token), []⟩) else none
  | .synchronizeLock eager =>
    if sh.lock = none then
      let r := synchronizeImpl t eager (publishLocalBatchLocked sh l.batch)
      some (r.1, ⟨r.2, []⟩)
    else none
  | .synchronizeSpin => if sh.epoch.sync = 0 then some (sh, { l with pc := .idle .unit }) else none
  | .untilLock bounded =>
    if sh.lock = none then
      let r := beginAdvance t bounded (publishLocalBatchLocked sh l.batch)
      some (r.1, ⟨r.2, []⟩)
    else none
  | .untilContended bounded =>
    some (sh, { l with pc := if bounded && answer then .idle (.answer false) else .untilLock bounded })
  | .advanceStore grace oldEpoch =>
    some ({ sh with lock := none, epoch := { sh.epoch with sync := oldEpoch + 1 } },
      { l with pc := .readersHead grace oldEpoch })
  | .readersHead grace oldEpoch => some (sh, { l with pc := .readersPassed grace oldEpoch sh.threads })
  | .readersPassed grace oldEpoch [] => some (sh, { l with pc := .collectLock oldEpoch grace.finish })
  | .readersPassed grace oldEpoch (u :: rest) =>
    some (sh, { l with pc :=
      if sh.readerEpoch u ≠ 0 ∧ sh.readerEpoch u ≤ oldEpoch then notPassed answer oldEpoch grace
      else .readersPassed grace oldEpoch rest })
  | .tryLock =>
    if sh.lock = none then some (publishLocalBatchLocked sh l.batch, ⟨.minHead sh.epoch.global, []⟩)
    else some (sh, { l with pc := .idle .unit })
  | .minHead current => some (sh, { l with pc := .minScan current sh.threads })
  | .minScan min [] => some (sh, { l with pc := tryCollectFinish min })
  | .minScan min (u :: rest) =>
    let e := sh.readerEpoch u
    some (sh, { l with pc := .minScan (if e ≠ 0 ∧ e < min then e else min) rest })
  | .collectLock safe finish =>
    if sh.lock = none then some ({ sh with lock := some t }, { l with pc := .collect safe finish }) else none
  | .collect safe finish =>
    let r := collect safe finish sh
    some (r.1, { l with pc := r.2 })
  | .sweep safe _ _ [] finish => some (sh, { l with pc := .collect safe finish })
  | .sweep safe cls kept (n :: rest) finish =>
    let r := sweep safe cls kept n rest finish sh
    some (r.1, { l with pc := r.2 })

/-- A call starts only outside another one. The record of a thread that exits stays in the
reader list with epoch zero, and its batch is gone with it. -/
def step (t : Tid) (sh : Shared Tid Obj Fn) (l : Local Tid Obj Fn) (a : Action Obj Fn) :
    Option (Shared Tid Obj Fn × Local Tid Obj Fn) :=
  match a, l.pc with
  | .run answer, _ => run t answer sh l
  | .threadExit, .idle _ =>
    some ({ sh with readerEpoch := Function.update sh.readerEpoch t 0, lost := l.batch ++ sh.lost }, ⟨.exited, []⟩)
  | a, .idle _ => (start t sh a).map fun pc => (sh, { l with pc })
  | _, _ => none

def domain (Tid Obj Fn : Type) [DecidableEq Tid] :
    Program Tid (Shared Tid Obj Fn) (Local Tid Obj Fn) (Action Obj Fn) where
  step := step

def initial (Tid Obj Fn : Type) : Config Tid (Shared Tid Obj Fn) (Local Tid Obj Fn) := ⟨{}, fun _ => {}⟩

end Abix.RCU

import Abix.Concurrency.Alone
import Abix.RCU.Domain

/-! The calls of a thread while the others do nothing and nobody is inside a section: what each of them
does as a whole. -/
namespace Abix.RCU
open Abix.Concurrency
variable {Tid Obj Fn : Type}

/-- The nodes that a collection of the class through `safe` calls back. -/
def due (safe : Nat) (k : ReclaimClass) (n : RetiredNode Obj Fn) : Bool := n.cls = k ∧ n.epoch ≤ safe

namespace Shared

def collected (k : ReclaimClass) (safe : Nat) (sh : Shared Tid Obj Fn) : Shared Tid Obj Fn :=
  if safe ≤ sh.epoch.completedOf k then sh
  else { sh with
    epoch := sh.epoch.complete k safe
    retired := sh.retired.filter (!due safe k ·)
    reclaimed := (sh.retired.filter (due safe k)).reverse ++ sh.reclaimed }

def collectedAll (todo : List ReclaimClass) (safe : Nat) (sh : Shared Tid Obj Fn) : Shared Tid Obj Fn :=
  todo.foldl (fun sh k => sh.collected k safe) sh

def advanced (sh : Shared Tid Obj Fn) : Shared Tid Obj Fn :=
  { sh with epoch := { sh.epoch with global := sh.epoch.global + 1 } }

/-- `synchronize` once the batch is published: most calls only count, one of eight advances. -/
def synchronized (sh : Shared Tid Obj Fn) : Shared Tid Obj Fn :=
  if sh.syncCount + 1 < epochBatch then { sh with syncCount := sh.syncCount + 1 }
  else ({ sh with syncCount := 0 }.advanced).collected .batched sh.epoch.global

def under (lock : Option Tid) (sync : Nat) (sh : Shared Tid Obj Fn) : Shared Tid Obj Fn :=
  { sh with lock, epoch := { sh.epoch with sync } }

end Shared

/-- A retire call as a whole: the node joins the batch, and a full batch is published. -/
def retireWhole (answer : Bool) (n : RetiredNode Obj Fn) (sh : Shared Tid Obj Fn) (batch : List (RetiredNode Obj Fn)) :
    Shared Tid Obj Fn × Local Tid Obj Fn :=
  let tagged := { sh with tagged := n :: sh.tagged }
  if answer then
    let queued := { tagged with queued := n :: sh.queued }
    if batch.length + 1 < batchPublish then (queued, ⟨.idle (.token n.epoch), batch ++ [n]⟩)
    else (publishLocalBatchLocked queued (batch ++ [n]), ⟨.idle (.token n.epoch), []⟩)
  else (tagged, ⟨.idle (.token 0), batch⟩)

def Action.works : Action Obj Fn → Bool
  | .retire _ _ | .retireEager _ _ | .retireToken _ _ | .synchronize | .synchronizeEager | .synchronizeUntil _
  | .tryCollect => true
  | _ => false

/-- A call as a whole. `answer` is the allocator's. -/
def whole (answer : Bool) (a : Action Obj Fn) (sh : Shared Tid Obj Fn) (batch : List (RetiredNode Obj Fn)) :
    Shared Tid Obj Fn × Local Tid Obj Fn :=
  let published := publishLocalBatchLocked sh batch
  match a with
  | .retire o f | .retireToken o f => retireWhole answer ⟨o, sh.epoch.global, f, .batched⟩ sh batch
  | .retireEager o f => retireWhole answer ⟨o, sh.epoch.global, f, .eager⟩ sh batch
  | .synchronize => (published.synchronized, ⟨.idle .unit, []⟩)
  | .synchronizeEager => (published.advanced.collected .eager sh.epoch.global, ⟨.idle .unit, []⟩)
  | .synchronizeUntil _ =>
    (published.advanced.collectedAll [.eager, .batched] sh.epoch.global, ⟨.idle (.answer true), []⟩)
  | .tryCollect =>
    (if 1 < sh.epoch.global then published.collectedAll [.eager, .batched] (sh.epoch.global - 1) else published,
      ⟨.idle .unit, []⟩)
  | _ => (sh, ⟨.idle .unit, batch⟩)

def Outside (l : Local Tid Obj Fn) : Prop := ∃ r, l.pc = .idle r

/-- Nobody holds the lock or the epoch, and nobody is inside a section. -/
structure Undisturbed (sh : Shared Tid Obj Fn) : Prop where
  lock : sh.lock = none
  sync : sh.epoch.sync = 0
  readers : ∀ u ∈ sh.threads, sh.readerEpoch u = 0

variable [DecidableEq Tid] {t : Tid} {sh sh' : Shared Tid Obj Fn} {k : ReclaimClass} {safe : Nat} {r : Result}
  {b : List (RetiredNode Obj Fn)} {s s' : Shared Tid Obj Fn × Local Tid Obj Fn} {a : Action Obj Fn}

def Returns (t : Tid) (a : Action Obj Fn) (s s' : Shared Tid Obj Fn × Local Tid Obj Fn) : Prop :=
  ∃ s₁, step t s.1 s.2 a = some s₁ ∧ (domain Tid Obj Fn).Ends t .run Outside s₁ s'

def AlwaysReturns (t : Tid) (a : Action Obj Fn) (s : Shared Tid Obj Fn × Local Tid Obj Fn) : Prop :=
  ∃ s₁, step t s.1 s.2 a = some s₁ ∧ (domain Tid Obj Fn).Finishes t .run Outside s₁

theorem stops (t : Tid) : (domain Tid Obj Fn).Stops t .run Outside := by
  rintro sh ⟨pc, b⟩ y ⟨r, rfl⟩
  rfl

section Collect

/-- The rest of the walk through the retired list. -/
theorem leads_sweep (sh : Shared Tid Obj Fn) (fin : Finish) (rest kept : List (RetiredNode Obj Fn))
    (hr : sh.retired = kept ++ rest) :
    (domain Tid Obj Fn).LeadsIn t .run (rest.length + 1) (sh, ⟨.sweep safe k kept rest fin, b⟩)
      ({ sh with
        retired := kept ++ rest.filter (!due safe k ·)
        reclaimed := (rest.filter (due safe k)).reverse ++ sh.reclaimed }, ⟨.collect safe fin, b⟩) := by
  induction rest generalizing sh kept with
  | nil =>
    have hshared : { sh with retired := kept ++ [] } = sh := by rw [← hr]
    refine .turn (fun y => ?_) (.refl _)
    exact congrArg (fun sh => some (sh, (⟨.collect safe fin, b⟩ : Local Tid Obj Fn))) hshared.symm
  | cons n rest ih =>
    by_cases hn : n.cls = k ∧ n.epoch ≤ safe
    · have hdue : due safe k n = true := decide_eq_true hn
      have hstep (y : Bool) : step t sh ⟨.sweep safe k kept (n :: rest) fin, b⟩ (.run y) =
          some ({ sh with retired := kept ++ rest, reclaimed := n :: sh.reclaimed },
            ⟨.sweep safe k kept rest fin, b⟩) := by
        simp only [step, run, sweep, if_pos hn]
      apply Program.LeadsIn.turn hstep
      simpa [hdue] using ih { sh with retired := kept ++ rest, reclaimed := n :: sh.reclaimed } kept rfl
    · have hdue : due safe k n = false := decide_eq_false hn
      have hstep (y : Bool) : step t sh ⟨.sweep safe k kept (n :: rest) fin, b⟩ (.run y) =
          some (sh, ⟨.sweep safe k (kept ++ [n]) rest fin, b⟩) := by
        simp only [step, run, sweep, if_neg hn]
      apply Program.LeadsIn.turn hstep
      simpa [hdue] using ih sh (kept ++ [n]) (by simp [hr])

/-- A collection above the watermark calls back every node of the class through `safe` that is in the
retired list, and leaves the others there. -/
theorem leads_collecting (todo : List ReclaimClass) (clear : Bool) (hlow : sh.epoch.completedOf k < safe) :
    (domain Tid Obj Fn).LeadsIn t .run (sh.retired.length + 2) (sh, ⟨.collect safe ⟨k :: todo, clear, r⟩, b⟩)
      ({ sh with
        epoch := sh.epoch.complete k safe
        retired := sh.retired.filter (!due safe k ·)
        reclaimed := (sh.retired.filter (due safe k)).reverse ++ sh.reclaimed },
        ⟨.collect safe ⟨todo, clear, r⟩, b⟩) := by
  have hstep (y : Bool) : step t sh ⟨.collect safe ⟨k :: todo, clear, r⟩, b⟩ (.run y) =
      some ({ sh with epoch := sh.epoch.complete k safe },
        ⟨.sweep safe k [] sh.retired ⟨todo, clear, r⟩, b⟩) := by
    simp only [step, run, collect, if_neg (Nat.not_le.mpr hlow)]
  apply Program.LeadsIn.turn hstep
  exact leads_sweep { sh with epoch := sh.epoch.complete k safe } ⟨todo, clear, r⟩ sh.retired [] rfl

private theorem leads_collected (todo : List ReclaimClass) (clear : Bool) :
    (domain Tid Obj Fn).Leads t .run (sh, ⟨.collect safe ⟨k :: todo, clear, r⟩, b⟩)
      (sh.collected k safe, ⟨.collect safe ⟨todo, clear, r⟩, b⟩) := by
  unfold Shared.collected
  by_cases h : safe ≤ sh.epoch.completedOf k
  · rw [if_pos h]
    apply Program.Leads.one
    intro y
    simp only [domain, step, run, collect, if_pos h]
  · rw [if_neg h]
    exact ⟨_, leads_collecting todo clear (Nat.not_le.mp h)⟩

/-- The locked section of a collection, to the end of the call. -/
theorem leads_collect (todo : List ReclaimClass) (clear : Bool) :
    (domain Tid Obj Fn).Leads t .run (sh, ⟨.collect safe ⟨todo, clear, r⟩, b⟩)
      ((sh.collectedAll todo safe).under none (if clear then 0 else (sh.collectedAll todo safe).epoch.sync),
        ⟨.idle r, b⟩) := by
  induction todo generalizing sh with
  | nil =>
    apply Program.Leads.one
    exact fun _ => rfl
  | cons k todo ih => exact (leads_collected todo clear).trans ih

end Collect

section Under
variable {lock lock' : Option Tid} {sync sync' : Nat}

omit [DecidableEq Tid] in
@[simp] theorem under_under : (sh.under lock sync).under lock' sync' = sh.under lock' sync' := rfl

omit [DecidableEq Tid] in
theorem Undisturbed.under (h : Undisturbed sh) : sh.under none 0 = sh := by
  rw [Shared.under, ← h.lock, ← h.sync]

omit [DecidableEq Tid] in
/-- A collection looks neither at the lock nor at `sync`. -/
theorem collected_under : (sh.under lock sync).collected k safe = (sh.collected k safe).under lock sync := by
  have hmark : (sh.under lock sync).epoch.completedOf k = sh.epoch.completedOf k := by cases k <;> rfl
  have hraise : (sh.under lock sync).epoch.complete k safe = { sh.epoch.complete k safe with sync := sync } := by
    cases k <;> rfl
  unfold Shared.collected
  rw [hmark, hraise]
  split <;> rfl

omit [DecidableEq Tid] in
theorem collectedAll_under (todo : List ReclaimClass) :
    (sh.under lock sync).collectedAll todo safe = (sh.collectedAll todo safe).under lock sync := by
  induction todo generalizing sh with
  | nil => rfl
  | cons k todo ih =>
    simp only [Shared.collectedAll, List.foldl_cons, collected_under] at ih ⊢
    exact ih

end Under

theorem leads_readersPassed (grace : Grace) (old : Nat) (rest : List Tid) (h : ∀ u ∈ rest, sh.readerEpoch u = 0) :
    (domain Tid Obj Fn).Leads t .run (sh, ⟨.readersPassed grace old rest, b⟩)
      (sh, ⟨.collectLock old grace.finish, b⟩) := by
  induction rest with
  | nil =>
    apply Program.Leads.one
    exact fun _ => rfl
  | cons u rest ih =>
    have hstep (y : Bool) : step t sh ⟨.readersPassed grace old (u :: rest), b⟩ (.run y) =
        some (sh, ⟨.readersPassed grace old rest, b⟩) := by
      simp [step, run, h u List.mem_cons_self]
    apply Program.Leads.turn hstep
    exact ih fun v hv => h v (List.mem_cons_of_mem _ hv)

/-- A collection that takes the lock for itself. -/
theorem leads_collectLock (hlock : sh.lock = none) (fin : Finish) :
    (domain Tid Obj Fn).Leads t .run (sh, ⟨.collectLock safe fin, b⟩)
      ((sh.collectedAll fin.todo safe).under none (if fin.clear then 0 else sh.epoch.sync),
        ⟨.idle fin.result, b⟩) := by
  have hstep (y : Bool) : step t sh ⟨.collectLock safe fin, b⟩ (.run y) =
      some (sh.under (some t) sh.epoch.sync, ⟨.collect safe fin, b⟩) := by
    simp only [step, run, if_pos hlock]
    rfl
  have hend : ((sh.under (some t) sh.epoch.sync).collectedAll fin.todo safe).under none
        (if fin.clear then 0 else ((sh.under (some t) sh.epoch.sync).collectedAll fin.todo safe).epoch.sync) =
      (sh.collectedAll fin.todo safe).under none (if fin.clear then 0 else sh.epoch.sync) := by
    rw [collectedAll_under, under_under]
    rfl
  apply Program.Leads.turn hstep
  rw [← hend]
  exact leads_collect fin.todo fin.clear

/-- The grace period and the collection after it, once the epoch has moved. -/
theorem leads_grace (h : Undisturbed sh) (grace : Grace) (old : Nat) :
    (domain Tid Obj Fn).Leads t .run (sh.under (some t) 0, ⟨.advanceStore grace old, b⟩)
      (sh.collectedAll grace.finish.todo old, ⟨.idle grace.finish.result, b⟩) := by
  have hstore (y : Bool) : step t (sh.under (some t) 0) ⟨.advanceStore grace old, b⟩ (.run y) =
      some (sh.under none (old + 1), ⟨.readersHead grace old, b⟩) := rfl
  have hhead (y : Bool) : step t (sh.under none (old + 1)) ⟨.readersHead grace old, b⟩ (.run y) =
      some (sh.under none (old + 1), ⟨.readersPassed grace old sh.threads, b⟩) := rfl
  have hpassed : ∀ u ∈ sh.threads, (sh.under none (old + 1)).readerEpoch u = 0 := h.readers
  have hclear : grace.finish.clear = true := by cases grace <;> rfl
  have hend : ((sh.under none (old + 1)).collectedAll grace.finish.todo old).under none
        (if grace.finish.clear then 0 else (sh.under none (old + 1)).epoch.sync) =
      sh.collectedAll grace.finish.todo old := by
    rw [hclear, if_pos rfl, collectedAll_under, under_under, ← collectedAll_under, h.under]
  apply Program.Leads.turn hstore
  apply Program.Leads.turn hhead
  apply (leads_readersPassed grace old sh.threads hpassed).trans
  rw [← hend]
  exact leads_collectLock rfl grace.finish

omit [DecidableEq Tid] in
theorem Undisturbed.published (h : Undisturbed sh) : Undisturbed (publishLocalBatchLocked sh b) :=
  ⟨h.lock, h.sync, h.readers⟩

omit [DecidableEq Tid] in
theorem Undisturbed.advances (h : Undisturbed sh) : Undisturbed sh.advanced := ⟨h.lock, h.sync, h.readers⟩

omit [DecidableEq Tid] in
theorem Undisturbed.advance (h : Undisturbed sh) (grace : Grace) :
    advance t grace sh = (sh.advanced.under (some t) 0, .advanceStore grace sh.epoch.global) := by
  simp only [RCU.advance, Shared.under, Shared.advanced, h.sync]

section Calls
variable (h : Undisturbed sh)
include h

/-- The first access of `synchronize_until`, to the end of the call. -/
theorem leads_untilLock (bounded : Bool) : (domain Tid Obj Fn).Leads t .run (sh, ⟨.untilLock bounded, b⟩)
    ((publishLocalBatchLocked sh b).advanced.collectedAll [.eager, .batched] sh.epoch.global,
      ⟨.idle (.answer true), []⟩) := by
  have hpublished : Undisturbed (publishLocalBatchLocked sh b) := h.published
  have hstep (y : Bool) : step t sh ⟨.untilLock bounded, b⟩ (.run y) =
      some ((publishLocalBatchLocked sh b).advanced.under (some t) 0,
        ⟨.advanceStore (.synchronizeUntil bounded 0) sh.epoch.global, []⟩) := by
    simp only [step, run, if_pos h.lock, beginAdvance, if_neg (not_not.mpr hpublished.sync), hpublished.advance]
    rfl
  apply Program.Leads.turn hstep
  exact leads_grace hpublished.advances (.synchronizeUntil bounded 0) sh.epoch.global

private theorem leads_synchronizeEager : (domain Tid Obj Fn).Leads t .run (sh, ⟨.synchronizeLock true, b⟩)
    ((publishLocalBatchLocked sh b).advanced.collected .eager sh.epoch.global, ⟨.idle .unit, []⟩) := by
  have hpublished : Undisturbed (publishLocalBatchLocked sh b) := h.published
  have hstep (y : Bool) : step t sh ⟨.synchronizeLock true, b⟩ (.run y) =
      some ((publishLocalBatchLocked sh b).advanced.under (some t) 0,
        ⟨.advanceStore (.synchronize true) sh.epoch.global, []⟩) := by
    simp only [step, run, if_pos h.lock, synchronizeImpl, if_neg (not_not.mpr hpublished.sync), if_true,
      hpublished.advance]
    rfl
  apply Program.Leads.turn hstep
  exact leads_grace hpublished.advances (.synchronize true) sh.epoch.global

private theorem leads_synchronize : (domain Tid Obj Fn).Leads t .run (sh, ⟨.synchronizeLock false, b⟩)
    ((publishLocalBatchLocked sh b).synchronized, ⟨.idle .unit, []⟩) := by
  have hsync : ¬ (publishLocalBatchLocked sh b).epoch.sync ≠ 0 := not_not.mpr h.sync
  unfold Shared.synchronized
  by_cases hcount : (publishLocalBatchLocked sh b).syncCount + 1 < epochBatch
  · rw [if_pos hcount]
    apply Program.Leads.one
    intro y
    simp only [domain, step, run, if_pos h.lock, synchronizeImpl, if_neg hsync, if_pos hcount, Bool.false_eq_true, if_false]
  · rw [if_neg hcount]
    have hpublished : Undisturbed { publishLocalBatchLocked sh b with syncCount := 0 } := ⟨h.lock, h.sync, h.readers⟩
    have hstep (y : Bool) : step t sh ⟨.synchronizeLock false, b⟩ (.run y) =
        some ({ publishLocalBatchLocked sh b with syncCount := 0 }.advanced.under (some t) 0,
          ⟨.advanceStore (.synchronize false) sh.epoch.global, []⟩) := by
      simp only [step, run, if_pos h.lock, synchronizeImpl, if_neg hsync, if_neg hcount, Bool.false_eq_true, if_false,
        hpublished.advance]
      rfl
    apply Program.Leads.turn hstep
    exact leads_grace hpublished.advances (.synchronize false) sh.epoch.global

omit h in
/-- With nobody inside, the scan for the oldest reader finds the epoch itself. -/
theorem leads_minScan (current : Nat) (rest : List Tid) (hr : ∀ u ∈ rest, sh.readerEpoch u = 0) :
    (domain Tid Obj Fn).Leads t .run (sh, ⟨.minScan current rest, b⟩) (sh, ⟨tryCollectFinish current, b⟩) := by
  induction rest with
  | nil =>
    apply Program.Leads.one
    exact fun _ => rfl
  | cons u rest ih =>
    have hstep (y : Bool) :
        step t sh ⟨.minScan current (u :: rest), b⟩ (.run y) = some (sh, ⟨.minScan current rest, b⟩) := by
      simp [step, run, hr u List.mem_cons_self]
    apply Program.Leads.turn hstep
    exact ih fun v hv => hr v (List.mem_cons_of_mem _ hv)

private theorem leads_tryLock : (domain Tid Obj Fn).Leads t .run (sh, ⟨.tryLock, b⟩)
    (if 1 < sh.epoch.global then (publishLocalBatchLocked sh b).collectedAll [.eager, .batched] (sh.epoch.global - 1)
      else publishLocalBatchLocked sh b, ⟨.idle .unit, []⟩) := by
  have hpublished : Undisturbed (publishLocalBatchLocked sh b) := h.published
  have hstep (y : Bool) : step t sh ⟨.tryLock, b⟩ (.run y) =
      some (publishLocalBatchLocked sh b, ⟨.minHead sh.epoch.global, []⟩) := by
    simp only [step, run, if_pos h.lock]
  have hhead (y : Bool) : step t (publishLocalBatchLocked sh b) ⟨.minHead sh.epoch.global, []⟩ (.run y) =
      some (publishLocalBatchLocked sh b, ⟨.minScan sh.epoch.global sh.threads, []⟩) := rfl
  apply Program.Leads.turn hstep
  apply Program.Leads.turn hhead
  apply (leads_minScan sh.epoch.global sh.threads hpublished.readers).trans
  unfold tryCollectFinish
  by_cases hmin : 1 < sh.epoch.global
  · rw [if_pos hmin, if_pos hmin]
    have hend : ((publishLocalBatchLocked sh b).collectedAll [.eager, .batched] (sh.epoch.global - 1)).under none
        (publishLocalBatchLocked sh b).epoch.sync =
          (publishLocalBatchLocked sh b).collectedAll [.eager, .batched] (sh.epoch.global - 1) := by
      rw [hpublished.sync, ← collectedAll_under, hpublished.under]
    rw [← hend]
    exact leads_collectLock hpublished.lock ⟨[.eager, .batched], false, .unit⟩
  · rw [if_neg hmin, if_neg hmin]
    exact .refl _

end Calls

/-- The call returns whatever the environment answers, and the answer of the allocator decides where. -/
def Computes (t : Tid) (a : Action Obj Fn) (s : Shared Tid Obj Fn × Local Tid Obj Fn)
    (result : Bool → Shared Tid Obj Fn × Local Tid Obj Fn) : Prop :=
  AlwaysReturns t a s ∧ ∀ s', Returns t a s s' ↔ ∃ y, s' = result y

theorem computes_of_leads {s₁ s₂ : Shared Tid Obj Fn × Local Tid Obj Fn} (hs : step t s.1 s.2 a = some s₁)
    (hl : (domain Tid Obj Fn).Leads t .run s₁ s₂) (hd : Outside s₂.2) : Computes t a s fun _ => s₂ := by
  refine ⟨⟨s₁, hs, hl.finishes (.done hd)⟩, fun s' => ?_⟩
  constructor
  · rintro ⟨s₃, hs', he⟩
    obtain rfl := Option.some.inj (hs.symm.trans hs')
    exact ⟨true, (hl.ends_iff (stops t) hd).mp he⟩
  · rintro ⟨-, rfl⟩
    exact ⟨s₁, hs, hl.ends (.done hd)⟩

omit [DecidableEq Tid] in
theorem outside_retireWhole (y : Bool) (n : RetiredNode Obj Fn) : Outside (retireWhole y n sh b).2 := by
  cases y with
  | false => exact ⟨_, rfl⟩
  | true =>
    simp only [retireWhole, if_true]
    split <;> exact ⟨_, rfl⟩

private theorem leads_queue (hlock : sh.lock = none) (n : RetiredNode Obj Fn) (y : Bool) :
    ∃ s₁, step t { sh with tagged := n :: sh.tagged } ⟨.retireQueue n, b⟩ (.run y) = some s₁ ∧
      (domain Tid Obj Fn).Leads t .run s₁ (retireWhole y n sh b) := by
  cases y with
  | false => exact ⟨_, rfl, .refl _⟩
  | true =>
    simp only [retireWhole, if_true]
    by_cases hfull : b.length + 1 < batchPublish
    · rw [if_pos hfull]
      refine ⟨_, ?_, .refl _⟩
      simp only [step, run, if_true, if_pos hfull]
    · rw [if_neg hfull]
      refine ⟨({ sh with tagged := n :: sh.tagged, queued := n :: sh.queued },
        ⟨.retirePublish n.epoch, b ++ [n]⟩), ?_, ?_⟩
      · simp only [step, run, if_true, if_neg hfull]
      · apply Program.Leads.one
        intro y
        simp only [domain, step, run, if_pos hlock]

private theorem computes_retire {object : Option Obj} {reclaim : Option Fn} {cls : ReclaimClass} (hlock : s.1.lock = none)
    (hs : step t s.1 s.2 a = some (s.1, ⟨.retireLoad object reclaim cls, s.2.batch⟩)) :
    Computes t a s fun y => retireWhole y ⟨object, s.1.epoch.global, reclaim, cls⟩ s.1 s.2.batch := by
  have hlead : (domain Tid Obj Fn).Leads t .run (s.1, ⟨.retireLoad object reclaim cls, s.2.batch⟩)
      ({ s.1 with tagged := ⟨object, s.1.epoch.global, reclaim, cls⟩ :: s.1.tagged },
        ⟨.retireQueue ⟨object, s.1.epoch.global, reclaim, cls⟩, s.2.batch⟩) := .one fun _ => rfl
  have hqueue (y : Bool) := leads_queue (t := t) (b := s.2.batch) hlock ⟨object, s.1.epoch.global, reclaim, cls⟩ y
  choose next hnext hl using hqueue
  refine ⟨⟨_, hs, ?_⟩, fun s' => ?_⟩
  · exact hlead.finishes (.turn next hnext fun y => (hl y).finishes (.done (outside_retireWhole y _)))
  constructor
  · rintro ⟨s₁, hs', he⟩
    obtain rfl := Option.some.inj (hs.symm.trans hs')
    obtain ⟨y, s₂, hy, he⟩ := (hlead.ends_of (stops t) he).inv (by rintro ⟨r, hr⟩; cases hr)
    obtain rfl := Option.some.inj ((hnext y).symm.trans hy)
    exact ⟨y, ((hl y).ends_iff (stops t) (outside_retireWhole y _)).mp he⟩
  · rintro ⟨y, rfl⟩
    exact ⟨_, hs, hlead.ends (.turn y (hnext y) ((hl y).ends (.done (outside_retireWhole y _))))⟩

/-- While nothing disturbs the thread, its calls do what they do as a whole. -/
theorem computes_whole (h : Undisturbed s.1) (hidle : Outside s.2) (ha : a.works = true) :
    Computes t a s fun y => whole y a s.1 s.2.batch := by
  obtain ⟨sh, pc, b⟩ := s
  obtain ⟨r, rfl⟩ := hidle
  cases a with
  | retire | retireEager | retireToken => exact computes_retire h.lock rfl
  | synchronize => exact computes_of_leads rfl (leads_synchronize h) ⟨_, rfl⟩
  | synchronizeEager => exact computes_of_leads rfl (leads_synchronizeEager h) ⟨_, rfl⟩
  | synchronizeUntil bounded => exact computes_of_leads rfl (leads_untilLock h bounded) ⟨_, rfl⟩
  | tryCollect => exact computes_of_leads rfl (leads_tryLock h) ⟨_, rfl⟩
  | enter | exit | reclaimedThrough | threadExit | run => cases ha

end Abix.RCU

import Abix.RCU.Domain

/-! The inversion of a step of the domain, and what each step leaves alone. -/
namespace Abix.RCU
open Abix.Concurrency
variable {Tid Obj Fn : Type} [DecidableEq Tid]

/-- Everything a step can do, with the test that led to it. -/
inductive Moves (t : Tid) (sh : Shared Tid Obj Fn) :
    Action Obj Fn → Local Tid Obj Fn → Shared Tid Obj Fn → Local Tid Obj Fn → Prop
  | called {r b a pc} : start t sh a = some pc → Moves t sh a ⟨.idle r, b⟩ sh ⟨pc, b⟩
  | exits {r b} : Moves t sh .threadExit ⟨.idle r, b⟩
      { sh with readerEpoch := Function.update sh.readerEpoch t 0, lost := b ++ sh.lost } ⟨.exited, []⟩
  | registers {x e b} : sh.lock = none →
      Moves t sh (.run x) ⟨.registerThread e, b⟩ { sh with threads := t :: sh.threads } ⟨afterThread e, b⟩
  | loads {x b} : Moves t sh (.run x) ⟨.enterLoad, b⟩ sh ⟨.enterStore sh.epoch.global, b⟩
  | enters {x e b} : Moves t sh (.run x) ⟨.enterStore e, b⟩
      { sh with readerEpoch := Function.update sh.readerEpoch t e } ⟨.idle .unit, b⟩
  | leaves {x b} : Moves t sh (.run x) ⟨.exitStore, b⟩
      { sh with readerEpoch := Function.update sh.readerEpoch t 0 } ⟨.idle .unit, b⟩
  | tags {x o f k b n} : n = { object := o, epoch := sh.epoch.global, reclaim := f, cls := k } →
      Moves t sh (.run x) ⟨.retireLoad o f k, b⟩ { sh with tagged := n :: sh.tagged } ⟨.retireQueue n, b⟩
  | queues {n b} : b.length + 1 < batchPublish →
      Moves t sh (.run true) ⟨.retireQueue n, b⟩ { sh with queued := n :: sh.queued }
        ⟨.idle (.token n.epoch), b ++ [n]⟩
  | fills {n b} : ¬ b.length + 1 < batchPublish →
      Moves t sh (.run true) ⟨.retireQueue n, b⟩ { sh with queued := n :: sh.queued }
        ⟨.retirePublish n.epoch, b ++ [n]⟩
  | noMemory {n b} : Moves t sh (.run false) ⟨.retireQueue n, b⟩ sh ⟨.idle (.token 0), b⟩
  | publishes {x k b} : sh.lock = none →
      Moves t sh (.run x) ⟨.retirePublish k, b⟩ (publishLocalBatchLocked sh b) ⟨.idle (.token k), []⟩
  | contended {x e b} : sh.lock = none → sh.epoch.sync ≠ 0 →
      Moves t sh (.run x) ⟨.synchronizeLock e, b⟩ (publishLocalBatchLocked sh b) ⟨.synchronizeSpin, []⟩
  | deferred {x b} : sh.lock = none → sh.epoch.sync = 0 → sh.syncCount + 1 < epochBatch →
      Moves t sh (.run x) ⟨.synchronizeLock false, b⟩
        { publishLocalBatchLocked sh b with syncCount := sh.syncCount + 1 } ⟨.idle .unit, []⟩
  | begins {x e b k} : sh.lock = none → sh.epoch.sync = 0 →
      (if e then k = sh.syncCount else k = 0 ∧ epochBatch ≤ sh.syncCount + 1) →
      Moves t sh (.run x) ⟨.synchronizeLock e, b⟩
        (advance t (.synchronize e) { publishLocalBatchLocked sh b with syncCount := k }).1
        ⟨.advanceStore (.synchronize e) sh.epoch.global, []⟩
  | beginsUntil {x u b} : sh.lock = none → sh.epoch.sync = 0 →
      Moves t sh (.run x) ⟨.untilLock u, b⟩ (advance t (.synchronizeUntil u 0) (publishLocalBatchLocked sh b)).1
        ⟨.advanceStore (.synchronizeUntil u 0) sh.epoch.global, []⟩
  | released {x b} : sh.epoch.sync = 0 → Moves t sh (.run x) ⟨.synchronizeSpin, b⟩ sh ⟨.idle .unit, b⟩
  | contendedUntil {x u b} : sh.lock = none → sh.epoch.sync ≠ 0 →
      Moves t sh (.run x) ⟨.untilLock u, b⟩ (publishLocalBatchLocked sh b) ⟨.untilContended u, []⟩
  | expires {u b} : u = true → Moves t sh (.run true) ⟨.untilContended u, b⟩ sh ⟨.idle (.answer false), b⟩
  | retries {x u b} : (u && x) = false → Moves t sh (.run x) ⟨.untilContended u, b⟩ sh ⟨.untilLock u, b⟩
  | advances {x g old b} : Moves t sh (.run x) ⟨.advanceStore g old, b⟩
      { sh with lock := none, epoch := { sh.epoch with sync := old + 1 } } ⟨.readersHead g old, b⟩
  | readersHead {x g old b} :
      Moves t sh (.run x) ⟨.readersHead g old, b⟩ sh ⟨.readersPassed g old sh.threads, b⟩
  | passed {x g old b} : Moves t sh (.run x) ⟨.readersPassed g old [], b⟩ sh ⟨.collectLock old g.finish, b⟩
  | passes {x g old u rest b} : ¬ (sh.readerEpoch u ≠ 0 ∧ sh.readerEpoch u ≤ old) →
      Moves t sh (.run x) ⟨.readersPassed g old (u :: rest), b⟩ sh ⟨.readersPassed g old rest, b⟩
  | rescans {x g g' old u rest b} : sh.readerEpoch u ≠ 0 → sh.readerEpoch u ≤ old → g'.finish = g.finish →
      Moves t sh (.run x) ⟨.readersPassed g old (u :: rest), b⟩ sh ⟨.readersHead g' old, b⟩
  | givesUp {polls old u rest b} : sh.readerEpoch u ≠ 0 → sh.readerEpoch u ≤ old →
      Moves t sh (.run true) ⟨.readersPassed (.synchronizeUntil true polls) old (u :: rest), b⟩ sh
        ⟨.collectLock old ⟨[], true, .answer false⟩, b⟩
  | tries {x b} : sh.lock = none →
      Moves t sh (.run x) ⟨.tryLock, b⟩ (publishLocalBatchLocked sh b) ⟨.minHead sh.epoch.global, []⟩
  | busy {x b} : sh.lock ≠ none → Moves t sh (.run x) ⟨.tryLock, b⟩ sh ⟨.idle .unit, b⟩
  | minHead {x m b} : Moves t sh (.run x) ⟨.minHead m, b⟩ sh ⟨.minScan m sh.threads, b⟩
  | minKeep {x m u rest b} : ¬ (sh.readerEpoch u ≠ 0 ∧ sh.readerEpoch u < m) →
      Moves t sh (.run x) ⟨.minScan m (u :: rest), b⟩ sh ⟨.minScan m rest, b⟩
  | minLower {x m u rest b} : sh.readerEpoch u ≠ 0 → sh.readerEpoch u < m →
      Moves t sh (.run x) ⟨.minScan m (u :: rest), b⟩ sh ⟨.minScan (sh.readerEpoch u) rest, b⟩
  | minFound {x m b} : 1 < m → Moves t sh (.run x) ⟨.minScan m [], b⟩ sh
      ⟨.collectLock (m - 1) ⟨[.eager, .batched], false, .unit⟩, b⟩
  | minNone {x m b} : ¬ 1 < m → Moves t sh (.run x) ⟨.minScan m [], b⟩ sh ⟨.idle .unit, b⟩
  | collectLock {x safe fin b} : sh.lock = none →
      Moves t sh (.run x) ⟨.collectLock safe fin, b⟩ { sh with lock := some t } ⟨.collect safe fin, b⟩
  | finishes {x safe clear r s b} : s = (if clear then 0 else sh.epoch.sync) →
      Moves t sh (.run x) ⟨.collect safe ⟨[], clear, r⟩, b⟩
        { sh with lock := none, epoch := { sh.epoch with sync := s } } ⟨.idle r, b⟩
  | skips {x safe k todo clear r b} : safe ≤ sh.epoch.completedOf k →
      Moves t sh (.run x) ⟨.collect safe ⟨k :: todo, clear, r⟩, b⟩ sh ⟨.collect safe ⟨todo, clear, r⟩, b⟩
  | completes {x safe k todo clear r b} : sh.epoch.completedOf k < safe →
      Moves t sh (.run x) ⟨.collect safe ⟨k :: todo, clear, r⟩, b⟩ { sh with epoch := sh.epoch.complete k safe }
        ⟨.sweep safe k [] sh.retired ⟨todo, clear, r⟩, b⟩
  | swept {x safe k kept fin b} : Moves t sh (.run x) ⟨.sweep safe k kept [] fin, b⟩ sh ⟨.collect safe fin, b⟩
  | reclaims {x safe k kept n rest fin b} : n.cls = k → n.epoch ≤ safe →
      Moves t sh (.run x) ⟨.sweep safe k kept (n :: rest) fin, b⟩
        { sh with retired := kept ++ rest, reclaimed := n :: sh.reclaimed } ⟨.sweep safe k kept rest fin, b⟩
  | keeps {x safe k kept n rest fin b} : ¬ (n.cls = k ∧ n.epoch ≤ safe) →
      Moves t sh (.run x) ⟨.sweep safe k kept (n :: rest) fin, b⟩ sh ⟨.sweep safe k (kept ++ [n]) rest fin, b⟩

private theorem moves_of_synchronizeLock {t : Tid} {x e : Bool} {sh sh' : Shared Tid Obj Fn}
    {b : List (RetiredNode Obj Fn)} {l' : Local Tid Obj Fn}
    (h : run t x sh ⟨.synchronizeLock e, b⟩ = some (sh', l')) :
    Moves t sh (.run x) ⟨.synchronizeLock e, b⟩ sh' l' := by
  simp only [run] at h
  split at h
  · rename_i hl
    cases h
    by_cases hs : sh.epoch.sync = 0
    · cases e with
      | true =>
        simpa [synchronizeImpl, publishLocalBatchLocked, hs, advance] using
          Moves.begins (x := x) (e := true) (b := b) hl hs rfl
      | false =>
        by_cases hc : sh.syncCount + 1 < epochBatch
        · simpa [synchronizeImpl, publishLocalBatchLocked, hs, hc] using Moves.deferred (x := x) (b := b) hl hs hc
        · simpa [synchronizeImpl, publishLocalBatchLocked, hs, hc, advance] using
            Moves.begins (x := x) (e := false) (b := b) hl hs ⟨rfl, Nat.not_lt.mp hc⟩
    · simpa [synchronizeImpl, publishLocalBatchLocked, hs] using Moves.contended (x := x) (b := b) hl hs
  · cases h

private theorem moves_of_readersPassed {t : Tid} {x : Bool} {g : Grace} {old : Nat} {rest : List Tid}
    {sh sh' : Shared Tid Obj Fn} {b : List (RetiredNode Obj Fn)} {l' : Local Tid Obj Fn}
    (h : run t x sh ⟨.readersPassed g old rest, b⟩ = some (sh', l')) :
    Moves t sh (.run x) ⟨.readersPassed g old rest, b⟩ sh' l' := by
  cases rest with
  | nil =>
    cases h
    exact .passed
  | cons u rest =>
    simp only [run, Option.some.injEq, Prod.mk.injEq] at h
    obtain ⟨rfl, rfl⟩ := h
    split
    · rename_i hu
      cases g with
      | synchronize e => exact .rescans hu.1 hu.2 rfl
      | synchronizeUntil bounded polls =>
        simp only [notPassed]
        split
        · rename_i hx
          rw [hx.2.1, hx.2.2]
          exact .givesUp hu.1 hu.2
        · exact .rescans hu.1 hu.2 rfl
    · exact .passes ‹_›

private theorem moves_of_minScan {t : Tid} {x : Bool} {m : Nat} {rest : List Tid} {sh sh' : Shared Tid Obj Fn}
    {b : List (RetiredNode Obj Fn)} {l' : Local Tid Obj Fn}
    (h : run t x sh ⟨.minScan m rest, b⟩ = some (sh', l')) : Moves t sh (.run x) ⟨.minScan m rest, b⟩ sh' l' := by
  cases rest with
  | nil =>
    simp only [run, tryCollectFinish, Option.some.injEq, Prod.mk.injEq] at h
    obtain ⟨rfl, rfl⟩ := h
    split
    · exact .minFound ‹_›
    · exact .minNone ‹_›
  | cons u rest =>
    simp only [run, Option.some.injEq, Prod.mk.injEq] at h
    obtain ⟨rfl, rfl⟩ := h
    split
    · rename_i hu
      exact .minLower hu.1 hu.2
    · exact .minKeep ‹_›

private theorem moves_of_collect {t : Tid} {x : Bool} {safe : Nat} {fin : Finish} {sh sh' : Shared Tid Obj Fn}
    {b : List (RetiredNode Obj Fn)} {l' : Local Tid Obj Fn}
    (h : run t x sh ⟨.collect safe fin, b⟩ = some (sh', l')) :
    Moves t sh (.run x) ⟨.collect safe fin, b⟩ sh' l' := by
  obtain ⟨todo, clear, r⟩ := fin
  simp only [run, Option.some.injEq, Prod.mk.injEq] at h
  obtain ⟨rfl, rfl⟩ := h
  cases todo with
  | nil => exact .finishes rfl
  | cons k todo =>
    simp only [collect]
    split
    · exact .skips ‹_›
    · exact .completes (Nat.not_le.mp ‹_›)

private theorem moves_of_sweep {t : Tid} {x : Bool} {safe : Nat} {k : ReclaimClass}
    {kept rest : List (RetiredNode Obj Fn)} {fin : Finish} {sh sh' : Shared Tid Obj Fn}
    {b : List (RetiredNode Obj Fn)} {l' : Local Tid Obj Fn}
    (h : run t x sh ⟨.sweep safe k kept rest fin, b⟩ = some (sh', l')) :
    Moves t sh (.run x) ⟨.sweep safe k kept rest fin, b⟩ sh' l' := by
  cases rest with
  | nil =>
    cases h
    exact .swept
  | cons n rest =>
    simp only [run, sweep, Option.some.injEq, Prod.mk.injEq] at h
    obtain ⟨rfl, rfl⟩ := h
    split
    · rename_i hn
      exact .reclaims hn.1 hn.2
    · exact .keeps ‹_›

theorem moves_of_run {t : Tid} {x : Bool} {sh sh' : Shared Tid Obj Fn} {l l' : Local Tid Obj Fn}
    (h : run t x sh l = some (sh', l')) : Moves t sh (.run x) l sh' l' := by
  obtain ⟨pc, b⟩ := l
  cases pc with
  | idle r => cases h
  | exited => cases h
  | registerThread e =>
    simp only [run] at h
    split at h
    · cases h
      exact .registers ‹_›
    · cases h
  | enterLoad =>
    cases h
    exact .loads
  | enterStore e =>
    cases h
    exact .enters
  | exitStore =>
    cases h
    exact .leaves
  | retireLoad o f k =>
    cases h
    exact .tags rfl
  | retireQueue n =>
    cases x with
    | false =>
      cases h
      exact .noMemory
    | true =>
      simp only [run, if_true, Option.some.injEq, Prod.mk.injEq] at h
      obtain ⟨rfl, rfl⟩ := h
      split
      · exact .queues ‹_›
      · exact .fills ‹_›
  | retirePublish k =>
    simp only [run] at h
    split at h
    · cases h
      exact .publishes ‹_›
    · cases h
  | synchronizeLock e => exact moves_of_synchronizeLock h
  | synchronizeSpin =>
    simp only [run] at h
    split at h
    · cases h
      exact .released ‹_›
    · cases h
  | untilLock u =>
    simp only [run] at h
    split at h
    · rename_i hl
      cases h
      by_cases hs : sh.epoch.sync = 0
      · simpa [beginAdvance, publishLocalBatchLocked, hs, advance] using
          Moves.beginsUntil (x := x) (u := u) (b := b) hl hs
      · simpa [beginAdvance, publishLocalBatchLocked, hs] using Moves.contendedUntil (x := x) (b := b) hl hs
    · cases h
  | untilContended u =>
    simp only [run, Option.some.injEq, Prod.mk.injEq] at h
    obtain ⟨rfl, rfl⟩ := h
    by_cases hu : (u && x) = true
    · rw [if_pos hu]
      obtain ⟨hb, rfl⟩ := Bool.and_eq_true_iff.mp hu
      exact .expires hb
    · rw [if_neg hu]
      exact .retries (Bool.eq_false_iff.mpr hu)
  | advanceStore g old =>
    cases h
    exact .advances
  | readersHead g old =>
    cases h
    exact .readersHead
  | readersPassed g old rest => exact moves_of_readersPassed h
  | tryLock =>
    simp only [run] at h
    split at h
    · cases h
      exact .tries ‹_›
    · cases h
      exact .busy ‹_›
  | minHead m =>
    cases h
    exact .minHead
  | minScan m rest => exact moves_of_minScan h
  | collectLock safe fin =>
    simp only [run] at h
    split at h
    · cases h
      exact .collectLock ‹_›
    · cases h
  | collect safe fin => exact moves_of_collect h
  | sweep safe k kept rest fin => exact moves_of_sweep h

theorem moves_of_step {t : Tid} {a : Action Obj Fn} {sh sh' : Shared Tid Obj Fn} {l l' : Local Tid Obj Fn}
    (h : step t sh l a = some (sh', l')) : Moves t sh a l sh' l' := by
  obtain ⟨pc, b⟩ := l
  cases a with
  | run x => exact moves_of_run h
  | threadExit =>
    cases pc <;> cases h
    exact .exits
  | _ =>
    cases pc <;> cases h
    exact .called rfl

variable {t u : Tid} {a : Action Obj Fn} {sh sh' : Shared Tid Obj Fn} {l l' : Local Tid Obj Fn}

def Pc.First : Pc Tid Obj Fn → Prop
  | .idle _ | .registerThread _ | .enterLoad | .exitStore | .retireLoad _ _ _ | .synchronizeLock _ | .untilLock _
  | .tryLock => True
  | _ => False

omit [DecidableEq Tid] in
theorem first_afterThread (entering : Bool) : (afterThread entering : Pc Tid Obj Fn).First := by
  cases entering <;> trivial

theorem first_of_start {pc : Pc Tid Obj Fn} (h : start t sh a = some pc) : pc.First := by
  cases a with
  | enter | exit =>
    cases h
    unfold getThread
    split
    · exact first_afterThread _
    · trivial
  | _ => cases h <;> trivial

omit [DecidableEq Tid] in
theorem Pc.First.ne_exited {pc : Pc Tid Obj Fn} (h : pc.First) : pc ≠ .exited := by
  rintro rfl
  exact h

omit [DecidableEq Tid] in
theorem Pc.First.ne_retireQueue {pc : Pc Tid Obj Fn} (h : pc.First) (n : RetiredNode Obj Fn) : pc ≠ .retireQueue n := by
  rintro rfl
  exact h

/-- Places with the writer lock held. -/
def Pc.Locked : Pc Tid Obj Fn → Prop
  | .advanceStore _ _ | .collect _ _ | .sweep _ _ _ _ _ => True
  | _ => False

omit [DecidableEq Tid] in
theorem Pc.First.not_locked {pc : Pc Tid Obj Fn} (h : pc.First) : ¬ pc.Locked := by
  cases pc with
  | advanceStore | collect | sweep => exact fun _ => h
  | _ => exact id

/-- While a thread holds the writer lock, no other thread moves an epoch word, the retired
list or the lock. -/
theorem Moves.excluded (h : Moves t sh a l sh' l') (hown : l.pc.Locked → sh.lock = some t)
    (hu : sh.lock = some u) (hne : u ≠ t) :
    sh'.lock = sh.lock ∧ sh'.epoch = sh.epoch ∧ sh'.retired = sh.retired ∧ sh'.reclaimed = sh.reclaimed := by
  have hfree : sh.lock ≠ none := by simp [hu]
  have hmine : ¬ l.pc.Locked := fun hl => hne (Option.some.inj (hu.symm.trans (hown hl)))
  cases h with
  | registers hl | publishes hl | contended hl | deferred hl | begins hl | beginsUntil hl | contendedUntil hl | tries hl
  | collectLock hl => exact absurd hl hfree
  | advances | finishes | completes | reclaims => exact absurd trivial hmine
  | _ => exact ⟨rfl, rfl, rfl, rfl⟩

@[simp] theorem Epoch.complete_global (e : Epoch) (k : ReclaimClass) (safe : Nat) :
    (e.complete k safe).global = e.global := by
  cases k <;> rfl

@[simp] theorem Epoch.complete_sync (e : Epoch) (k : ReclaimClass) (safe : Nat) :
    (e.complete k safe).sync = e.sync := by
  cases k <;> rfl

theorem Epoch.completedOf_complete (e : Epoch) (k k' : ReclaimClass) (safe : Nat) :
    (e.complete k safe).completedOf k' = if k' = k then safe else e.completedOf k' := by
  cases k <;> cases k' <;> rfl

theorem Moves.completedOf (h : Moves t sh a l sh' l') :
    (∀ k, sh'.epoch.completedOf k = sh.epoch.completedOf k) ∨
      ∃ safe k todo clear r, l.pc = .collect safe ⟨k :: todo, clear, r⟩ ∧ sh.epoch.completedOf k < safe ∧
        sh'.epoch = sh.epoch.complete k safe := by
  cases h with
  | completes hlt => exact .inr ⟨_, _, _, _, _, rfl, hlt, rfl⟩
  | begins | beginsUntil | advances | finishes => exact .inl fun k => by cases k <;> rfl
  | _ => exact .inl fun _ => rfl

theorem Moves.completedOf_le (h : Moves t sh a l sh' l') (k : ReclaimClass) :
    sh.epoch.completedOf k ≤ sh'.epoch.completedOf k := by
  rcases h.completedOf with he | ⟨safe, k', _, _, _, -, hlt, he⟩
  · exact Nat.le_of_eq (he k).symm
  · rw [he, Epoch.completedOf_complete]
    split
    · rename_i hk
      rw [hk]
      exact Nat.le_of_lt hlt
    · exact Nat.le_refl _

theorem Moves.global_le (h : Moves t sh a l sh' l') : sh.epoch.global ≤ sh'.epoch.global := by
  cases h with
  | begins | beginsUntil => exact Nat.le_succ _
  | completes => simp
  | _ => exact Nat.le_refl _

theorem Moves.threads_subset (h : Moves t sh a l sh' l') : sh.threads ⊆ sh'.threads := by
  cases h with
  | registers => exact List.subset_cons_self _ _
  | _ => exact List.Subset.refl _

/-- A thread's epoch word is written by that thread alone. -/
theorem Moves.readerEpoch_ne (h : Moves t sh a l sh' l') (hne : u ≠ t) :
    sh'.readerEpoch u = sh.readerEpoch u := by
  cases h with
  | exits | enters | leaves => exact Function.update_of_ne hne _ _
  | _ => rfl

/-- Nodes are tagged by the load in `retire_impl` alone, with the epoch it loads. -/
theorem Moves.tagged (h : Moves t sh a l sh' l') : sh'.tagged = sh.tagged ∨
    ∃ n, sh'.tagged = n :: sh.tagged ∧ n.epoch = sh.epoch.global ∧ l.pc = .retireLoad n.object n.reclaim n.cls := by
  cases h with
  | tags hn => exact .inr ⟨_, rfl, by simp [hn], by simp [hn]⟩
  | _ => exact .inl rfl

theorem Moves.tagged_subset (h : Moves t sh a l sh' l') : sh.tagged ⊆ sh'.tagged := by
  rcases h.tagged with he | ⟨n, he, -, -⟩
  · rw [he]
    exact List.Subset.refl _
  · rw [he]
    exact List.subset_cons_self _ _

/-- A step that is not an access of a running call starts a call, or ends the thread. -/
theorem Moves.of_call (h : Moves t sh a l sh' l') (ha : ∀ x, a ≠ .run x) :
    (∃ pc, start t sh a = some pc ∧ sh' = sh ∧ l' = { l with pc }) ∨
      (sh'.queued = sh.queued ∧ sh'.reclaimed = sh.reclaimed ∧ sh'.retired = sh.retired ∧ l' = ⟨.exited, []⟩) := by
  cases h with
  | called hs => exact .inl ⟨_, hs, rfl, rfl⟩
  | exits => exact .inr ⟨rfl, rfl, rfl, rfl⟩
  | _ => exact absurd rfl (ha _)

/-- A node is queued by the second half of a retire call alone. -/
theorem Moves.queued (h : Moves t sh a l sh' l') : sh'.queued = sh.queued ∨
    ∃ n, l.pc = .retireQueue n ∧ a = .run true ∧ sh'.queued = n :: sh.queued ∧
      (l'.pc = .idle (.token n.epoch) ∨ l'.pc = .retirePublish n.epoch) := by
  cases h with
  | queues => exact .inr ⟨_, rfl, rfl, rfl, .inl rfl⟩
  | fills => exact .inr ⟨_, rfl, rfl, rfl, .inr rfl⟩
  | _ => exact .inl rfl

theorem Moves.queued_subset (h : Moves t sh a l sh' l') : sh.queued ⊆ sh'.queued := by
  rcases h.queued with he | ⟨n, -, -, he, -⟩
  · rw [he]
    exact List.Subset.refl _
  · rw [he]
    exact List.subset_cons_self _ _

theorem Moves.batch {n : RetiredNode Obj Fn} (h : Moves t sh a l sh' l') (hn : n ∈ l'.batch) :
    n ∈ l.batch ∨ (l.pc = .retireQueue n ∧ a = .run true) := by
  cases h with
  | queues | fills =>
    rcases List.mem_append.mp hn with hn | hn
    · exact .inl hn
    · obtain rfl := List.mem_singleton.mp hn
      exact .inr ⟨rfl, rfl⟩
  | exits | publishes | contended | deferred | begins | beginsUntil | contendedUntil | tries =>
    exact absurd hn List.not_mem_nil
  | _ => exact .inl hn

/-- A thread that exits takes its batch with it. -/
theorem Moves.lost {n : RetiredNode Obj Fn} (h : Moves t sh a l sh' l') (hn : n ∈ sh'.lost) :
    n ∈ sh.lost ∨ n ∈ l.batch := by
  cases h with
  | exits => exact (List.mem_append.mp hn).symm
  | _ => exact .inl hn

/-- Callbacks run in a sweep alone, on the node it looks at. -/
theorem Moves.reclaimed (h : Moves t sh a l sh' l') : sh'.reclaimed = sh.reclaimed ∨
    ∃ safe k kept n rest fin, l.pc = .sweep safe k kept (n :: rest) fin ∧ n.cls = k ∧ n.epoch ≤ safe ∧
      sh'.reclaimed = n :: sh.reclaimed ∧ sh'.retired = kept ++ rest := by
  cases h with
  | reclaims hk hle => exact .inr ⟨_, _, _, _, _, _, rfl, hk, hle, rfl, rfl⟩
  | _ => exact .inl rfl

theorem Moves.reclaimed_subset (h : Moves t sh a l sh' l') : sh.reclaimed ⊆ sh'.reclaimed := by
  rcases h.reclaimed with he | ⟨_, _, _, n, _, _, -, -, -, he, -⟩
  · rw [he]
    exact List.Subset.refl _
  · rw [he]
    exact List.subset_cons_self _ _

end Abix.RCU

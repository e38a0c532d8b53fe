import Abix.RCU.Sole
import Abix.RCU.Undisturbed

/-! The two classes of retired objects, as a thread that works alone sees them: what each collection
calls back, and how often the epoch moves for the batched one. -/
namespace Abix.RCU
open Abix.Concurrency
variable {Tid Obj Fn : Type} {sh : Shared Tid Obj Fn} {b : List (RetiredNode Obj Fn)} {k k' : ReclaimClass}
  {n : RetiredNode Obj Fn} {safe e : Nat}

/-- The books of a thread that works alone: its watermarks are behind the epoch, and every node it has
queued has been called back or waits. -/
structure Ledger (sh : Shared Tid Obj Fn) (b : List (RetiredNode Obj Fn)) : Prop where
  behind : ∀ k, sh.epoch.completedOf k < sh.epoch.global
  epochs : ∀ n ∈ sh.queued, n.epoch ≤ sh.epoch.global
  accounted : (sh.queued : Multiset (RetiredNode Obj Fn)) = ↑sh.reclaimed + ↑(b ++ sh.retired)

structure Settled (k : ReclaimClass) (e : Nat) (sh : Shared Tid Obj Fn) (b : List (RetiredNode Obj Fn)) : Prop where
  passed : e < sh.epoch.global
  waiting : ∀ n ∈ b ++ sh.retired, n.cls = k → e < n.epoch

/-- Every node of a settled class and epoch has been called back as often as it was queued. -/
theorem Ledger.reclaimed_eq [DecidableEq Obj] [DecidableEq Fn] (h : Ledger sh b) (hs : Settled k e sh b)
    (hk : n.cls = k) (he : n.epoch ≤ e) : sh.reclaimed.count n = sh.queued.count n := by
  have hnone : (b ++ sh.retired).count n = 0 := by
    apply List.count_eq_zero.mpr
    intro hn
    exact absurd he (Nat.not_le.mpr (hs.waiting n hn hk))
  have hcount := congrArg (Multiset.count n) h.accounted
  simp only [Multiset.count_add, Multiset.coe_count, hnone] at hcount
  omega

section Collected

theorem completedOf_collected (k' : ReclaimClass) :
    (sh.collected k safe).epoch.completedOf k' =
      if k' = k then max safe (sh.epoch.completedOf k) else sh.epoch.completedOf k' := by
  unfold Shared.collected
  split
  · rename_i hle
    split
    · rename_i hk
      rw [hk, max_eq_right hle]
    · rfl
  · rename_i hlt
    rw [Epoch.completedOf_complete]
    split
    · rw [max_eq_left (Nat.le_of_lt (Nat.not_le.mp hlt))]
    · rfl

@[simp] theorem collected_global : (sh.collected k safe).epoch.global = sh.epoch.global := by
  unfold Shared.collected
  split
  · rfl
  · cases k <;> rfl

@[simp] theorem collected_syncCount : (sh.collected k safe).syncCount = sh.syncCount := by
  unfold Shared.collected
  split <;> rfl

@[simp] theorem collected_queued : (sh.collected k safe).queued = sh.queued := by
  unfold Shared.collected
  split <;> rfl

/-- It calls back nodes of its class, and those it calls back leave the list. -/
theorem collected_calls : ∃ called, (sh.collected k safe).reclaimed = called ++ sh.reclaimed ∧
    (∀ n ∈ called, n.cls = k) ∧ ∀ n ∈ (sh.collected k safe).retired, n ∈ sh.retired := by
  unfold Shared.collected
  split
  · exact ⟨[], rfl, fun _ hn => absurd hn List.not_mem_nil, fun _ hn => hn⟩
  · refine ⟨(sh.retired.filter (due safe k)).reverse, rfl, fun n hn => ?_, fun n hn => List.mem_of_mem_filter hn⟩
    have hdue : due safe k n = true := List.of_mem_filter (List.mem_reverse.mp hn)
    exact (of_decide_eq_true hdue).1

theorem Ledger.collected (h : Ledger sh b) (hsafe : safe < sh.epoch.global) : Ledger (sh.collected k safe) b := by
  refine ⟨fun k' => ?_, ?_, ?_⟩
  · rw [completedOf_collected, collected_global]
    split
    · exact max_lt hsafe (h.behind k)
    · exact h.behind k'
  · rw [collected_queued, collected_global]
    exact h.epochs
  · rw [collected_queued, h.accounted]
    unfold Shared.collected
    split
    · rfl
    · have hsplit : (sh.retired : Multiset (RetiredNode Obj Fn)) =
          ↑(sh.retired.filter (due safe k)) + ↑(sh.retired.filter fun n => !due safe k n) :=
        (Multiset.coe_eq_coe.mpr (List.filter_append_perm (due safe k) sh.retired)).symm
      simp only [← Multiset.coe_add, Multiset.coe_reverse]
      rw [hsplit]
      abel

/-- A collection that does not return early settles its class. -/
theorem settled_collected (hmark : sh.epoch.completedOf k < safe) (hsafe : safe < sh.epoch.global) :
    Settled k safe (sh.collected k safe) [] := by
  refine ⟨by rwa [collected_global], fun n hn hk => ?_⟩
  rw [List.nil_append, Shared.collected, if_neg (Nat.not_le.mpr hmark)] at hn
  have hkept : (!due safe k n) = true := (List.mem_filter.mp hn).2
  by_contra hle
  have hdue : due safe k n = true := decide_eq_true ⟨hk, Nat.not_lt.mp hle⟩
  rw [hdue] at hkept
  cases hkept

theorem Settled.collected (h : Settled k e sh b) : Settled k e (sh.collected k' safe) b := by
  have hkept : ∃ called, (sh.collected k' safe).reclaimed = called ++ sh.reclaimed ∧ _ := collected_calls
  obtain ⟨-, -, -, hkept⟩ := hkept
  refine ⟨by rw [collected_global]; exact h.passed, fun n hn => h.waiting n ?_⟩
  exact (List.mem_append.mp hn).elim (fun hn => List.mem_append_left _ hn) fun hn => List.mem_append_right _ (hkept n hn)

end Collected

section Steps

theorem Ledger.published (h : Ledger sh b) : Ledger (publishLocalBatchLocked sh b) [] :=
  ⟨h.behind, h.epochs, h.accounted⟩

theorem Settled.published (h : Settled k e sh b) : Settled k e (publishLocalBatchLocked sh b) [] :=
  ⟨h.passed, h.waiting⟩

theorem Ledger.advanced (h : Ledger sh b) : Ledger sh.advanced b where
  behind k := (h.behind k).trans_le (by cases k <;> exact Nat.le_succ _)
  epochs n hn := (h.epochs n hn).trans (Nat.le_succ _)
  accounted := h.accounted

theorem Settled.advanced (h : Settled k e sh b) : Settled k e sh.advanced b :=
  ⟨Nat.lt_succ_of_lt h.passed, h.waiting⟩

/-- A node that joins the batch carries the epoch of its call. -/
theorem Ledger.queued (h : Ledger sh b) (hn : n.epoch = sh.epoch.global) :
    Ledger { sh with tagged := n :: sh.tagged, queued := n :: sh.queued } (b ++ [n]) where
  behind := h.behind
  epochs m hm := by
    rcases List.mem_cons.mp hm with rfl | hm
    · exact hn.le
    · exact h.epochs m hm
  accounted := by
    have haccounted := h.accounted
    simp only [← Multiset.coe_add, ← Multiset.cons_coe, ← Multiset.singleton_add, Multiset.coe_nil] at haccounted ⊢
    rw [haccounted]
    abel

theorem Settled.queued (h : Settled k e sh b) (hn : n.epoch = sh.epoch.global) :
    Settled k e { sh with tagged := n :: sh.tagged, queued := n :: sh.queued } (b ++ [n]) := by
  refine ⟨h.passed, fun m hm hk => ?_⟩
  simp only [List.append_assoc, List.singleton_append, List.mem_append, List.mem_cons] at hm
  rcases hm with hm | rfl | hm
  · exact h.waiting m (List.mem_append_left _ hm) hk
  · exact hn ▸ h.passed
  · exact h.waiting m (List.mem_append_right _ hm) hk

end Steps

structure Kept (P : Shared Tid Obj Fn → List (RetiredNode Obj Fn) → Prop) : Prop where
  tags : ∀ {sh b} n, P sh b → P { sh with tagged := n :: sh.tagged } b
  queues : ∀ {sh b n}, n.epoch = sh.epoch.global → P sh b →
    P { sh with tagged := n :: sh.tagged, queued := n :: sh.queued } (b ++ [n])
  publishes : ∀ {sh b}, P sh b → P (publishLocalBatchLocked sh b) []
  counts : ∀ {sh b} c, c < epochBatch → P sh b → P { sh with syncCount := c } b
  advances : ∀ {sh b}, P sh b → P sh.advanced b
  collects : ∀ {sh b} k safe, safe < sh.epoch.global → P sh b → P (sh.collected k safe) b

section Whole
variable {P : Shared Tid Obj Fn → List (RetiredNode Obj Fn) → Prop} {a : Action Obj Fn} {y : Bool}

theorem Kept.collectsAll (hP : Kept P) (todo : List ReclaimClass) (hsafe : safe < sh.epoch.global) (h : P sh b) :
    P (sh.collectedAll todo safe) b := by
  induction todo generalizing sh with
  | nil => exact h
  | cons k todo ih =>
    apply ih
    · rwa [collected_global]
    · exact hP.collects k safe hsafe h

private theorem Kept.retires (hP : Kept P) (hn : n.epoch = sh.epoch.global) (h : P sh b) :
    P (retireWhole y n sh b).1 (retireWhole y n sh b).2.batch := by
  cases y with
  | false => exact hP.tags n h
  | true =>
    have hqueued := hP.queues hn h
    simp only [retireWhole, if_true]
    split
    · exact hqueued
    · exact hP.publishes hqueued

theorem Kept.whole (hP : Kept P) (h : P sh b) : P (whole y a sh b).1 (whole y a sh b).2.batch := by
  have hpublished := hP.publishes h
  have hadvanced := hP.advances hpublished
  cases a with
  | retire | retireEager | retireToken => exact hP.retires rfl h
  | synchronize =>
    simp only [RCU.whole, Shared.synchronized]
    split
    · rename_i hcount
      exact hP.counts _ hcount hpublished
    · exact hP.collects _ _ (Nat.lt_succ_self _) (hP.advances (hP.counts 0 (by decide) hpublished))
  | synchronizeEager => exact hP.collects _ _ (Nat.lt_succ_self _) hadvanced
  | synchronizeUntil => exact hP.collectsAll _ (Nat.lt_succ_self _) hadvanced
  | tryCollect =>
    simp only [RCU.whole]
    split
    · rename_i hmin
      exact hP.collectsAll _ (Nat.sub_lt (Nat.zero_lt_of_lt hmin) Nat.one_pos) hpublished
    · exact hpublished
  | enter | exit | reclaimedThrough | threadExit | run => exact h

theorem kept_ledger : Kept fun (sh : Shared Tid Obj Fn) b => Ledger sh b where
  tags _ h := ⟨h.behind, h.epochs, h.accounted⟩
  queues hn h := h.queued hn
  publishes h := h.published
  counts _ _ h := ⟨h.behind, h.epochs, h.accounted⟩
  advances h := h.advanced
  collects _ _ hsafe h := h.collected hsafe

private theorem kept_settled : Kept fun (sh : Shared Tid Obj Fn) b => Settled k e sh b where
  tags _ h := ⟨h.passed, h.waiting⟩
  queues hn h := h.queued hn
  publishes h := h.published
  counts _ _ h := ⟨h.passed, h.waiting⟩
  advances h := h.advanced
  collects _ _ _ h := h.collected

/-- Nobody else comes in, the counter stays below the batch, and the epoch does not fall. -/
theorem kept_undisturbed : Kept fun (sh : Shared Tid Obj Fn) _ =>
    Undisturbed sh ∧ sh.syncCount < epochBatch ∧ e ≤ sh.epoch.global where
  tags _ h := ⟨⟨h.1.lock, h.1.sync, h.1.readers⟩, h.2⟩
  queues _ h := ⟨⟨h.1.lock, h.1.sync, h.1.readers⟩, h.2⟩
  publishes h := ⟨h.1.published, h.2⟩
  counts _ hc h := ⟨⟨h.1.lock, h.1.sync, h.1.readers⟩, hc, h.2.2⟩
  advances h := ⟨h.1.advances, h.2.1, Nat.le_succ_of_le h.2.2⟩
  collects {sh _} k safe _ h := by
    refine ⟨?_, by rw [collected_syncCount]; exact h.2.1, by rw [collected_global]; exact h.2.2⟩
    have hsame : (sh.collected k safe).under none 0 = sh.collected k safe := by rw [← collected_under, h.1.under]
    refine ⟨congrArg Shared.lock hsame.symm, congrArg (fun sh => sh.epoch.sync) hsame.symm, ?_⟩
    unfold Shared.collected
    split <;> exact h.1.readers

end Whole

structure Steady (s : Shared Tid Obj Fn × Local Tid Obj Fn) : Prop where
  outside : Outside s.2
  undisturbed : Undisturbed s.1
  counted : s.1.syncCount < epochBatch
  ledger : Ledger s.1 s.2.batch

def Action.isSynchronize : Action Obj Fn → Bool
  | .synchronize => true
  | _ => false

theorem Action.eq_synchronize (a : Action Obj Fn) (h : a.isSynchronize = true) : a = .synchronize := by
  cases a with
  | synchronize => rfl
  | _ => cases h

section Calls
variable {a : Action Obj Fn} {y : Bool} {s s' : Shared Tid Obj Fn × Local Tid Obj Fn}

private theorem outside_whole (ha : a.works = true) : Outside (whole y a sh b).2 := by
  cases a with
  | retire | retireEager | retireToken => exact outside_retireWhole y _
  | synchronize | synchronizeEager | synchronizeUntil | tryCollect => exact ⟨_, rfl⟩
  | enter | exit | reclaimedThrough | threadExit | run => cases ha

theorem Steady.whole (h : Steady s) (ha : a.works = true) : Steady (whole y a s.1 s.2.batch) := by
  obtain ⟨hundisturbed, hcounted, -⟩ :=
    (kept_undisturbed (e := 0)).whole (a := a) (y := y) (b := s.2.batch) ⟨h.undisturbed, h.counted, Nat.zero_le _⟩
  exact ⟨outside_whole ha, hundisturbed, hcounted, kept_ledger.whole h.ledger⟩

theorem syncCount_whole (ha : a.isSynchronize = false) : (whole y a sh b).1.syncCount = sh.syncCount := by
  have hall (todo : List ReclaimClass) (safe : Nat) (sh : Shared Tid Obj Fn) :
      (sh.collectedAll todo safe).syncCount = sh.syncCount := by
    induction todo generalizing sh with
    | nil => rfl
    | cons k todo ih => exact (ih _).trans collected_syncCount
  cases a with
  | retire | retireEager | retireToken =>
    simp only [RCU.whole, retireWhole]
    split
    · split <;> rfl
    · rfl
  | synchronize => cases ha
  | synchronizeEager => exact collected_syncCount
  | synchronizeUntil => exact hall _ _ _
  | tryCollect =>
    simp only [RCU.whole]
    split
    · exact hall _ _ _
    · rfl
  | enter | exit | reclaimedThrough | threadExit | run => rfl

/-- `synchronize` counts, or moves the epoch and settles the batched class behind it. -/
theorem synchronize_whole (h : Ledger sh b) (hcount : sh.syncCount < epochBatch) :
    ((whole y .synchronize sh b).1.syncCount = sh.syncCount + 1 ∧
      (whole y .synchronize sh b).1.epoch.global = sh.epoch.global) ∨
    (sh.syncCount + 1 = epochBatch ∧ (whole y .synchronize sh b).1.syncCount = 0 ∧
      (whole y .synchronize sh b).1.epoch.global = sh.epoch.global + 1 ∧
      Settled .batched sh.epoch.global (whole y .synchronize sh b).1 []) := by
  simp only [RCU.whole, Shared.synchronized]
  split
  · exact .inl ⟨rfl, rfl⟩
  · rename_i hfull
    have hfull : ¬ sh.syncCount + 1 < epochBatch := hfull
    refine .inr ⟨by omega, collected_syncCount, collected_global, settled_collected ?_ (Nat.lt_succ_self _)⟩
    exact h.behind .batched

/-- `synchronize_eager` settles the eager class. -/
theorem synchronizeEager_whole (h : Ledger sh b) :
    Settled .eager sh.epoch.global (whole y .synchronizeEager sh b).1 [] :=
  settled_collected (h.behind .eager) (Nat.lt_succ_self _)

end Calls

variable [DecidableEq Tid] {t : Tid}

/-- A sequence of calls by one thread, with the state that each returns in. -/
inductive Session (t : Tid) : Shared Tid Obj Fn × Local Tid Obj Fn →
    List (Action Obj Fn × Shared Tid Obj Fn × Local Tid Obj Fn) → Prop
  | nil {s} : Session t s []
  | cons {s a s₁ rest} : a.works = true → Returns t a s s₁ → Session t s₁ rest → Session t s ((a, s₁) :: rest)

def final (s : Shared Tid Obj Fn × Local Tid Obj Fn) :
    List (Action Obj Fn × Shared Tid Obj Fn × Local Tid Obj Fn) → Shared Tid Obj Fn × Local Tid Obj Fn
  | [] => s
  | (_, s₁) :: rest => final s₁ rest

def synchronizes (calls : List (Action Obj Fn × Shared Tid Obj Fn × Local Tid Obj Fn)) : Nat :=
  calls.countP fun call => call.1.isSynchronize

def advances (s : Shared Tid Obj Fn × Local Tid Obj Fn) :
    List (Action Obj Fn × Shared Tid Obj Fn × Local Tid Obj Fn) → Nat
  | [] => 0
  | (a, s₁) :: rest =>
    (if a.isSynchronize = true ∧ s₁.1.epoch.global ≠ s.1.epoch.global then 1 else 0) + advances s₁ rest

section Session
variable {s : Shared Tid Obj Fn × Local Tid Obj Fn}
  {calls : List (Action Obj Fn × Shared Tid Obj Fn × Local Tid Obj Fn)}

theorem Session.steady (h : Session t s calls) (hs : Steady s) : Steady (final s calls) := by
  induction h with
  | nil => exact hs
  | cons ha hr _ ih =>
    obtain ⟨y, rfl⟩ := ((computes_whole hs.undisturbed hs.outside ha).2 _).mp hr
    exact ih (hs.whole ha)

/-- The counter runs through the batch, and the epoch moves each time that it is through. -/
theorem Session.counts (h : Session t s calls) (hs : Steady s) :
    advances s calls = (s.1.syncCount + synchronizes calls) / epochBatch := by
  have hbatch : epochBatch = 8 := rfl
  induction h with
  | nil => exact (Nat.div_eq_of_lt hs.counted).symm
  | @cons s a s₁ rest ha hr _ ih =>
    obtain ⟨y, rfl⟩ := ((computes_whole hs.undisturbed hs.outside ha).2 _).mp hr
    have hrest := ih (hs.whole ha)
    have hcounted := hs.counted
    rw [advances, hrest, synchronizes, synchronizes, List.countP_cons]
    cases hsync : a.isSynchronize with
    | false =>
      rw [syncCount_whole hsync]
      simp
    | true =>
      obtain rfl := a.eq_synchronize hsync
      rcases synchronize_whole (y := y) hs.ledger hs.counted with ⟨hcount, hglobal⟩ | ⟨hfull, hcount, hglobal, -⟩
      · rw [hcount, hglobal, if_neg fun h => h.2 rfl, if_pos rfl, hbatch]
        omega
      · rw [hcount, hglobal, if_pos ⟨rfl, Nat.succ_ne_self _⟩, if_pos rfl]
        rw [hbatch] at hfull ⊢
        omega

/-- A node at or below the epoch at the start is gone for good once the epoch has moved. -/
theorem Session.settles (h : Session t s calls) (hs : Steady s) (he : e ≤ s.1.epoch.global)
    (hsome : advances s calls ≠ 0 ∨ Settled .batched e s.1 s.2.batch) :
    Settled .batched e (final s calls).1 (final s calls).2.batch := by
  induction h with
  | nil => exact hsome.resolve_left fun h => h rfl
  | @cons s a s₁ rest ha hr _ ih =>
    obtain ⟨y, rfl⟩ := ((computes_whole hs.undisturbed hs.outside ha).2 _).mp hr
    have hlater : e ≤ (whole y a s.1 s.2.batch).1.epoch.global :=
      (kept_undisturbed.whole ⟨hs.undisturbed, hs.counted, he⟩).2.2
    apply ih (hs.whole ha) hlater
    rcases hsome with hsome | hsettled
    · rw [advances] at hsome
      by_cases hnow : a.isSynchronize = true ∧ (whole y a s.1 s.2.batch).1.epoch.global ≠ s.1.epoch.global
      · obtain ⟨hsync, hmoved⟩ := hnow
        obtain rfl := a.eq_synchronize hsync
        rcases synchronize_whole (y := y) hs.ledger hs.counted with ⟨-, hglobal⟩ | ⟨-, -, hglobal, hsettled⟩
        · exact absurd hglobal hmoved
        · refine .inr ⟨hlater.lt_of_ne ?_, fun n hn hk => he.trans_lt (hsettled.waiting n hn hk)⟩
          omega
      · rw [if_neg hnow, Nat.zero_add] at hsome
        exact .inl hsome
    · exact .inr (kept_settled.whole hsettled)

end Session

section Reached
variable {c : Config Tid (Shared Tid Obj Fn) (Local Tid Obj Fn)} {w : Tid} {a : Action Obj Fn} {sh' : Shared Tid Obj Fn}
  {l l' : Local Tid Obj Fn}

theorem Moves.counted (hm : Moves t sh a l sh' l') (h : sh.syncCount < epochBatch) : sh'.syncCount < epochBatch := by
  cases hm with
  | deferred _ _ hc => exact hc
  | @begins _ eager b k _ _ hk =>
    cases eager with
    | true => exact hk ▸ h
    | false => exact hk.1 ▸ Nat.zero_lt_of_lt h
  | _ => exact h

private theorem counted_of_reachable {ok : Config Tid (Shared Tid Obj Fn) (Local Tid Obj Fn) → Tid → Action Obj Fn → Prop}
    (h : (domain Tid Obj Fn).Reachable ok (initial Tid Obj Fn) c) : c.shared.syncCount < epochBatch := by
  refine h.invariant (P := fun c => c.shared.syncCount < epochBatch) (Nat.zero_lt_succ _) ?_
  rintro c t a c' hc - hn
  obtain ⟨sh, l, hs, rfl⟩ := Program.next_eq_some_iff.mp hn
  exact (moves_of_step hs).counted hc

/-- While one thread retires, a queued node does not carry an epoch that is still to come. -/
theorem queued_le_of_reachable (h : (domain Tid Obj Fn).Reachable (Sole w) (initial Tid Obj Fn) c) :
    ∀ n ∈ c.shared.queued, n.epoch ≤ c.shared.epoch.global := by
  refine (h.assuming fun _ => alone_of_reachable).invariant
    (P := fun c => ∀ n ∈ c.shared.queued, n.epoch ≤ c.shared.epoch.global) (fun _ hn => absurd hn List.not_mem_nil) ?_
  rintro c t a c' hc ⟨halone, hok⟩ hn n hmem
  obtain ⟨sh, l, hs, rfl⟩ := Program.next_eq_some_iff.mp hn
  have hm := moves_of_step hs
  rcases hm.queued with he | ⟨m, hpc, -, he, -⟩
  · exact (hc n (he ▸ hmem)).trans hm.global_le
  · rcases List.mem_cons.mp (he ▸ hmem) with rfl | hmem
    · have htw : t = w := by
        by_contra ht
        exact (halone.reading t ht).1.idle_of.2.1 n hpc
      exact (halone.tagged n (htw ▸ hpc)).le.trans hm.global_le
    · exact (hc n hmem).trans hm.global_le

/-- Between two calls of the only thread that works, and with nobody inside a section, it is alone. -/
theorem steady_of_reachable [Fintype Tid] (h : (domain Tid Obj Fn).Reachable (Sole w) (initial Tid Obj Fn) c)
    (hw : Outside (c.locals w)) (hout : ∀ u, c.shared.readerEpoch u = 0) : Steady (c.shared, c.locals w) := by
  have halone := alone_of_reachable h
  obtain ⟨r, hr⟩ := hw
  have hlocked (u : Tid) : ¬ (c.locals u).pc.Locked ∧ (c.locals u).pc.owns = none := by
    by_cases hu : u = w
    · rw [hu, hr]
      exact ⟨id, rfl⟩
    · have hreading := (halone.reading u hu).1
      generalize (c.locals u).pc = pc at hreading
      cases pc with
      | idle | exited | registerThread | enterLoad | enterStore | exitStore => exact ⟨id, rfl⟩
      | _ => exact hreading.elim
  refine ⟨⟨r, hr⟩, ⟨?_, ?_, fun u _ => hout u⟩, counted_of_reachable h, (behind_of_reachable h).1,
    queued_le_of_reachable h, ?_⟩
  · cases hlock : c.shared.lock with
    | none => rfl
    | some u => exact absurd ((custody_of_reachable h).locked u hlock) (hlocked u).1
  · by_contra hsync
    obtain ⟨u, old, ho⟩ := (exclusive_of_reachable h).owned hsync
    cases (hlocked u).2.symm.trans ho
  · have hbatches : total batchNodes c.locals = batchNodes (c.locals w) := by
      apply Finset.sum_eq_single w
      · intro u _ hu
        rw [batchNodes, (halone.reading u hu).2]
        rfl
      · exact fun hw => absurd (Finset.mem_univ w) hw
    rw [accounted_of_reachable h, placedNodes, hbatches, halone.lost, batchNodes, ← Multiset.coe_add]
    simp only [Multiset.coe_nil]
    abel

/-- What a thread that works alone may rely on from here: its calls return, the two classes do not
touch each other, and the batched one is collected at its cadence. -/
structure Separate [DecidableEq Obj] [DecidableEq Fn] (t : Tid) (s : Shared Tid Obj Fn × Local Tid Obj Fn) : Prop where
  returns : ∀ a : Action Obj Fn, a.works = true → AlwaysReturns t a s
  /-- `synchronize` neither calls back an eager object nor moves the eager watermark. -/
  synchronize : ∀ s', Returns t .synchronize s s' → s'.1.epoch.completedEager = s.1.epoch.completedEager ∧
    ∃ called, s'.1.reclaimed = called ++ s.1.reclaimed ∧ ∀ n ∈ called, n.cls = .batched
  /-- `synchronize_eager` leaves the batched class and the counter alone, and no eager object waits
  after it. -/
  synchronizeEager : ∀ s', Returns t .synchronizeEager s s' → s'.1.epoch.completed = s.1.epoch.completed ∧
    s'.1.syncCount = s.1.syncCount ∧
    (∃ called, s'.1.reclaimed = called ++ s.1.reclaimed ∧ ∀ n ∈ called, n.cls = .eager) ∧
    ∀ n ∈ s.1.queued, n.cls = .eager → s'.1.reclaimed.count n = s'.1.queued.count n
  /-- In any calls with `SKL_ABIX_RCU_EPOCH_BATCH` times `synchronize` among them, one of these moves the
  epoch, and every batched object retired before has been called back as often as it was retired. -/
  cadence : ∀ calls, Session t s calls → synchronizes calls = epochBatch → advances s calls = 1 ∧
    ∀ n ∈ s.1.queued, n.cls = .batched → (final s calls).1.reclaimed.count n = (final s calls).1.queued.count n

variable {s s' : Shared Tid Obj Fn × Local Tid Obj Fn}

theorem Steady.synchronize (h : Steady s) (hr : Returns t .synchronize s s') :
    s'.1.epoch.completedEager = s.1.epoch.completedEager ∧
      ∃ called, s'.1.reclaimed = called ++ s.1.reclaimed ∧ ∀ n ∈ called, n.cls = .batched := by
  obtain ⟨y, rfl⟩ := ((computes_whole h.undisturbed h.outside rfl).2 s').mp hr
  simp only [RCU.whole, Shared.synchronized]
  split
  · exact ⟨rfl, [], rfl, fun _ hn => absurd hn List.not_mem_nil⟩
  · refine ⟨completedOf_collected .eager, ?_⟩
    obtain ⟨called, hcalled, hcls, -⟩ := collected_calls (k := .batched)
    exact ⟨called, hcalled, hcls⟩

theorem Steady.synchronizeEager [DecidableEq Obj] [DecidableEq Fn] (h : Steady s)
    (hr : Returns t .synchronizeEager s s') :
    s'.1.epoch.completed = s.1.epoch.completed ∧ s'.1.syncCount = s.1.syncCount ∧
      (∃ called, s'.1.reclaimed = called ++ s.1.reclaimed ∧ ∀ n ∈ called, n.cls = .eager) ∧
      ∀ n ∈ s.1.queued, n.cls = .eager → s'.1.reclaimed.count n = s'.1.queued.count n := by
  obtain ⟨y, rfl⟩ := ((computes_whole h.undisturbed h.outside rfl).2 s').mp hr
  refine ⟨completedOf_collected .batched, syncCount_whole rfl, ?_, fun n hn hk => ?_⟩
  · obtain ⟨called, hcalled, hcls, -⟩ := collected_calls (k := .eager)
    exact ⟨called, hcalled, hcls⟩
  · exact (kept_ledger.whole h.ledger).reclaimed_eq (synchronizeEager_whole h.ledger) hk (h.ledger.epochs n hn)

theorem Steady.separate [DecidableEq Obj] [DecidableEq Fn] (h : Steady s) : Separate t s where
  returns a ha := (computes_whole h.undisturbed h.outside ha).1
  synchronize _ hr := h.synchronize hr
  synchronizeEager _ hr := h.synchronizeEager hr
  cadence calls hcalls hcount := by
    have hadvances : advances s calls = 1 := by
      rw [hcalls.counts h, hcount]
      have hcounted := h.counted
      have hbatch : epochBatch = 8 := rfl
      rw [hbatch] at hcounted ⊢
      omega
    refine ⟨hadvances, fun n hn hk => ?_⟩
    have hsettled := hcalls.settles h (h.ledger.epochs n hn) (.inl (by rw [hadvances]; exact Nat.one_ne_zero))
    exact (hcalls.steady h).ledger.reclaimed_eq hsettled hk le_rfl

/-- A thread that is alone can make any calls one after the other. -/
theorem Steady.session (h : Steady s) (as : List (Action Obj Fn)) (hworks : ∀ a ∈ as, a.works = true) :
    ∃ calls, calls.map Prod.fst = as ∧ Session t s calls := by
  induction as generalizing s with
  | nil => exact ⟨[], rfl, .nil⟩
  | cons a as ih =>
    have ha := hworks a List.mem_cons_self
    have hreturns := ((computes_whole (t := t) h.undisturbed h.outside ha).2 _).mpr ⟨true, rfl⟩
    have hsteady := (Session.cons ha hreturns .nil).steady h
    obtain ⟨calls, hnames, hcalls⟩ := ih hsteady fun b hb => hworks b (List.mem_cons_of_mem _ hb)
    exact ⟨(a, _) :: calls, congrArg (a :: ·) hnames, .cons ha hreturns hcalls⟩

/-- While the other threads only read, and wherever none of them is inside a section, the thread that
retires and collects keeps the two classes apart, from there and after any calls it makes alone. -/
theorem classes_stay_separate [Fintype Tid] [DecidableEq Obj] [DecidableEq Fn]
    (h : (domain Tid Obj Fn).Reachable (Sole w) (initial Tid Obj Fn) c) (hw : Outside (c.locals w))
    (hout : ∀ u, c.shared.readerEpoch u = 0) {calls : List (Action Obj Fn × Shared Tid Obj Fn × Local Tid Obj Fn)}
    (hcalls : Session w (c.shared, c.locals w) calls) : Separate w (final (c.shared, c.locals w) calls) :=
  (hcalls.steady (steady_of_reachable h hw hout)).separate

/-- Beside a reader that has left its section, an object of each class is retired; then the index class
is collected and the batched one comes round. -/
theorem classes_stay_separate_queued : ∃ (c : Config Bool (Shared Bool Unit Unit) (Local Bool Unit Unit)) (calls : _),
    c.shared.queued.map RetiredNode.cls = [.eager, .batched] ∧ c.shared.reclaimed = [] ∧
      calls.map Prod.fst = .synchronizeEager :: List.replicate epochBatch .synchronize ∧
      Session true (c.shared, c.locals true) calls ∧ Separate true (final (c.shared, c.locals true) calls) := by
  have hrun : (((domain Bool Unit Unit).exec (Sole true) (initial Bool Unit Unit)
      [(false, .enter), (false, .run true), (false, .run true), (false, .run true), (true, .retire (some ()) (some ())),
        (true, .run true), (true, .run true), (false, .exit), (false, .run true),
        (true, .retireEager (some ()) (some ())), (true, .run true), (true, .run true)]).map fun c =>
          (c.shared.queued.map RetiredNode.cls, c.shared.reclaimed, (c.locals true).pc, c.shared.readerEpoch false,
            c.shared.readerEpoch true)) = some ([.eager, .batched], [], .idle (.token 1), 0, 0) := by
    decide
  obtain ⟨c, hc, he⟩ := Option.map_eq_some_iff.mp hrun
  simp only [Prod.mk.injEq] at he
  obtain ⟨hqueued, hnone, hpc, hfalse, htrue⟩ := he
  have hreach := Program.Reachable.of_exec .init hc
  have hout (u : Bool) : c.shared.readerEpoch u = 0 := by cases u <;> assumption
  obtain ⟨calls, hnames, hcalls⟩ := (steady_of_reachable hreach ⟨_, hpc⟩ hout).session
    (.synchronizeEager :: List.replicate epochBatch .synchronize) (by simp [Action.works])
  exact ⟨c, calls, hqueued, hnone, hnames, hcalls, classes_stay_separate hreach ⟨_, hpc⟩ hout hcalls⟩

end Reached

end Abix.RCU

import Abix.RCU.Completion

/-! Nothing that was queued has to stay. Once the calls have come to their ends, one bounded wait of each
thread that is left publishes its batch and calls back every node there is. -/
namespace Abix.RCU
open Abix.Concurrency
variable {Tid Obj Fn : Type} [DecidableEq Tid] {t u : Tid} {a : Action Obj Fn} {sh sh' : Shared Tid Obj Fn}
  {l l' : Local Tid Obj Fn} {b : List (RetiredNode Obj Fn)}
  {c c' : Config Tid (Shared Tid Obj Fn) (Local Tid Obj Fn)}

/-- Nobody waits inside a section of its own, and a thread has published its batch when it exits. -/
def Careful (c : Config Tid (Shared Tid Obj Fn) (Local Tid Obj Fn)) (t : Tid) (a : Action Obj Fn) : Prop :=
  WaitsOutside c t a ∧ Published c t a

instance [DecidableEq Obj] [DecidableEq Fn] (c : Config Tid (Shared Tid Obj Fn) (Local Tid Obj Fn)) (t : Tid)
    (a : Action Obj Fn) : Decidable (Careful c t a) := inferInstanceAs (Decidable (_ ∧ _))

/-- No call starts but exits from a section, and waits outside of one. -/
def Drains (c : Config Tid (Shared Tid Obj Fn) (Local Tid Obj Fn)) (t : Tid) (a : Action Obj Fn) : Prop :=
  Completes c t a ∨ ((∃ bounded, a = .synchronizeUntil bounded) ∧ c.shared.readerEpoch t = 0)

omit [DecidableEq Tid] in
private theorem Drains.careful (h : Drains c t a) : Careful c t a := by
  rcases h with (⟨x, rfl, -⟩ | ⟨rfl, -⟩) | ⟨⟨bounded, rfl⟩, hout⟩
  · exact ⟨nofun, nofun⟩
  · exact ⟨nofun, nofun⟩
  · exact ⟨fun _ => hout, nofun⟩

theorem reachable_drains (h : (domain Tid Obj Fn).Reachable Careful (initial Tid Obj Fn) c)
    (hc : (domain Tid Obj Fn).Reachable Drains c c') : (domain Tid Obj Fn).Reachable Careful (initial Tid Obj Fn) c' :=
  h.trans (hc.mono fun _ _ _ => Drains.careful)

/-- A node that waits was tagged with an epoch that has begun. -/
theorem tagged_le_of_reachable {ok : Config Tid (Shared Tid Obj Fn) (Local Tid Obj Fn) → Tid → Action Obj Fn → Prop}
    (h : (domain Tid Obj Fn).Reachable ok (initial Tid Obj Fn) c) :
    ∀ n ∈ c.shared.tagged, n.epoch ≤ c.shared.epoch.global := by
  refine h.invariant (P := fun c => ∀ n ∈ c.shared.tagged, n.epoch ≤ c.shared.epoch.global)
    (fun _ hn => absurd hn List.not_mem_nil) ?_
  rintro c t a c' hc - hn n hmem
  obtain ⟨sh, l, hs, rfl⟩ := Program.next_eq_some_iff.mp hn
  have hm := moves_of_step hs
  rcases hm.tagged with he | ⟨m, he, hepoch, -⟩
  · exact (hc n (he ▸ hmem)).trans hm.global_le
  · rcases List.mem_cons.mp (he ▸ hmem) with rfl | hmem
    · exact hepoch.le.trans hm.global_le
    · exact (hc n hmem).trans hm.global_le

/-- A node that was called back had been tagged. -/
theorem tagged_of_reclaimed {ok : Config Tid (Shared Tid Obj Fn) (Local Tid Obj Fn) → Tid → Action Obj Fn → Prop}
    (h : (domain Tid Obj Fn).Reachable ok (initial Tid Obj Fn) c) : ∀ n ∈ c.shared.reclaimed, n ∈ c.shared.tagged := by
  refine (h.assuming fun _ => custody_of_reachable).invariant
    (P := fun c => ∀ n ∈ c.shared.reclaimed, n ∈ c.shared.tagged) (fun _ hn => absurd hn List.not_mem_nil) ?_
  rintro c t a c' hc ⟨hcust, -⟩ hn n hmem
  obtain ⟨sh, l, hs, rfl⟩ := Program.next_eq_some_iff.mp hn
  have hm := moves_of_step hs
  rcases hm.reclaimed with he | ⟨safe, k, kept, m, rest, fin, hpc, -, -, he, -⟩
  · exact hm.tagged_subset (hc n (he ▸ hmem))
  · have hplaced := hcust.placed t
    rw [hpc] at hplaced
    rcases List.mem_cons.mp (he ▸ hmem) with rfl | hmem
    · exact hm.tagged_subset (hcust.retired n (by simp [hplaced.2]))
    · exact hm.tagged_subset (hc n hmem)

omit [DecidableEq Tid] in
theorem mem_of_mem_collected {k : ReclaimClass} {safe : Nat} {n : RetiredNode Obj Fn}
    (hn : n ∈ (sh.collected k safe).retired) : n ∈ sh.retired := by
  unfold Shared.collected at hn
  split at hn
  · exact hn
  · exact (List.mem_filter.mp hn).1

omit [DecidableEq Tid] in
/-- A collection of both classes above both watermarks leaves no node at or below its epoch. -/
theorem retired_collectedAll {safe : Nat} (hbehind : ∀ k, sh.epoch.completedOf k < safe)
    (hsafe : safe < sh.epoch.global)
    (hold : ∀ n ∈ sh.retired, n.epoch ≤ safe) : (sh.collectedAll [.eager, .batched] safe).retired = [] := by
  have heager : Settled .eager safe (sh.collected .eager safe) [] := settled_collected (hbehind .eager) hsafe
  have hmark : (sh.collected .eager safe).epoch.completedOf .batched < safe := by
    rw [completedOf_collected, if_neg nofun]
    exact hbehind .batched
  have hglobal : safe < (sh.collected .eager safe).epoch.global := by rwa [collected_global]
  have hbatched := settled_collected hmark hglobal
  have heager : Settled .eager safe ((sh.collected .eager safe).collected .batched safe) [] := heager.collected
  rw [List.eq_nil_iff_forall_not_mem]
  intro n hn
  have hlate : safe < n.epoch := by
    cases hk : n.cls with
    | eager => exact heager.waiting n hn hk
    | batched => exact hbatched.waiting n hn hk
  exact absurd (hold n (mem_of_mem_collected (mem_of_mem_collected hn))) (Nat.not_le.mpr hlate)

structure Cleared (c : Config Tid (Shared Tid Obj Fn) (Local Tid Obj Fn)) : Prop where
  reachable : (domain Tid Obj Fn).Reachable Careful (initial Tid Obj Fn) c
  returned : ∀ t, (c.locals t).pc.Returned
  undisturbed : Undisturbed c.shared
  readers : ∀ t, c.shared.readerEpoch t = 0

/-- The thread has gone, or it has no batch and there is nothing to collect. -/
def Drained (c : Config Tid (Shared Tid Obj Fn) (Local Tid Obj Fn)) (t : Tid) : Prop :=
  (c.locals t).pc = .exited ∨ ((c.locals t).batch = [] ∧ c.shared.retired = [])

/-- A thread that is left drains the domain by one wait. -/
theorem Cleared.drains (h : Cleared c) (t : Tid) : ∃ c', (domain Tid Obj Fn).Reachable Drains c c' ∧ Cleared c' ∧
    Drained c' t ∧ ∀ u, Drained c u → Drained c' u := by
  by_cases hgone : (c.locals t).pc = .exited
  · exact ⟨c, .init, h, .inl hgone, fun _ hu => hu⟩
  obtain ⟨r, hidle⟩ : ∃ r, (c.locals t).pc = .idle r := by
    have hret := h.returned t
    generalize (c.locals t).pc = pc at hret hgone
    cases pc with
    | idle r => exact ⟨r, rfl⟩
    | exited => exact absurd rfl hgone
    | _ => exact hret.elim
  have hstart : step t c.shared (c.locals t) (.synchronizeUntil false) =
      some (c.shared, ⟨.untilLock false, (c.locals t).batch⟩) := by
    simp only [step, hidle, start, Option.map_some]
  have hlead := leads_untilLock (t := t) (b := (c.locals t).batch) h.undisturbed false
  have hr : (domain Tid Obj Fn).Reachable Drains c _ := (hlead.comes true allocates_true).reachable_of_step
    (fun _ x hx => .inl (.inl ⟨x, rfl, hx⟩))
    (.inr ⟨⟨false, rfl⟩, h.readers t⟩) hstart
  have hadvanced : Undisturbed (publishLocalBatchLocked c.shared (c.locals t).batch).advanced :=
    h.undisturbed.published.advances
  have hcust := custody_of_reachable h.reachable
  have hempty : ((publishLocalBatchLocked c.shared (c.locals t).batch).advanced.collectedAll [.eager, .batched]
      c.shared.epoch.global).retired = [] := by
    refine retired_collectedAll (fun k => ?_) (Nat.lt_succ_self _) fun n hn => ?_
    · exact (by cases k <;> rfl : (publishLocalBatchLocked c.shared (c.locals t).batch).advanced.epoch.completedOf k =
        c.shared.epoch.completedOf k).trans_lt ((behind_of_reachable h.reachable).1 k)
    · apply tagged_le_of_reachable h.reachable
      exact (List.mem_append.mp hn).elim (hcust.batches t n) (hcust.retired n)
  obtain ⟨hepoch, -⟩ := collectedAll_readers (publishLocalBatchLocked c.shared (c.locals t).batch).advanced
    [.eager, .batched] c.shared.epoch.global
  refine ⟨_, hr, ⟨reachable_drains h.reachable hr, fun u => ?_, hadvanced.collectedAll _ _, fun u => ?_⟩, ?_,
    fun u hu => ?_⟩
  · exact Program.update_of_both (P := fun l : Local Tid Obj Fn => l.pc.Returned) trivial (h.returned u)
  · exact (congrFun hepoch u).trans (h.readers u)
  · exact .inr ⟨by simp, hempty⟩
  · refine Program.update_of_both (P := fun l : Local Tid Obj Fn => l.pc = .exited ∨ (l.batch = [] ∧ _))
      (.inr ⟨rfl, hempty⟩) ?_
    exact hu.imp_right fun hu => ⟨hu.1, hempty⟩

theorem Moves.stays (h : Moves t sh a l sh' l') (ha : a ≠ .threadExit) : l'.pc ≠ .exited := by
  intro he
  cases h with
  | exits => exact ha rfl
  | called hstart => exact (first_of_start hstart).ne_exited he
  | registers => exact (first_afterThread _).ne_exited he
  | _ => cases he

omit [DecidableEq Tid] in
private theorem Drains.ne_threadExit (h : Drains c t a) : a ≠ .threadExit := by
  rcases h with (⟨x, rfl, -⟩ | ⟨rfl, -⟩) | ⟨⟨bounded, rfl⟩, -⟩ <;> exact nofun

/-- No step of such a continuation ends a thread. -/
theorem staying_of_reachable (h : (domain Tid Obj Fn).Reachable Drains c c') (ht : (c.locals t).pc ≠ .exited) :
    (c'.locals t).pc ≠ .exited := by
  refine h.invariant (P := fun c => (c.locals t).pc ≠ .exited) ht ?_
  rintro c u a c' hc hok hn
  obtain ⟨sh, l, hs, rfl⟩ := Program.next_eq_some_iff.mp hn
  exact Program.update_of_both (P := fun l : Local Tid Obj Fn => l.pc ≠ .exited)
    ((moves_of_step hs).stays hok.ne_threadExit) hc

/-- The threads that are left drain the domain one after another. -/
theorem Cleared.drained [Fintype Tid] (h : Cleared c) (ht : (c.locals t).pc ≠ .exited) :
    ∃ c', (domain Tid Obj Fn).Reachable Drains c c' ∧ Cleared c' ∧ (∀ u, (c'.locals u).batch = []) ∧
      c'.shared.retired = [] := by
  obtain ⟨c', hr, hcleared, hdrained⟩ := Program.one_by_one (fun _ t h => h.drains t) h
  refine ⟨c', hr, hcleared, fun u => ?_, ((hdrained t).resolve_left (staying_of_reachable hr ht)).2⟩
  exact (hdrained u).elim (exited_of_reachable hcleared.reachable u) And.left

/-- Where nothing waits, everything that was queued has been called back. -/
theorem Cleared.reclaimed [Fintype Tid] (h : Cleared c) (hbatch : ∀ u, (c.locals u).batch = [])
    (hretired : c.shared.retired = []) : (c.shared.reclaimed : Multiset (RetiredNode Obj Fn)) = c.shared.queued := by
  have hlost := lost_of_reachable (h.reachable.mono fun _ _ _ hok => hok.2)
  have hacc : Accounted c := accounted_of_reachable h.reachable
  have hnone : total batchNodes c.locals = 0 := Finset.sum_eq_zero fun u _ => by rw [batchNodes, hbatch u]; rfl
  rw [Accounted, placedNodes, hlost, hretired, hnone] at hacc
  simpa using hacc.symm

/-- Every run whose threads publish before they exit and do not wait inside a section can go on until
nothing is left to reclaim, as long as one thread is left: no batch and no retired node remains, and
each queued node has been called back exactly as often as it was queued. Reclaim callbacks make no call
of the domain here. -/
theorem everything_can_be_reclaimed [Fintype Tid] (h : (domain Tid Obj Fn).Reachable Careful (initial Tid Obj Fn) c)
    (ht : (c.locals t).pc ≠ .exited) : ∃ c', (domain Tid Obj Fn).Reachable Drains c c' ∧
      (∀ u, (c'.locals u).pc.Returned ∧ (c'.locals u).batch = []) ∧ c'.shared.retired = [] ∧
      (c'.shared.reclaimed : Multiset (RetiredNode Obj Fn)) = c'.shared.queued := by
  have hwaits : (domain Tid Obj Fn).Reachable WaitsOutside (initial Tid Obj Fn) c := h.mono fun _ _ _ hok => hok.1
  obtain ⟨c₁, hr₁, ⟨hvacated, hsync⟩, hreturned⟩ := vacated_of_reachable hwaits
  have hr₁ : (domain Tid Obj Fn).Reachable Drains c c₁ := hr₁.mono fun _ _ _ => .inl
  have hcleared : Cleared c₁ := ⟨reachable_drains h hr₁, hreturned, hvacated.undisturbed hsync, hvacated.readers⟩
  obtain ⟨c', hr₂, hcleared, hbatch, hretired⟩ := hcleared.drained (staying_of_reachable hr₁ ht)
  exact ⟨c', hr₁.trans hr₂, fun u => ⟨hcleared.returned u, hbatch u⟩, hretired, hcleared.reclaimed hbatch hretired⟩

/-- A node waits in the batch of a thread, another in that of a reader. -/
theorem everything_can_be_reclaimed_waiting : ∃ c c' : Config Bool (Shared Bool Nat Unit) (Local Bool Nat Unit),
    (c.shared.queued.length, c.shared.reclaimed.length) = (2, 0) ∧
      (c'.shared.reclaimed : Multiset (RetiredNode Nat Unit)) = c'.shared.queued := by
  have hrun : ((domain Bool Nat Unit).exec Careful (initial Bool Nat Unit)
      [(true, .enter), (true, .run true), (true, .run true), (true, .run true), (true, .retire (some 1) (some ())),
        (true, .run true), (true, .run true), (false, .retireEager (some 2) (some ())), (false, .run true),
        (false, .run true), (false, .synchronizeEager), (false, .run true)]).map
      (fun c => ((c.shared.queued.length, c.shared.reclaimed.length), (c.locals true).pc)) =
        some ((2, 0), .idle (.token 1)) := by
    decide
  obtain ⟨c, hc, he⟩ := Option.map_eq_some_iff.mp hrun
  obtain ⟨hcount, hpc⟩ := Prod.mk.injEq _ _ _ _ ▸ he
  obtain ⟨c', -, -, -, hall⟩ := everything_can_be_reclaimed (t := true) (.of_exec .init hc) (by rw [hpc]; nofun)
  exact ⟨c, c', hcount, hall⟩

end Abix.RCU

import Abix.RCU.Steps
import Abix.Concurrency.Ledger
import Mathlib.Data.Multiset.AddSub
import Mathlib.Algebra.Order.Group.Multiset

/-! Where a retired node is: a node that has been queued lies in a thread's batch, in the
retired list, among the nodes whose callback has run, or with a thread that is gone. -/
namespace Abix.RCU
open Abix.Concurrency
variable {Tid Obj Fn : Type} [DecidableEq Tid] {t u : Tid} {a : Action Obj Fn} {sh sh' : Shared Tid Obj Fn}
  {l l' lu : Local Tid Obj Fn}

/-- What a thread relies on at its place: the lock it holds, the list it walks, the node
it carries. -/
def Placed (sh : Shared Tid Obj Fn) (t : Tid) : Pc Tid Obj Fn → Prop
  | .advanceStore _ _ | .collect _ _ => sh.lock = some t
  | .sweep _ _ kept rest _ => sh.lock = some t ∧ sh.retired = kept ++ rest
  | .retireQueue n => n ∈ sh.tagged
  | _ => True

omit [DecidableEq Tid] in
theorem Placed.locked {pc : Pc Tid Obj Fn} (h : Placed sh t pc) (hl : pc.Locked) : sh.lock = some t := by
  cases pc with
  | advanceStore | collect => exact h
  | sweep => exact h.1
  | _ => cases hl

omit [DecidableEq Tid] in
theorem Pc.First.placed {pc : Pc Tid Obj Fn} (h : pc.First) : Placed sh t pc := by
  cases pc with
  | advanceStore | collect | sweep | retireQueue => exact h.elim
  | _ => trivial

private theorem placed_own (h : Moves t sh a l sh' l') (hp : Placed sh t l.pc) : Placed sh' t l'.pc := by
  cases h with
  | called hs => exact (first_of_start hs).placed
  | registers => exact (first_afterThread _).placed
  | tags => exact List.mem_cons_self
  | begins | beginsUntil | collectLock => exact rfl
  | skips => exact hp
  | completes => exact ⟨hp, rfl⟩
  | swept => exact hp.1
  | reclaims => exact ⟨hp.1, rfl⟩
  | keeps => exact ⟨hp.1, by rw [hp.2]; simp⟩
  | _ => trivial

private theorem placed_others (h : Moves t sh a l sh' l') (hp : Placed sh t l.pc) (hne : u ≠ t)
    (hu : Placed sh u lu.pc) : Placed sh' u lu.pc := by
  obtain ⟨pc, b⟩ := lu
  cases pc with
  | advanceStore | collect =>
    obtain ⟨hl, -, -, -⟩ := h.excluded hp.locked hu hne
    exact hl.trans hu
  | sweep =>
    obtain ⟨hl, -, hr, -⟩ := h.excluded hp.locked hu.1 hne
    exact ⟨hl.trans hu.1, hr.trans hu.2⟩
  | retireQueue n => exact h.tagged_subset hu
  | _ => trivial

/-- A node comes into the retired list from the batch of the thread that publishes it, with all of that batch. -/
theorem Moves.retired {n : RetiredNode Obj Fn} (h : Moves t sh a l sh' l') (hp : Placed sh t l.pc)
    (hn : n ∈ sh'.retired) : n ∈ sh.retired ∨ (n ∈ l.batch ∧ l'.batch = []) := by
  cases h with
  | publishes | contended | deferred | begins | beginsUntil | contendedUntil | tries =>
    exact (List.mem_append.mp hn).symm.imp_right fun hn => ⟨hn, rfl⟩
  | reclaims =>
    left
    rw [hp.2]
    rcases List.mem_append.mp hn with hn | hn
    · exact List.mem_append_left _ hn
    · exact List.mem_append_right _ (List.mem_cons_of_mem _ hn)
  | _ => exact .inl hn

/-- Nodes come into batches and the retired list only after they were tagged. -/
private theorem tagged_own (h : Moves t sh a l sh' l') (hp : Placed sh t l.pc)
    (hr : ∀ n ∈ sh.retired, n ∈ sh.tagged) (hb : ∀ n ∈ l.batch, n ∈ sh.tagged) :
    (∀ n ∈ sh'.retired, n ∈ sh'.tagged) ∧ ∀ n ∈ l'.batch, n ∈ sh'.tagged := by
  refine ⟨fun n hn => h.tagged_subset ((h.retired hp hn).elim (hr n) fun hn => hb n hn.1), fun n hn => h.tagged_subset ?_⟩
  rcases h.batch hn with hn | ⟨hpc, -⟩
  · exact hb n hn
  · rw [hpc] at hp
    exact hp

/-- A thread that holds the lock after its step is at a place that holds it. -/
theorem Moves.locked (h : Moves t sh a l sh' l') (hold : sh.lock = some t → l.pc.Locked)
    (ht : sh'.lock = some t) : l'.pc.Locked := by
  cases h with
  | begins | beginsUntil | collectLock | skips | completes | swept | reclaims | keeps => trivial
  | advances | finishes => cases ht
  | _ => exact (hold ht).elim

theorem Moves.lock_ne (h : Moves t sh a l sh' l') (hu : sh'.lock = some u) (hne : u ≠ t) :
    sh.lock = some u := by
  cases h with
  | begins | beginsUntil | collectLock => exact absurd (Option.some.inj hu).symm hne
  | advances | finishes => cases hu
  | _ => exact hu

/-- The standing facts of the domain, over any run. -/
structure Custody (c : Config Tid (Shared Tid Obj Fn) (Local Tid Obj Fn)) : Prop where
  locked : ∀ t, c.shared.lock = some t → (c.locals t).pc.Locked
  placed : ∀ t, Placed c.shared t (c.locals t).pc
  retired : ∀ n ∈ c.shared.retired, n ∈ c.shared.tagged
  batches : ∀ t, ∀ n ∈ (c.locals t).batch, n ∈ c.shared.tagged

theorem custody_of_reachable {ok : Config Tid (Shared Tid Obj Fn) (Local Tid Obj Fn) → Tid → Action Obj Fn → Prop}
    {c : Config Tid (Shared Tid Obj Fn) (Local Tid Obj Fn)}
    (h : (domain Tid Obj Fn).Reachable ok (initial Tid Obj Fn) c) : Custody c := by
  have hstable : (domain Tid Obj Fn).Stable ok (fun sh => ∀ n ∈ sh.retired, n ∈ sh.tagged)
      (fun sh t l => Placed sh t l.pc ∧ (sh.lock = some t → l.pc.Locked) ∧ ∀ n ∈ l.batch, n ∈ sh.tagged) := by
    constructor
    · intro c t a sh l _ hr hj hs
      have hm := moves_of_step hs
      obtain ⟨hp, hl, hb⟩ := hj t
      obtain ⟨hr', hb'⟩ := tagged_own hm hp hr hb
      exact ⟨hr', placed_own hm hp, hm.locked hl, hb'⟩
    · intro c t a sh l _ hr hj hs u hne
      have hm := moves_of_step hs
      obtain ⟨hp, hl, hb⟩ := hj u
      exact ⟨placed_others hm (hj t).1 hne hp, fun hu => hl (hm.lock_ne hu hne), fun n hn => hm.tagged_subset (hb n hn)⟩
  have hstart (t : Tid) : Placed (initial Tid Obj Fn).shared t ((initial Tid Obj Fn).locals t).pc ∧
      ((initial Tid Obj Fn).shared.lock = some t → ((initial Tid Obj Fn).locals t).pc.Locked) ∧
      ∀ n ∈ ((initial Tid Obj Fn).locals t).batch, n ∈ (initial Tid Obj Fn).shared.tagged :=
    ⟨trivial, by simp [initial], by simp [initial]⟩
  obtain ⟨hr, hj⟩ := hstable.reachable (by simp [initial]) hstart h
  exact ⟨fun t => (hj t).2.1, fun t => (hj t).1, hr, fun t => (hj t).2.2⟩

/-- A node that a collection will call back, now or once its batch is published. -/
def Waiting (c : Config Tid (Shared Tid Obj Fn) (Local Tid Obj Fn)) (n : RetiredNode Obj Fn) : Prop :=
  n ∈ c.shared.retired ∨ ∃ t, n ∈ (c.locals t).batch

omit [DecidableEq Tid] in
theorem Custody.tagged_of_waiting {c : Config Tid (Shared Tid Obj Fn) (Local Tid Obj Fn)} {n : RetiredNode Obj Fn}
    (h : Custody c) (hn : Waiting c n) : n ∈ c.shared.tagged := by
  rcases hn with hn | ⟨t, hn⟩
  · exact h.retired n hn
  · exact h.batches t n hn

/-- A node that is in a batch after a step was in that batch before, or the step queues it. -/
theorem Moves.batches {c : Config Tid (Shared Tid Obj Fn) (Local Tid Obj Fn)} {n : RetiredNode Obj Fn}
    (h : Moves t c.shared a (c.locals t) sh' l') (hn : n ∈ (Function.update c.locals t l' u).batch) :
    n ∈ (c.locals u).batch ∨ ((c.locals t).pc = .retireQueue n ∧ a = .run true) := by
  by_cases hu : u = t
  · subst hu
    rw [Function.update_self] at hn
    exact h.batch hn
  · rw [Function.update_of_ne hu] at hn
    exact .inl hn

theorem Moves.waiting {c : Config Tid (Shared Tid Obj Fn) (Local Tid Obj Fn)} {n : RetiredNode Obj Fn}
    (h : Moves t c.shared a (c.locals t) sh' l') (hp : Placed c.shared t (c.locals t).pc)
    (hn : Waiting ⟨sh', Function.update c.locals t l'⟩ n) :
    Waiting c n ∨ ((c.locals t).pc = .retireQueue n ∧ a = .run true) := by
  rcases hn with hn | ⟨u, hn⟩
  · exact .inl ((h.retired hp hn).imp_right fun hb => ⟨t, hb.1⟩)
  · exact (h.batches hn).imp_left fun hb => .inr ⟨u, hb⟩

def placedNodes (sh : Shared Tid Obj Fn) : Multiset (RetiredNode Obj Fn) :=
  ↑sh.reclaimed + ↑sh.retired + ↑sh.lost

def batchNodes (l : Local Tid Obj Fn) : Multiset (RetiredNode Obj Fn) := ↑l.batch

/-- A step moves nodes between the batch of its thread and the shared lists, and queues at
most one. -/
theorem Moves.conserves (h : Moves t sh a l sh' l') (hp : Placed sh t l.pc) :
    placedNodes sh' + batchNodes l' + (sh.queued : Multiset (RetiredNode Obj Fn)) =
      placedNodes sh + batchNodes l + (sh'.queued : Multiset (RetiredNode Obj Fn)) := by
  have hpublish (b : List (RetiredNode Obj Fn)) : placedNodes (publishLocalBatchLocked sh b) + 0 =
      placedNodes sh + (b : Multiset (RetiredNode Obj Fn)) := by
    simp only [placedNodes, publishLocalBatchLocked, ← Multiset.coe_add]
    abel
  cases h with
  | exits =>
    simp only [placedNodes, batchNodes, ← Multiset.coe_add, Multiset.coe_nil]
    abel
  | queues | fills =>
    simp only [placedNodes, batchNodes, ← Multiset.coe_add, ← Multiset.cons_coe, ← Multiset.singleton_add,
      Multiset.coe_nil]
    abel
  | publishes | contended | deferred | begins | beginsUntil | contendedUntil | tries => exact congrArg (· + _) (hpublish _)
  | reclaims =>
    simp only [placedNodes, batchNodes, hp.2, ← Multiset.coe_add, ← Multiset.cons_coe, ← Multiset.singleton_add]
    abel
  | _ => rfl

def Accounted [Fintype Tid] (c : Config Tid (Shared Tid Obj Fn) (Local Tid Obj Fn)) : Prop :=
  (c.shared.queued : Multiset (RetiredNode Obj Fn)) = placedNodes c.shared + total batchNodes c.locals

omit [DecidableEq Tid] in
/-- Every node called back or in the retired list has been queued. -/
theorem Accounted.le_queued [Fintype Tid] {c : Config Tid (Shared Tid Obj Fn) (Local Tid Obj Fn)} (h : Accounted c) :
    (c.shared.reclaimed + c.shared.retired : Multiset (RetiredNode Obj Fn)) ≤ c.shared.queued := by
  rw [h, placedNodes, add_assoc (_ + _)]
  exact Multiset.le_add_right _ _

omit [DecidableEq Tid] in
theorem Accounted.queued_of_waiting [Fintype Tid] {c : Config Tid (Shared Tid Obj Fn) (Local Tid Obj Fn)}
    {n : RetiredNode Obj Fn} (h : Accounted c) (hn : Waiting c n) : n ∈ c.shared.queued := by
  rcases hn with hn | ⟨t, hn⟩
  · exact Multiset.mem_of_le ((Multiset.le_add_left _ _).trans h.le_queued) hn
  · have hle := (held_le_total batchNodes c.locals t).trans (le_add_of_nonneg_left (Multiset.zero_le (placedNodes c.shared)))
    rw [← h] at hle
    exact Multiset.mem_of_le hle hn

private theorem accounted_next [Fintype Tid] {c : Config Tid (Shared Tid Obj Fn) (Local Tid Obj Fn)}
    (h : Moves t c.shared a (c.locals t) sh' l') (hp : Placed c.shared t (c.locals t).pc) (hc : Accounted c) :
    Accounted ⟨sh', Function.update c.locals t l'⟩ :=
  ledger_update hc (h.conserves hp)

theorem accounted_of_reachable [Fintype Tid]
    {ok : Config Tid (Shared Tid Obj Fn) (Local Tid Obj Fn) → Tid → Action Obj Fn → Prop}
    {c : Config Tid (Shared Tid Obj Fn) (Local Tid Obj Fn)}
    (h : (domain Tid Obj Fn).Reachable ok (initial Tid Obj Fn) c) : Accounted c := by
  refine (h.assuming fun _ => custody_of_reachable).invariant (P := Accounted) ?_ ?_
  · simp [Accounted, initial, placedNodes, total, batchNodes]
  · rintro c t a c' hc ⟨hcust, -⟩ hn
    obtain ⟨sh, l, hs, rfl⟩ := Program.next_eq_some_iff.mp hn
    exact accounted_next (moves_of_step hs) (hcust.placed t) hc

end Abix.RCU

import Abix.RCU.Custody
import Abix.RCU.Undisturbed

/-! Where retired nodes are when threads start and exit. A batch belongs to its thread, and no
destructor publishes it, so the nodes of a thread that exits are kept only if it has published
them before. -/
namespace Abix.RCU
open Abix.Concurrency
variable {Tid Obj Fn : Type} [DecidableEq Tid] {t : Tid} {a : Action Obj Fn} {sh sh' : Shared Tid Obj Fn}
  {l l' : Local Tid Obj Fn} {c c' : Config Tid (Shared Tid Obj Fn) (Local Tid Obj Fn)}

def Local.liveBatch (l : Local Tid Obj Fn) : List (RetiredNode Obj Fn) :=
  match l.pc with
  | .exited => []
  | _ => l.batch

omit [DecidableEq Tid] in
private theorem Local.liveBatch_eq (h : l.pc = .exited → l.batch = []) : l.liveBatch = l.batch := by
  unfold liveBatch
  split
  · exact (h ‹_›).symm
  · rfl

/-- In how many places the node is: called back, in the retired list, in the batch of a live thread. -/
def places [Fintype Tid] [DecidableEq Obj] [DecidableEq Fn] (c : Config Tid (Shared Tid Obj Fn) (Local Tid Obj Fn))
    (n : RetiredNode Obj Fn) : Nat :=
  c.shared.reclaimed.count n + c.shared.retired.count n + total (fun l => l.liveBatch.count n) c.locals

/-- A thread has published its batch when it exits. -/
def Published (c : Config Tid (Shared Tid Obj Fn) (Local Tid Obj Fn)) (t : Tid) (a : Action Obj Fn) : Prop :=
  a = .threadExit → (c.locals t).batch = []

instance [DecidableEq Obj] [DecidableEq Fn] (c : Config Tid (Shared Tid Obj Fn) (Local Tid Obj Fn)) (t : Tid)
    (a : Action Obj Fn) : Decidable (Published c t a) := inferInstanceAs (Decidable (_ → _))

/-- A thread that exits leaves no batch behind in its record. -/
theorem Moves.exited (h : Moves t sh a l sh' l') (hold : l.pc = .exited → l.batch = []) (he : l'.pc = .exited) :
    l'.batch = [] := by
  cases h with
  | exits => rfl
  | called hs => exact absurd he (first_of_start hs).ne_exited
  | registers => exact absurd he (first_afterThread _).ne_exited
  | _ => cases he

theorem exited_of_reachable {ok : Config Tid (Shared Tid Obj Fn) (Local Tid Obj Fn) → Tid → Action Obj Fn → Prop}
    (h : (domain Tid Obj Fn).Reachable ok (initial Tid Obj Fn) c) (t : Tid) (he : (c.locals t).pc = .exited) :
    (c.locals t).batch = [] := by
  have hstable : (domain Tid Obj Fn).Stable ok (fun _ => True) (fun _ _ l => l.pc = .exited → l.batch = []) := by
    constructor
    · exact fun _ _ hj hs => ⟨trivial, (moves_of_step hs).exited (hj _)⟩
    · exact fun _ _ hj _ u _ => hj u
  exact (hstable.reachable trivial (fun _ _ => rfl) h).2 t he

private theorem Moves.lost_eq (h : Moves t sh a l sh' l') (hb : a = .threadExit → l.batch = []) : sh'.lost = sh.lost := by
  cases h with
  | exits =>
    have hb := hb rfl
    exact congrArg (· ++ sh.lost) hb
  | _ => rfl

theorem lost_of_reachable (h : (domain Tid Obj Fn).Reachable Published (initial Tid Obj Fn) c) : c.shared.lost = [] := by
  refine h.invariant (P := fun c => c.shared.lost = []) rfl ?_
  rintro c t a c' hc hpub hn
  obtain ⟨sh, l, hs, rfl⟩ := Program.next_eq_some_iff.mp hn
  exact ((moves_of_step hs).lost_eq hpub).trans hc

variable [Fintype Tid] [DecidableEq Obj] [DecidableEq Fn]

/-- In every run whose threads publish their batch before they exit, each queued node is in one
place: called back, in the retired list, or in the batch of a live thread; and a collection above
its epoch and its watermark takes it from the list and calls it back. -/
theorem nothing_lost (h : (domain Tid Obj Fn).Reachable Published (initial Tid Obj Fn) c) :
    (∀ n, c.shared.queued.count n = places c n) ∧
    ∀ t safe k todo clear r b, c.locals t = ⟨.collect safe ⟨k :: todo, clear, r⟩, b⟩ →
      c.shared.epoch.completedOf k < safe → ∃ c',
        (domain Tid Obj Fn).exec Program.anyStep c
          (List.replicate (c.shared.retired.length + 2) (t, .run true)) = some c' ∧
        ∀ n, due safe k n = true → c'.shared.retired.count n = 0 ∧
          c'.shared.reclaimed.count n = c.shared.reclaimed.count n + c.shared.retired.count n := by
  refine ⟨fun n => ?_, fun t safe k todo clear r b hlt hlow => ?_⟩
  · have hacc := congrArg (Multiset.count n) (accounted_of_reachable h)
    have hlive : total (fun l => l.liveBatch.count n) c.locals = (total batchNodes c.locals).count n := by
      rw [total, total, Multiset.count_sum']
      refine Finset.sum_congr rfl fun u _ => ?_
      rw [Local.liveBatch_eq (exited_of_reachable h u), batchNodes, Multiset.coe_count]
    rw [places, hlive]
    simpa [placedNodes, lost_of_reachable h] using hacc
  · have hlead := leads_collecting (t := t) (r := r) (b := b) todo clear hlow
    rw [← hlt] at hlead
    refine ⟨_, hlead.exec true, fun n hn => ?_⟩
    simp only [List.count_append, List.count_reverse, List.count_filter hn]
    refine ⟨List.count_eq_zero.mpr fun hm => ?_, Nat.add_comm _ _⟩
    have hkept := (List.mem_filter.mp hm).2
    rw [hn] at hkept
    cases hkept

theorem nothing_lost_published : ∃ c : Config Unit (Shared Unit Unit Unit) (Local Unit Unit Unit),
    (c.locals ()).pc = .exited ∧ places c ⟨some (), 1, some (), .batched⟩ = 1 := by
  have hrun : ((domain Unit Unit Unit).exec Published (initial Unit Unit Unit)
      [((), .retire (some ()) (some ())), ((), .run true), ((), .run true), ((), .synchronize), ((), .run true),
        ((), .threadExit)]).map
      (fun c => ((c.locals ()).pc, c.shared.queued.count ⟨some (), 1, some (), .batched⟩)) = some (.exited, 1) := by
    decide
  obtain ⟨c, hc, he⟩ := Option.map_eq_some_iff.mp hrun
  obtain ⟨hpc, hq⟩ := Prod.mk.injEq _ _ _ _ ▸ he
  exact ⟨c, hpc, ((nothing_lost (.of_exec .init hc)).1 _).symm.trans hq⟩

/-- A thread that retires one object and exits takes it along. -/
theorem nothing_lost_fails : ¬ ∀ c : Config Unit (Shared Unit Unit Unit) (Local Unit Unit Unit),
    (domain Unit Unit Unit).Reachable Program.anyStep (initial Unit Unit Unit) c →
      ∀ n, c.shared.queued.count n = places c n := by
  intro hall
  have hrun : ((domain Unit Unit Unit).exec Program.anyStep (initial Unit Unit Unit)
      [((), .retire (some ()) (some ())), ((), .run true), ((), .run true), ((), .threadExit)]).map
      (fun c => (c.shared.queued.count ⟨some (), 1, some (), .batched⟩, places c ⟨some (), 1, some (), .batched⟩)) =
      some (1, 0) := by
    decide
  obtain ⟨c, hc, he⟩ := Option.map_eq_some_iff.mp hrun
  have hcount := hall c (.of_exec .init hc) ⟨some (), 1, some (), .batched⟩
  simp only [Prod.mk.injEq] at he
  omega

end Abix.RCU

import Abix.RCU.Draining
import Abix.RCU.OwnSection

/-! How far the epoch words get. Every result about the domain assumes that its 64-bit words do not wrap,
and that is so in every run of fewer than 2^64 - 1 steps. -/
namespace Abix.RCU
open Abix.Concurrency
variable {Tid Obj Fn : Type} [DecidableEq Tid] {t : Tid} {a : Action Obj Fn} {sh sh' : Shared Tid Obj Fn}
  {l l' : Local Tid Obj Fn} {c c' : Config Tid (Shared Tid Obj Fn) (Local Tid Obj Fn)} {run : List (Tid × Action Obj Fn)}

private theorem Moves.global_le_succ (h : Moves t sh a l sh' l') : sh'.epoch.global ≤ sh.epoch.global + 1 := by
  cases h with
  | begins | beginsUntil => exact Nat.le_refl _
  | completes => simp
  | _ => exact Nat.le_succ _

private theorem global_le_of_exec (h : (domain Tid Obj Fn).exec Program.anyStep c run = some c') :
    c'.shared.epoch.global ≤ c.shared.epoch.global + run.length := by
  induction run generalizing c with
  | nil => exact (congrArg (·.shared.epoch.global) (Option.some.inj h)).ge
  | cons x run ih =>
    rw [Program.exec, if_pos trivial] at h
    obtain ⟨c₁, hnext, hrun⟩ := Option.bind_eq_some_iff.mp h
    obtain ⟨sh, l, hs, rfl⟩ := Program.next_eq_some_iff.mp hnext
    have hle : sh.epoch.global ≤ c.shared.epoch.global + 1 := (moves_of_step hs).global_le_succ
    have := ih hrun
    simp only [List.length_cons] at this ⊢
    omega

/-- No epoch word is ahead of the global epoch, and no epoch that a node carries. -/
theorem epochs_le_global {ok : Config Tid (Shared Tid Obj Fn) (Local Tid Obj Fn) → Tid → Action Obj Fn → Prop}
    (h : (domain Tid Obj Fn).Reachable ok (initial Tid Obj Fn) c) :
    c.shared.epoch.sync ≤ c.shared.epoch.global ∧ (∀ k, c.shared.epoch.completedOf k ≤ c.shared.epoch.global) ∧
      (∀ u, c.shared.readerEpoch u ≤ c.shared.epoch.global) ∧ ∀ n ∈ c.shared.tagged, n.epoch ≤ c.shared.epoch.global := by
  have hex := exclusive_of_reachable h
  refine ⟨?_, fun k => ((behind_of_reachable h).1 k).le, fun u => (entered_of_reachable h u).epoch,
    tagged_le_of_reachable h⟩
  by_cases hs : c.shared.epoch.sync = 0
  · exact hs ▸ Nat.zero_le _
  · obtain ⟨t, old, ho⟩ := hex.owned hs
    rw [hex.sync t old ho, hex.global t old (owns_advancing ho)]

/-- In a run that is short enough the naturals of the model are what the 64-bit words hold. -/
theorem epoch_words_fit (h : (domain Tid Obj Fn).exec Program.anyStep (initial Tid Obj Fn) run = some c)
    (hrun : run.length + 1 < 2 ^ 64) :
    c.shared.epoch.global < 2 ^ 64 ∧ c.shared.epoch.sync < 2 ^ 64 ∧ (∀ k, c.shared.epoch.completedOf k < 2 ^ 64) ∧
      (∀ u, c.shared.readerEpoch u < 2 ^ 64) ∧ ∀ n ∈ c.shared.tagged, n.epoch < 2 ^ 64 := by
  have hglobal : c.shared.epoch.global < 2 ^ 64 := by
    have hle : c.shared.epoch.global ≤ 1 + run.length := global_le_of_exec h
    omega
  obtain ⟨hsync, hcompleted, hreaders, htagged⟩ := epochs_le_global (.of_exec .init h)
  exact ⟨hglobal, hsync.trans_lt hglobal, fun k => (hcompleted k).trans_lt hglobal,
    fun u => (hreaders u).trans_lt hglobal, fun n hn => (htagged n hn).trans_lt hglobal⟩

end Abix.RCU

import Abix.RCU.Custody

/-! When `reclaimed_through` tells the truth. A collection raises the watermark of a class
before it has called back, and it sees the retired list only, so the answer is right as long
as nothing at or below the watermark is still in a batch and nobody asks during the sweep. -/
namespace Abix.RCU
open Abix.Concurrency
variable {Tid Obj Fn : Type} [DecidableEq Tid] {t u : Tid} {a : Action Obj Fn} {sh sh' : Shared Tid Obj Fn}
  {l l' lu : Local Tid Obj Fn} {c : Config Tid (Shared Tid Obj Fn) (Local Tid Obj Fn)} {n : RetiredNode Obj Fn}

/-- The watermark of its class has not reached the node. -/
def Fresh (e : Epoch) (n : RetiredNode Obj Fn) : Prop := e.completedOf n.cls < n.epoch

/-- Nodes that a collection cannot see: in a batch, or with a thread that is gone. -/
def Unpublished (c : Config Tid (Shared Tid Obj Fn) (Local Tid Obj Fn)) (n : RetiredNode Obj Fn) : Prop :=
  n ∈ c.shared.lost ∨ ∃ t, n ∈ (c.locals t).batch

/-- The class and the epoch of the collection that a thread is about to make. -/
def collecting : Pc Tid Obj Fn → Option (ReclaimClass × Nat)
  | .collect safe ⟨k :: _, _, _⟩ => some (k, safe)
  | _ => none

def queueing : Action Obj Fn → Pc Tid Obj Fn → Option (RetiredNode Obj Fn)
  | .run true, .retireQueue n => some n
  | _, _ => none

omit [DecidableEq Tid] in
theorem mem_queueing {pc : Pc Tid Obj Fn} (h : n ∈ queueing a pc) : a = .run true ∧ pc = .retireQueue n := by
  unfold queueing at h
  split at h
  · cases h
    exact ⟨rfl, rfl⟩
  · cases h

/-- What a sweep of the class up to the token or beyond has not looked at. -/
def unswept (token : Nat) (k : ReclaimClass) : Pc Tid Obj Fn → List (RetiredNode Obj Fn)
  | .sweep safe k' _ rest _ => if k' = k ∧ token ≤ safe then rest else []
  | _ => []

def asking : Action Obj Fn → Option (Nat × ReclaimClass)
  | .reclaimedThrough token k => some (token, k)
  | _ => none

/-- The condition on a step. A collection raises a watermark only over nodes it can see, a
node is queued only ahead of the watermark, and `reclaimed_through` is not asked while a
sweep has callbacks at or below the token ahead of it. -/
structure Timely (c : Config Tid (Shared Tid Obj Fn) (Local Tid Obj Fn)) (t : Tid) (a : Action Obj Fn) : Prop where
  collecting : ∀ x ∈ collecting (c.locals t).pc, c.shared.epoch.completedOf x.1 < x.2 →
    (∀ n ∈ c.shared.lost, n.cls = x.1 → x.2 < n.epoch) ∧ ∀ u, ∀ n ∈ (c.locals u).batch, n.cls = x.1 → x.2 < n.epoch
  queueing : ∀ n ∈ queueing a (c.locals t).pc, Fresh c.shared.epoch n
  asking : ∀ x ∈ asking a, ∀ u, ∀ n ∈ unswept x.1 x.2 (c.locals u).pc, n.cls = x.2 → x.1 < n.epoch

instance (e : Epoch) (n : RetiredNode Obj Fn) : Decidable (Fresh e n) := inferInstanceAs (Decidable (_ < _))

instance [Fintype Tid] (c : Config Tid (Shared Tid Obj Fn) (Local Tid Obj Fn)) (t : Tid) (a : Action Obj Fn) :
    Decidable (Timely c t a) :=
  decidable_of_iff (_ ∧ _ ∧ _) ⟨fun ⟨hc, hq, ha⟩ => ⟨hc, hq, ha⟩, fun h => ⟨h.collecting, h.queueing, h.asking⟩⟩

def Ahead (sh : Shared Tid Obj Fn) : Pc Tid Obj Fn → Prop
  | .advanceStore _ _ | .collect _ _ => ∀ n ∈ sh.retired, Fresh sh.epoch n
  | .sweep safe k kept rest _ => sh.epoch.completedOf k = safe ∧ (∀ n ∈ kept, Fresh sh.epoch n) ∧
      ∀ n ∈ rest, n.cls ≠ k → Fresh sh.epoch n
  | _ => True

/-- Every node that waits for a callback is ahead of its watermark, but for a sweep. -/
structure Ordered (c : Config Tid (Shared Tid Obj Fn) (Local Tid Obj Fn)) : Prop where
  unpublished : ∀ n, Unpublished c n → Fresh c.shared.epoch n
  retired : c.shared.lock = none → ∀ n ∈ c.shared.retired, Fresh c.shared.epoch n
  ahead : ∀ t, Ahead c.shared (c.locals t).pc

omit [DecidableEq Tid] in
theorem fresh_iff {e e' : Epoch} (h : ∀ k, e'.completedOf k = e.completedOf k) : Fresh e' n ↔ Fresh e n := by
  rw [Fresh, Fresh, h]

/-- Where the unpublished nodes of a step come from. -/
theorem Moves.unpublished (h : Moves t c.shared a (c.locals t) sh' l')
    (hn : Unpublished ⟨sh', Function.update c.locals t l'⟩ n) :
    Unpublished c n ∨ ((c.locals t).pc = .retireQueue n ∧ a = .run true) := by
  rcases hn with hn | ⟨u, hn⟩
  · exact .inl ((h.lost hn).imp_right fun hb => ⟨t, hb⟩)
  · exact (h.batches hn).imp_left fun hb => .inr ⟨u, hb⟩

private theorem unpublished_next (hc : Ordered c) (ht : Timely c t a) (h : Moves t c.shared a (c.locals t) sh' l')
    (hn : Unpublished ⟨sh', Function.update c.locals t l'⟩ n) : Fresh sh'.epoch n := by
  have hold : Fresh c.shared.epoch n := by
    rcases h.unpublished hn with hn | ⟨hpc, ha⟩
    · exact hc.unpublished n hn
    · exact ht.queueing n (by rw [hpc, ha, queueing, Option.mem_some_iff])
  rcases h.completedOf with he | ⟨safe, k, todo, clear, r, hpc, hlt, he⟩
  · exact (fresh_iff he).mpr hold
  · rw [Fresh, he, Epoch.completedOf_complete]
    split
    · rename_i hk
      rcases h.unpublished hn with hn | ⟨hq, -⟩
      · have hsee := ht.collecting (k, safe) (by rw [hpc, collecting, Option.mem_some_iff]) hlt
        rcases hn with hn | ⟨u, hn⟩
        · exact hsee.1 n hn hk
        · exact hsee.2 u n hn hk
      · rw [hpc] at hq
        cases hq
    · exact hold

omit [DecidableEq Tid] in
theorem Pc.First.ahead {pc : Pc Tid Obj Fn} (h : pc.First) : Ahead sh pc := by
  cases pc with
  | advanceStore | collect | sweep => exact h.elim
  | _ => trivial

/-- What the thread that moves finds in the retired list when it has the lock to itself. -/
theorem ahead_own (hc : Ordered c) (hp : Placed c.shared t (c.locals t).pc)
    (h : Moves t c.shared a (c.locals t) sh' l') :
    Ahead sh' l'.pc ∧ (sh'.lock = none → ∀ n ∈ sh'.retired, Fresh sh'.epoch n) := by
  have hbatch : ∀ n ∈ (c.locals t).batch, Fresh c.shared.epoch n := fun n hn => hc.unpublished n (.inr ⟨t, hn⟩)
  have hahead := hc.ahead t
  have hretired := hc.retired
  generalize c.locals t = l at h hp hbatch hahead
  have happend (hl : c.shared.lock = none) : ∀ n ∈ l.batch ++ c.shared.retired, Fresh c.shared.epoch n := fun n hn =>
    (List.mem_append.mp hn).elim (hbatch n) (hretired hl n)
  cases h with
  | called hs => exact ⟨(first_of_start hs).ahead, hretired⟩
  | registers => exact ⟨(first_afterThread _).ahead, hretired⟩
  | publishes hl | contended hl | deferred hl | contendedUntil hl | tries hl => exact ⟨trivial, fun _ => happend hl⟩
  | begins hl | beginsUntil hl => exact ⟨fun n hn => (fresh_iff fun k => by cases k <;> rfl).mpr (happend hl n hn), nofun⟩
  | advances | finishes =>
    exact ⟨trivial, fun _ n hn => (fresh_iff fun k => by cases k <;> rfl).mpr (hahead n hn)⟩
  | collectLock hl => exact ⟨hretired hl, nofun⟩
  | skips =>
    have hlock : c.shared.lock = some t := hp
    exact ⟨hahead, fun hl => nomatch hlock.symm.trans hl⟩
  | completes =>
    have hlock : c.shared.lock = some t := hp
    refine ⟨⟨by rw [Epoch.completedOf_complete, if_pos rfl], by simp, fun n hn hne => ?_⟩,
      fun hl => nomatch hlock.symm.trans hl⟩
    rw [Fresh, Epoch.completedOf_complete, if_neg hne]
    exact hahead n hn
  | swept =>
    obtain ⟨hlock, hr⟩ := hp
    obtain ⟨-, hkept, -⟩ := hahead
    refine ⟨fun n hn => hkept n ?_, fun hl => nomatch hlock.symm.trans hl⟩
    simpa [hr] using hn
  | reclaims =>
    obtain ⟨hlock, -⟩ := hp
    obtain ⟨hsafe, hkept, hrest⟩ := hahead
    exact ⟨⟨hsafe, hkept, fun n hn => hrest n (List.mem_cons_of_mem _ hn)⟩, fun hl => nomatch hlock.symm.trans hl⟩
  | @keeps _ safe k kept n rest fin batch hn =>
    obtain ⟨hlock, -⟩ := hp
    obtain ⟨hsafe, hkept, hrest⟩ := hahead
    refine ⟨⟨hsafe, fun m hm => ?_, fun m hm => hrest m (List.mem_cons_of_mem _ hm)⟩,
      fun hl => nomatch hlock.symm.trans hl⟩
    rcases List.mem_append.mp hm with hm | hm
    · exact hkept m hm
    · obtain rfl := List.mem_singleton.mp hm
      by_cases hk : m.cls = k
      · rw [Fresh, hk, hsafe]
        exact Nat.lt_of_not_le fun hle => hn ⟨hk, hle⟩
      · exact hrest m List.mem_cons_self hk
  | _ => exact ⟨trivial, hretired⟩

private theorem ahead_others (h : Moves t sh a l sh' l') (hp : Placed sh t l.pc) (hne : u ≠ t)
    (hu : Placed sh u lu.pc) (hahead : Ahead sh lu.pc) : Ahead sh' lu.pc := by
  obtain ⟨pc, b⟩ := lu
  cases pc with
  | advanceStore | collect =>
    obtain ⟨-, he, hr, -⟩ := h.excluded hp.locked hu hne
    intro n hn
    rw [he]
    exact hahead n (hr ▸ hn)
  | sweep =>
    obtain ⟨-, he, -, -⟩ := h.excluded hp.locked hu.1 hne
    simpa only [Ahead, he] using hahead
  | _ => trivial

theorem ordered_next (hc : Ordered c) (hcust : Custody c) (ht : Timely c t a)
    (h : Moves t c.shared a (c.locals t) sh' l') : Ordered ⟨sh', Function.update c.locals t l'⟩ := by
  obtain ⟨hown, hfree⟩ := ahead_own hc (hcust.placed t) h
  refine ⟨fun n hn => unpublished_next hc ht h hn, hfree, fun u => ?_⟩
  by_cases hu : u = t
  · subst hu
    simpa using hown
  · simpa [Function.update_of_ne hu] using ahead_others h (hcust.placed t) hu (hcust.placed u) (hc.ahead u)

private theorem ordered_of_reachable (h : (domain Tid Obj Fn).Reachable Timely (initial Tid Obj Fn) c) : Ordered c := by
  have hstart (t : Tid) : Ahead (initial Tid Obj Fn).shared ((initial Tid Obj Fn).locals t).pc := trivial
  refine (h.assuming fun _ => custody_of_reachable).invariant (P := Ordered) ⟨?_, ?_, hstart⟩ ?_
  · rintro n (hn | ⟨t, hn⟩) <;> cases hn
  · exact fun _ n hn => nomatch hn
  · rintro c t a c' hc ⟨hcust, ht⟩ hn
    obtain ⟨sh, l, hs, rfl⟩ := Program.next_eq_some_iff.mp hn
    exact ordered_next hc hcust ht (moves_of_step hs)

omit [DecidableEq Tid] in
/-- A node at or below the watermark of its class waits for nothing, unless a sweep of its
class still has it ahead. -/
theorem Ordered.not_waiting (hc : Ordered c) (hcust : Custody c) (hn : ¬ Fresh c.shared.epoch n)
    (hsweep : ∀ u safe kept rest fin, (c.locals u).pc = .sweep safe n.cls kept rest fin → n ∉ rest) :
    n ∉ c.shared.retired ∧ ¬ Unpublished c n := by
  refine ⟨fun hr => ?_, fun hu => hn (hc.unpublished n hu)⟩
  cases hlock : c.shared.lock with
  | none => exact hn (hc.retired hlock n hr)
  | some u =>
    have hl := hcust.locked u hlock
    have hahead := hc.ahead u
    have hplace := hcust.placed u
    cases hpc : (c.locals u).pc with
    | advanceStore | collect =>
      rw [hpc] at hahead
      exact hn (hahead n hr)
    | sweep safe k kept rest fin =>
      rw [hpc] at hahead hplace
      obtain ⟨-, hkept, hrest⟩ := hahead
      rw [hplace.2] at hr
      rcases List.mem_append.mp hr with hr | hr
      · exact hn (hkept n hr)
      · by_cases hk : n.cls = k
        · exact hsweep u safe kept rest fin (by rw [hpc, hk]) hr
        · exact hn (hrest n hr hk)
    | _ => 
      rw [hpc] at hl
      exact hl

/-- `reclaimed_through` answers true only when every object of the class retired at or below
the token has been called back. -/
theorem reclaimedThrough_honest [Fintype Tid] [DecidableEq Obj] [DecidableEq Fn]
    (h : (domain Tid Obj Fn).Reachable Timely (initial Tid Obj Fn) c) {token : Nat} {k : ReclaimClass}
    (ht : Timely c t (.reclaimedThrough token k)) (hyes : reclaimedThrough c.shared token k = true) :
    ∀ n, n.cls = k → n.epoch ≤ token → c.shared.reclaimed.count n = c.shared.queued.count n := by
  intro n hk hle
  have hc := ordered_of_reachable h
  have hcust := custody_of_reachable h
  have hmark : token ≤ c.shared.epoch.completedOf k := by
    simp only [reclaimedThrough, decide_eq_true_eq] at hyes
    exact hyes.2
  have hold : ¬ Fresh c.shared.epoch n := by
    rw [Fresh, hk]
    omega
  obtain ⟨hretired, hunpub⟩ := hc.not_waiting hcust hold fun u safe kept rest fin hpc hr => by
    have hsafe : c.shared.epoch.completedOf k = safe := by
      have hahead := hc.ahead u
      rw [hpc, hk] at hahead
      exact hahead.1
    have hmem : n ∈ unswept token k (c.locals u).pc := by rwa [hpc, unswept, if_pos ⟨hk, hsafe ▸ hmark⟩]
    exact absurd (ht.asking (token, k) rfl u n hmem hk) (Nat.not_lt.mpr hle)
  have hcount := congrArg (Multiset.count n) (accounted_of_reachable h)
  have hbatch : Multiset.count n (total batchNodes c.locals) = 0 := by
    rw [Multiset.count_eq_zero]
    intro hm
    obtain ⟨t, -, ht⟩ := Multiset.mem_sum.mp hm
    exact hunpub (.inr ⟨t, ht⟩)
  have hlost : c.shared.lost.count n = 0 := List.count_eq_zero.mpr fun hm => hunpub (.inl hm)
  have hret : c.shared.retired.count n = 0 := List.count_eq_zero.mpr hretired
  simp only [placedNodes, Multiset.count_add, Multiset.coe_count, hbatch, hlost, hret] at hcount
  omega

end Abix.RCU

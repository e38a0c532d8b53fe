import Abix.DLL.Retirement

/-! The outcome that `retire_image` records. It comes from `reclaimed_through`, asked with the
token of the image's own node, so it is as honest as that answer is. -/
namespace Abix.DLL
open Abix.Concurrency Abix.RCU
variable {Tid Obj Ext : Type} [DecidableEq Tid] [DecidableEq Obj] {t : Tid} {sh : Shared Tid Obj Ext}
  {l l' : Local Tid Obj Ext} {d d' : RCU.Shared Tid (Resource Ext) Reclaim} {a : Action Obj Ext}
  {b : RCU.Action (Resource Ext) Reclaim} {c : Config Tid (Shared Tid Obj Ext) (Local Tid Obj Ext)}

def imageNode (i token : Nat) : RetiredNode (Resource Ext) Reclaim :=
  ⟨some (.image i), token, some .reclaimImage, .batched⟩

/-- A token names the node it was given for, unless no memory was left for one. -/
def Token (d : RCU.Shared Tid (Resource Ext) Reclaim) (i token : Nat) : Prop :=
  token ≠ 0 → imageNode i token ∈ d.queued

/-- What a thread knows of its image once it has asked for its node to be retired. -/
def Awaiting (d : RCU.Shared Tid (Resource Ext) Reclaim) : Frame Obj → Pc Tid (Resource Ext) Reclaim → Prop
  | .retire _ i _ .wait _, pc =>
    match pc with
    | .retireLoad _ _ _ | .retireQueue _ => True
    | .retirePublish token | .idle (.token token) => Token d i token
    | _ => False
  | .retire _ i _ (.check token) _, _ => Token d i token
  | .retire _ i _ (.outcome _) _, pc => ∃ yes, pc = .idle (.answer yes) ∧
      (yes = true → ∃ token, imageNode i token ∈ d.reclaimed)
  | _, _ => True

omit [DecidableEq Tid] [DecidableEq Obj] in
/-- More nodes queued and called back do not disturb it. -/
theorem Awaiting.mono {f : Frame Obj} {pc : Pc Tid (Resource Ext) Reclaim} (h : Awaiting d f pc)
    (hq : d.queued ⊆ d'.queued) (hr : d.reclaimed ⊆ d'.reclaimed) : Awaiting d' f pc := by
  cases f with
  | retire o i bounded stage next =>
    cases stage with
    | wait =>
      cases pc with
      | retireLoad | retireQueue => trivial
      | retirePublish => exact fun hz => hq (h hz)
      | idle r =>
        cases r with
        | token => exact fun hz => hq (h hz)
        | _ => exact h.elim
      | _ => exact h.elim
    | check => exact fun hz => hq (h hz)
    | outcome =>
      obtain ⟨yes, hpc, hy⟩ := h
      exact ⟨yes, hpc, fun hyes => (hy hyes).imp fun _ hn => hr hn⟩
    | _ => trivial
  | _ => trivial

omit [DecidableEq Obj] in
/-- An access of the running call of the domain. -/
theorem awaiting_run {y : Bool} {f : Frame Obj} {ld ld' : RCU.Local Tid (Resource Ext) Reclaim}
    (hm : RCU.Moves t d (.run y) ld d' ld') (hflight : ∀ x, inFlight ld.pc = some x → FlightAt f x)
    (h : Awaiting d f ld.pc) : Awaiting d' f ld'.pc := by
  cases f with
  | retire o i bounded stage next =>
    cases stage with
    | wait =>
      cases hm with
      | called hs => cases hs
      | tags => trivial
      | @queues n | @fills n =>
        intro _
        obtain ⟨object, epoch, reclaim, cls⟩ := n
        cases hflight _ rfl
        exact List.mem_cons_self
      | noMemory => exact fun hz => absurd rfl hz
      | publishes => exact h
      | _ => exact h.elim
    | check => exact fun hz => hm.queued_subset (h hz)
    | outcome =>
      obtain ⟨yes, hpc, -⟩ := h
      cases hm with
      | called hs => cases hs
      | _ => cases hpc
    | _ => trivial
  | _ => trivial

omit [DecidableEq Obj] in
private theorem awaiting_call {r : Result} {o : Obj} {i : Nat} {bounded : Bool} {stage stage' : Stage} {next : Next}
    {ld ld' : RCU.Local Tid (Resource Ext) Reclaim} (hm : RCU.Moves t d b ld d' ld') (hidle : ld.pc = .idle r)
    (hcall : retireImage i bounded r stage = some (b, stage'))
    (hyes : ∀ token, b = .reclaimedThrough token .batched → reclaimedThrough d token .batched = true →
      imageNode i token ∈ d.queued → imageNode i token ∈ d.reclaimed)
    (h : Awaiting d (.retire o i bounded stage next) ld.pc) : Awaiting d' (.retire o i bounded stage' next) ld'.pc := by
  cases stage with
  | index =>
    cases hcall
    cases bounded <;> trivial
  | sync =>
    cases hcall
    trivial
  | image =>
    cases hcall
    cases hm with
    | called hs =>
      cases hs
      trivial
  | wait =>
    cases hcall
    rw [hidle] at h
    refine Awaiting.mono (d := d) ?_ hm.queued_subset hm.reclaimed_subset
    cases r with
    | token => exact h
    | _ => exact h.elim
  | check token =>
    cases hcall
    cases hm with
    | called hs =>
      cases hs
      refine ⟨_, rfl, fun hdone => ⟨token, hyes token rfl hdone (h ?_)⟩⟩
      simp only [reclaimedThrough, decide_eq_true_eq] at hdone
      exact hdone.1
  | outcome => cases hcall

omit [DecidableEq Tid] in
theorem retired_outcomes (o : Obj) (next : Next) : (sh.retired o next).1.outcomes = sh.outcomes := by
  cases next <;> rfl

omit [DecidableEq Tid] [DecidableEq Obj] in
private theorem destroyControl_outcomes (o : Obj) (k : Control) : (sh.destroyControl o k).1.outcomes = sh.outcomes := by
  unfold Shared.destroyControl
  split <;> rfl

omit [DecidableEq Tid] in
private theorem swapped_outcomes (k : Control) (o : Obj) (s : Swap) (prev : Option Nat) :
    (sh.swapped k o s prev).1.outcomes = sh.outcomes := by
  unfold Shared.swapped
  split
  · rfl
  · exact retired_outcomes _ _
  · rfl
  · rfl

omit [DecidableEq Tid] in
/-- An outcome is recorded at the end of `retire_image` alone. -/
theorem Moves.outcomes {r : Result} {o : Obj} {f : Frame Obj} {p : Shared Tid Obj Ext × Frame Obj}
    (h : Moves sh r o f p) : p.1.outcomes = sh.outcomes ∨ ∃ i bounded proven next,
      f = .retire o i bounded (.outcome proven) next ∧
        p.1.outcomes = (i, reclaimOutcome bounded proven (decide (r = .answer true))) :: sh.outcomes := by
  cases h with
  | records => exact .inr ⟨_, _, _, _, rfl, retired_outcomes _ _⟩
  | dropsLast | dropsOwnedLast => exact .inl (destroyControl_outcomes _ _)
  | unlocks => exact .inl (swapped_outcomes _ _ _ _)
  | @timesOut s => cases s <;> exact .inl rfl
  | _ => exact .inl rfl

private theorem reclaimOutcome_eq_reclaimed {bounded proven done : Bool}
    (h : reclaimOutcome bounded proven done = .reclaimed) : done = true := by
  unfold reclaimOutcome at h
  split at h
  · assumption
  · split at h <;> cases h

/-- Every thread in `retire_image` knows its image's token, and the outcomes are true. -/
structure Honest (c : Config Tid (Shared Tid Obj Ext) (Local Tid Obj Ext)) : Prop where
  awaiting : ∀ t, Awaiting c.shared.dom (c.locals t).frame (c.locals t).dom.pc
  outcomes : ∀ i, (i, .reclaimed) ∈ c.shared.outcomes → ∃ token, imageNode i token ∈ c.shared.dom.reclaimed

omit [DecidableEq Tid] in
theorem Moves.awaiting {r : Result} {o : Obj} {f : Frame Obj} {p : Shared Tid Obj Ext × Frame Obj}
    {pc : Pc Tid (Resource Ext) Reclaim} (hm : Moves sh r o f p) : Awaiting d p.2 pc := by
  rcases hm.hands.disposed with ⟨_, _, _, _, he, -⟩ | ⟨hnot, -⟩
  · rw [he]
    trivial
  · generalize p.2 = g at hnot
    cases g with
    | retire => cases hnot
    | _ => trivial

private theorem honest_next (h : Honest c) (hflight : Flight (c.locals t))
    (hyes : ∀ g i token, domainAccess (c.locals t) a = some (.reclaimedThrough token .batched, g) →
      reclaimedThrough c.shared.dom token .batched = true → imageNode i token ∈ c.shared.dom.queued →
        imageNode i token ∈ c.shared.dom.reclaimed)
    (hs : step t c.shared (c.locals t) a = some (sh, l)) : Honest ⟨sh, Function.update c.locals t l⟩ := by
  rcases step_cases hs with ⟨b, d, hb, hd, rfl, -⟩ | ⟨r, o, -, hpc, hdom, hm, -⟩
  · have hm := RCU.moves_of_step hd
    refine ⟨fun u => ?_, fun i hi => (h.outcomes i hi).imp fun _ hn => hm.reclaimed_subset hn⟩
    by_cases hu : u = t
    · subst hu
      simp only [Function.update_self]
      have hold := h.awaiting u
      rcases domainAccess_cases hb with ⟨v, hv, hg, -⟩ | ⟨y, rfl, hg⟩ | ⟨r, o, i, _, _, _, _, hidle, hf, hg, hcall⟩
      · rw [hg, hv]
        trivial
      · rw [hg]
        exact awaiting_run hm hflight hold
      · rw [hg]
        exact awaiting_call hm hidle hcall (fun token he => hyes _ i token (he ▸ hb)) (hf ▸ hold)
    · simp only [Function.update_of_ne hu]
      exact (h.awaiting u).mono hm.queued_subset hm.reclaimed_subset
  · have hsame : sh.dom = c.shared.dom := hm.hands.dom
    refine ⟨fun u => ?_, fun i hi => ?_⟩
    · by_cases hu : u = t
      · subst hu
        simp only [Function.update_self]
        exact hm.awaiting
      · simp only [Function.update_of_ne hu, hsame]
        exact h.awaiting u
    · simp only [hsame]
      rcases hm.outcomes with he | ⟨j, bounded, proven, next, hf, he⟩
      · exact h.outcomes i (he ▸ hi)
      · have hi : (i, ReclaimOutcome.reclaimed) ∈ sh.outcomes := hi
        rw [show sh.outcomes = _ from he] at hi
        rcases List.mem_cons.mp hi with hi | hi
        · obtain ⟨rfl, hdone⟩ := Prod.mk.inj hi
          have hold := h.awaiting t
          rw [hf, hpc] at hold
          obtain ⟨yes, hr, hnode⟩ := hold
          have hyes := of_decide_eq_true (reclaimOutcome_eq_reclaimed hdone.symm)
          rw [hyes] at hr
          cases hr
          exact hnode rfl
        · exact h.outcomes i hi

/-- The second half of a retire call returns no token, or queues the node and returns its epoch. -/
theorem retire_gives_token {c' : Config Tid (Shared Tid Obj Ext) (Local Tid Obj Ext)}
    {n : RetiredNode (Resource Ext) Reclaim} (hpc : (c.locals t).dom.pc = .retireQueue n)
    (hn : (system Tid Obj Ext).next c t a = some c') :
    (c'.locals t).dom.pc = .idle (.token 0) ∨ n ∈ c'.shared.dom.queued ∧
      ((c'.locals t).dom.pc = .idle (.token n.epoch) ∨ (c'.locals t).dom.pc = .retirePublish n.epoch) := by
  obtain ⟨sh, l, hs, rfl⟩ := Program.next_eq_some_iff.mp hn
  simp only [Function.update_self]
  rcases step_cases hs with ⟨b, d, -, hd, rfl, -⟩ | ⟨r, o, -, hidle, -, -, -⟩
  · have hm := RCU.moves_of_step hd
    generalize (c.locals t).dom = ld at hpc hm
    generalize l.dom = ld' at hm
    cases hm with
    | queues =>
      cases hpc
      exact .inr ⟨List.mem_cons_self, .inl rfl⟩
    | fills =>
      cases hpc
      exact .inr ⟨List.mem_cons_self, .inr rfl⟩
    | noMemory => exact .inl rfl
    | _ => cases hpc
  · cases hpc.symm.trans hidle

theorem honest_of_reachable [Fintype Tid] [DecidableEq Ext] {made : Obj → Bool}
    (h : (system Tid Obj Ext).Reachable (Disciplined Timely) (start Tid Ext made) c) : Honest c := by
  have hstart (t : Tid) : Awaiting (start Tid Ext made).shared.dom ((start Tid Ext made).locals t).frame
      ((start Tid Ext made).locals t).dom.pc := trivial
  refine (h.assuming fun _ h => And.intro h (retiring_of_reachable h)).invariant (P := Honest) ⟨hstart, nofun⟩ ?_
  rintro c t a c' hc ⟨⟨hr, hret⟩, hok⟩ hn
  obtain ⟨sh, l, hs, rfl⟩ := Program.next_eq_some_iff.mp hn
  refine honest_next hc (hret.flight t) (fun g i token hb hyes hq => ?_) hs
  have hall : c.shared.dom.reclaimed.count (imageNode i token) = c.shared.dom.queued.count (imageNode i token) :=
    reclaimedThrough_honest (domainOf_reachable hr) (hok _ hb) hyes (imageNode i token) rfl (le_refl _)
  apply List.count_pos_iff.mp
  rw [hall]
  exact List.count_pos_iff.mpr hq

/-- While collections see every node they pass, nodes are queued ahead of the watermark and no
one asks during a sweep, the token that a retire call gives names its node, `reclaimed_through`
answers true only when every object of the class retired at or below the token has been called
back, and `reclaimed` is recorded only for images that are gone. -/
theorem reclaimed_through_is_honest [Fintype Tid] [DecidableEq Ext] {made : Obj → Bool}
    (h : (system Tid Obj Ext).Reachable (Disciplined Timely) (start Tid Ext made) c) :
    (∀ t a c' n, (c.locals t).dom.pc = .retireQueue n → (system Tid Obj Ext).next c t a = some c' →
      (c'.locals t).dom.pc = .idle (.token 0) ∨ n ∈ c'.shared.dom.queued ∧
        ((c'.locals t).dom.pc = .idle (.token n.epoch) ∨ (c'.locals t).dom.pc = .retirePublish n.epoch)) ∧
    (∀ t a token k g, Disciplined Timely c t a →
      domainAccess (c.locals t) a = some (.reclaimedThrough token k, g) →
      reclaimedThrough c.shared.dom token k = true → ∀ n, n.cls = k → n.epoch ≤ token →
        c.shared.dom.reclaimed.count n = c.shared.dom.queued.count n) ∧
    ∀ i, (i, .reclaimed) ∈ c.shared.outcomes → ∃ token, imageNode i token ∈ c.shared.dom.reclaimed :=
  ⟨fun _ _ _ _ hpc hn => retire_gives_token hpc hn,
    fun _ _ _ _ _ hok hb hyes => reclaimedThrough_honest (domainOf_reachable h) (hok _ hb) hyes,
    (honest_of_reachable h).outcomes⟩

def accessesOf (t : Tid) (k : Nat) : List (Tid × Action Unit Unit) := List.replicate k (t, .run true)

/-- A bounded reclaim whose grace period passes records that image 0 is gone. -/
theorem reclaimed_through_is_honest_bounded : ∃ c : Config Unit (Shared Unit Unit Unit) (Local Unit Unit Unit),
    c.shared.outcomes = [(0, .reclaimed)] ∧ ∃ token, imageNode 0 token ∈ c.shared.dom.reclaimed := by
  have hrun : (((system Unit Unit Unit).exec (Disciplined Timely) (start Unit Unit fun _ => true)
      (((), .setReclaimTimeoutMs () 5) :: ((), .load () "") :: accessesOf () 6 ++ ((), .unload ()) ::
        accessesOf () 27)).map fun c => c.shared.outcomes) = some [(0, .reclaimed)] := by
    decide
  obtain ⟨c, hc, he⟩ := Option.map_eq_some_iff.mp hrun
  exact ⟨c, he, (reclaimed_through_is_honest (.of_exec .init hc)).2.2 0 (he ▸ List.mem_cons_self)⟩

/-- Between the load of the epoch and the append of the node, another thread's collection raises
the watermark over that epoch. -/
private def overtakenRetire : List (Bool × Action Unit Unit) :=
  (true, .load () "") :: accessesOf true 6 ++ (true, .unload ()) :: accessesOf true 20 ++
    (false, .domain (.synchronizeUntil false)) :: accessesOf false 10 ++ accessesOf true 5

/-- Image 0 is recorded as reclaimed, and `reclaimed_through` says so for its token, while its
node waits in the retired list. -/
theorem reclaimed_through_lies : ∃ c : Config Bool (Shared Bool Unit Unit) (Local Bool Unit Unit),
    (system Bool Unit Unit).Reachable Program.anyStep (start Bool Unit fun _ => true) c ∧
      (0, .reclaimed) ∈ c.shared.outcomes ∧ reclaimedThrough c.shared.dom 2 .batched = true ∧
      imageNode 0 2 ∈ c.shared.dom.retired ∧ ∀ token, imageNode 0 token ∉ c.shared.dom.reclaimed := by
  have hrun : (((system Bool Unit Unit).exec Program.anyStep (start Bool Unit fun _ => true) overtakenRetire).map
      fun c => decide (c.shared.outcomes = [(0, .reclaimed)] ∧ reclaimedThrough c.shared.dom 2 .batched = true ∧
        c.shared.dom.retired = [imageNode 0 2] ∧ c.shared.dom.reclaimed.map RetiredNode.cls = [.eager])) =
      some true := by
    decide
  obtain ⟨c, hc, he⟩ := Option.map_eq_some_iff.mp hrun
  obtain ⟨ho, hyes, hret, hrec⟩ := of_decide_eq_true he
  refine ⟨c, .of_exec .init hc, ho ▸ List.mem_cons_self, hyes, hret ▸ List.mem_cons_self, fun token hmem => ?_⟩
  have := List.mem_map_of_mem (f := RetiredNode.cls) hmem
  simp [hrec, imageNode] at this

end Abix.DLL

import Abix.RCU.Advancement
import Abix.RCU.Watermark

/-! One thread retires and reclaims, and the others do nothing but read. Its batch is published before
each collection and nobody else has one, so it always collects in time. -/
namespace Abix.RCU
open Abix.Concurrency
variable {Tid Obj Fn : Type} [DecidableEq Tid] {w t u : Tid} {a : Action Obj Fn} {sh sh' : Shared Tid Obj Fn}
  {l l' : Local Tid Obj Fn} {c : Config Tid (Shared Tid Obj Fn) (Local Tid Obj Fn)} {n : RetiredNode Obj Fn}

def Action.reads : Action Obj Fn → Bool
  | .enter | .exit | .threadExit | .run _ => true
  | _ => false

def Pc.Reading : Pc Tid Obj Fn → Prop
  | .idle _ | .exited | .registerThread _ | .enterLoad | .enterStore _ | .exitStore => True
  | _ => False

def Pc.Published : Pc Tid Obj Fn → Prop
  | .synchronizeSpin | .untilContended _ | .advanceStore _ _ | .readersHead _ _ | .readersPassed _ _ _ | .minHead _
  | .minScan _ _ | .collectLock _ _ | .collect _ _ | .sweep _ _ _ _ _ => True
  | _ => False

/-- The thread `w` stays, and the other threads only read. -/
structure Sole (w : Tid) (_c : Config Tid (Shared Tid Obj Fn) (Local Tid Obj Fn)) (t : Tid)
    (a : Action Obj Fn) : Prop where
  stays : t = w → a ≠ .threadExit
  reads : t ≠ w → a.reads = true

instance [DecidableEq Obj] [DecidableEq Fn] (w : Tid) (c : Config Tid (Shared Tid Obj Fn) (Local Tid Obj Fn)) (t : Tid)
    (a : Action Obj Fn) : Decidable (Sole w c t a) :=
  decidable_of_iff (_ ∧ _) ⟨fun ⟨hs, hr⟩ => ⟨hs, hr⟩, fun h => ⟨h.stays, h.reads⟩⟩

/-- What is known of the other threads, and of the batch and the node in flight of `w`. -/
structure Alone (w : Tid) (c : Config Tid (Shared Tid Obj Fn) (Local Tid Obj Fn)) : Prop where
  reading : ∀ u, u ≠ w → (c.locals u).pc.Reading ∧ (c.locals u).batch = []
  lost : c.shared.lost = []
  published : (c.locals w).pc.Published → (c.locals w).batch = []
  tagged : ∀ n, (c.locals w).pc = .retireQueue n → n.epoch = c.shared.epoch.global

omit [DecidableEq Tid] in
theorem reading_afterThread (entering : Bool) : (afterThread entering : Pc Tid Obj Fn).Reading := by
  cases entering <;> trivial

omit [DecidableEq Tid] in
private theorem Pc.First.not_published {pc : Pc Tid Obj Fn} (h : pc.First) : ¬ pc.Published := by
  cases pc with
  | synchronizeSpin | untilContended | advanceStore | readersHead | readersPassed | minHead | minScan | collectLock
  | collect | sweep => exact fun _ => h
  | _ => exact id

/-- A reader moves none of the words that the collector works with. -/
structure Leaves (sh sh' : Shared Tid Obj Fn) : Prop where
  epoch : sh'.epoch = sh.epoch
  retired : sh'.retired = sh.retired
  queued : sh'.queued = sh.queued
  reclaimed : sh'.reclaimed = sh.reclaimed
  lost : sh'.lost = sh.lost

theorem Moves.reader (hm : Moves t sh a l sh' l') (ha : a.reads = true) (hpc : l.pc.Reading) (hb : l.batch = []) :
    Leaves sh sh' ∧ l'.pc.Reading ∧ l'.batch = [] := by
  have hsame {pc : Pc Tid Obj Fn} (hpc : pc.Reading) : Leaves sh sh ∧ pc.Reading ∧ l.batch = [] :=
    ⟨⟨rfl, rfl, rfl, rfl, rfl⟩, hpc, hb⟩
  cases hm with
  | called hs =>
    refine hsame ?_
    dsimp only
    cases a with
    | enter | exit =>
      cases hs
      unfold getThread
      split
      · exact reading_afterThread _
      · trivial
    | threadExit | run => cases hs
    | _ => cases ha
  | exits =>
    simp only at hb
    exact ⟨⟨rfl, rfl, rfl, rfl, by rw [hb]; rfl⟩, trivial, rfl⟩
  | registers => exact ⟨⟨rfl, rfl, rfl, rfl, rfl⟩, reading_afterThread _, hb⟩
  | loads | enters | leaves => exact ⟨⟨rfl, rfl, rfl, rfl, rfl⟩, trivial, hb⟩
  | _ => exact hpc.elim

/-- The batch is empty from its publication to the end of the call. -/
theorem Moves.published (hm : Moves t sh a l sh' l') (hb : l.pc.Published → l.batch = []) (hpc : l'.pc.Published) :
    l'.batch = [] := by
  cases hm with
  | called hs => exact absurd hpc (first_of_start hs).not_published
  | registers =>
    rename_i entering _ _
    cases entering <;> exact hpc.elim
  | contended | begins | beginsUntil | contendedUntil | tries => rfl
  | advances | readersHead | passed | passes | rescans | givesUp | minHead | minKeep | minLower | minFound | collectLock
  | skips | completes | swept | reclaims | keeps => exact hb trivial
  | _ => exact hpc.elim

/-- A node on its way into the batch was tagged just before. -/
theorem Moves.flight (hm : Moves t sh a l sh' l') (hpc : l'.pc = .retireQueue n) : n.epoch = sh'.epoch.global := by
  cases hm with
  | tags hn =>
    cases hpc
    rw [hn]
  | called hs => exact absurd hpc ((first_of_start hs).ne_retireQueue n)
  | registers => exact absurd hpc ((first_afterThread _).ne_retireQueue n)
  | _ => cases hpc

private theorem alone_next (h : Alone w c) (hok : Sole w c t a) (hm : Moves t c.shared a (c.locals t) sh' l') :
    Alone w ⟨sh', Function.update c.locals t l'⟩ := by
  by_cases ht : t = w
  · subst ht
    have hlost : sh'.lost = c.shared.lost := by
      generalize c.locals t = l at hm
      cases hm with
      | exits => exact absurd rfl (hok.stays rfl)
      | _ => rfl
    refine ⟨fun u hu => ?_, hlost.trans h.lost, fun hpc => ?_, fun n hpc => ?_⟩
    · simp only [Function.update_of_ne hu]
      exact h.reading u hu
    · simp only [Function.update_self] at hpc ⊢
      exact hm.published h.published hpc
    · simp only [Function.update_self] at hpc
      exact hm.flight hpc
  · obtain ⟨hpc, hb⟩ := h.reading t ht
    obtain ⟨hleaves, hpc', hb'⟩ := hm.reader (hok.reads ht) hpc hb
    refine ⟨fun u hu => ?_, hleaves.lost.trans h.lost, ?_, ?_⟩
    · by_cases hut : u = t
      · subst hut
        simp only [Function.update_self]
        exact ⟨hpc', hb'⟩
      · simp only [Function.update_of_ne hut]
        exact h.reading u hu
    · simp only [Function.update_of_ne (Ne.symm ht)]
      exact h.published
    · simp only [Function.update_of_ne (Ne.symm ht), hleaves.epoch]
      exact h.tagged

theorem alone_of_reachable (hc : (domain Tid Obj Fn).Reachable (Sole w) (initial Tid Obj Fn) c) : Alone w c := by
  have hstart : Alone w (initial Tid Obj Fn) :=
    ⟨fun _ _ => ⟨trivial, rfl⟩, rfl, fun _ => rfl, fun _ h => nomatch h⟩
  refine hc.invariant hstart ?_
  rintro c t a c' h hok hn
  obtain ⟨sh, l, hs, rfl⟩ := Program.next_eq_some_iff.mp hn
  exact alone_next h hok (moves_of_step hs)

omit [DecidableEq Tid] in
theorem Pc.Reading.idle_of {pc : Pc Tid Obj Fn} (h : pc.Reading) :
    collecting pc = none ∧ (∀ n, pc ≠ .retireQueue n) ∧ ∀ token k, unswept token k pc = [] := by
  cases pc with
  | idle | exited | registerThread | enterLoad | enterStore | exitStore => exact ⟨rfl, nofun, fun _ _ => rfl⟩
  | _ => exact h.elim

/-- Its collections see every node, its nodes are ahead of the watermarks, and it does not ask during
a sweep of its own. -/
theorem Alone.timely (h : Alone w c) (hmarks : ∀ k, c.shared.epoch.completedOf k < c.shared.epoch.global)
    (hok : Sole w c t a) (hm : Moves t c.shared a (c.locals t) sh' l') : Timely c t a := by
  have hothers {u : Tid} (hu : u ≠ w) := (h.reading u hu).1.idle_of
  constructor
  · intro x hx _
    have htw : t = w := by
      by_contra ht
      rw [(hothers ht).1] at hx
      cases hx
    subst htw
    have hpub : (c.locals t).pc.Published := by
      generalize (c.locals t).pc = pc at hx
      cases pc with
      | collect => trivial
      | _ => cases hx
    refine ⟨fun n hn => ?_, fun u n hn => ?_⟩
    · rw [h.lost] at hn
      cases hn
    · have hempty : (c.locals u).batch = [] := by
        by_cases hu : u = t
        · rw [hu]
          exact h.published hpub
        · exact (h.reading u hu).2
      rw [hempty] at hn
      cases hn
  · intro n hn
    have hpc : (c.locals t).pc = .retireQueue n := (mem_queueing hn).2
    have htw : t = w := by
      by_contra ht
      exact (hothers ht).2.1 n hpc
    rw [Fresh, h.tagged n (htw ▸ hpc)]
    exact hmarks n.cls
  · intro x hx u n hn
    cases a with
    | reclaimedThrough token k =>
      have htw : t = w := by
        by_contra ht
        cases hok.reads ht
      have hempty : unswept x.1 x.2 (c.locals u).pc = [] := by
        by_cases hu : u = w
        · rw [hu, ← htw]
          generalize c.locals t = l at hm
          cases hm with
          | called => rfl
        · exact (hothers hu).2.2 _ _
      rw [hempty] at hn
      cases hn
    | _ => cases hx

/-- A run with one collector is a run in which every collection is timely. -/
theorem timely_of_sole (hc : (domain Tid Obj Fn).Reachable (Sole w) (initial Tid Obj Fn) c) :
    (domain Tid Obj Fn).Reachable Timely (initial Tid Obj Fn) c := by
  induction hc with
  | init => exact .init
  | step hr hok hn ih =>
    obtain ⟨sh, l, hs, rfl⟩ := Program.next_eq_some_iff.mp hn
    exact ih.step ((alone_of_reachable hr).timely (behind_of_reachable hr).1 hok (moves_of_step hs)) hn

end Abix.RCU

import Abix.DLL.Retirement

/-! The two callbacks of an image. `reclaim_index` works on storage inside the image, so it has
to run before `reclaim_image`. -/
namespace Abix.DLL
open Abix.Concurrency Abix.RCU
variable {Tid Obj Ext : Type} [DecidableEq Tid] {t : Tid} {i : Nat} {n : RetiredNode (Resource Ext) Reclaim}
  {d d' : RCU.Shared Tid (Resource Ext) Reclaim}

def Freed (d : RCU.Shared Tid (Resource Ext) Reclaim) (i : Nat) : Prop :=
  ∃ n ∈ d.reclaimed, imageOf n.object = some i

/-- No collection has the index of the image ahead. -/
def IndexDone (c : Config Tid (RCU.Shared Tid (Resource Ext) Reclaim) (RCU.Local Tid (Resource Ext) Reclaim))
    (i : Nat) : Prop :=
  (∀ n ∈ c.shared.retired, indexOf n.object ≠ some i) ∧ ∀ t, ∀ n ∈ (c.locals t).batch, indexOf n.object ≠ some i

instance [Fintype Tid] (c : Config Tid (RCU.Shared Tid (Resource Ext) Reclaim) (RCU.Local Tid (Resource Ext) Reclaim))
    (i : Nat) : Decidable (IndexDone c i) := instDecidableAnd

def sweepNext : Pc Tid (Resource Ext) Reclaim → Option (RetiredNode (Resource Ext) Reclaim)
  | .sweep safe cls _ (n :: _) _ => if n.cls = cls ∧ n.epoch ≤ safe then some n else none
  | _ => none

/-- A collection that frees an image leaves no index of it queued. -/
def ImageLast (c : Config Tid (RCU.Shared Tid (Resource Ext) Reclaim) (RCU.Local Tid (Resource Ext) Reclaim))
    (t : Tid) (_ : RCU.Action (Resource Ext) Reclaim) : Prop :=
  ∀ n ∈ sweepNext (c.locals t).pc, ∀ i ∈ imageOf n.object, IndexDone c i

instance [Fintype Tid] (c : Config Tid (RCU.Shared Tid (Resource Ext) Reclaim) (RCU.Local Tid (Resource Ext) Reclaim))
    (t : Tid) (a : RCU.Action (Resource Ext) Reclaim) : Decidable (ImageLast c t a) :=
  inferInstanceAs (Decidable (∀ n ∈ sweepNext (c.locals t).pc, ∀ i ∈ imageOf n.object, IndexDone c i))

/-- The callbacks that ran, the last one first: none of them after the image it works on was freed. -/
def CalledInOrder (reclaimed : List (RetiredNode (Resource Ext) Reclaim)) : Prop :=
  reclaimed.Pairwise fun later earlier => ∀ i,
    later.object = some (.index i) ∨ later.object = some (.image i) → earlier.object ≠ some (.image i)

theorem imageOf_eq_some {x : Option (Resource Ext)} : imageOf x = some i ↔ x = some (.image i) := by
  constructor
  · intro h
    unfold imageOf at h
    split at h
    · cases h
      rfl
    · cases h
  · rintro rfl
    rfl

private theorem indexOf_eq_some {x : Option (Resource Ext)} : indexOf x = some i ↔ x = some (.index i) := by
  constructor
  · intro h
    unfold indexOf at h
    split at h
    · cases h
      rfl
    · cases h
  · rintro rfl
    rfl

omit [DecidableEq Tid] in
theorem indexDone_iff {c : Config Tid (RCU.Shared Tid (Resource Ext) Reclaim) (RCU.Local Tid (Resource Ext) Reclaim)} :
    IndexDone c i ↔ ∀ n, Waiting c n → indexOf n.object ≠ some i := by
  constructor
  · rintro ⟨hr, hb⟩ n (hn | ⟨t, hn⟩)
    · exact hr n hn
    · exact hb t n hn
  · exact fun h => ⟨fun n hn => h n (.inl hn), fun t n hn => h n (.inr ⟨t, hn⟩)⟩

section System
variable {Obj : Type} [DecidableEq Obj] [Fintype Tid] [Fintype Obj] {made : Obj → Bool}
  {c : Config Tid (Shared Tid Obj Ext) (Local Tid Obj Ext)}
  {ok : Config Tid (Shared Tid Obj Ext) (Local Tid Obj Ext) → Tid → Action Obj Ext → Prop}

omit [DecidableEq Tid] [DecidableEq Obj] [Fintype Obj] in
/-- An image whose node is in the retired list has not been freed, and no image that a thread
carries has been. -/
theorem not_freed_of_retired (hacc : Accounted (domainOf c))
    (honce : (queuedImages c.shared.dom + total carrying c.locals).Nodup) (hn : n ∈ c.shared.dom.retired)
    (hi : imageOf n.object = some i) : ¬ Freed c.shared.dom i := by
  rintro ⟨m, hm, hmi⟩
  have hle := Multiset.filterMap_le_filterMap (fun n => imageOf n.object) hacc.le_queued
  rw [Multiset.filterMap_add] at hle
  have hnodup := Multiset.nodup_of_le hle (Multiset.nodup_add.mp honce).1
  exact Multiset.disjoint_left.mp (Multiset.nodup_add.mp hnodup).2.2
    ((Multiset.mem_filterMap _ _).mpr ⟨m, hm, hmi⟩) ((Multiset.mem_filterMap _ _).mpr ⟨n, hn, hi⟩)

omit [DecidableEq Tid] [DecidableEq Obj] [Fintype Obj] in
private theorem not_freed_of_carried (hacc : Accounted (domainOf c))
    (honce : (queuedImages c.shared.dom + total carrying c.locals).Nodup) (hi : i ∈ carrying (c.locals t)) :
    ¬ Freed c.shared.dom i := by
  rintro ⟨m, hm, hmi⟩
  have hq : m ∈ (c.shared.dom.queued : Multiset _) :=
    Multiset.mem_of_le ((Multiset.le_add_right _ _).trans hacc.le_queued) hm
  exact Multiset.disjoint_left.mp (Multiset.nodup_add.mp honce).2.2 ((Multiset.mem_filterMap _ _).mpr ⟨m, hq, hmi⟩)
    (Multiset.mem_of_le (held_le_total carrying c.locals t) hi)

/-- The invariant: what was freed has no index ahead, and the callbacks ran in order. -/
structure IndexFirst (c : Config Tid (Shared Tid Obj Ext) (Local Tid Obj Ext)) : Prop where
  done : ∀ i, Freed c.shared.dom i → IndexDone (domainOf c) i
  ordered : CalledInOrder c.shared.dom.reclaimed

omit [DecidableEq Tid] [DecidableEq Obj] [Fintype Tid] [Fintype Obj] in
/-- The node of an index is queued where the image is carried. -/
theorem carried_of_index {f : Frame Obj} {x : Option (Resource Ext) × Option Reclaim × ReclaimClass} (h : FlightAt f x)
    (hi : indexOf x.1 = some i) (flying : Bool) : i ∈ f.carried flying := by
  unfold FlightAt at h
  split at h
  · rw [h.2] at hi
    cases hi
  · rw [h] at hi
    cases hi
    exact Multiset.mem_singleton_self _
  · rw [h] at hi
    cases hi
    exact Multiset.mem_singleton_self _
  · rw [h] at hi
    cases hi
  · exact h.elim

omit [DecidableEq Obj] [Fintype Obj] in
/-- An access of the domain brings no index of a freed image back into its lists. -/
theorem done_next {b : RCU.Action (Resource Ext) Reclaim} {ld : RCU.Local Tid (Resource Ext) Reclaim}
    (hm : RCU.Moves t c.shared.dom b (c.locals t).dom d ld) (hp : Placed c.shared.dom t (c.locals t).dom.pc)
    (hflight : Flight (c.locals t)) (hacc : Accounted (domainOf c))
    (honce : (queuedImages c.shared.dom + total carrying c.locals).Nodup) (hok : ImageLast (domainOf c) t b)
    (hdone : ∀ i, Freed c.shared.dom i → IndexDone (domainOf c) i) (i : Nat) (hf : Freed d i) :
    IndexDone ⟨d, Function.update (fun u => (c.locals u).dom) t ld⟩ i := by
  have hm' : RCU.Moves t (domainOf c).shared b ((domainOf c).locals t) d ld := hm
  have hbefore : IndexDone (domainOf c) i := by
    rcases hm.reclaimed with he | ⟨safe, k, kept, n, rest, fin, hpc, hk, hle, he, -⟩
    · exact hdone i (by rwa [Freed, he] at hf)
    · obtain ⟨m, hmem, hi⟩ := hf
      rw [he] at hmem
      rcases List.mem_cons.mp hmem with rfl | hmem
      · exact hok m (by simp [domainOf, hpc, sweepNext, hk, hle]) i hi
      · exact hdone i ⟨m, hmem, hi⟩
  rw [indexDone_iff] at hbefore ⊢
  intro m hw hi
  rcases hm'.waiting hp hw with hw | ⟨hpc, -⟩
  · exact hbefore m hw hi
  · -- the thread is queueing the index, so it carries the image, which nobody has queued
    have hpc : (c.locals t).dom.pc = .retireQueue m := hpc
    have hin : inFlight (c.locals t).dom.pc = some (m.object, m.reclaim, m.cls) := by rw [hpc, inFlight]
    refine not_freed_of_carried hacc honce (carried_of_index (hflight _ hin) hi _) ?_
    rcases hm.reclaimed with he | ⟨safe, k, kept, n, rest, fin, hsweep, -⟩
    · rwa [Freed, he] at hf
    · rw [hpc] at hsweep
      cases hsweep

omit [DecidableEq Obj] [Fintype Obj] in
theorem ordered_next {b : RCU.Action (Resource Ext) Reclaim} {ld ld' : RCU.Local Tid (Resource Ext) Reclaim}
    (hm : RCU.Moves t c.shared.dom b ld d ld') (hp : Placed c.shared.dom t ld.pc) (hacc : Accounted (domainOf c))
    (honce : (queuedImages c.shared.dom + total carrying c.locals).Nodup) (h : IndexFirst c) :
    CalledInOrder d.reclaimed := by
  rcases hm.reclaimed with he | ⟨safe, k, kept, n, rest, fin, hpc, -, -, he, -⟩
  · rw [he]
    exact h.ordered
  · have hn : n ∈ c.shared.dom.retired := by
      rw [hpc] at hp
      simp [hp.2]
    rw [he]
    refine List.pairwise_cons.mpr ⟨fun m hm i hi hmi => ?_, h.ordered⟩
    have hfreed : Freed c.shared.dom i := ⟨m, hm, imageOf_eq_some.mpr hmi⟩
    rcases hi with hi | hi
    · exact (h.done i hfreed).1 n hn (indexOf_eq_some.mpr hi)
    · exact not_freed_of_retired hacc honce hn (imageOf_eq_some.mpr hi) hfreed

omit [Fintype Obj] in
private theorem indexFirst_next {a : Action Obj Ext} {c' : Config Tid (Shared Tid Obj Ext) (Local Tid Obj Ext)}
    (h : IndexFirst c) (hret : Retiring c) (hcust : Custody (domainOf c)) (hacc : Accounted (domainOf c))
    (honce : (queuedImages c.shared.dom + total carrying c.locals).Nodup) (hok : Disciplined ImageLast c t a)
    (hn : (system Tid Obj Ext).next c t a = some c') : IndexFirst c' := by
  obtain ⟨sh, l, hs, rfl⟩ := Program.next_eq_some_iff.mp hn
  rcases step_cases hs with ⟨b, d, hb, hd, rfl, -⟩ | ⟨r, o, -, -, hdom, hm, -⟩
  · have hm := RCU.moves_of_step hd
    refine ⟨fun i hi => ?_, ordered_next hm (hcust.placed t) hacc honce h⟩
    simp only [domainOf, domainOf_update]
    exact done_next hm (hcust.placed t) (hret.flight t) hacc honce (hok _ hb) h.done i hi
  · have hsame : sh.dom = c.shared.dom := hm.hands.dom
    refine ⟨fun i hi => ?_, by simpa only [hsame] using h.ordered⟩
    simp only [domainOf, domainOf_update, hdom, Function.update_eq_self, hsame] at hi ⊢
    exact h.done i hi

/-- Where every collection that frees an image finds no index of it queued, no callback runs on
storage that was freed. -/
theorem calledInOrder_of_imageLast
    (h : (system Tid Obj Ext).Reachable (Disciplined ImageLast) (start Tid Ext made) c) :
    CalledInOrder c.shared.dom.reclaimed := by
  have hknown (c : Config Tid (Shared Tid Obj Ext) (Local Tid Obj Ext))
      (h : (system Tid Obj Ext).Reachable (Disciplined ImageLast) (start Tid Ext made) c) :
      Retiring c ∧ Custody (domainOf c) ∧ Accounted (domainOf c) ∧
        (queuedImages c.shared.dom + total carrying c.locals).Nodup :=
    ⟨retiring_of_reachable h, custody_of_reachable (domainOf_reachable h), accounted_of_reachable (domainOf_reachable h),
      queued_once h⟩
  have hstart : IndexFirst (start Tid Ext made : Config Tid (Shared Tid Obj Ext) (Local Tid Obj Ext)) := by
    refine ⟨fun i hi => ?_, List.Pairwise.nil⟩
    obtain ⟨n, hn, -⟩ := hi
    cases hn
  refine ((h.assuming hknown).invariant hstart ?_).ordered
  rintro c t a c' hc ⟨⟨hret, hcust, hacc, honce⟩, hok⟩ hn
  exact indexFirst_next hc hret hcust hacc honce hok hn

end System

end Abix.DLL

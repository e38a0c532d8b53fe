import Abix.DLL.Draining
import Abix.DLL.IndexOrder

/-! The two nodes of an image from their queueing to their callbacks. The index is queued first, by the
thread that queues the image, so it is published with the image at the latest, and its epoch is not above
that of the image. -/
namespace Abix.DLL
open Abix.Concurrency Abix.RCU
variable {Tid Obj Ext : Type} [DecidableEq Tid] [DecidableEq Obj] {t u : Tid} {i : Nat} {a : Action Obj Ext}
  {sh : Shared Tid Obj Ext} {l l' : Local Tid Obj Ext} {f : Frame Obj} {p : Shared Tid Obj Ext × Frame Obj}
  {c : Config Tid (Shared Tid Obj Ext) (Local Tid Obj Ext)} {made : Obj → Bool}
  {ok : Config Tid (Shared Tid Obj Ext) (Local Tid Obj Ext) → Tid → Action Obj Ext → Prop}
  {m n : RetiredNode (Resource Ext) Reclaim}

def Part.cls : Part → ReclaimClass
  | .index => .eager
  | .image => .batched

def Part.names (k : Part) (i : Nat) (n : RetiredNode (Resource Ext) Reclaim) : Prop := k.of n.object = some i

instance (k : Part) (i : Nat) (n : RetiredNode (Resource Ext) Reclaim) : Decidable (k.names i n) :=
  inferInstanceAs (Decidable (_ = _))

private theorem not_both_parts (h : Part.image.names i n) : ¬ Part.index.names i n := by
  have hobject : n.object = some (.image i) := imageOf_eq_some.mp h
  simp [Part.names, Part.of, hobject, indexOf]

section Ledger
variable {b : RCU.Action (Resource Ext) Reclaim} {d d' : RCU.Shared Tid (Resource Ext) Reclaim} {k : Part}

omit [DecidableEq Tid] [DecidableEq Obj] in
private theorem owed_mono (f : Frame Obj) (k : Part) {x y : Bool} (h : x = true → y = true) :
    f.owed x k ≤ f.owed y k := by
  unfold Frame.owed
  split
  any_goals exact le_refl _
  all_goals
    split
    · rw [if_pos (h ‹_›)]
    · exact Multiset.zero_le _

omit [DecidableEq Obj] in
/-- As `Flight.pays`, where the allocation of a node may fail. -/
private theorem Flight.pays_le (hl : Flight l) (k : Part) (hb : domainAccess l a = some (b, l'.frame))
    (hm : RCU.Moves t d b l.dom d' l'.dom) :
    k.among d'.queued + owing k l' ≤ k.among d.queued + owing k l := by
  rcases hl.queued hb hm with he | ⟨n, he, hframe, hat, hflight, hpc⟩
  · rw [he]
    apply add_le_add_right
    unfold owing
    rcases domainAccess_cases hb with ⟨v, hv, hg, -⟩ | ⟨x, rfl, hg⟩ | ⟨r, o, i, _, _, _, _, hidle, hold, hnew, hcall⟩
    · rw [hg, hv]
      cases k <;> exact le_refl _
    · rw [hg]
      apply owed_mono
      intro hsome
      obtain ⟨z, hz⟩ := Option.isSome_iff_exists.mp hsome
      rw [inFlight_run hm hz]
      rfl
    · rw [hold, hnew, hidle]
      exact (owed_call k hcall hm).le
  · have hdone : inFlight l'.dom.pc = none := by rcases hpc with hpc | hpc <;> rw [hpc] <;> rfl
    have hsome : (inFlight l.dom.pc).isSome = true := Option.isSome_iff_ne_none.mpr hflight
    have hnew : k.among d'.queued = ↑(k.of n.object).toList + k.among d.queued := by
      rw [Part.among, Part.among, he]
      cases hi : k.of n.object <;> simp [hi]
    calc k.among d'.queued + owing k l'
        = k.among d.queued + (↑(k.of n.object).toList + l.frame.owed false k) := by
          rw [hnew, owing, hframe, hdone, Option.isSome_none]
          abel
      _ ≤ k.among d.queued + owing k l := by rw [owed_queued k hat, owing, hsome]

omit [DecidableEq Tid] [DecidableEq Obj] in
private theorem Hands.owes (h : Hands sh p) (k : Part) (x : Multiset Nat) :
    p.2.owed false k + ↑sh.disposed ≤ x + ↑p.1.disposed := by
  rcases h.disposed with ⟨o, i, bounded, next, hf, hd⟩ | ⟨hf, hd⟩
  · have hone : p.2.owed false k = {i} := by rw [hf]; cases k <;> rfl
    rw [hone, hd, ← Multiset.cons_coe, ← Multiset.singleton_add]
    exact Multiset.le_add_left _ _
  · have hnone : p.2.owed false k = 0 := by
      generalize p.2 = f at hf
      cases f with
      | retire => cases hf
      | _ => cases k <;> rfl
    rw [hnone, zero_add]
    exact hd.trans (Multiset.le_add_left _ _)

/-- The nodes of either kind that are queued, or still owed, belong to images disposed of. -/
theorem owed_of_reachable [Fintype Tid] (h : (system Tid Obj Ext).Reachable ok (start Tid Ext made) c) (k : Part) :
    k.among c.shared.dom.queued + total (owing k) c.locals ≤ ↑c.shared.disposed := by
  refine (h.assuming fun _ => retiring_of_reachable).invariant
    (P := fun c => k.among c.shared.dom.queued + total (owing k) c.locals ≤ ↑c.shared.disposed) ?_ ?_
  · cases k <;> simp [start, Part.among, total, owing, Frame.owed]
  · rintro c t a c' hc ⟨hret, -⟩ hn
    obtain ⟨sh, l, hs, rfl⟩ := Program.next_eq_some_iff.mp hn
    refine bound_update hc ?_
    rcases step_cases hs with ⟨b, d, hb, hd, rfl, -⟩ | ⟨r, o, -, hpc, hdom, hm, -⟩
    · exact add_le_add_left ((hret.flight t).pays_le k hb (RCU.moves_of_step hd)) _
    · have howing : owing k l = l.frame.owed false k := by
        rw [owing, hdom, hpc]
        rfl
      have hd : sh.dom = c.shared.dom := hm.hands.dom
      rw [howing, hd, add_assoc, add_assoc]
      exact add_le_add_right (hm.hands.owes k _) _

/-- Each node is queued once at most, and not while a thread still owes it. -/
theorem owed_once [Fintype Tid] [Fintype Obj] (h : (system Tid Obj Ext).Reachable ok (start Tid Ext made) c)
    (k : Part) : (k.among c.shared.dom.queued + total (owing k) c.locals).Nodup := by
  have hd := (image_life_cycle (h.mono fun _ _ _ _ => trivial)).disposed_once
  exact Multiset.nodup_of_le (owed_of_reachable h k) (Multiset.coe_nodup.mpr hd)

omit [DecidableEq Tid] [DecidableEq Obj] in
theorem mem_among (hn : n ∈ d.queued) (hi : k.names i n) : i ∈ k.among d.queued :=
  List.mem_filterMap.mpr ⟨n, hn, hi⟩

omit [DecidableEq Tid] [DecidableEq Obj] in
theorem not_queued_of_owed [Fintype Tid] (honce : (k.among c.shared.dom.queued + total (owing k) c.locals).Nodup)
    (ht : i ∈ owing k (c.locals t)) (hn : n ∈ c.shared.dom.queued) : ¬ k.names i n := fun hi =>
  Multiset.disjoint_left.mp (Multiset.nodup_add.mp honce).2.2 (mem_among hn hi)
    (Multiset.mem_of_le (held_le_total (owing k) c.locals t) ht)

omit [DecidableEq Obj] in
private theorem owed_by_one [Fintype Tid] (honce : (k.among c.shared.dom.queued + total (owing k) c.locals).Nodup)
    (ht : i ∈ owing k (c.locals t)) (hne : u ≠ t) : i ∉ owing k (c.locals u) := fun hu => by
  have hnodup := Multiset.nodup_of_le (held_add_held_le_total (owing k) c.locals hne) (Multiset.nodup_add.mp honce).2.1
  exact Multiset.disjoint_left.mp (Multiset.nodup_add.mp hnodup).2.2 hu ht

omit [DecidableEq Tid] [DecidableEq Obj] in
private theorem owing_index_le (l : Local Tid Obj Ext) : owing .index l ≤ owing .image l := by
  unfold owing
  generalize (inFlight l.dom.pc).isSome = flying
  cases l.frame with
  | retire o i bounded stage next => cases stage <;> cases flying <;> simp [Frame.owed]
  | _ => exact le_refl _

omit [DecidableEq Tid] [DecidableEq Obj] in
theorem owing_of_queueing (hl : Flight l) (hn : n ∈ queueing b l.dom.pc) (hi : k.names i n) : i ∈ owing k l := by
  obtain ⟨-, hpc⟩ := mem_queueing hn
  have hflight : inFlight l.dom.pc = some (n.object, n.reclaim, n.cls) := by rw [hpc, inFlight]
  have howed := owed_queued k (hl _ hflight)
  rw [owing, hflight, Option.isSome_some, ← howed, show k.of n.object = some i from hi]
  exact Multiset.mem_add.mpr (.inl (Multiset.mem_singleton_self i))

end Ledger

def OnlyWith (c : Config Tid (Shared Tid Obj Ext) (Local Tid Obj Ext)) (t : Tid) (i : Nat) : Prop :=
  ∀ u, u ≠ t → ∀ n ∈ (c.locals u).dom.batch, ¬ Part.index.names i n

structure Paired (c : Config Tid (Shared Tid Obj Ext) (Local Tid Obj Ext)) : Prop where
  classed : ∀ n, Waiting (domainOf c) n → ∀ k i, Part.names k i n → n.cls = k.cls
  owed : ∀ t, ∀ i ∈ owing .image (c.locals t), OnlyWith c t i
  batched : ∀ t, ∀ m ∈ (c.locals t).dom.batch, ∀ i, Part.image.names i m → OnlyWith c t i
  published : ∀ m ∈ c.shared.dom.retired, ∀ i, Part.image.names i m →
    ∀ u, ∀ n ∈ (c.locals u).dom.batch, ¬ Part.index.names i n
  epochs : ∀ m n, Waiting (domainOf c) m → Waiting (domainOf c) n → ∀ i, Part.image.names i m → Part.index.names i n →
    n.epoch ≤ m.epoch
  flying : ∀ t m, (c.locals t).dom.pc = .retireQueue m → ∀ n, Waiting (domainOf c) n → ∀ i, Part.image.names i m →
    Part.index.names i n → n.epoch ≤ m.epoch

structure Standing [Fintype Tid] (c : Config Tid (Shared Tid Obj Ext) (Local Tid Obj Ext)) : Prop where
  retiring : Retiring c
  custody : Custody (domainOf c)
  accounted : Accounted (domainOf c)
  disposed : ∀ k : Part, k.among c.shared.dom.queued + total (owing k) c.locals ≤ ↑c.shared.disposed
  once : ∀ k : Part, (k.among c.shared.dom.queued + total (owing k) c.locals).Nodup
  tagged : ∀ n ∈ c.shared.dom.tagged, n.epoch ≤ c.shared.dom.epoch.global

theorem anyDomain_of_reachable (h : (system Tid Obj Ext).Reachable ok (start Tid Ext made) c) :
    (domain Tid (Resource Ext) Reclaim).Reachable Program.anyStep (initial Tid (Resource Ext) Reclaim) (domainOf c) :=
  domainOf_reachable (h.mono fun _ _ _ _ _ _ => trivial)

theorem standing_of_reachable [Fintype Tid] [Fintype Obj]
    (h : (system Tid Obj Ext).Reachable ok (start Tid Ext made) c) : Standing c := by
  have hd := anyDomain_of_reachable h
  exact ⟨retiring_of_reachable h, custody_of_reachable hd, accounted_of_reachable hd, owed_of_reachable h,
    owed_once h, tagged_le_of_reachable hd⟩

def Elsewhere (c : Config Tid (Shared Tid Obj Ext) (Local Tid Obj Ext)) (t : Tid) (i : Nat) : Prop :=
  (∃ m, Waiting (domainOf c) m ∧ Part.image.names i m) ∨ ∃ u, u ≠ t ∧ i ∈ owing .image (c.locals u)

section Domain
variable {b : RCU.Action (Resource Ext) Reclaim} {d d' : RCU.Shared Tid (Resource Ext) Reclaim}
  {ld ld' : RCU.Local Tid (Resource Ext) Reclaim}

/-- A node that is about to be queued has just been tagged, or was in flight before. -/
private theorem flying_from (hm : RCU.Moves t d b ld d' ld') (hpc : ld'.pc = .retireQueue m) :
    m.epoch = d.epoch.global ∧ ∀ n ∈ queueing b ld.pc, False := by
  cases hm with
  | tags hn =>
    cases hpc
    rw [hn]
    exact ⟨rfl, fun n hn => nomatch (mem_queueing hn).2⟩
  | called hs => exact absurd hpc ((first_of_start hs).ne_retireQueue m)
  | registers => exact absurd hpc ((first_afterThread _).ne_retireQueue m)
  | _ => cases hpc

omit [DecidableEq Tid] [DecidableEq Obj] in
private theorem cls_of_flightAt {x : Option (Resource Ext) × Option Reclaim × ReclaimClass} (h : FlightAt f x) {k : Part}
    (hi : k.of x.1 = some i) : x.2.2 = k.cls := by
  unfold FlightAt at h
  split at h
  · cases k <;> simp [Part.of, h.1, h.2] at hi
  · subst h
    cases k with
    | index => rfl
    | image => cases hi
  · subst h
    cases k with
    | index => rfl
    | image => cases hi
  · subst h
    cases k with
    | index => cases hi
    | image => rfl
  · exact h.elim

omit [DecidableEq Obj] in
/-- The index of such an image is not queued any more. -/
theorem Standing.queues_no_index [Fintype Tid] (h : Standing c) (hi : Elsewhere c t i)
    (hn : n ∈ queueing b (c.locals t).dom.pc) : ¬ Part.index.names i n := by
  intro hname
  have howed : i ∈ owing .image (c.locals t) :=
    Multiset.mem_of_le (owing_index_le _) (owing_of_queueing (h.retiring.flight t) hn hname)
  rcases hi with ⟨m, hm, himage⟩ | ⟨u, hne, hu⟩
  · exact not_queued_of_owed (h.once .image) howed (h.accounted.queued_of_waiting hm) himage
  · exact owed_by_one (h.once .image) howed hne hu

omit [DecidableEq Obj] in
theorem batch_next (hm : RCU.Moves t c.shared.dom b (c.locals t).dom d l.dom)
    (hn : n ∈ (Function.update c.locals t l u).dom.batch) :
    n ∈ (c.locals u).dom.batch ∨ (u = t ∧ n ∈ queueing b (c.locals t).dom.pc) := by
  by_cases hu : u = t
  · subst hu
    rw [Function.update_self] at hn
    refine (hm.batch hn).imp_right fun ⟨hpc, hb⟩ => ⟨rfl, ?_⟩
    rw [hpc, hb, queueing, Option.mem_some_iff]
  · rw [Function.update_of_ne hu] at hn
    exact .inl hn

omit [DecidableEq Obj] in
theorem waiting_next (hm : RCU.Moves t c.shared.dom b (c.locals t).dom d l.dom)
    (hp : Placed c.shared.dom t (c.locals t).dom.pc)
    (hn : Waiting (domainOf ⟨{ c.shared with dom := d }, Function.update c.locals t l⟩) n) :
    Waiting (domainOf c) n ∨ n ∈ queueing b (c.locals t).dom.pc := by
  rcases hn with hn | ⟨u, hn⟩
  · exact .inl ((hm.retired hp hn).imp_right fun hb => ⟨t, hb.1⟩)
  · exact (batch_next hm hn).imp (fun hb => .inr ⟨u, hb⟩) And.right

omit [DecidableEq Obj] in
/-- What a step queues is in nobody else's batch. -/
theorem OnlyWith.next [Fintype Tid] (h : OnlyWith c u i) (hst : Standing c)
    (hm : RCU.Moves t c.shared.dom b (c.locals t).dom d l.dom) (hi : u = t ∨ Elsewhere c t i) :
    OnlyWith ⟨{ c.shared with dom := d }, Function.update c.locals t l⟩ u i := by
  intro v hne n hn
  rcases batch_next hm hn with hn | ⟨rfl, hn⟩
  · exact h v hne n hn
  · exact hst.queues_no_index (hi.resolve_left fun hu => hne hu.symm) hn

omit [DecidableEq Obj] in
private theorem owing_image_subset (hl : Flight (c.locals t)) (hb : domainAccess (c.locals t) a = some (b, l.frame))
    (hm : RCU.Moves t c.shared.dom b (c.locals t).dom d l.dom) (hi : i ∈ owing .image l) :
    i ∈ owing .image (c.locals t) := by
  have hle := hl.pays_le .image hb hm
  have hmore : Part.image.among c.shared.dom.queued ≤ Part.image.among d.queued := by
    rcases hm.queued with he | ⟨n, -, -, he, -⟩
    · rw [he]
    · rw [he, Part.among, Part.among, ← Multiset.filterMap_coe, ← Multiset.filterMap_coe, ← Multiset.cons_coe]
      exact Multiset.filterMap_le_filterMap _ (Multiset.le_cons_self _ _)
  exact Multiset.mem_of_le (le_of_add_le_add_left ((add_le_add_left hmore _).trans hle)) hi

omit [DecidableEq Obj] in
/-- An access of the domain keeps the nodes of each image together. -/
theorem paired_access [Fintype Tid] (h : Paired c) (hst : Standing c)
    (hb : domainAccess (c.locals t) a = some (b, l.frame))
    (hm : RCU.Moves t c.shared.dom b (c.locals t).dom d l.dom) :
    Paired ⟨{ c.shared with dom := d }, Function.update c.locals t l⟩ := by
  have hp : Placed c.shared.dom t (c.locals t).dom.pc := hst.custody.placed t
  have hflight := hst.retiring.flight t
  have howes {k : Part} {i : Nat} {n} (hn : n ∈ queueing b (c.locals t).dom.pc) (hi : k.names i n) :
      i ∈ owing k (c.locals t) := owing_of_queueing hflight hn hi
  refine ⟨fun n hn k i hi => ?_, fun u i hi => ?_, fun u m hmem i hi => ?_, fun m hmem i hi u n hn => ?_,
    fun m n hwm hwn i hi hn => ?_, fun u m hpc n hwn i hi hn => ?_⟩
  · rcases waiting_next hm hp hn with hn | hn
    · exact h.classed n hn k i hi
    · have hpc := (mem_queueing hn).2
      exact cls_of_flightAt (hflight (n.object, n.reclaim, n.cls) (by rw [hpc, inFlight])) hi
  · by_cases hu : u = t
    · subst hu
      simp only [Function.update_self] at hi
      exact (h.owed u i (owing_image_subset hflight hb hm hi)).next hst hm (.inl rfl)
    · simp only [Function.update_of_ne hu] at hi
      exact (h.owed u i hi).next hst hm (.inr (.inr ⟨u, hu, hi⟩))
  · rcases batch_next hm hmem with hmem | ⟨rfl, hmem⟩
    · exact (h.batched u m hmem i hi).next hst hm (.inr (.inl ⟨m, .inr ⟨u, hmem⟩, hi⟩))
    · exact (h.owed u i (howes hmem hi)).next hst hm (.inl rfl)
  · rcases hm.retired hp hmem with hold | ⟨hbatch, hempty⟩
    · rcases batch_next hm hn with hn | ⟨rfl, hn⟩
      · exact h.published m hold i hi u n hn
      · exact hst.queues_no_index (.inl ⟨m, .inl hold, hi⟩) hn
    · by_cases hu : u = t
      · subst hu
        simp only [Function.update_self, hempty] at hn
        exact absurd hn List.not_mem_nil
      · simp only [Function.update_of_ne hu] at hn
        exact h.batched t m hbatch i hi u hu n hn
  · rcases waiting_next hm hp hwm with hwm | hqm
    · rcases waiting_next hm hp hwn with hwn | hqn
      · exact h.epochs m n hwm hwn i hi hn
      · exact absurd hn (hst.queues_no_index (.inl ⟨m, hwm, hi⟩) hqn)
    · rcases waiting_next hm hp hwn with hwn | hqn
      · exact h.flying t m (mem_queueing hqm).2 n hwn i hi hn
      · rw [Option.mem_unique hqm hqn] at hi
        exact absurd hn (not_both_parts hi)
  · by_cases hu : u = t
    · subst hu
      simp only [Function.update_self] at hpc
      obtain ⟨hepoch, hnone⟩ := flying_from hm hpc
      rcases waiting_next hm hp hwn with hwn | hqn
      · rw [hepoch]
        exact hst.tagged n (hst.custody.tagged_of_waiting hwn)
      · exact (hnone n hqn).elim
    · simp only [Function.update_of_ne hu] at hpc
      rcases waiting_next hm hp hwn with hwn | hqn
      · exact h.flying u m hpc n hwn i hi hn
      · have hq : m ∈ queueing (.run true) (c.locals u).dom.pc := by rw [hpc, queueing, Option.mem_some_iff]
        exact absurd hn (hst.queues_no_index (.inr ⟨u, hu, owing_of_queueing (hst.retiring.flight u) hq hi⟩) hqn)

end Domain

/-- An image that the code of `Object` hands to `retire_image` has no index yet. -/
private theorem paired_handed [Fintype Tid] {r : Result} {o : Obj} (h : Paired c) (hst : Standing c)
    (hdom : l.dom = (c.locals t).dom) (hpc : (c.locals t).dom.pc = .idle r)
    (hm : Moves c.shared r o (c.locals t).frame (sh, l.frame)) (honce : sh.disposed.Nodup) :
    Paired ⟨sh, Function.update c.locals t l⟩ := by
  have hd : sh.dom = c.shared.dom := hm.hands.dom
  have hlocal (u : Tid) : (Function.update c.locals t l u).dom = (c.locals u).dom := by
    by_cases hu : u = t
    · rw [hu, Function.update_self, hdom]
    · rw [Function.update_of_ne hu]
  have hsame : domainOf ⟨sh, Function.update c.locals t l⟩ = domainOf c := by
    simp only [domainOf, hlocal, hd]
  have honly {u : Tid} {i : Nat} (h : OnlyWith c u i) : OnlyWith ⟨sh, Function.update c.locals t l⟩ u i :=
    fun v hne n hn => h v hne n (by simpa only [hlocal] using hn)
  refine ⟨by simpa only [hsame] using h.classed, fun u i hi => ?_, fun u m hmem i hi => ?_, fun m hmem i hi u n hn => ?_,
    by simpa only [hsame] using h.epochs, by simpa only [hsame, hlocal] using h.flying⟩
  · by_cases hu : u = t
    · subst hu
      simp only [Function.update_self, owing, hdom, hpc, inFlight] at hi
      rcases hm.hands.disposed with ⟨_, j, _, _, hf, hdisposed⟩ | ⟨hf, -⟩
      · rw [show l.frame = _ from hf] at hi
        obtain rfl := Multiset.mem_singleton.mp hi
        have hfresh : i ∉ c.shared.disposed := (List.nodup_cons.mp (hdisposed ▸ honce)).1
        intro v _ n hn hname
        have hn : n ∈ (c.locals v).dom.batch := by simpa only [hlocal] using hn
        exact hfresh (Multiset.mem_of_le ((Multiset.le_add_right _ _).trans (hst.disposed .index))
          (mem_among (hst.accounted.queued_of_waiting (.inr ⟨v, hn⟩)) hname))
      · change l.frame.retiring = false at hf
        generalize l.frame = f at hf hi
        cases f with
        | retire => cases hf
        | _ => cases hi
    · simp only [Function.update_of_ne hu] at hi
      exact honly (h.owed u i hi)
  · exact honly (h.batched u m (by simpa only [hlocal] using hmem) i hi)
  · exact h.published m (hd ▸ hmem) i hi u n (by simpa only [hlocal] using hn)

/-- The nodes of every image stay together, over every run. -/
theorem paired_of_reachable [Fintype Tid] [Fintype Obj] (h : (system Tid Obj Ext).Reachable ok (start Tid Ext made) c) :
    Paired c := by
  induction h with
  | init =>
    have hnone (n) : ¬ Waiting (domainOf (start Tid Ext made : Config Tid (Shared Tid Obj Ext) (Local Tid Obj Ext))) n := by
      rintro (hn | ⟨_, hn⟩) <;> exact absurd hn List.not_mem_nil
    refine ⟨fun n hn => absurd hn (hnone n), fun t i hi => absurd hi (Multiset.notMem_zero i),
      fun t m hm => absurd hm List.not_mem_nil, fun m hm => absurd hm List.not_mem_nil,
      fun m _ hm => absurd hm (hnone m), fun t m hpc => ?_⟩
    cases hpc
  | @step c c' t a hr hk hn ih =>
    have honce := (image_life_cycle ((hr.step hk hn).mono fun _ _ _ _ => trivial)).disposed_once
    have hst := standing_of_reachable hr
    obtain ⟨sh, l, hs, rfl⟩ := Program.next_eq_some_iff.mp hn
    rcases step_cases hs with ⟨b, d, hb, hd, rfl, -⟩ | ⟨r, o, -, hpc, hdom, hm, -⟩
    · exact paired_access ih hst hb (RCU.moves_of_step hd)
    · exact paired_handed ih hst hdom hpc hm honce

end Abix.DLL

import Abix.DLL.Lifecycle
import Abix.DLL.WriterLock

/-! Over any run of any number of threads and Objects: where each image is, and what the
writer lock guarantees. -/
namespace Abix.DLL
open Abix.Concurrency Abix.RCU
variable {Tid Obj Ext : Type} [DecidableEq Obj] {sh : Shared Tid Obj Ext} {r : Result} {o : Obj} {f : Frame Obj}
  [DecidableEq Tid] [Fintype Tid] {c : Config Tid (Shared Tid Obj Ext) (Local Tid Obj Ext)} {t : Tid}

/-- Every image loaded so far has been discarded or published, or waits for one of the two. -/
def Loaded (c : Config Tid (Shared Tid Obj Ext) (Local Tid Obj Ext)) : Prop :=
  Multiset.range c.shared.nextImage = ↑c.shared.discarded + ↑c.shared.published +
    total (fun l : Local Tid Obj Ext => l.frame.unpublished) c.locals

/-- Every image published so far is current, on its way to be disposed of, or disposed of. -/
def Published [Fintype Obj] (c : Config Tid (Shared Tid Obj Ext) (Local Tid Obj Ext)) : Prop :=
  (c.shared.published : Multiset Nat) = ↑c.shared.disposed + total Object.current c.shared.objects +
    total (fun l : Local Tid Obj Ext => l.frame.inHand) c.locals

omit [DecidableEq Obj] [DecidableEq Tid] [Fintype Tid] in
theorem domainAccess_images {l : Local Tid Obj Ext} {a : Action Obj Ext} {b : RCU.Action (Resource Ext) Reclaim}
    {g : Frame Obj} (h : domainAccess l a = some (b, g)) :
    g.unpublished = l.frame.unpublished ∧ g.inHand = l.frame.inHand := by
  rcases domainAccess_frame h with rfl | ⟨_, _, _, _, _, _, hold, rfl⟩
  · exact ⟨rfl, rfl⟩
  · rw [hold]
    exact ⟨rfl, rfl⟩

private theorem loaded_next {a : Action Obj Ext} {l : Local Tid Obj Ext} (h : Loaded c) (hc : Seated c)
    (hs : step t c.shared (c.locals t) a = some (sh, l)) : Loaded ⟨sh, Function.update c.locals t l⟩ := by
  apply ledger_update h
  rcases step_cases hs with ⟨b, d, hb, -, rfl, -⟩ | ⟨r, o, -, -, -, hm, -⟩
  · rw [(domainAccess_images hb).1]
  · exact hm.loading (hc.fits t)

private theorem published_next [Fintype Obj] {a : Action Obj Ext} {l : Local Tid Obj Ext} (h : Published c) (hc : Seated c)
    (hs : step t c.shared (c.locals t) a = some (sh, l)) : Published ⟨sh, Function.update c.locals t l⟩ := by
  apply ledger_update h
  rcases step_cases hs with ⟨b, d, hb, -, rfl, -⟩ | ⟨r, o, -, -, -, hm, -⟩
  · rw [(domainAccess_images hb).2]
  · have hobj : sh.objects = Function.update c.shared.objects o (sh.objects o) := by
      funext u
      by_cases hu : u = o
      · subst hu
        simp
      · rw [Function.update_of_ne hu]
        exact hm.at.1 u hu
    have hcur := total_update Object.current c.shared.objects o (sh.objects o)
    rw [← hobj] at hcur
    have hd := hm.disposing (hc.fits t) (fun k hk => hc.occupied (hm.object_of_seat hk) k hk) (hc.sound o)
    apply add_right_cancel (b := (c.shared.objects o).current)
    calc ↑sh.disposed + total Object.current sh.objects + l.frame.inHand + ↑c.shared.published +
          (c.shared.objects o).current
        = ↑sh.disposed + l.frame.inHand + ↑c.shared.published +
          (total Object.current sh.objects + (c.shared.objects o).current) := by abel
      _ = ↑sh.disposed + (sh.objects o).current + l.frame.inHand + ↑c.shared.published +
          total Object.current c.shared.objects := by rw [hcur]; abel
      _ = ↑c.shared.disposed + (c.shared.objects o).current + (c.locals t).frame.inHand + ↑sh.published +
          total Object.current c.shared.objects := by rw [hd]
      _ = ↑c.shared.disposed + total Object.current c.shared.objects + (c.locals t).frame.inHand +
          ↑sh.published + (c.shared.objects o).current := by abel

/-- What a thread knows of the Control at its place, and whether its call has changed anything. -/
def Assertion (sh : Shared Tid Obj Ext) (l : Local Tid Obj Ext) : Prop :=
  Swapping sh l.frame ∧ (l.frame.Pristine → l.changed = false)

structure Guarded (c : Config Tid (Shared Tid Obj Ext) (Local Tid Obj Ext)) : Prop where
  synced : ∀ o d, (c.shared.objects o).control = some d → d.writerLock = false → d.Synced
  asserted : ∀ t, Assertion c.shared (c.locals t)

/-- Two threads do not hold the writer lock of one Object. -/
theorem Seated.excludes {v : Tid} (h : Seated c) (hne : v ≠ t) (ht : .writer ∈ (c.locals t).frame.seats)
    (hv : .writer ∈ (c.locals v).frame.seats) (ho : (c.locals t).frame.object = some o) :
    (c.locals v).frame.object ≠ some o := by
  intro hov
  have hle := held_add_held_le_total (fun l : Local Tid Obj Ext => l.frame.sits o .writer) c.locals hne
  rw [← h.seats o .writer, sits_of_seats hov rfl, sits_of_seats ho rfl, if_pos ht, if_pos hv] at hle
  simp only [Object.seats] at hle
  split at hle <;> omega

omit [DecidableEq Obj] [DecidableEq Tid] [Fintype Tid] in
theorem Swapping.of_kept {sh' : Shared Tid Obj Ext} (h : Swapping sh f)
    (hk : ∀ u, f.object = some u → Kept (sh.objects u) (sh'.objects u)) : Swapping sh' f := by
  cases f with
  | exchange u | unlock u =>
    intro d hd
    obtain ⟨c, hc, hi, hs, -⟩ := hk u rfl d hd
    have := h c hc
    rwa [Control.Synced, hi, hs]
  | storeState u =>
    intro d hd
    obtain ⟨c, hc, hi, -, -⟩ := hk u rfl d hd
    exact hi.trans (h c hc)
  | _ => trivial

private theorem swapping_others {v : Tid} {p : Shared Tid Obj Ext × Frame Obj} (hc : Seated c) (hne : v ≠ t)
    (hm : Moves c.shared r o (c.locals t).frame p) (hv : Swapping c.shared (c.locals v).frame) :
    Swapping p.1 (c.locals v).frame := by
  by_cases hw : .writer ∈ (c.locals v).frame.seats
  · apply hv.of_kept
    intro u hu
    by_cases huo : u = o
    · subst huo
      have hwt : .writer ∉ (c.locals t).frame.seats := fun hwt =>
        hc.excludes hne.symm hw hwt hu (hm.object_of_seat hwt)
      refine hm.kept hwt fun hwp => ?_
      -- `v` holds the lock, so `t` has not just taken it
      obtain ⟨d, s, lim, polls, -, hd, hl, -⟩ := hm.takes_lock hwt hwp
      have hheld : d.writerLock = true := by
        simpa [Object.Occupied, hd] using hc.occupied hu _ hw
      exact absurd (hheld.symm.trans hl) (by simp)
    · exact kept_of_control (by rw [hm.at.1 u huo])
  · exact swapping_of_not_writer hw

theorem guarded_next {a : Action Obj Ext} {l : Local Tid Obj Ext} (h : Guarded c) (hc : Seated c)
    (hs : step t c.shared (c.locals t) a = some (sh, l)) : Guarded ⟨sh, Function.update c.locals t l⟩ := by
  rcases step_cases hs with ⟨b, d, hb, -, rfl, hch⟩ | ⟨r, o, -, -, -, hm, hch⟩
  · refine ⟨h.synced, fun v => ?_⟩
    by_cases hv : v = t
    · subst hv
      simp only [Function.update_self]
      rcases domainAccess_frame hb with he | ⟨_, _, _, _, _, _, -, hnew⟩
      · rw [Assertion, he, hch]
        exact h.asserted v
      · rw [Assertion, hnew]
        exact ⟨trivial, fun hp => hp.elim⟩
    · simp only [Function.update_of_ne hv]
      exact ⟨(h.asserted v).1.of_kept fun _ _ => kept_of_control rfl, (h.asserted v).2⟩
  · have hocc := fun k hk => hc.occupied (hm.object_of_seat hk) k hk
    obtain ⟨hsync, hswap⟩ := hm.swapping (h.asserted t).1 hocc (h.synced o)
    refine ⟨fun u => ?_, fun v => ?_⟩
    · by_cases hu : u = o
      · subst hu
        exact hsync
      · have : sh.objects u = c.shared.objects u := hm.at.1 u hu
        simp only [this]
        exact h.synced u
    · by_cases hv : v = t
      · subst hv
        simp only [Function.update_self]
        refine ⟨hswap, fun hp => ?_⟩
        rw [hch]
        by_cases hf : (c.locals v).frame.object = some o
        · obtain ⟨hpf, hd⟩ := hm.pristine hf hp
          simp [(h.asserted v).2 hpf, hd]
        · simp [hf]
      · simp only [Function.update_of_ne hv]
        exact ⟨swapping_others hc hv hm (h.asserted v).1, (h.asserted v).2⟩

structure Lifecycle [Fintype Obj] (c : Config Tid (Shared Tid Obj Ext) (Local Tid Obj Ext)) : Prop where
  loaded : Loaded c
  published : Published c
  guarded : Guarded c

theorem lifecycle_of_reachable [Fintype Obj]
    {ok : Config Tid (Shared Tid Obj Ext) (Local Tid Obj Ext) → Tid → Action Obj Ext → Prop} {made : Obj → Bool}
    (h : (system Tid Obj Ext).Reachable ok (start Tid Ext made) c) : Lifecycle c := by
  refine (h.assuming fun _ => seated_of_reachable).invariant (P := Lifecycle) ⟨?_, ?_, ?_⟩ ?_
  · simp [Loaded, start, total, Frame.unpublished]
  · have hcur : total Object.current (start Tid Ext made).shared.objects = 0 := by
      refine Finset.sum_eq_zero fun o _ => ?_
      cases hm : made o <;> simp [start, Object.current, hm]
    rw [Published, hcur]
    simp [start, total, Frame.inHand]
  · refine ⟨fun o d hd _ => ?_, fun _ => ⟨trivial, fun hp => hp.elim⟩⟩
    cases hm : made o with
    | false => simp [start, hm] at hd
    | true =>
      obtain rfl : ({} : Control) = d := by simpa [start, hm] using hd
      simp [Control.Synced]
  · rintro c t a c' hc ⟨hseat, -⟩ hn
    obtain ⟨sh, l, hs, rfl⟩ := Program.next_eq_some_iff.mp hn
    exact ⟨loaded_next hc.loaded hseat hs, published_next hc.published hseat hs, guarded_next hc.guarded hseat hs⟩

/-- The life cycle of images, as any run of the Objects keeps it. -/
structure LifeCycle [Fintype Obj] (c : Config Tid (Shared Tid Obj Ext) (Local Tid Obj Ext)) : Prop where
  /-- Whenever the writer lock is free, a Control has an image exactly when it is active. -/
  active : ∀ o d, (c.shared.objects o).control = some d → d.writerLock = false →
    (d.image.isSome = true ↔ d.state = .active)
  /-- A published image is current in one owned Control, or in the hands of one thread on its
  way to disposal, or has been disposed of once. -/
  published : (c.shared.published : Multiset Nat) = ↑c.shared.disposed + total Object.current c.shared.objects +
    total (fun l : Local Tid Obj Ext => l.frame.inHand) c.locals
  /-- A loaded image has been published once, or discarded once, or is with its loader. -/
  loaded : Multiset.range c.shared.nextImage = ↑c.shared.discarded + ↑c.shared.published +
    total (fun l : Local Tid Obj Ext => l.frame.unpublished) c.locals
  disposed_once : c.shared.disposed.Nodup
  discarded_once : c.shared.discarded.Nodup
  discarded_unpublished : ∀ i ∈ c.shared.discarded, i ∉ c.shared.published
  /-- What was disposed of is not the image of a Control that is still owned. -/
  not_current : ∀ i ∈ c.shared.disposed, ∀ o d, (c.shared.objects o).control = some d →
    0 < (c.shared.objects o).useCount → d.image ≠ some i
  /-- A call that returned false changed no image, no state and no path. -/
  refused_unchanged : ∀ t e, (c.locals t).frame = .idle (some ⟨false, e⟩) → (c.locals t).changed = false

omit [DecidableEq Obj] [DecidableEq Tid] in
theorem Loaded.nodup (h : Loaded c) : (c.shared.discarded + c.shared.published : Multiset Nat).Nodup := by
  have hn := Multiset.nodup_range c.shared.nextImage
  rw [h] at hn
  exact (Multiset.nodup_add.mp hn).1

theorem image_life_cycle [Fintype Obj] {made : Obj → Bool}
    (h : (system Tid Obj Ext).Reachable Program.anyStep (start Tid Ext made) c) : LifeCycle c := by
  obtain ⟨hloaded, hpublished, hguarded⟩ := lifecycle_of_reachable h
  obtain ⟨hdiscarded, hnodup, hdisjoint⟩ := Multiset.nodup_add.mp hloaded.nodup
  rw [hpublished, add_assoc, Multiset.nodup_add] at hnodup
  obtain ⟨hdisposed, -, hapart⟩ := hnodup
  refine ⟨hguarded.synced, hpublished, hloaded, hdisposed, hdiscarded, ?_, ?_, ?_⟩
  · exact fun i hi hp => Multiset.disjoint_left.mp hdisjoint hi hp
  · intro i hi o d hd hown he
    have hcur : i ∈ (c.shared.objects o).current := by simp [Object.current, hown, hd, he]
    have hle := held_le_total Object.current c.shared.objects o
    exact Multiset.disjoint_left.mp hapart hi (Multiset.mem_add.mpr (.inl (Multiset.mem_of_le hle hcur)))
  · intro t e ht
    exact (hguarded.asserted t).2 (by rw [ht]; trivial)

/-- A load that publishes image 0, a handle, the destruction of the Object (refused its
unload) and the end of the handle. -/
private def handleOutlives : List (Unit × Action Unit Unit) :=
  ((), .load () "") :: List.replicate 6 ((), .run true) ++ [((), .makeHandle ()), ((), .destroy ()),
    ((), .run true), ((), .run true), ((), .dropHandle ())]

/-- Image 0 is handed to `retire_image` while it is still the image of its Control. -/
theorem last_handle_retires_current_image :
    ∃ c : Config Unit (Shared Unit Unit Unit) (Local Unit Unit Unit),
      (system Unit Unit Unit).Reachable Program.anyStep (start Unit Unit fun _ => true) c ∧
        ∃ d, (c.shared.objects ()).control = some d ∧ d.image = some 0 ∧ 0 ∈ c.shared.disposed := by
  have hrun : (((system Unit Unit Unit).exec Program.anyStep (start Unit Unit fun _ => true) handleOutlives).map
      fun c => ((c.shared.objects ()).control.map Control.image, c.shared.disposed)) = some (some (some 0), [0]) := by
    decide
  obtain ⟨c, hc, he⟩ := Option.map_eq_some_iff.mp hrun
  obtain ⟨hd, hdisposed⟩ := Prod.mk.inj he
  obtain ⟨d, hd, hi⟩ := Option.map_eq_some_iff.mp hd
  exact ⟨c, .of_exec .init hc, d, hd, hi, by simp [hdisposed]⟩

/-- A second load takes image 0 out and disposes of it. -/
theorem image_life_cycle_replaced : ∃ c : Config Unit (Shared Unit Unit Unit) (Local Unit Unit Unit),
    c.shared.published = [1, 0] ∧ c.shared.disposed = [0] ∧ LifeCycle c := by
  have hrun : (((system Unit Unit Unit).exec Program.anyStep (start Unit Unit fun _ => true)
      (((), .load () "") :: List.replicate 6 ((), .run true) ++ ((), .load () "") :: List.replicate 5 ((), .run true))).map
      fun c => (c.shared.published, c.shared.disposed)) = some ([1, 0], [0]) := by
    decide
  obtain ⟨c, hc, he⟩ := Option.map_eq_some_iff.mp hrun
  obtain ⟨hp, hd⟩ := Prod.mk.inj he
  exact ⟨c, hp, hd, image_life_cycle (.of_exec .init hc)⟩

end Abix.DLL

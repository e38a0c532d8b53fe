import Abix.DLL.Ownership

/-! The life of an image: loaded, then discarded or published; published, then current in an
owned Control, in the hands of the thread that took it out, or disposed of. -/
namespace Abix.DLL
open Abix.Concurrency Abix.RCU
variable {Tid Obj Ext : Type} [DecidableEq Obj] {sh : Shared Tid Obj Ext} {r : Result} {o u : Obj} {f : Frame Obj}
  {p : Shared Tid Obj Ext × Frame Obj}

def Frame.unpublished : Frame Obj → Multiset Nat
  | .lock _ s _ _ | .exchange _ s => ↑s.image.toList
  | .discard _ i => {i}
  | _ => 0

/-- The image a thread has taken out of a Control and not disposed of. -/
def Frame.inHand : Frame Obj → Multiset Nat
  | .storeState _ _ previous | .unlock _ _ previous => ↑previous.toList
  | .forceFree _ i => {i}
  | _ => 0

/-- The image of a Control that an Object or a handle still owns. -/
def Object.current (x : Object) : Multiset Nat :=
  if 0 < x.useCount then ↑(x.control.bind Control.image).toList else 0

/-- The images a step discards or publishes are those its thread had loaded. -/
def Loads (sh : Shared Tid Obj Ext) (f : Frame Obj) (p : Shared Tid Obj Ext × Frame Obj) : Prop :=
  (p.1.discarded : Multiset Nat) + p.1.published + p.2.unpublished + Multiset.range sh.nextImage =
    sh.discarded + sh.published + f.unpublished + Multiset.range p.1.nextImage

omit [DecidableEq Obj] in
theorem loads_of_same {p : Shared Tid Obj Ext × Frame Obj} (hd : p.1.discarded = sh.discarded)
    (hp : p.1.published = sh.published) (hn : p.1.nextImage = sh.nextImage)
    (hf : p.2.unpublished = f.unpublished) : Loads sh f p := by
  rw [Loads, hd, hp, hn, hf]

private theorem loads_retired {next : Next} (hf : f.unpublished = 0) : Loads sh f (sh.retired o next) := by
  cases next <;> exact loads_of_same rfl rfl rfl hf.symm

omit [DecidableEq Obj] in
theorem loads_destroyControl {c : Control} (hf : f.unpublished = 0) : Loads sh f (sh.destroyControl o c) := by
  unfold Shared.destroyControl
  split <;> exact loads_of_same rfl rfl rfl hf.symm

private theorem loads_swapped {c : Control} {s : Swap} {prev : Option Nat} (hf : f.unpublished = 0) :
    Loads sh f (sh.swapped c o s prev) := by
  unfold Shared.swapped
  split
  · exact loads_of_same rfl rfl rfl hf.symm
  · exact loads_retired hf
  · exact loads_of_same rfl rfl rfl hf.symm
  · exact loads_of_same rfl rfl rfl hf.symm

theorem Loads.of_setObject {x : Object} (h : Loads (sh.setObject o x) f p) : Loads sh f p := h

theorem Moves.loading (hm : Moves sh r o f p) (hf : f.Fits) : Loads sh f p := by
  cases hm with
  | enters _ _ hentry => rcases hentry with ⟨path, rfl⟩ | rfl | rfl <;> exact loads_of_same rfl rfl rfl rfl
  | dropsLast => exact Loads.of_setObject (loads_destroyControl rfl)
  | dropsOwnedLast => exact Loads.of_setObject (loads_destroyControl rfl)
  | @loads c path =>
    simp only [Loads, Shared.lockWriter, Frame.unpublished, Swap.image, Option.toList_some, Multiset.coe_singleton,
      Multiset.range_succ, ← Multiset.singleton_add]
    abel
  | sole => exact loads_of_same rfl rfl rfl (congrArg (fun i => (i.toList : Multiset Nat)) hf)
  | @timesOut s => cases s <;> exact loads_of_same rfl rfl rfl rfl
  | exchanges =>
    simp only [Loads, Frame.unpublished, Shared.setControl, Shared.setObject, ← Multiset.coe_add]
    abel
  | unlocks => exact Loads.of_setObject (loads_swapped rfl)
  | @records c i bounded proven next => cases next <;> exact loads_of_same rfl rfl rfl rfl
  | discards =>
    simp only [Loads, Frame.unpublished, Shared.returned, Shared.setObject, ← Multiset.cons_coe, ← Multiset.singleton_add]
    abel
  | _ => exact loads_of_same rfl rfl rfl rfl

/-- The images a step disposes of are those its thread, or the Object it works on, had. -/
def Disposes (sh : Shared Tid Obj Ext) (o : Obj) (f : Frame Obj) (p : Shared Tid Obj Ext × Frame Obj) : Prop :=
  (p.1.disposed : Multiset Nat) + (p.1.objects o).current + p.2.inHand + sh.published =
    sh.disposed + (sh.objects o).current + f.inHand + p.1.published

omit [DecidableEq Obj] in
theorem disposes_of_same (hd : p.1.disposed = sh.disposed) (hp : p.1.published = sh.published)
    (hc : (p.1.objects o).current = (sh.objects o).current) (hf : p.2.inHand = f.inHand) : Disposes sh o f p := by
  rw [Disposes, hd, hp, hc, hf]

omit [DecidableEq Obj] in
theorem current_congr {x y : Object} (hu : 0 < y.useCount ↔ 0 < x.useCount)
    (hi : y.control.bind Control.image = x.control.bind Control.image) : y.current = x.current := by
  simp only [Object.current, hu, hi]

theorem current_setControl {c d : Control} (hc : (sh.objects o).control = some c) (hd : d.image = c.image) :
    ((sh.setControl o d).objects o).current = (sh.objects o).current := by
  apply current_congr <;> simp [Shared.setControl, Object.useCount, hc, hd]

theorem current_returned {v : Option Returned} : ((sh.returned o v).1.objects o).current = (sh.objects o).current := by
  apply current_congr <;> simp [Shared.returned, Object.useCount]

theorem disposes_retired {next : Next} (hf : f.inHand = 0) : Disposes sh o f (sh.retired o next) := by
  cases next with
  | unloaded => exact disposes_of_same rfl rfl current_returned hf.symm
  | _ => exact disposes_of_same rfl rfl rfl hf.symm

private theorem disposes_swapped {c : Control} {s : Swap} {prev : Option Nat} (hf : f.inHand = ↑prev.toList) :
    Disposes sh o f (sh.swapped c o s prev) := by
  unfold Shared.swapped
  split
  · rw [Disposes, hf]
    simp only [Shared.retire, Frame.inHand, Option.toList_some, ← Multiset.cons_coe, ← Multiset.singleton_add]
    abel
  · exact disposes_retired hf
  · exact disposes_of_same rfl rfl rfl hf.symm
  · exact disposes_of_same rfl rfl current_returned hf.symm

omit [DecidableEq Obj] in
/-- What holds after an access that disposes of nothing held before it. -/
theorem Disposes.before {sh₁ : Shared Tid Obj Ext} (h : Disposes sh₁ o f p) (hd : sh₁.disposed = sh.disposed)
    (hp : sh₁.published = sh.published) (hc : (sh₁.objects o).current = (sh.objects o).current) :
    Disposes sh o f p := by
  rw [Disposes, ← hd, ← hp, ← hc]
  exact h

/-- Giving up the last reference disposes of the image that was current. -/
theorem disposes_destroyControl {x : Object} {c : Control} (hc : (sh.objects o).control = some c)
    (hown : 0 < (sh.objects o).useCount) (hx : x.useCount = 0) (hf : f.inHand = 0) :
    Disposes sh o f ((sh.setObject o x).destroyControl o c) := by
  have hold : (sh.objects o).current = ↑c.image.toList := by simp [Object.current, hown, hc]
  have hnew : ((sh.setObject o x).objects o).current = 0 := by simp [Object.current, hx]
  unfold Shared.destroyControl
  split
  · rename_i i hi
    rw [Disposes, hold, hi, hf]
    simp only [Shared.retire, Frame.inHand, Option.toList_some, ← Multiset.cons_coe, ← Multiset.singleton_add,
      Multiset.coe_nil]
    rw [hnew]
    simp only [Shared.setObject]
    abel
  · rename_i hi
    exact disposes_of_same rfl rfl (by rw [hnew, hold, hi]; rfl) hf.symm

/-- A member call or the destructor keeps the Control owned. -/
theorem useCount_pos_of_seat {x : Object} {s : Swap} (hx : x.Sound) (h : x.Occupied s.seat) : 0 < x.useCount := by
  have howned : x.owned = true := by
    cases s with
    | destroy => exact h.2.2
    | _ =>
      apply hx.owned
      by_contra ha
      have := hx.calls (by simpa using ha)
      exact absurd h (Nat.not_lt.mpr this.le)
  simp [Object.useCount, howned]

theorem Moves.disposing (hm : Moves sh r o f p) (hf : f.Fits) (hin : ∀ k ∈ f.seats, (sh.objects o).Occupied k)
    (hx : (sh.objects o).Sound) : Disposes sh o f p := by
  cases hm with
  | enters _ _ hentry => 
    refine disposes_of_same rfl rfl (current_congr ?_ ?_) ?_
    · simp [Object.useCount]
    · simp
    · rcases hentry with ⟨path, rfl⟩ | rfl | rfl <;> rfl
  | destroys | destroysNull =>
    refine disposes_of_same rfl rfl (current_congr ?_ ?_) rfl
    · simp [Object.useCount]
    · simp
  | configures _ _ hc => exact disposes_of_same rfl rfl (current_setControl hc rfl) rfl
  | shares ha =>
    refine disposes_of_same rfl rfl (current_congr ?_ ?_) rfl
    · simp [Object.useCount, hx.owned ha]
    · simp
  | drops hk _ hlast =>
    have hpos : 0 < (sh.objects o).useCount := by simp [Object.useCount, hk]
    refine disposes_of_same rfl rfl (current_congr (iff_of_true ?_ hpos) ?_) rfl
    · by_cases ho : (sh.objects o).owned = false
      · simpa [Object.useCount, ho, Nat.pos_iff_ne_zero] using fun hz => hlast ⟨hz, ho⟩
      · simp [Object.useCount, ho]
    · simp
  | dropsLast hk hc ho =>
    exact disposes_destroyControl hc (by simp [Object.useCount, hk]) (by simp [Object.useCount, ho]) rfl
  | dropsOwned hk =>
    obtain ⟨-, -, ho⟩ : (sh.objects o).Occupied .destructor := hin _ List.mem_cons_self
    refine disposes_of_same rfl rfl (current_congr (iff_of_true ?_ ?_) ?_) rfl
    · simpa [Object.useCount, Nat.pos_iff_ne_zero] using hk
    · simp [Object.useCount, ho]
    · simp
  | dropsOwnedLast hc hk =>
    obtain ⟨-, -, ho⟩ : (sh.objects o).Occupied .destructor := hin _ List.mem_cons_self
    exact disposes_destroyControl hc (by simp [Object.useCount, ho]) (by simp [Object.useCount, hk]) rfl
  | deletes =>
    obtain ⟨-, ho, hk⟩ : (sh.objects o).Occupied .deleter := hin _ List.mem_cons_self
    have hzero : (sh.objects o).current = 0 := by simp [Object.current, Object.useCount, ho, hk]
    exact disposes_of_same rfl rfl (by rw [hzero]; simp [Object.current]) rfl
  | loadFails | stale => exact disposes_of_same rfl rfl current_returned rfl
  | locks hc | stores hc => exact disposes_of_same rfl rfl (current_setControl hc rfl) rfl
  | @timesOut s =>
    cases s with
    | publish => exact disposes_of_same rfl rfl rfl rfl
    | _ => exact disposes_of_same rfl rfl current_returned rfl
  | @exchanges c s hc =>
    have hpos : 0 < (sh.objects o).useCount := useCount_pos_of_seat hx (hin s.seat (by simp [Frame.seats]))
    have hold : (sh.objects o).current = ↑c.image.toList := by simp [Object.current, hpos, hc]
    have hnew : ((sh.setControl o { c with image := s.image }).objects o).current = ↑s.image.toList := by
      have : 0 < ((sh.setControl o { c with image := s.image }).objects o).useCount := by
        simpa [Shared.setControl, Object.useCount] using hpos
      rw [Object.current, if_pos this]
      simp [Shared.setControl]
    rw [Disposes, hold]
    simp only [Frame.inHand, ← Multiset.coe_add]
    rw [hnew]
    simp only [Shared.setControl, Shared.setObject]
    abel
  | unlocks hc => exact (disposes_swapped rfl).before rfl rfl (current_setControl hc rfl)
  | records hc => exact (disposes_retired rfl).before rfl rfl (current_setControl hc rfl)
  | setsPath =>
    refine disposes_of_same rfl rfl (current_returned.trans (current_congr ?_ ?_)) rfl
    · simp [Object.useCount]
    · simp
  | discards => exact disposes_of_same rfl rfl (current_returned (v := none)) rfl
  | frees =>
    have hcur : ((sh.returned o none).1.objects o).current = (sh.objects o).current := current_returned
    rw [Disposes, ← hcur]
    simp only [Shared.returned, Shared.setObject, Frame.inHand, ← Multiset.cons_coe, ← Multiset.singleton_add]
    abel
  | _ => exact disposes_of_same rfl rfl rfl rfl

end Abix.DLL

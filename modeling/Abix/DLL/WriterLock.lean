import Abix.DLL.Ownership

/-! What the writer lock protects: the image and the state of a Control move together, and a
call that is refused has moved neither. -/
namespace Abix.DLL
open Abix.Concurrency Abix.RCU
variable {Tid Obj Ext : Type} [DecidableEq Obj] {sh : Shared Tid Obj Ext} {r : Result} {o u : Obj} {f : Frame Obj}
  {p : Shared Tid Obj Ext × Frame Obj}

/-- A Control has an image exactly when it is active. -/
def Control.Synced (c : Control) : Prop := c.image.isSome = true ↔ c.state = .active

def Swapping (sh : Shared Tid Obj Ext) : Frame Obj → Prop
  | .exchange o _ | .unlock o _ _ => ∀ c, (sh.objects o).control = some c → c.Synced
  | .storeState o s _ => ∀ c, (sh.objects o).control = some c → c.image = s.image
  | _ => True

/-- The control keeps its image, its state and its lock, if it is still there. -/
def Kept (x y : Object) : Prop :=
  ∀ d, y.control = some d → ∃ c, x.control = some c ∧ d.image = c.image ∧ d.state = c.state ∧ d.writerLock = c.writerLock

omit [DecidableEq Obj] in
theorem kept_of_control {x y : Object} (h : y.control = x.control) : Kept x y :=
  fun d hd => ⟨d, h ▸ hd, rfl, rfl, rfl⟩

theorem kept_setControl {c d : Control} (hc : (sh.objects o).control = some c) (hi : d.image = c.image)
    (hs : d.state = c.state) (hl : d.writerLock = c.writerLock) :
    Kept (sh.objects o) ((sh.setControl o d).objects o) := by
  intro e he
  obtain rfl : d = e := by simpa [Shared.setControl] using he
  exact ⟨c, hc, hi, hs, hl⟩

theorem control_returned {v : Option Returned} : ((sh.returned o v).1.objects o).control = (sh.objects o).control := by
  simp [Shared.returned]

theorem control_retired {next : Next} : ((sh.retired o next).1.objects o).control = (sh.objects o).control := by
  cases next with
  | unloaded => exact control_returned
  | _ => rfl

private theorem control_swapped {c : Control} {s : Swap} {prev : Option Nat} :
    ((sh.swapped c o s prev).1.objects o).control = (sh.objects o).control := by
  unfold Shared.swapped
  split
  · rfl
  · exact control_retired
  · rfl
  · exact control_returned

omit [DecidableEq Obj] in
private theorem control_destroyControl {c : Control} :
    ((sh.destroyControl o c).1.objects o).control = (sh.objects o).control := by
  unfold Shared.destroyControl
  split <;> rfl

/-- Only the holder of the writer lock touches the image and the state. -/
theorem Moves.kept (hm : Moves sh r o f p) (hw : .writer ∉ f.seats) (hw' : .writer ∉ p.2.seats) :
    Kept (sh.objects o) (p.1.objects o) := by
  cases hm with
  | configures _ _ hc => exact kept_setControl hc rfl rfl rfl
  | locks => exact absurd List.mem_cons_self hw'
  | exchanges | stores | unlocks => exact absurd List.mem_cons_self hw
  | records hc =>
    intro d hd
    have hd' := control_retired.symm.trans hd
    refine kept_setControl hc ?_ ?_ ?_ d hd' <;> rfl
  | deletes =>
    intro d hd
    simp at hd
  | dropsLast | dropsOwnedLast => exact kept_of_control (control_destroyControl.trans (by simp))
  | @timesOut s =>
    cases s with
    | publish => exact kept_of_control rfl
    | _ => exact kept_of_control control_returned
  | loadFails | stale => exact kept_of_control control_returned
  | discards | frees => exact kept_of_control (control_returned (v := none))
  | setsPath => exact kept_of_control (control_returned.trans (by simp))
  | refused | loads | abandons | sole | spins => exact kept_of_control rfl
  | _ => exact kept_of_control (by simp)

omit [DecidableEq Obj] in
theorem swapping_of_not_writer (hw : .writer ∉ f.seats) : Swapping sh f := by
  cases f with
  | exchange | storeState | unlock => exact absurd List.mem_cons_self hw
  | _ => trivial

omit [DecidableEq Obj] in
theorem Swap.writer_not_mem (s : Swap) : Seat.writer ∉ [s.seat] := by
  simpa using s.seat_ne_writer.symm

theorem writer_not_mem_retired {next : Next} : Seat.writer ∉ (sh.retired o next).2.seats := by
  cases next <;> simp [Shared.retired, Shared.returned, Frame.seats]

omit [DecidableEq Obj] in
theorem writer_not_mem_next (next : Next) : Seat.writer ∉ [next.seat] := by
  cases next <;> simp [Next.seat]

private theorem writer_not_mem_swapped {c : Control} {s : Swap} {prev : Option Nat} :
    Seat.writer ∉ (sh.swapped c o s prev).2.seats := by
  unfold Shared.swapped
  split
  · exact writer_not_mem_next _
  · exact writer_not_mem_retired
  · simp [Frame.seats]
  · simp [Shared.returned, Frame.seats]

omit [DecidableEq Obj] in
private theorem writer_not_mem_destroyControl {c : Control} : Seat.writer ∉ (sh.destroyControl o c).2.seats := by
  unfold Shared.destroyControl
  split
  · exact writer_not_mem_next _
  · simp [Frame.seats]

omit [DecidableEq Obj] in
private theorem synced_store {c : Control} {s : Swap} (h : c.image = s.image) : Control.Synced { c with state := s.state } := by
  cases s <;> simp [Control.Synced, h, Swap.image, Swap.state]

/-- A thread becomes the holder of the writer lock by taking it. -/
theorem Moves.takes_lock (hm : Moves sh r o f p) (hw : .writer ∉ f.seats) (hw' : .writer ∈ p.2.seats) :
    ∃ c s lim polls, f = .lock o s lim polls ∧ (sh.objects o).control = some c ∧ c.writerLock = false ∧
      p = (sh.setControl o { c with writerLock := true }, .exchange o s) := by
  cases hm with
  | locks hc hl => exact ⟨_, _, _, _, rfl, hc, hl, rfl⟩
  | exchanges | stores | unlocks => exact absurd List.mem_cons_self hw
  | enters _ _ hentry => rcases hentry with ⟨path, rfl⟩ | rfl | rfl <;> simp [Frame.seats, Swap.seat] at hw'
  | destroys => exact absurd hw' (Swap.writer_not_mem .destroy)
  | loads | sole | spins => exact absurd hw' (Swap.writer_not_mem _)
  | dropsLast | dropsOwnedLast => exact absurd hw' writer_not_mem_destroyControl
  | @timesOut s => cases s <;> simp [Shared.timedOut, Shared.returned, Frame.seats] at hw'
  | @records _ _ _ _ next => exact absurd hw' writer_not_mem_retired
  | _ => simp [Frame.seats, Shared.returned] at hw'

/-- The step of the thread that may hold the lock itself. -/
theorem Moves.swapping (hm : Moves sh r o f p) (hs : Swapping sh f) (hin : ∀ k ∈ f.seats, (sh.objects o).Occupied k)
    (hfree : ∀ c, (sh.objects o).control = some c → c.writerLock = false → c.Synced) :
    (∀ c, (p.1.objects o).control = some c → c.writerLock = false → c.Synced) ∧ Swapping p.1 p.2 := by
  have hlocked (hw : .writer ∈ f.seats) {c : Control} (hc : (sh.objects o).control = some c) : c.writerLock = true := by
    simpa [Object.Occupied, hc] using hin _ hw
  have hnew {c d : Control} (hd : ((sh.setControl o c).objects o).control = some d) : c = d := by
    simpa [Shared.setControl] using hd
  by_cases hw : .writer ∈ f.seats
  · cases hm with
    | @exchanges c s hc =>
      have hl := hlocked hw hc
      refine ⟨fun d hd hfree => ?_, fun d hd => ?_⟩
      · obtain rfl := hnew hd
        exact absurd (hl.symm.trans hfree) (by simp)
      · obtain rfl := hnew hd
        rfl
    | @stores c s prev hc =>
      have hl := hlocked hw hc
      refine ⟨fun d hd hfree => ?_, fun d hd => ?_⟩
      · obtain rfl := hnew hd
        exact absurd (hl.symm.trans hfree) (by simp)
      · obtain rfl := hnew hd
        exact synced_store (hs c hc)
    | @unlocks c s prev hc =>
      refine ⟨fun d hd _ => ?_, swapping_of_not_writer writer_not_mem_swapped⟩
      obtain rfl := hnew (control_swapped.symm.trans hd)
      exact hs c hc
    | sole | spins | locks | timesOut | stale => exact absurd hw (Swap.writer_not_mem _)
    | abandons => exact absurd hw (Swap.writer_not_mem .destroy)
    | @records _ _ _ _ next => cases next <;> simp [Frame.seats, Next.seat] at hw
    | _ => simp [Frame.seats] at hw
  · by_cases hw' : .writer ∈ p.2.seats
    · obtain ⟨c, s, lim, polls, rfl, hc, hl, rfl⟩ := hm.takes_lock hw hw'
      refine ⟨fun d hd hfree => ?_, fun d hd => ?_⟩
      · obtain rfl := hnew hd
        exact absurd hfree (by simp)
      · obtain rfl := hnew hd
        exact hfree c hc hl
    · refine ⟨fun d hd hl => ?_, swapping_of_not_writer hw'⟩
      obtain ⟨c, hc, hi, hst, hlock⟩ := hm.kept hw hw' d hd
      have := hfree c hc (hlock ▸ hl)
      rwa [Control.Synced, hi, hst]

/-- The places of a call that has changed nothing, up to a return that says so. -/
def Frame.Pristine : Frame Obj → Prop
  | .loadImage _ _ | .useCount _ _ | .lock _ _ _ _ | .exchange _ _ | .discard _ _ | .idle (some ⟨false, _⟩) => True
  | _ => False

theorem differs_eq_false {x y : Object} (hc : y.control.map Control.image = x.control.map Control.image)
    (hs : y.control.map Control.state = x.control.map Control.state) (hp : y.path = x.path) : differs x y = false := by
  simp [differs, hc, hs, hp]

theorem differs_returned {v : Option Returned} : differs (sh.objects o) ((sh.returned o v).1.objects o) = false :=
  differs_eq_false (by rw [control_returned]) (by rw [control_returned]) (by simp [Shared.returned])

omit [DecidableEq Obj] in
private theorem not_pristine_destroyControl {c : Control} : ¬ (sh.destroyControl o c).2.Pristine := by
  unfold Shared.destroyControl
  split <;> exact id

theorem not_pristine_retired {next : Next} : ¬ (sh.retired o next).2.Pristine := by
  cases next <;> exact id

private theorem not_pristine_swapped {c : Control} {s : Swap} {prev : Option Nat} : ¬ (sh.swapped c o s prev).2.Pristine := by
  unfold Shared.swapped
  split
  · exact id
  · exact not_pristine_retired
  · exact id
  · exact id

/-- A step that leads to such a place comes from one, and changes nothing. -/
theorem Moves.pristine (hm : Moves sh r o f p) (hf : f.object = some o) (hp : p.2.Pristine) :
    f.Pristine ∧ differs (sh.objects o) (p.1.objects o) = false := by
  cases hm with
  | loads | sole | spins => exact ⟨trivial, differs_eq_false rfl rfl rfl⟩
  | loadFails | stale => exact ⟨trivial, differs_returned⟩
  | discards => exact ⟨trivial, differs_returned (v := none)⟩
  | locks hc => exact ⟨trivial, differs_eq_false (by simp [Shared.setControl, hc]) (by simp [Shared.setControl, hc])
      (by simp [Shared.setControl])⟩
  | @timesOut s =>
    cases s with
    | publish => exact ⟨trivial, differs_eq_false rfl rfl rfl⟩
    | _ => exact ⟨trivial, differs_returned⟩
  | unlocks => exact absurd hp not_pristine_swapped
  | records => exact absurd hp not_pristine_retired
  | dropsOwnedLast => exact absurd hp not_pristine_destroyControl
  | abandons | exchanges | stores | setsPath | frees | dropsOwned | deletes => exact hp.elim
  | _ => cases hf

end Abix.DLL

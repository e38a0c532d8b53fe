import Abix.DLL.Steps

/-! Who is at work on an Object: its member calls, its destructor, the thread that deletes
its Control, and the holder of its writer lock. The counts in the Object and the places of
the threads agree. -/
namespace Abix.DLL
open Abix.Concurrency Abix.RCU
variable {Tid Obj Ext : Type} [DecidableEq Obj]

inductive Seat where
  | member
  | destructor
  | deleter
  | writer
  deriving DecidableEq, Repr

def Object.seats (x : Object) : Seat → Nat
  | .member => x.calls
  | .destructor => if x.control ≠ none ∧ x.alive = false ∧ x.owned = true then 1 else 0
  | .deleter => if x.control ≠ none ∧ x.owned = false ∧ x.handles = 0 then 1 else 0
  | .writer => if x.control.any Control.writerLock then 1 else 0

def Swap.seat : Swap → Seat
  | .destroy => .destructor
  | _ => .member

def Next.seat : Next → Seat
  | .setPath _ | .unloaded => .member
  | .destroyed => .destructor
  | .deleted => .deleter

def Frame.seats : Frame Obj → List Seat
  | .idle _ => []
  | .loadImage _ _ | .setPath _ _ | .discard _ _ | .forceFree _ _ => [.member]
  | .useCount _ s | .lock _ s _ _ => [s.seat]
  | .exchange _ s | .storeState _ s _ | .unlock _ s _ => [.writer, s.seat]
  | .retire _ _ _ _ next => [next.seat]
  | .dropObject _ => [.destructor]
  | .deleteControl _ => [.deleter]

def Object.Occupied (x : Object) : Seat → Prop
  | .member => 0 < x.calls
  | .destructor => x.control ≠ none ∧ x.alive = false ∧ x.owned = true
  | .deleter => x.control ≠ none ∧ x.owned = false ∧ x.handles = 0
  | .writer => x.control.any Control.writerLock = true

theorem Object.occupied_of_pos {x : Object} {k : Seat} (h : 0 < x.seats k) : x.Occupied k := by
  cases k with
  | member => exact h
  | _ =>
    simp only [Object.seats] at h
    split at h
    · assumption
    · cases h

def Frame.sits (f : Frame Obj) (o : Obj) (k : Seat) : Nat := if f.object = some o ∧ k ∈ f.seats then 1 else 0

/-- An Object that is alive owns its reference, and calls run only while it is. -/
structure Object.Sound (x : Object) : Prop where
  owned : x.alive = true → x.owned = true
  calls : x.alive = false → x.calls = 0

/-- `unload_impl` publishes nothing, and only the bounded operations give up on the lock. -/
def Frame.Fits : Frame Obj → Prop
  | .useCount _ s => s.image = none
  | .lock _ s limited _ => limited = true → s.bounded = true
  | _ => True

variable {sh : Shared Tid Obj Ext} {r : Result} {o u : Obj} {f : Frame Obj} {p : Shared Tid Obj Ext × Frame Obj}

omit [DecidableEq Obj] in
private theorem fits_lockWriter (c : Control) (s : Swap) : (Shared.lockWriter c o s).Fits := by
  intro h
  exact (Bool.and_eq_true_iff.mp h).1

omit [DecidableEq Obj] in
private theorem Shared.destroyControl_fits (c : Control) : (sh.destroyControl o c).2.Fits := by
  unfold Shared.destroyControl
  split <;> trivial

theorem Shared.retired_fits (next : Next) : (sh.retired o next).2.Fits := by
  cases next <;> trivial

private theorem Shared.swapped_fits (c : Control) (s : Swap) (prev : Option Nat) : (sh.swapped c o s prev).2.Fits := by
  unfold Shared.swapped
  split
  · trivial
  · exact Shared.retired_fits _
  · trivial
  · trivial

theorem Moves.fits (hm : Moves sh r o f p) (hf : f.Fits) : p.2.Fits := by
  cases hm with
  | enters _ _ hentry =>
    rcases hentry with ⟨path, rfl⟩ | rfl | rfl
    · trivial
    · rfl
    · intro h
      cases h
  | destroys => rfl
  | dropsLast | dropsOwnedLast => exact Shared.destroyControl_fits _
  | loads | sole => exact fits_lockWriter _ _
  | spins => exact hf
  | @timesOut s => cases s <;> trivial
  | unlocks => exact Shared.swapped_fits _ _ _
  | records => exact Shared.retired_fits _
  | _ => trivial

/-- The compound results keep the other Objects, and lead to a place at the same Object. -/
def At (sh : Shared Tid Obj Ext) (o : Obj) (p : Shared Tid Obj Ext × Frame Obj) : Prop :=
  (∀ u, u ≠ o → p.1.objects u = sh.objects u) ∧ ∀ u, p.2.object = some u → u = o

theorem at_setObject {x : Object} {f : Frame Obj} (hf : ∀ u, f.object = some u → u = o) :
    At sh o (sh.setObject o x, f) :=
  ⟨fun _ hu => Shared.setObject_ne sh x hu, hf⟩

theorem At.after_setObject {x : Object} (h : At (sh.setObject o x) o p) : At sh o p :=
  ⟨fun u hu => (h.1 u hu).trans (Shared.setObject_ne sh x hu), h.2⟩

theorem at_returned (v : Option Returned) : At sh o (sh.returned o v) := at_setObject (by simp [Frame.object])

omit [DecidableEq Obj] in
private theorem at_destroyControl (c : Control) : At sh o (sh.destroyControl o c) := by
  unfold Shared.destroyControl
  split <;> exact ⟨fun _ _ => rfl, by simp [Frame.object, Shared.retire]⟩

theorem at_retired (next : Next) : At sh o (sh.retired o next) := by
  cases next with
  | unloaded => exact at_returned _
  | _ => exact ⟨fun _ _ => rfl, by simp [Frame.object, Shared.retired]⟩

private theorem at_swapped (c : Control) (s : Swap) (prev : Option Nat) : At sh o (sh.swapped c o s prev) := by
  unfold Shared.swapped
  split
  · exact ⟨fun _ _ => rfl, by simp [Frame.object, Shared.retire]⟩
  · exact at_retired _
  · exact ⟨fun _ _ => rfl, by simp [Frame.object]⟩
  · exact at_returned _

theorem Moves.at (hm : Moves sh r o f p) : At sh o p := by
  cases hm with
  | enters _ _ hentry =>
    apply at_setObject
    rcases hentry with ⟨path, rfl⟩ | rfl | rfl <;> simp [Frame.object]
  | dropsLast | dropsOwnedLast => exact (at_destroyControl _).after_setObject
  | loadFails | stale => exact at_returned _
  | @timesOut s =>
    cases s with
    | publish => exact ⟨fun _ _ => rfl, by simp [Frame.object, Shared.timedOut]⟩
    | _ => exact at_returned _
  | unlocks => exact (at_swapped _ _ _).after_setObject
  | setsPath => exact (at_returned _).after_setObject
  | discards | frees => exact ⟨fun _ hu => Shared.setObject_ne sh _ hu, by simp [Frame.object, Shared.returned]⟩
  | exchanges => exact ⟨fun _ hu => Shared.setObject_ne sh _ hu, by simp [Frame.object]⟩
  | records => exact ⟨fun u hu => ((at_retired _).1 u hu).trans (Shared.setObject_ne sh _ hu), (at_retired _).2⟩
  | refused | loads | abandons | sole | spins => exact ⟨fun _ _ => rfl, by simp [Frame.object, Shared.lockWriter]⟩
  | _ => exact at_setObject (by simp [Frame.object])

theorem Moves.object (hm : Moves sh r o f p) : ∀ u, f.object = some u → u = o := by
  cases hm <;> simp [Frame.object]

/-- The seats at `o` before a step, and the thread that moves among them. -/
def Moved (o : Obj) (x : Object) (f : Frame Obj) (y : Object) (g : Frame Obj) : Prop :=
  y.Sound ∧ ∀ k, y.seats k + f.sits o k = x.seats k + g.sits o k

/-- The seats taken and left by a thread at `o`, against the counts in the Object. -/
def Balance (o : Obj) (x : Object) (f : Frame Obj) (y : Object) (g : Frame Obj) : Prop :=
  ∀ k, y.seats k + f.sits o k = x.seats k + g.sits o k

theorem sits_of_seats {seats : List Seat} (h : f.object = some o) (hs : f.seats = seats) (k : Seat) :
    f.sits o k = if k ∈ seats then 1 else 0 := by
  simp [Frame.sits, h, hs]

@[simp] theorem sits_idle (v : Option Returned) (k : Seat) : (Frame.idle v).sits o k = 0 := by
  simp [Frame.sits, Frame.object]

theorem Balance.trans {x y z : Object} {g h : Frame Obj} (h₁ : Balance o x f y g) (h₂ : Balance o y g z h) :
    Balance o x f z h := by
  intro k
  have := h₁ k
  have := h₂ k
  omega

/-- A step inside a call: the same seats, and nothing that is counted changes. -/
theorem balance_stays {x y : Object} {g : Frame Obj} (hf : f.object = some o) (hg : g.object = some o)
    (hs : g.seats = f.seats) (hx : ∀ k, y.seats k = x.seats k) : Balance o x f y g := by
  intro k
  rw [hx, sits_of_seats hf rfl, sits_of_seats hg hs]

theorem balance_outside {x y : Object} {v w : Option Returned} (hx : ∀ k, y.seats k = x.seats k) :
    Balance o x (.idle v) y (.idle w) := by
  intro k
  rw [hx, sits_idle, sits_idle]

theorem seats_setControl {c d : Control} (hc : (sh.objects o).control = some c) (hd : d.writerLock = c.writerLock)
    (k : Seat) : ((sh.setControl o d).objects o).seats k = (sh.objects o).seats k := by
  cases k <;> simp [Shared.setControl, Object.seats, hc, hd]

theorem seats_setLock {c : Control} (hc : (sh.objects o).control = some c) (b : Bool) (k : Seat) :
    ((sh.setControl o { c with writerLock := b }).objects o).seats k =
      if k = .writer then b.toNat else (sh.objects o).seats k := by
  cases k <;> cases b <;> simp [Shared.setControl, Object.seats, hc]

theorem balance_returned (v : Option Returned) (hf : f.object = some o) (hs : f.seats = [.member])
    (hpos : 0 < (sh.objects o).calls) :
    Balance o (sh.objects o) f ((sh.returned o v).1.objects o) (sh.returned o v).2 := by
  intro k
  rw [sits_of_seats hf hs]
  cases k with
  | member =>
    simp only [Shared.returned, Shared.setObject_self, Object.seats, sits_idle, List.mem_singleton, if_true]
    omega
  | _ => simp [Shared.returned, Object.seats, sits_idle]

theorem balance_retired (next : Next) (hf : f.object = some o) (hs : f.seats = [next.seat])
    (hpos : next.seat = .member → 0 < (sh.objects o).calls) :
    Balance o (sh.objects o) f ((sh.retired o next).1.objects o) (sh.retired o next).2 := by
  cases next with
  | unloaded => exact balance_returned _ hf hs (hpos rfl)
  | _ => exact balance_stays hf rfl hs.symm fun _ => rfl

omit [DecidableEq Obj] in
theorem Swap.seat_ne_writer (s : Swap) : s.seat ≠ .writer := by
  cases s <;> exact nofun

omit [DecidableEq Obj] in
theorem Swap.seat_of_next {s : Swap} {next : Next} (h : s.next = some next) : next.seat = s.seat := by
  cases s <;> cases h <;> rfl

omit [DecidableEq Obj] in
theorem Swap.seat_of_no_next {s : Swap} (h : s.next = none) : s.seat = .member := by
  cases s <;> first | rfl | cases h

private theorem balance_swapped (c : Control) (s : Swap) (prev : Option Nat) (hf : f.object = some o) (hs : f.seats = [s.seat])
    (hpos : s.seat = .member → 0 < (sh.objects o).calls) :
    Balance o (sh.objects o) f ((sh.swapped c o s prev).1.objects o) (sh.swapped c o s prev).2 := by
  unfold Shared.swapped
  split
  · rename_i hn
    exact balance_stays hf rfl (hs ▸ congrArg ([·]) (Swap.seat_of_next hn)) fun _ => rfl
  · rename_i hn
    exact balance_retired _ hf (hs.trans (by rw [Swap.seat_of_next hn])) fun h => hpos (Swap.seat_of_next hn ▸ h)
  · rename_i hn
    exact balance_stays hf rfl (hs ▸ congrArg ([·]) (Swap.seat_of_no_next hn).symm) fun _ => rfl
  · rename_i hn
    exact balance_returned _ hf (hs.trans (by rw [Swap.seat_of_no_next hn])) (hpos (Swap.seat_of_no_next hn))

/-- The last reference is given up: the thread is the one that deletes the Control. -/
theorem balance_destroyControl {x : Object} {c : Control} (h : ∀ k, (sh.objects o).seats k + f.sits o k =
    x.seats k + if k = .deleter then 1 else 0) :
    Balance o x f ((sh.destroyControl o c).1.objects o) (sh.destroyControl o c).2 := by
  have hseat (g : Frame Obj) (hg : g.object = some o) (hs : g.seats = [.deleter]) :
      Balance o x f (sh.objects o) g := by
    intro k
    rw [h, sits_of_seats hg hs]
    simp
  unfold Shared.destroyControl
  split
  · exact hseat _ rfl rfl
  · exact hseat _ rfl rfl

/-- What a step does to the seats, given that the thread sits where its place says. -/
theorem Moves.seats (hm : Moves sh r o f p) (hf : f.Fits) (hin : ∀ k ∈ f.seats, (sh.objects o).Occupied k)
    (hx : (sh.objects o).Sound)
    (hw : (sh.objects o).Occupied .writer → (sh.objects o).Occupied .member ∨ (sh.objects o).Occupied .destructor) :
    Balance o (sh.objects o) f (p.1.objects o) p.2 := by
  have hcalls (hs : .member ∈ f.seats) : 0 < (sh.objects o).calls := hin Seat.member hs
  cases hm with
  | refused => exact balance_outside fun _ => rfl
  | @enters _ _ g ha hc hentry =>
    have hg : g.object = some o ∧ g.seats = [.member] := by
      rcases hentry with ⟨path, rfl⟩ | rfl | rfl <;> exact ⟨rfl, rfl⟩
    intro k
    rw [sits_of_seats hg.1 hg.2]
    cases k <;> simp [Object.seats]
  | destroys ha hz hc =>
    intro k
    rw [sits_of_seats rfl (show (Frame.useCount o .destroy).seats = [.destructor] from rfl)]
    cases k <;> simp [Object.seats, ha, hc, hx.owned ha]
  | destroysNull _ _ hc => exact balance_outside fun k => by cases k <;> simp [Object.seats, hc]
  | configures _ _ hc => exact balance_outside (seats_setControl hc rfl)
  | shares ha => exact balance_outside fun k => by cases k <;> simp [Object.seats, hx.owned ha]
  | drops hk hc hlast =>
    refine balance_outside fun k => ?_
    cases k with
    | deleter =>
      have hne : ¬ ((sh.objects o).owned = false ∧ (sh.objects o).handles = 0) := by omega
      simp only [Object.seats, Shared.setObject_self]
      rw [if_neg fun h => hlast ⟨h.2.2, h.2.1⟩, if_neg fun h => hne h.2]
    | _ => simp [Object.seats]
  | dropsLast hk hc ho =>
    refine balance_destroyControl fun k => ?_
    cases k <;> simp [Object.seats, hk, hc, ho]
  | loads | sole | spins | abandons => exact balance_stays rfl rfl rfl fun _ => rfl
  | loadFails | discards | frees => exact balance_returned _ rfl rfl (hcalls List.mem_cons_self)
  | @setsPath path =>
    have hx : ∀ k, (((sh.setObject o { sh.objects o with path }).objects o).seats k) = (sh.objects o).seats k :=
      fun k => by cases k <;> simp [Object.seats]
    exact (balance_stays rfl rfl rfl hx).trans
      (balance_returned (f := .setPath o path) _ rfl rfl (by simpa using hcalls List.mem_cons_self))
  | @stale s hs =>
    have hmember : s.seat = .member := by cases s <;> first | rfl | exact absurd rfl hs
    exact balance_returned _ rfl (congrArg ([·]) hmember) (hcalls (by simp [Frame.seats, hmember]))
  | @locks c s lim polls hc hfree =>
    intro k
    rw [seats_setLock hc, sits_of_seats rfl (show (Frame.lock o s lim polls).seats = [s.seat] from rfl),
      sits_of_seats rfl (show (Frame.exchange o s).seats = [.writer, s.seat] from rfl)]
    by_cases hk : k = .writer
    · subst hk
      simp [Object.seats, hc, hfree, s.seat_ne_writer.symm]
    · simp [hk]
  | @timesOut s =>
    have hbounded := hf rfl
    cases s with
    | publish => exact balance_stays rfl rfl rfl fun _ => rfl
    | unload => exact balance_returned _ rfl rfl (hcalls List.mem_cons_self)
    | _ => cases hbounded
  | exchanges hc | stores hc => exact balance_stays rfl rfl rfl (seats_setControl hc rfl)
  | @unlocks c s prev hc =>
    have hlocked : c.writerLock = true := by
      simpa [Object.Occupied, hc] using hin .writer List.mem_cons_self
    have hrelease : Balance o (sh.objects o) (.unlock o s prev) ((sh.setControl o { c with writerLock := false }).objects o)
        (.lock o s false 0) := by
      intro k
      rw [seats_setLock hc, sits_of_seats rfl (show (Frame.lock o s false 0).seats = [s.seat] from rfl),
        sits_of_seats rfl (show (Frame.unlock o s prev).seats = [.writer, s.seat] from rfl)]
      by_cases hk : k = .writer
      · subst hk
        simp [Object.seats, hc, hlocked, s.seat_ne_writer.symm]
      · simp [hk]
    refine hrelease.trans (balance_swapped c s prev rfl rfl fun hs => ?_)
    simpa [Shared.setControl] using hcalls (by simp [Frame.seats, hs])
  | @records c i bounded proven next hc =>
    have hstays := balance_stays (o := o) (f := .retire o i bounded (.outcome proven) next) rfl rfl rfl
      (seats_setControl (d := { c with lastReclaim := reclaimOutcome bounded proven (decide (r = Result.answer true)) })
        hc rfl)
    refine hstays.trans (balance_retired next rfl rfl fun hs => ?_)
    simpa [Shared.setControl] using hcalls (by simp [Frame.seats, hs])
  | dropsOwned hk =>
    obtain ⟨hc, ha, ho⟩ : (sh.objects o).Occupied .destructor := hin _ List.mem_cons_self
    intro k
    rw [sits_of_seats rfl (show (Frame.dropObject o).seats = [.destructor] from rfl)]
    cases k <;> simp [Object.seats, hc, ha, ho, hk]
  | dropsOwnedLast hc hk =>
    obtain ⟨-, ha, ho⟩ : (sh.objects o).Occupied .destructor := hin _ List.mem_cons_self
    refine balance_destroyControl fun k => ?_
    rw [sits_of_seats rfl (show (Frame.dropObject o).seats = [.destructor] from rfl)]
    cases k <;> simp [Object.seats, hc, ha, ho, hk]
  | deletes =>
    obtain ⟨hc, ho, hk⟩ : (sh.objects o).Occupied .deleter := hin _ List.mem_cons_self
    have hidle : ¬ (sh.objects o).Occupied .writer := by
      intro h
      rcases hw h with hpos | hd
      · cases ha : (sh.objects o).alive with
        | true => exact absurd (hx.owned ha) (by simp [ho])
        | false => exact absurd (hx.calls ha) (Nat.ne_of_gt hpos)
      · exact absurd hd.2.2 (by simp [ho])
    intro k
    rw [sits_of_seats rfl (show (Frame.deleteControl o).seats = [.deleter] from rfl)]
    cases k with
    | writer => simpa [Object.seats, Object.Occupied] using hidle
    | _ => simp [Object.seats, hc, ho, hk]

theorem sound_returned {v : Option Returned} (hx : (sh.objects o).Sound) : ((sh.returned o v).1.objects o).Sound := by
  refine ⟨by simpa [Shared.returned] using hx.owned, ?_⟩
  simp only [Shared.returned, Shared.setObject_self]
  intro ha
  rw [hx.calls ha]

theorem sound_retired {next : Next} (hx : (sh.objects o).Sound) : ((sh.retired o next).1.objects o).Sound := by
  cases next with
  | unloaded => exact sound_returned hx
  | _ => exact hx

theorem sound_setControl {c : Control} (hx : (sh.objects o).Sound) : ((sh.setControl o c).objects o).Sound := by
  exact ⟨by simpa [Shared.setControl] using hx.owned, by simpa [Shared.setControl] using hx.calls⟩

omit [DecidableEq Obj] in
theorem sound_destroyControl {c : Control} (hx : (sh.objects o).Sound) :
    ((sh.destroyControl o c).1.objects o).Sound := by
  unfold Shared.destroyControl
  split <;> exact hx

theorem Moves.sound (hm : Moves sh r o f p) (hin : ∀ k ∈ f.seats, (sh.objects o).Occupied k)
    (hx : (sh.objects o).Sound) : (p.1.objects o).Sound := by
  cases hm with
  | enters ha => exact ⟨by simpa using hx.owned, by simp [ha]⟩
  | destroys ha hz | destroysNull ha hz => exact ⟨by simp, by simp [hz]⟩
  | configures | locks | stores => exact sound_setControl hx
  | exchanges => exact sound_setControl hx
  | shares | drops => exact ⟨by simpa using hx.owned, by simpa using hx.calls⟩
  | dropsLast =>
    refine sound_destroyControl ⟨?_, ?_⟩
    · simpa using hx.owned
    · simpa using hx.calls
  | loadFails | stale => exact sound_returned hx
  | discards | frees => exact sound_returned (v := none) hx
  | setsPath =>
    refine sound_returned ⟨?_, ?_⟩
    · simpa using hx.owned
    · simpa using hx.calls
  | @timesOut s =>
    cases s with
    | publish => exact hx
    | _ => exact sound_returned hx
  | unlocks =>
    have hy := sound_setControl (c := { ‹Control› with writerLock := false }) hx
    unfold Shared.swapped
    split
    · exact hy
    · exact sound_retired hy
    · exact hy
    · exact sound_returned hy
  | records => exact sound_retired (sound_setControl hx)
  | dropsOwned =>
    obtain ⟨-, ha, -⟩ : (sh.objects o).Occupied .destructor := hin _ List.mem_cons_self
    exact ⟨by simp [ha], by simpa using hx.calls⟩
  | dropsOwnedLast =>
    obtain ⟨-, ha, -⟩ : (sh.objects o).Occupied .destructor := hin _ List.mem_cons_self
    refine sound_destroyControl ⟨?_, ?_⟩
    · simp [ha]
    · simpa using hx.calls
  | deletes => exact ⟨by simpa using hx.owned, by simpa using hx.calls⟩
  | _ => exact hx

theorem Moves.moved (hm : Moves sh r o f p) (hf : f.Fits) (hin : ∀ k ∈ f.seats, (sh.objects o).Occupied k)
    (hx : (sh.objects o).Sound)
    (hw : (sh.objects o).Occupied .writer → (sh.objects o).Occupied .member ∨ (sh.objects o).Occupied .destructor) :
    Moved o (sh.objects o) f (p.1.objects o) p.2 :=
  ⟨hm.sound hin hx, hm.seats hf hin hx hw⟩

/-- A thread that sits anywhere moves at the Object it sits at. -/
theorem Moves.object_of_seat {k : Seat} (hm : Moves sh r o f p) (hk : k ∈ f.seats) : f.object = some o := by
  cases hf : f.object with
  | none => cases f <;> simp [Frame.object, Frame.seats] at hf hk
  | some u => rw [hm.object u hf]

variable [DecidableEq Tid] [Fintype Tid] {c : Config Tid (Shared Tid Obj Ext) (Local Tid Obj Ext)} {t : Tid}

structure Seated (c : Config Tid (Shared Tid Obj Ext) (Local Tid Obj Ext)) : Prop where
  sound : ∀ o, (c.shared.objects o).Sound
  fits : ∀ t, (c.locals t).frame.Fits
  seats : ∀ o k, (c.shared.objects o).seats k = total (fun l : Local Tid Obj Ext => l.frame.sits o k) c.locals

omit [DecidableEq Tid] in
theorem Seated.occupied (h : Seated c) (ho : (c.locals t).frame.object = some o) :
    ∀ k ∈ (c.locals t).frame.seats, (c.shared.objects o).Occupied k := by
  intro k hk
  apply Object.occupied_of_pos
  have hle := held_le_total (fun l : Local Tid Obj Ext => l.frame.sits o k) c.locals t
  rw [← h.seats o k, sits_of_seats ho rfl, if_pos hk] at hle
  exact hle

omit [DecidableEq Tid] in
/-- Whoever holds the writer lock is in a member call or in the destructor. -/
theorem Seated.writer (h : Seated c) (o : Obj) (hw : (c.shared.objects o).Occupied .writer) :
    (c.shared.objects o).Occupied .member ∨ (c.shared.objects o).Occupied .destructor := by
  have hle : total (fun l : Local Tid Obj Ext => l.frame.sits o .writer) c.locals ≤
      total (fun l : Local Tid Obj Ext => l.frame.sits o .member) c.locals +
        total (fun l : Local Tid Obj Ext => l.frame.sits o .destructor) c.locals := by
    refine total_le_add (fun l => ?_) c.locals
    cases hf : l.frame with
    | exchange u s | storeState u s | unlock u s => cases s <;> simp [Frame.sits, Frame.object, Frame.seats, Swap.seat]
    | useCount u s | lock u s => cases s <;> simp [Frame.sits, Frame.seats, Swap.seat]
    | retire u i b stage next => cases next <;> simp [Frame.sits, Frame.seats, Next.seat]
    | _ => simp [Frame.sits, Frame.seats]
  rw [← h.seats, ← h.seats, ← h.seats] at hle
  have hone : (c.shared.objects o).seats .writer = 1 := if_pos hw
  by_cases hm : 0 < (c.shared.objects o).seats .member
  · exact .inl (Object.occupied_of_pos hm)
  · exact .inr (Object.occupied_of_pos (by omega))

private theorem seated_next {a : Action Obj Ext} {l : Local Tid Obj Ext} (h : Seated c)
    (hs : step t c.shared (c.locals t) a = some (sh, l)) : Seated ⟨sh, Function.update c.locals t l⟩ := by
  have htotal (u : Obj) (k : Seat) := total_update (fun l : Local Tid Obj Ext => l.frame.sits u k) c.locals t l
  have hfits (hl : l.frame.Fits) (u : Tid) : (Function.update c.locals t l u).frame.Fits := by
    by_cases hu : u = t
    · subst hu
      simpa using hl
    · simpa [Function.update_of_ne hu] using h.fits u
  rcases step_cases hs with ⟨b, d, hb, -, rfl, -⟩ | ⟨r, o, -, -, -, hm, -⟩
  · obtain ⟨hsame, hf⟩ : (∀ u k, l.frame.sits u k = (c.locals t).frame.sits u k) ∧ l.frame.Fits := by
      rcases domainAccess_frame hb with he | ⟨_, _, _, _, _, _, hold, hnew⟩
      · rw [he]
        exact ⟨fun _ _ => rfl, h.fits t⟩
      · rw [hold, hnew]
        exact ⟨fun _ _ => rfl, trivial⟩
    refine ⟨h.sound, hfits hf, fun u k => (h.seats u k).trans ?_⟩
    have := htotal u k
    have := hsame u k
    simp only at *
    omega
  · have hocc := fun k hk => h.occupied (hm.object_of_seat hk) k hk
    obtain ⟨hsound, hseats⟩ := hm.moved (h.fits t) hocc (h.sound o) (h.writer o)
    refine ⟨fun u => ?_, hfits (hm.fits (h.fits t)), fun u k => ?_⟩
    · by_cases hu : u = o
      · subst hu
        exact hsound
      · exact hm.at.1 u hu ▸ h.sound u
    · by_cases hu : u = o
      · subst hu
        have := hseats k
        have := htotal u k
        have := h.seats u k
        simp only at *
        omega
      · have hold : (c.locals t).frame.sits u k = 0 := if_neg fun hx => hu (hm.object u hx.1)
        have hnew : l.frame.sits u k = 0 := if_neg fun hx => hu (hm.at.2 u hx.1)
        have hobj : sh.objects u = c.shared.objects u := hm.at.1 u hu
        have := htotal u k
        have := h.seats u k
        simp only [hobj]
        omega

theorem seated_of_reachable {ok : Config Tid (Shared Tid Obj Ext) (Local Tid Obj Ext) → Tid → Action Obj Ext → Prop}
    {made : Obj → Bool} (h : (system Tid Obj Ext).Reachable ok (start Tid Ext made) c) : Seated c := by
  have hfits (t : Tid) : ((start Tid Ext made).locals t).frame.Fits := trivial
  refine h.invariant (P := Seated) ⟨fun o => ⟨fun _ => rfl, fun ha => by cases ha⟩, hfits, fun o k => ?_⟩ ?_
  · have hzero : total (fun l : Local Tid Obj Ext => l.frame.sits o k) (start Tid Ext made).locals = 0 := by
      simp [total, start]
    rw [hzero]
    cases hmade : made o <;> cases k <;> simp [start, Object.seats, hmade]
  · rintro c t a c' hc - hn
    obtain ⟨sh, l, hs, rfl⟩ := Program.next_eq_some_iff.mp hn
    exact seated_next hc hs

end Abix.DLL

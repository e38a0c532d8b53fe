import Abix.Interface.LeaseSafety

/-! The OS reference behind the leases: taken once while any lease is out and dropped
with the last one, as long as nobody overtakes the pin of a first lease or the unpin of a
last one, and no refused acquire outstays the last lease. -/
namespace Abix.Interface.Lease
open Abix.Concurrency
variable {Tid : Type} [DecidableEq Tid] [Fintype Tid]

/-- A first acquire at work: it found the counter at zero and has not returned. -/
def First (pc : Pc) : Prop := pc = .acquireRecheck 0 ∨ pc = .acquirePin

instance (pc : Pc) : Decidable (First pc) := inferInstanceAs (Decidable (_ ∨ _))

/-- No lease is out, and no other thread is giving one back. -/
def NoneLeft (c : Config Tid Shared Pc) (t : Tid) : Prop := c.shared.held = 0 ∧ ∀ u, u ≠ t → c.locals u ≠ .releaseSub

instance (c : Config Tid Shared Pc) (t : Tid) : Decidable (NoneLeft c t) := instDecidableAnd

/-- The order of calls under which the hooks balance, as the thread `t` keeps it at each place. -/
def InOrder (c : Config Tid Shared Pc) (t : Tid) (a : Action) : Pc → Prop
  -- the counter does not wrap
  | .acquireAdd => c.shared.leases ≠ 4294967295
  -- no later acquire returns true before a first one that is at work
  | .acquireRecheck before => before ≠ 0 → c.shared.state = .active → ∀ u, ¬ First (c.locals u)
  -- a first acquire pins after the unpin of every release before it
  | .acquirePin => ∀ u, c.locals u ≠ .releaseUnpin
  -- on a module that is not active, the last lease is given back after the refused acquires are gone
  | .releaseSub => c.shared.state ≠ .active → NoneLeft c t → c.shared.leases = 1
  -- the module stays active for the acquires that came in under leases now gone
  | .unloadLoop _ observed => observed = .active → a = .run false → c.shared.state = .active →
      c.shared.leases ≠ 0 → NoneLeft c t → ∃ u, First (c.locals u)
  | .idle _ | .acquireCheck | .acquireUndo | .releaseUnpin | .unloadLoad _ | .idlePoll _ _ | .idleLast _
  | .markUnloaded => True

instance (c : Config Tid Shared Pc) (t : Tid) (a : Action) : (pc : Pc) → Decidable (InOrder c t a pc)
  | .acquireAdd => inferInstanceAs (Decidable (_ ≠ _))
  | .acquireRecheck _ => inferInstanceAs (Decidable (_ → _ → _))
  | .acquirePin => inferInstanceAs (Decidable (∀ _, _))
  | .releaseSub => inferInstanceAs (Decidable (_ → _ → _))
  | .unloadLoop _ _ => inferInstanceAs (Decidable (_ → _ → _ → _ → _ → _))
  | .idle _ | .acquireCheck | .acquireUndo | .releaseUnpin | .unloadLoad _ | .idlePoll _ _ | .idleLast _
  | .markUnloaded => .isTrue trivial

def Orderly (c : Config Tid Shared Pc) (t : Tid) (a : Action) : Prop := InOrder c t a (c.locals t)

instance (c : Config Tid Shared Pc) (t : Tid) (a : Action) : Decidable (Orderly c t a) :=
  inferInstanceAs (Decidable (InOrder c t a _))

def standing (q : Pc) (locals : Tid → Pc) : Nat := total (fun pc => if pc = q then 1 else 0) locals

theorem standing_update (q : Pc) (locals : Tid → Pc) (t : Tid) (pc : Pc) :
    standing q (Function.update locals t pc) + (if locals t = q then 1 else 0) =
      standing q locals + (if pc = q then 1 else 0) :=
  total_update _ locals t pc

omit [DecidableEq Tid] in
theorem standing_eq_zero_iff {q : Pc} {locals : Tid → Pc} : standing q locals = 0 ↔ ∀ t, locals t ≠ q := by
  rw [standing, total, Finset.sum_eq_zero_iff]
  simp

omit [DecidableEq Tid] in
/-- The threads at these places have all counted themselves in. -/
theorem standing_le_weight (locals : Tid → Pc) {b : UInt32} (hb : b ≠ 0) :
    standing (.acquireRecheck 0) locals + standing (.acquireRecheck b) locals + standing .acquirePin locals +
      standing .releaseSub locals ≤ total weight locals := by
  simp only [standing, total, ← Finset.sum_add_distrib]
  refine Finset.sum_le_sum fun t _ => ?_
  generalize locals t = pc
  cases pc with
  | acquireRecheck x =>
    simp only [weight, Pc.acquireRecheck.injEq, reduceCtorEq, if_false]
    by_cases h0 : x = 0
    · rw [if_pos h0, if_neg fun h1 => hb (h1.symm.trans h0)]
    · rw [if_neg h0]
      split <;> omega
  | _ => simp [weight]

/-- No OS reference is held but for the last releases that are about to drop one, and at most
one thread is about to take it. -/
structure Unpinned (c : Config Tid Shared Pc) : Prop where
  pins : c.shared.pins = c.shared.unpins + standing .releaseUnpin c.locals
  unpinning : standing .releaseUnpin c.locals ≤ 1
  held : c.shared.held = 0
  releasing : standing .releaseSub c.locals = 0
  first : standing (.acquireRecheck 0) c.locals + standing .acquirePin c.locals ≤ 1
  active : c.shared.state = .active → 0 < c.shared.leases.toNat →
    standing (.acquireRecheck 0) c.locals + standing .acquirePin c.locals = 1

/-- The OS reference is held. Once the module has left `active`, a lease or a release keeps the
counter above zero. -/
structure Pinned (c : Config Tid Shared Pc) : Prop where
  pins : c.shared.pins = c.shared.unpins + 1
  unpinning : standing .releaseUnpin c.locals = 0
  first : standing (.acquireRecheck 0) c.locals + standing .acquirePin c.locals = 0
  leases : 0 < c.shared.leases.toNat
  closed : c.shared.state ≠ .active → 0 < c.shared.held + standing .releaseSub c.locals

def Balanced (c : Config Tid Shared Pc) : Prop := Unpinned c ∨ Pinned c

section step
variable {c : Config Tid Shared Pc} {t : Tid} {sh : Shared} {pc q r : Pc}

private theorem standing_same (ht : c.locals t ≠ q) (hr : r ≠ q) :
    standing q (Function.update c.locals t r) = standing q c.locals := by
  simpa [ht, hr] using standing_update q c.locals t r

private theorem standing_moved {p : Pc} (ht : c.locals t = p) (q r : Pc) (h : p ≠ q ∧ r ≠ q) :
    standing q (Function.update c.locals t r) = standing q c.locals :=
  standing_same (ht ▸ h.1) h.2

private theorem standing_enter (ht : c.locals t ≠ q) :
    standing q (Function.update c.locals t q) = standing q c.locals + 1 := by
  simpa [ht] using standing_update q c.locals t q

private theorem standing_leave (ht : c.locals t = q) (hr : r ≠ q) :
    standing q (Function.update c.locals t r) + 1 = standing q c.locals := by
  simpa [ht, hr] using standing_update q c.locals t r

omit [DecidableEq Tid] in
private theorem Counted.standing_le (h : Counted c) {b : UInt32} (hb : b ≠ 0) :
    c.shared.held + standing (.acquireRecheck 0) c.locals + standing (.acquireRecheck b) c.locals +
      standing .acquirePin c.locals + standing .releaseSub c.locals ≤ c.shared.leases.toNat := by
  have := standing_le_weight c.locals hb
  unfold Counted at h
  omega

omit [DecidableEq Tid] in
/-- A refused acquire is counted beside the leases and the releases. -/
private theorem Counted.undoing_le (h : Counted c) (ht : c.locals t = .acquireUndo) :
    c.shared.held + standing .releaseSub c.locals + 1 ≤ c.shared.leases.toNat := by
  have hone : 1 ≤ standing .acquireUndo c.locals := by
    by_contra hz
    exact standing_eq_zero_iff.mp (Nat.eq_zero_of_not_pos hz) t ht
  have hle : standing .releaseSub c.locals + standing .acquireUndo c.locals ≤ total weight c.locals := by
    simp only [standing, total, ← Finset.sum_add_distrib]
    refine Finset.sum_le_sum fun u _ => ?_
    generalize c.locals u = pc
    cases pc <;> simp [weight]
  unfold Counted at h
  omega

omit [DecidableEq Tid] in
private theorem standing_pos (ht : c.locals t = q) : 0 < standing q c.locals :=
  Nat.pos_of_ne_zero fun hz => standing_eq_zero_iff.mp hz t ht

def Outside (pc : Pc) : Prop := weight pc = 0 ∧ pc ≠ .releaseUnpin

private theorem outside_ne (hq : 0 < weight q ∨ q = .releaseUnpin) (hpc : Outside pc) : pc ≠ q := by
  rintro rfl
  rcases hq with hq | hq
  · exact absurd hpc.1 (by omega)
  · exact hpc.2 hq

private theorem outside_unloadBegun (un r : Bool) : Outside (unloadBegun un r) := by
  cases un <;> exact ⟨rfl, by simp [unloadBegun]⟩

private theorem outside_idleAnswer (un r : Bool) : Outside (idleAnswer un r) := by
  cases un <;> cases r <;> exact ⟨rfl, by simp [idleAnswer]⟩

structure Kept (c : Config Tid Shared Pc) (locals : Tid → Pc) : Prop where
  recheck : standing (.acquireRecheck 0) locals = standing (.acquireRecheck 0) c.locals
  pinning : standing .acquirePin locals = standing .acquirePin c.locals
  releasing : standing .releaseSub locals = standing .releaseSub c.locals
  unpinning : standing .releaseUnpin locals = standing .releaseUnpin c.locals

private theorem kept_outside (ht : Outside (c.locals t)) (hpc : Outside pc) :
    Kept c (Function.update c.locals t pc) := by
  constructor <;> refine standing_same (outside_ne ?_ ht) (outside_ne ?_ hpc) <;> simp [weight]

/-- A step between two places outside the windows leaves the phase as it is, unless it takes the
module out of `active`. -/
private theorem balanced_outside (h : Balanced c) (hl : sh.leases = c.shared.leases)
    (hh : sh.held = c.shared.held) (hp : sh.pins = c.shared.pins) (hu : sh.unpins = c.shared.unpins)
    (hactive : sh.state = .active → c.shared.state = .active)
    (hclosed : Pinned c → c.shared.state = .active → sh.state ≠ .active →
      0 < c.shared.held + standing .releaseSub c.locals)
    (ht : Outside (c.locals t)) (hpc : Outside pc) : Balanced ⟨sh, Function.update c.locals t pc⟩ := by
  obtain ⟨hfirst, hpin, hrel, hunpin⟩ := kept_outside ht hpc
  rcases h with h | h
  · refine .inl ⟨?_, ?_, ?_, ?_, ?_, fun ha => ?_⟩ <;> simp only [hl, hh, hp, hu, hpin, hfirst, hrel, hunpin]
    exacts [h.pins, h.unpinning, h.held, h.releasing, h.first, h.active (hactive ha)]
  · refine .inr ⟨?_, ?_, ?_, ?_, fun hne => ?_⟩ <;> simp only [hl, hh, hp, hu, hpin, hfirst, hrel, hunpin]
    · exact h.pins
    · exact h.unpinning
    · exact h.first
    · exact h.leases
    · by_cases ha : c.shared.state = .active
      · exact hclosed h ha hne
      · exact h.closed ha

omit [DecidableEq Tid] in
private theorem none_first (h : ∀ u, ¬ First (c.locals u)) :
    standing (.acquireRecheck 0) c.locals + standing .acquirePin c.locals = 0 := by
  rw [standing_eq_zero_iff.mpr fun u hu => h u (.inl hu), standing_eq_zero_iff.mpr fun u hu => h u (.inr hu)]

/-- Only an acquire that finds the counter at zero becomes a first one. -/
private theorem balanced_increment (h : Balanced c) (hc : Counted c) (ht : c.locals t = .acquireAdd)
    (hfits : c.shared.leases ≠ 4294967295) :
    Balanced ⟨{ c.shared with leases := c.shared.leases + 1 },
      Function.update c.locals t (.acquireRecheck c.shared.leases)⟩ := by
  have hpin := standing_moved ht .acquirePin (.acquireRecheck c.shared.leases) (by simp)
  have hrel := standing_moved ht .releaseSub (.acquireRecheck c.shared.leases) (by simp)
  have hunpin := standing_moved ht .releaseUnpin (.acquireRecheck c.shared.leases) (by simp)
  have hle := hc.standing_le (b := 1) (by decide)
  by_cases hz : c.shared.leases = 0
  · have hzero : c.shared.leases.toNat = 0 := by rw [hz]; rfl
    have hfirst : standing (.acquireRecheck 0) (Function.update c.locals t (.acquireRecheck c.shared.leases)) =
        standing (.acquireRecheck 0) c.locals + 1 := by
      rw [hz]
      exact standing_enter (by simp [ht])
    rcases h with h | h
    · exact .inl ⟨by simpa only [hunpin] using h.pins, by simpa only [hunpin] using h.unpinning, h.held,
        hrel.trans h.releasing, by simp only; omega, fun _ _ => by simp only; omega⟩
    · have := h.leases
      omega
  · have hfirst := standing_moved ht (.acquireRecheck 0) (.acquireRecheck c.shared.leases) (by simpa using hz)
    have hpos : 0 < c.shared.leases.toNat := Nat.pos_of_ne_zero fun he => hz (UInt32.toNat_inj.mp he)
    rcases h with h | h
    · exact .inl ⟨by simpa only [hunpin] using h.pins, by simpa only [hunpin] using h.unpinning, h.held,
        hrel.trans h.releasing, by simpa only [hfirst, hpin] using h.first,
        fun ha _ => by simpa only [hfirst, hpin] using h.active ha hpos⟩
    · refine .inr ⟨h.pins, hunpin.trans h.unpinning, by simpa only [hfirst, hpin] using h.first, ?_,
        fun ha => by simpa only [hrel] using h.closed ha⟩
      simp only [toNat_add_one hfits]
      omega

/-- An acquire that is refused takes itself off the list of first ones. -/
private theorem balanced_refused (h : Balanced c) (hclosed : c.shared.state ≠ .active) {b : UInt32}
    (ht : c.locals t = .acquireRecheck b) : Balanced ⟨c.shared, Function.update c.locals t .acquireUndo⟩ := by
  have hpin := standing_moved ht .acquirePin .acquireUndo (by simp)
  have hrel := standing_moved ht .releaseSub .acquireUndo (by simp)
  have hunpin := standing_moved ht .releaseUnpin .acquireUndo (by simp)
  have hfirst : standing (.acquireRecheck 0) (Function.update c.locals t .acquireUndo) ≤
      standing (.acquireRecheck 0) c.locals := by
    have := standing_update (.acquireRecheck 0) c.locals t .acquireUndo
    simp only [reduceCtorEq, if_false] at this
    omega
  rcases h with h | h
  · have hone := h.first
    exact .inl ⟨by simpa only [hunpin] using h.pins, by simpa only [hunpin] using h.unpinning, h.held,
      hrel.trans h.releasing, by simp only; omega, fun ha => absurd ha hclosed⟩
  · have hzero := h.first
    exact .inr ⟨h.pins, hunpin.trans h.unpinning, by simp only; omega, h.leases,
      fun hne => by simpa only [hrel] using h.closed hne⟩

/-- While the reference is held a refused acquire is not the last to leave. -/
private theorem balanced_undo (h : Balanced c) (hc : Counted c) (hclosed : c.shared.state ≠ .active)
    (ht : c.locals t = .acquireUndo) :
    Balanced ⟨{ c.shared with leases := c.shared.leases - 1 }, Function.update c.locals t (.idle (some false))⟩ := by
  have hfirst := standing_moved ht (.acquireRecheck 0) (.idle (some false)) (by simp)
  have hpin := standing_moved ht .acquirePin (.idle (some false)) (by simp)
  have hrel := standing_moved ht .releaseSub (.idle (some false)) (by simp)
  have hunpin := standing_moved ht .releaseUnpin (.idle (some false)) (by simp)
  rcases h with h | h
  · exact .inl ⟨by simpa only [hunpin] using h.pins, by simpa only [hunpin] using h.unpinning, h.held,
      hrel.trans h.releasing, by simpa only [hfirst, hpin] using h.first, fun ha => absurd ha hclosed⟩
  · have hheld := h.closed hclosed
    have hle := hc.undoing_le ht
    refine .inr ⟨h.pins, hunpin.trans h.unpinning, by simpa only [hfirst, hpin] using h.first, ?_,
      fun hne => by simpa only [hrel] using h.closed hne⟩
    simp only [toNat_sub_one h.leases]
    omega

private theorem balanced_first (h : Balanced c) (ht : c.locals t = .acquireRecheck 0) :
    Balanced ⟨c.shared, Function.update c.locals t .acquirePin⟩ := by
  have hpos := standing_pos ht
  rcases h with h | h
  · have hfirst := standing_leave (r := .acquirePin) ht (by simp)
    have hpin := standing_enter (q := .acquirePin) (c := c) (t := t) (by simp [ht])
    have hrel := standing_moved ht .releaseSub .acquirePin (by simp)
    have hunpin := standing_moved ht .releaseUnpin .acquirePin (by simp)
    have hone := h.first
    exact .inl ⟨by simpa only [hunpin] using h.pins, by simpa only [hunpin] using h.unpinning, h.held,
      hrel.trans h.releasing, by simp only; omega, fun _ _ => by simp only; omega⟩
  · have := h.first
    omega

/-- A later acquire returns true while the reference is held. -/
private theorem balanced_granted (h : Balanced c) (hc : Counted c) (ha : c.shared.state = .active) {b : UInt32}
    (hb : b ≠ 0) (ht : c.locals t = .acquireRecheck b) (hnone : ∀ u, ¬ First (c.locals u)) :
    Balanced ⟨{ c.shared with held := c.shared.held + 1 }, Function.update c.locals t (.idle (some true))⟩ := by
  have hpos := standing_pos ht
  have hle := hc.standing_le hb
  have hzero := none_first hnone
  rcases h with h | h
  · have := h.active ha (by omega)
    omega
  · have hfirst := standing_moved ht (.acquireRecheck 0) (.idle (some true)) (by simpa using hb)
    have hpin := standing_moved ht .acquirePin (.idle (some true)) (by simp)
    have hunpin := standing_moved ht .releaseUnpin (.idle (some true)) (by simp)
    exact .inr ⟨h.pins, hunpin.trans h.unpinning, by simpa only [hfirst, hpin] using h.first, h.leases,
      fun hne => absurd ha hne⟩

private theorem balanced_pinned (h : Balanced c) (hc : Counted c) (ht : c.locals t = .acquirePin)
    (hnone : ∀ u, c.locals u ≠ .releaseUnpin) :
    Balanced ⟨{ c.shared with pins := c.shared.pins + 1, held := c.shared.held + 1 },
      Function.update c.locals t (.idle (some true))⟩ := by
  have hpos := standing_pos ht
  have hle := hc.standing_le (b := 1) (by decide)
  rcases h with h | h
  · have hfirst := standing_moved ht (.acquireRecheck 0) (.idle (some true)) (by simp)
    have hpin := standing_leave (r := .idle (some true)) ht (by simp)
    have hunpin := standing_moved ht .releaseUnpin (.idle (some true)) (by simp)
    have hzero := standing_eq_zero_iff.mpr hnone
    have hone := h.first
    have hp := h.pins
    exact .inr ⟨by simp only; omega, hunpin.trans hzero, by simp only; omega, by simp only; omega,
      fun _ => by simp only; omega⟩
  · have := h.first
    omega

private theorem balanced_release (h : Balanced c) (hh : 0 < c.shared.held) {r : Option Bool}
    (ht : c.locals t = .idle r) :
    Balanced ⟨{ c.shared with held := c.shared.held - 1 }, Function.update c.locals t .releaseSub⟩ := by
  rcases h with h | h
  · have := h.held
    omega
  · have hfirst := standing_moved ht (.acquireRecheck 0) .releaseSub (by simp)
    have hpin := standing_moved ht .acquirePin .releaseSub (by simp)
    have hrel := standing_enter (q := .releaseSub) (c := c) (t := t) (by simp [ht])
    have hunpin := standing_moved ht .releaseUnpin .releaseSub (by simp)
    exact .inr ⟨h.pins, hunpin.trans h.unpinning, by simpa only [hfirst, hpin] using h.first, h.leases,
      fun _ => by simp only; omega⟩

omit [DecidableEq Tid] in
/-- A release only happens while the reference is held. -/
private theorem Balanced.pinned_of_releasing (h : Balanced c) (ht : c.locals t = .releaseSub) : Pinned c := by
  have hpos := standing_pos ht
  rcases h with h | h
  · have := h.releasing
    omega
  · exact h

private theorem balanced_last (h : Balanced c) (hc : Counted c) (hl : c.shared.leases = 1)
    (ht : c.locals t = .releaseSub) :
    Balanced ⟨{ c.shared with leases := c.shared.leases - 1 }, Function.update c.locals t .releaseUnpin⟩ := by
  have hp := h.pinned_of_releasing ht
  have hpos := standing_pos ht
  have hle := hc.standing_le (b := 1) (by decide)
  have hfirst := standing_moved ht (.acquireRecheck 0) .releaseUnpin (by simp)
  have hpin := standing_moved ht .acquirePin .releaseUnpin (by simp)
  have hrel := standing_leave (r := .releaseUnpin) ht (by simp)
  have hunpin := standing_enter (q := .releaseUnpin) (c := c) (t := t) (by simp [ht])
  have hone : c.shared.leases.toNat = 1 := by rw [hl]; rfl
  have hup := hp.unpinning
  have hpins := hp.pins
  have hzero := hp.first
  refine .inl ⟨by simp only; omega, by simp only; omega, by simp only; omega, by simp only; omega,
    by simp only; omega, fun _ hleases => ?_⟩
  simp only [hl] at hleases
  exact absurd hleases (by decide)

/-- A release that leaves others on the counter leaves the reference to one of them. -/
private theorem balanced_notLast (h : Balanced c) (hl : c.shared.leases ≠ 1) (ht : c.locals t = .releaseSub)
    (hrest : c.shared.state ≠ .active → NoneLeft c t → c.shared.leases = 1) :
    Balanced ⟨{ c.shared with leases := c.shared.leases - 1 }, Function.update c.locals t (.idle none)⟩ := by
  have hp := h.pinned_of_releasing ht
  have hfirst := standing_moved ht (.acquireRecheck 0) (.idle none) (by simp)
  have hpin := standing_moved ht .acquirePin (.idle none) (by simp)
  have hunpin := standing_moved ht .releaseUnpin (.idle none) (by simp)
  have hne : c.shared.leases.toNat ≠ 1 := fun he => hl (UInt32.toNat_inj.mp he)
  have hpos := hp.leases
  refine .inr ⟨hp.pins, hunpin.trans hp.unpinning, by simpa only [hfirst, hpin] using hp.first, ?_, fun hclosed => ?_⟩
  · simp only [toNat_sub_one hpos]
    omega
  · by_contra hnone
    simp only at hnone
    have hothers : standing .releaseSub (Function.update c.locals t (.idle none)) = 0 := by omega
    refine hl (hrest hclosed ⟨by omega, fun u hu hpc => ?_⟩)
    exact standing_eq_zero_iff.mp hothers u (by rw [Function.update_of_ne hu, hpc])

private theorem balanced_unpinned (h : Balanced c) (ht : c.locals t = .releaseUnpin) :
    Balanced ⟨{ c.shared with unpins := c.shared.unpins + 1 }, Function.update c.locals t (.idle none)⟩ := by
  have hpos := standing_pos ht
  rcases h with h | h
  · have hfirst := standing_moved ht (.acquireRecheck 0) (.idle none) (by simp)
    have hpin := standing_moved ht .acquirePin (.idle none) (by simp)
    have hrel := standing_moved ht .releaseSub (.idle none) (by simp)
    have hunpin := standing_leave (r := .idle none) ht (by simp)
    have hone := h.unpinning
    have hpins := h.pins
    exact .inl ⟨by simp only; omega, by simp only; omega, h.held, hrel.trans h.releasing,
      by simpa only [hfirst, hpin] using h.first, fun ha hl => by simpa only [hfirst, hpin] using h.active ha hl⟩
  · have := h.unpinning
    omega

omit [DecidableEq Tid] [Fintype Tid] in
/-- The module leaves `active` by a compare-and-swap that a `begin_unload` makes. -/
private theorem closes_of_step {un : Bool} {o : ModuleState} {a : Action} {p : Shared × Pc}
    (hs : step sh (.unloadLoop un o) a = some p) (ha : p.1.state ≠ sh.state) : o = .active ∧ a = .run false := by
  cases a with
  | run spurious =>
    simp only [step, run, beginUnload] at hs
    split at hs
    · cases hs
      exact absurd rfl ha
    · split at hs
      · cases hs
        exact absurd rfl ha
      · rename_i ho
        split at hs
        · rename_i hx
          exact ⟨not_not.mp ho, by rw [hx.2]⟩
        · cases hs
          exact absurd rfl ha
  | _ => cases hs

/-- Each access inside the windows moves the phase on or keeps it; everywhere else the
phase is untouched. -/
theorem balanced_next {c' : Config Tid Shared Pc} {a : Action} (h : Balanced c) (hs : Safe c)
    (hhooks : c.shared.pin = true ∧ c.shared.unpin = true) (hok : Orderly c t a)
    (hn : (program Tid).next c t a = some c') : Balanced c' := by
  obtain ⟨sh, pc, hstep, rfl⟩ := Program.next_eq_some_iff.mp hn
  have hmove := moves_of_step hstep
  have hrely := hs.relies t
  change step c.shared (c.locals t) a = some (sh, pc) at hstep
  unfold Orderly at hok
  generalize ht : c.locals t = pc₀ at hmove hrely hstep hok
  cases hmove with
  | increment => exact balanced_increment h hs.counted ht hok
  | refused b hb => exact balanced_refused h hb ht
  | first b ha hb _ =>
    subst hb
    exact balanced_first h ht
  | granted b ha hb =>
    have hne : b ≠ 0 := fun he => hb ⟨he, hhooks.1⟩
    exact balanced_granted h hs.counted ha hne ht (hok hne ha)
  | undo => exact balanced_undo h hs.counted hrely ht
  | pinned => exact balanced_pinned h hs.counted ht hok
  | release r hh => exact balanced_release h hh ht
  | last hl _ => exact balanced_last h hs.counted hl ht
  | notLast hl => exact balanced_notLast h (fun he => hl ⟨he, hhooks.2⟩) ht hok
  | unpinned => exact balanced_unpinned h ht
  | flip un o ha =>
    refine balanced_outside h rfl rfl rfl rfl (by simp) (fun hp _ _ => ?_) (ht ▸ ⟨rfl, by simp⟩)
      (outside_unloadBegun un true)
    -- a first acquire would not have pinned yet
    by_contra hnone
    have hzero : standing .releaseSub c.locals = 0 := by omega
    have hleases : c.shared.leases ≠ 0 := fun he => by
      have := hp.leases
      rw [he] at this
      exact absurd this (by decide)
    obtain ⟨ho, hrun⟩ := closes_of_step hstep (by simp [ha])
    obtain ⟨u, hu⟩ := hok ho hrun ha hleases ⟨by omega, fun u _ => standing_eq_zero_iff.mp hzero u⟩
    have hfirst := hp.first
    rcases hu with hu | hu
    · have := standing_pos hu
      omega
    · have := standing_pos hu
      omega
  | mark =>
    exact balanced_outside h rfl rfl rfl rfl (by simp) (fun _ ha => absurd ha hrely.closed) (ht ▸ ⟨rfl, by simp⟩)
      ⟨rfl, by simp⟩
  | begun un o r _ =>
    exact balanced_outside h rfl rfl rfl rfl id (fun _ ha hne => absurd ha hne) (ht ▸ ⟨rfl, by simp⟩)
      (outside_unloadBegun un r)
  | seenIdle un i _ =>
    exact balanced_outside h rfl rfl rfl rfl id (fun _ ha hne => absurd ha hne) (ht ▸ ⟨rfl, by simp⟩)
      (outside_idleAnswer un true)
  | seenIdleLast un _ =>
    exact balanced_outside h rfl rfl rfl rfl id (fun _ ha hne => absurd ha hne) (ht ▸ ⟨rfl, by simp⟩)
      (outside_idleAnswer un true)
  | _ =>
    exact balanced_outside h rfl rfl rfl rfl id (fun _ ha hne => absurd ha hne) (ht ▸ ⟨rfl, by simp⟩)
      ⟨rfl, by simp⟩

end step

/-- While a lease is out the completed pins exceed the started unpins by exactly one, and
they are equal when no lease is out and no acquire or release is at work. -/
def PinBalanced (c : Config Tid Shared Pc) : Prop :=
  ((0 < c.shared.held ∨ ∃ t, c.locals t = .releaseSub) → (c.shared.pins : Int) - c.shared.unpins = 1) ∧
  (c.shared.held = 0 → (∀ t, ¬ Acquiring (c.locals t) ∧ c.locals t ≠ .releaseSub ∧ c.locals t ≠ .releaseUnpin) →
    (c.shared.pins : Int) - c.shared.unpins = 0)

omit [DecidableEq Tid] in
private theorem balanced_start : Balanced (start Tid true true) := by
  refine .inl ⟨?_, ?_, rfl, ?_, ?_, fun _ hl => absurd hl (Nat.lt_irrefl 0)⟩ <;>
    simp [start, registered, standing, total]

omit [DecidableEq Tid] in
private theorem Balanced.pinBalanced {c : Config Tid Shared Pc} (h : Balanced c) (hc : Counted c) :
    PinBalanced c := by
  rcases h with h | h
  · refine ⟨fun hlease => ?_, fun _ hidle => ?_⟩
    · rcases hlease with hh | ⟨t, ht⟩
      · have := h.held
        omega
      · exact absurd ht (standing_eq_zero_iff.mp h.releasing t)
    · have hzero : standing .releaseUnpin c.locals = 0 := standing_eq_zero_iff.mpr fun t => (hidle t).2.2
      have := h.pins
      omega
  · refine ⟨fun _ => ?_, fun hheld hidle => ?_⟩
    · have := h.pins
      omega
    · have hz : total weight c.locals = 0 := Finset.sum_eq_zero fun t _ => by
        have ht := hidle t
        generalize c.locals t = pc at ht
        cases pc <;> simp_all [Acquiring, weight]
      have := h.leases
      unfold Counted at hc
      omega

omit [DecidableEq Tid] [Fintype Tid] in
private theorem Orderly.fits {c : Config Tid Shared Pc} {t : Tid} {a : Action} (h : Orderly c t a) : Fits c t a := by
  intro ht
  unfold Orderly at h
  rwa [ht] at h

omit [DecidableEq Tid] [Fintype Tid] in
private theorem Moves.hooks {sh sh' : Shared} {pc pc' : Pc} (h : Moves sh pc sh' pc') :
    sh'.pin = sh.pin ∧ sh'.unpin = sh.unpin := by
  cases h <;> exact ⟨rfl, rfl⟩

private theorem balanced_of_reachable {c : Config Tid Shared Pc}
    (h : (program Tid).Reachable Orderly (start Tid true true) c) :
    Safe c ∧ Balanced c ∧ c.shared.pin = true ∧ c.shared.unpin = true := by
  refine h.invariant (P := fun c => Safe c ∧ Balanced c ∧ c.shared.pin = true ∧ c.shared.unpin = true)
    ⟨safe_start true true, balanced_start, rfl, rfl⟩ ?_
  rintro c t a c' ⟨hs, hb, hhooks⟩ hok hn
  refine ⟨safe_next hs hok.fits hn, balanced_next hb hs hhooks hok hn, ?_⟩
  obtain ⟨sh, pc, hstep, rfl⟩ := Program.next_eq_some_iff.mp hn
  obtain ⟨hp, hu⟩ := (moves_of_step hstep).hooks
  exact ⟨hp.trans hhooks.1, hu.trans hhooks.2⟩

/-- Every lease holds the OS reference and the last release drops it, in every run that
keeps the order of calls above. -/
theorem lease_holds_os_reference {c : Config Tid Shared Pc}
    (h : (program Tid).Reachable Orderly (start Tid true true) c) : PinBalanced c := by
  obtain ⟨hs, hb, -⟩ := balanced_of_reachable h
  exact hb.pinBalanced hs.counted

/-- The second acquire overlaps the first one and returns after it, and both leases share one OS
reference; a new first acquire counts itself in before the last unpin and pins after it. -/
theorem lease_holds_os_reference_shared :
    ∃ c, (program Bool).Reachable Orderly (start Bool true true) c ∧ c.shared.held = 1 ∧ c.shared.pins = 2 ∧
      PinBalanced c := by
  have he : (((program Bool).exec Orderly (start Bool true true)
      ([(true, .tryAcquireLease), (true, .run false), (true, .run false), (false, .tryAcquireLease),
        (false, .run false), (false, .run false), (true, .run false), (true, .run false), (false, .run false),
        (true, .releaseLease), (true, .run false), (false, .releaseLease), (false, .run false),
        (true, .tryAcquireLease), (true, .run false), (true, .run false), (true, .run false), (false, .run false),
        (true, .run false)])).map fun c => (c.shared.held, c.shared.pins)) = some (1, 2) := by
    decide
  obtain ⟨c, hc, hcount⟩ := Option.map_eq_some_iff.mp he
  obtain ⟨hheld, hpins⟩ := Prod.mk.inj hcount
  have hr := Program.Reachable.of_exec .init hc
  exact ⟨c, hr, hheld, hpins, lease_holds_os_reference hr⟩

section Disorder
variable {c c' : Config Tid Shared Pc} {t u : Tid} {a : Action}

/-- A later acquire that returns beside a first one holds a lease without an OS reference. -/
theorem granted_before_pin (h : (program Tid).Reachable Orderly (start Tid true true) c)
    (hn : (program Tid).next c t a = some c') {b : UInt32} (ht : c.locals t = .acquireRecheck b) (hb : b ≠ 0)
    (ha : c.shared.state = .active) (hfirst : First (c.locals u)) (hdone : ∀ u, c.locals u ≠ .releaseUnpin) :
    ¬ PinBalanced c' := by
  obtain ⟨-, hbal, -⟩ := balanced_of_reachable h
  have hpos : 0 < standing (.acquireRecheck 0) c.locals + standing .acquirePin c.locals := by
    rcases hfirst with hu | hu
    · exact Nat.add_pos_left (standing_pos hu) _
    · exact Nat.add_pos_right _ (standing_pos hu)
  rcases hbal with hbal | hbal
  · obtain ⟨sh, pc, hstep, rfl⟩ := Program.next_eq_some_iff.mp hn
    have hmove := moves_of_step hstep
    have hpins := hbal.pins
    rw [standing_eq_zero_iff.mpr hdone] at hpins
    rw [ht] at hmove
    intro hp
    cases hmove with
    | refused _ hne => exact hne ha
    | first _ _ hz => exact hb hz
    | granted =>
      have := hp.1 (.inl (Nat.succ_pos _))
      simp only at this
      omega
  · have := hbal.first
    omega

/-- A pin that overtakes an unpin takes a second OS reference. -/
theorem pinned_before_unpin (h : (program Tid).Reachable Orderly (start Tid true true) c)
    (hn : (program Tid).next c t a = some c') (ht : c.locals t = .acquirePin) (hu : c.locals u = .releaseUnpin) :
    ¬ PinBalanced c' := by
  obtain ⟨-, hbal, -⟩ := balanced_of_reachable h
  have hpos := standing_pos hu
  rcases hbal with hbal | hbal
  · obtain ⟨sh, pc, hstep, rfl⟩ := Program.next_eq_some_iff.mp hn
    have hmove := moves_of_step hstep
    have hpins := hbal.pins
    rw [ht] at hmove
    intro hp
    cases hmove with
    | pinned =>
      have := hp.1 (.inl (Nat.succ_pos _))
      simp only at this
      omega
  · have := hbal.unpinning
    omega

omit [Fintype Tid] in
/-- Once the module is drained and no unpin is under way, nobody pins or unpins any more. -/
theorem drained_reference_stays (hd : Drained c) (hdone : ∀ u, c.locals u ≠ .releaseUnpin)
    (h : (program Tid).Reachable Program.anyStep c c') :
    Drained c' ∧ (∀ u, c'.locals u ≠ .releaseUnpin) ∧ c'.shared.pins = c.shared.pins ∧
      c'.shared.unpins = c.shared.unpins := by
  refine h.invariant (P := fun c' => Drained c' ∧ (∀ u, c'.locals u ≠ .releaseUnpin) ∧
    c'.shared.pins = c.shared.pins ∧ c'.shared.unpins = c.shared.unpins) ⟨hd, hdone, rfl, rfl⟩ ?_
  rintro c₁ t a c₂ ⟨hd, hdone, hpins, hunpins⟩ - hn
  refine ⟨drained_next hd hn, ?_⟩
  obtain ⟨sh, pc, hstep, rfl⟩ := Program.next_eq_some_iff.mp hn
  have hmove := moves_of_step hstep
  obtain ⟨hpin, hsub⟩ := hd.threads t
  have hunpin := hdone t
  refine ⟨(Function.forall_update_iff c₁.locals (p := fun _ pc => pc ≠ .releaseUnpin)).mpr
    ⟨?_, fun u _ => hdone u⟩, ?_⟩
  · generalize c₁.locals t = pc₀ at hmove hsub
    cases hmove with
    | last => exact absurd rfl hsub
    | begun un o r | flip un o => cases un <;> simp [unloadBegun]
    | seenIdle un | seenIdleLast un => cases un <;> simp [idleAnswer]
    | _ => simp
  · generalize c₁.locals t = pc₀ at hmove hpin hunpin
    cases hmove with
    | pinned => exact absurd rfl hpin
    | unpinned => exact absurd rfl hunpin
    | _ => exact ⟨hpins, hunpins⟩

private theorem Pinned.drained (hp : Pinned c) (hleft : NoneLeft c t) (sh : Shared) (pc : Pc)
    (hclosed : sh.state ≠ .active) (hheld : sh.held = c.shared.held) (hpc : Outside pc) :
    Drained ⟨sh, Function.update c.locals t pc⟩ ∧ ∀ u, Function.update c.locals t pc u ≠ .releaseUnpin := by
  have hpin : standing .acquirePin c.locals = 0 := (Nat.add_eq_zero_iff.mp hp.first).2
  refine ⟨⟨hclosed, hheld.trans hleft.1, ?_⟩, ?_⟩
  · refine (Function.forall_update_iff c.locals (p := fun _ pc => pc ≠ .acquirePin ∧ pc ≠ .releaseSub)).mpr
      ⟨⟨outside_ne (by simp [weight]) hpc, outside_ne (by simp [weight]) hpc⟩, fun u hu => ⟨?_, hleft.2 u hu⟩⟩
    exact standing_eq_zero_iff.mp hpin u
  · exact (Function.forall_update_iff c.locals (p := fun _ pc => pc ≠ .releaseUnpin)).mpr
      ⟨hpc.2, fun u _ => standing_eq_zero_iff.mp hp.unpinning u⟩

/-- Acquires that are refused after the last lease is gone leave the OS reference taken for good. -/
theorem outstayed_reference_leaks (h : (program Tid).Reachable Orderly (start Tid true true) c)
    (hn : (program Tid).next c t a = some c') (hnot : ¬ Orderly c t a)
    (ht : c.locals t = .releaseSub ∨ ∃ un o, c.locals t = .unloadLoop un o)
    {d : Config Tid Shared Pc} (hd : (program Tid).Reachable Program.anyStep c' d) :
    d.shared.held = 0 ∧ (d.shared.pins : Int) - d.shared.unpins = 1 := by
  obtain ⟨hs, hbal, -⟩ := balanced_of_reachable h
  suffices hleak : Drained c' ∧ (∀ u, c'.locals u ≠ .releaseUnpin) ∧ c'.shared.pins = c'.shared.unpins + 1 by
    obtain ⟨hdrained, hdone, hpins⟩ := hleak
    obtain ⟨hdrained, -, hp, hu⟩ := drained_reference_stays hdrained hdone hd
    exact ⟨hdrained.held, by omega⟩
  obtain ⟨sh, pc, hstep, rfl⟩ := Program.next_eq_some_iff.mp hn
  have hmove := moves_of_step hstep
  unfold Orderly at hnot
  rcases ht with ht | ⟨un, o, ht⟩
  · have hp := hbal.pinned_of_releasing ht
    rw [ht] at hmove hnot
    simp only [InOrder, Classical.not_imp] at hnot
    obtain ⟨hclosed, hleft, hmany⟩ := hnot
    cases hmove with
    | last hone => exact absurd hone hmany
    | notLast =>
      obtain ⟨hdrained, hdone⟩ := hp.drained hleft { c.shared with leases := c.shared.leases - 1 } (.idle none)
        hclosed rfl ⟨rfl, by simp⟩
      exact ⟨hdrained, hdone, hp.pins⟩
  · change step c.shared (c.locals t) a = some (sh, pc) at hstep
    rw [ht] at hstep hnot
    simp only [InOrder, Classical.not_imp, not_exists] at hnot
    obtain ⟨rfl, rfl, ha, hleases, hleft, hnone⟩ := hnot
    simp only [step, run, beginUnload, ha, reduceCtorEq, or_self, if_false, ne_eq, not_true, and_self, if_true,
      Option.some.injEq, Prod.mk.injEq] at hstep
    obtain ⟨rfl, rfl⟩ := hstep
    have hpos : 0 < c.shared.leases.toNat := Nat.pos_of_ne_zero fun he => hleases (UInt32.toNat_inj.mp he)
    have hzero := none_first hnone
    rcases hbal with hu | hp
    · have := hu.active ha hpos
      omega
    · obtain ⟨hdrained, hdone⟩ := hp.drained hleft { c.shared with state := .draining } (unloadBegun un true)
        (by simp) rfl (outside_unloadBegun un true)
      exact ⟨hdrained, hdone, hp.pins⟩

end Disorder

/-- A second acquire that overlaps the first one returns true before anything is pinned. -/
theorem overlapping_acquire_is_unpinned :
    ¬ ∀ c, (program Bool).Reachable Program.anyStep (start Bool true true) c → PinBalanced c := by
  intro hall
  have he : (((program Bool).exec Program.anyStep (start Bool true true)
      [(true, .tryAcquireLease), (true, .run false), (true, .run false), (false, .tryAcquireLease),
        (false, .run false), (false, .run false), (false, .run false)]).map
      fun c => (c.shared.held, c.shared.pins, c.shared.unpins)) = some (1, 0, 0) := by
    decide
  obtain ⟨c, hc, hshared⟩ := Option.map_eq_some_iff.mp he
  simp only [Prod.mk.injEq] at hshared
  have := (hall c (Program.Reachable.of_exec .init hc)).1 (.inl (by omega))
  omega

end Abix.Interface.Lease

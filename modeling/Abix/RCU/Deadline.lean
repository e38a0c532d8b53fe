import Mathlib.Algebra.Ring.Nat

/-! How long a wait may take: a clock reading of 64 bits, of which zero means never. -/
namespace Abix.RCU

/-- What the monotonic clock counts: nanoseconds, or the ticks of a performance counter of this
frequency. -/
inductive Clock where
  | nanoseconds
  | ticks (qpcFrequency : UInt64)
  deriving DecidableEq, Repr

def Clock.perMs : Clock → UInt64
  | .nanoseconds => 1000000
  | .ticks qpcFrequency => if qpcFrequency / 1000 ≠ 0 then qpcFrequency / 1000 else 1

def durationUnits (clock : Clock) (ms : UInt64) : UInt64 := ms * clock.perMs

structure Deadline where
  expiry : UInt64
  deriving DecidableEq, Repr

namespace Deadline
variable {clock : Clock} {now ms reading : UInt64} {d : Deadline}

def never : Deadline := ⟨0⟩

/-- `now` is what the clock shows at the call. -/
def afterMs (clock : Clock) (now ms : UInt64) : Deadline :=
  if ms = 0 then ⟨1⟩ else ⟨now + durationUnits clock ms⟩

def bounded (d : Deadline) : Bool := d.expiry ≠ 0

/-- `reading` is what the clock shows at the call. -/
def expired (d : Deadline) (reading : UInt64) : Bool := d.expiry ≠ 0 ∧ d.expiry ≤ reading

/-- A duration is kept: there is a bound, the wait is not cut short at any reading a clock of 64 bits
can show, and no shorter duration ends later. -/
structure Kept (clock : Clock) (now ms : UInt64) : Prop where
  bounded : (afterMs clock now ms).bounded = true
  notEarly : ∀ reading : UInt64, reading.toNat < now.toNat + ms.toNat * clock.perMs.toNat →
    (afterMs clock now ms).expired reading = false
  monotone : ∀ shorter : UInt64, 0 < shorter → shorter ≤ ms → ∀ reading,
    (afterMs clock now ms).expired reading = true → (afterMs clock now shorter).expired reading = true

theorem bounded_iff : d.bounded = true ↔ d.expiry.toNat ≠ 0 := by
  rw [bounded, decide_eq_true_iff, ne_eq, ne_eq, ← UInt64.toNat_inj]
  rfl

theorem expired_iff : d.expired reading = true ↔ d.expiry.toNat ≠ 0 ∧ d.expiry.toNat ≤ reading.toNat := by
  rw [expired, decide_eq_true_iff, UInt64.le_iff_toNat_le, ne_eq, ne_eq, ← UInt64.toNat_inj]
  rfl

/-- The non-blocking probe: any clock that has moved is past it. -/
theorem probe_expired (h : 0 < reading) : (afterMs clock now 0).expired reading = true := by
  rw [expired_iff, afterMs, if_pos rfl]
  exact ⟨by decide, UInt64.lt_iff_toNat_lt.mp h⟩

private theorem perMs_pos (clock : Clock) : 0 < clock.perMs.toNat := by
  cases clock with
  | nanoseconds => decide
  | ticks qpcFrequency =>
    rw [Clock.perMs]
    split
    next h => exact Nat.pos_of_ne_zero fun hzero => h (UInt64.toNat_inj.mp hzero)
    next => decide

private theorem afterMs_expiry (h : 0 < ms) :
    (afterMs clock now ms).expiry.toNat = (now.toNat + ms.toNat * clock.perMs.toNat) % 2 ^ 64 := by
  have hne : ms ≠ 0 := by
    rintro rfl
    exact absurd h (by decide)
  rw [afterMs, if_neg hne, durationUnits, UInt64.toNat_add, UInt64.toNat_mul, Nat.add_mod_mod]

theorem afterMs_exact (h : 0 < ms) (hfits : now.toNat + ms.toNat * clock.perMs.toNat < 2 ^ 64) :
    (afterMs clock now ms).expiry.toNat = now.toNat + ms.toNat * clock.perMs.toNat := by
  rw [afterMs_expiry h, Nat.mod_eq_of_lt hfits]

private theorem kept_of_fits (h : 0 < ms) (hfits : now.toNat + ms.toNat * clock.perMs.toNat < 2 ^ 64) :
    Kept clock now ms := by
  have hpos (shorter : UInt64) (hs : 0 < shorter) : 0 < shorter.toNat * clock.perMs.toNat :=
    Nat.mul_pos (UInt64.lt_iff_toNat_lt.mp hs) (perMs_pos clock)
  have hms := hpos ms h
  constructor
  · rw [bounded_iff, afterMs_exact h hfits]
    omega
  · intro reading hearly
    rw [← Bool.not_eq_true, expired_iff, afterMs_exact h hfits]
    omega
  · intro shorter hs hle reading hexpired
    have hless : shorter.toNat * clock.perMs.toNat ≤ ms.toNat * clock.perMs.toNat :=
      Nat.mul_le_mul_right _ (UInt64.le_iff_toNat_le.mp hle)
    have hpositive := hpos shorter hs
    rw [expired_iff, afterMs_exact h hfits] at hexpired
    rw [expired_iff, afterMs_exact hs (by omega)]
    omega

/-- A bounded deadline has expired when the clock shows its last value, so one that lies behind it
cannot be kept. -/
theorem fits_of_kept (h : Kept clock now ms) : now.toNat + ms.toNat * clock.perMs.toNat < 2 ^ 64 := by
  by_contra hover
  let last : UInt64 := UInt64.ofNat (2 ^ 64 - 1)
  have hlast : last.toNat = 2 ^ 64 - 1 := rfl
  have hwaiting := h.notEarly last (by omega)
  have hended : (afterMs clock now ms).expired last = true := by
    rw [expired_iff, hlast]
    have hbound := (afterMs clock now ms).expiry.toNat_lt
    exact ⟨bounded_iff.mp h.bounded, by omega⟩
  rw [hwaiting] at hended
  exact Bool.false_ne_true hended

/-- On a clock of nanoseconds a duration is kept exactly when its end is one of the clock's values. -/
theorem duration_kept_iff (now ms : UInt64) (h : 0 < ms) :
    Kept .nanoseconds now ms ↔ now.toNat + ms.toNat * 1000000 < 2 ^ 64 := by
  constructor
  · exact fits_of_kept
  · intro hfits
    exact kept_of_fits h hfits

/-- Five milliseconds, one second after the clock began. -/
theorem duration_kept_five : Kept .nanoseconds 1000000000 5 :=
  (duration_kept_iff 1000000000 5 (by decide)).mpr (by decide)

end Deadline

/-- One turn of a loop that polls a deadline: whether what it waits for is there, and what the clock
shows. -/
structure Turn where
  done : Bool
  reading : UInt64
  deriving DecidableEq, Repr

def spin (turns : List Turn) : Option Bool := if turns.any Turn.done then some true else none

/-- The wait with one: the clock is looked at in every 256th turn. `none` is a wait that goes on. -/
def spinUntil (deadline : Deadline) : UInt32 → List Turn → Option Bool
  | _, [] => none
  | polls, turn :: turns =>
    if turn.done then some true
    else if (polls + 1) &&& 0xFF = 0 ∧ deadline.expired turn.reading then some false
    else spinUntil deadline (polls + 1) turns

/-- `lock_writer`, called when the clock shows `now`. -/
def lockWriter (reclaimTimeoutMs : UInt64) (bounded : Bool) (now : UInt64) (turns : List Turn) : Option Bool :=
  if bounded = false ∨ reclaimTimeoutMs = 0 then spin turns
  else spinUntil (Deadline.afterMs .nanoseconds now reclaimTimeoutMs) 0 turns

private theorem spinUntil_gives_up {deadline : Deadline} {polls : UInt32} {turns : List Turn}
    (h : spinUntil deadline polls turns = some false) : ∃ turn ∈ turns, deadline.expired turn.reading = true := by
  induction turns generalizing polls with
  | nil => cases h
  | cons turn turns ih =>
    rw [spinUntil] at h
    split at h
    next => cases h
    next =>
      split at h
      next hexpired => exact ⟨turn, List.mem_cons_self, hexpired.2⟩
      next =>
        obtain ⟨later, hmem, hexpired⟩ := ih h
        exact ⟨later, List.mem_cons_of_mem _ hmem, hexpired⟩

/-- A writer whose timeout is kept does not give the lock up before its time. -/
theorem lockWriter_patient {reclaimTimeoutMs now : UInt64} {bounded : Bool} {turns : List Turn}
    (hkept : Deadline.Kept .nanoseconds now reclaimTimeoutMs)
    (h : lockWriter reclaimTimeoutMs bounded now turns = some false) :
    ∃ turn ∈ turns, now.toNat + reclaimTimeoutMs.toNat * 1000000 ≤ turn.reading.toNat := by
  rw [lockWriter] at h
  split at h
  next =>
    rw [spin] at h
    split at h <;> cases h
  next =>
    obtain ⟨turn, hmem, hexpired⟩ := spinUntil_gives_up h
    refine ⟨turn, hmem, ?_⟩
    by_contra hearly
    have hwaiting := hkept.notEarly turn.reading (Nat.not_le.mp hearly)
    rw [hwaiting] at hexpired
    exact Bool.false_ne_true hexpired

/-- The longest duration: asked for one second after the clock began it has already ended, and the
writer lock is given up in the instant it was asked for; asked for at a millisecond it has no end. -/
theorem longest_duration_is_not_kept :
    ¬ Deadline.Kept .nanoseconds 1000000000 18446744073709551615 ∧
    (Deadline.afterMs .nanoseconds 1000000000 18446744073709551615).expired 1000000000 = true ∧
    lockWriter 18446744073709551615 true 1000000000 (List.replicate 256 ⟨false, 1000000000⟩) = some false ∧
    Deadline.afterMs .nanoseconds 1000000 18446744073709551615 = Deadline.never := by
  refine ⟨fun hkept => ?_, by decide, by decide +kernel, by decide⟩
  exact absurd (Deadline.fits_of_kept hkept) (by decide)

end Abix.RCU

import Mathlib.Algebra.Group.Nat.Defs
import Mathlib.Data.Nat.Basic

/-! A counter of 64 bits that goes up by a stride, and wraps. -/
namespace Abix.Trace

def strideAt (step : UInt64) (j : Nat) : UInt64 := .ofNat j * step

theorem strideAt_succ (step : UInt64) (j : Nat) : strideAt step (j + 1) = strideAt step j + step := by
  rw [strideAt, strideAt, UInt64.ofNat_add, UInt64.add_mul]
  exact congrArg _ (UInt64.one_mul step)

theorem toNat_strideAt (step : UInt64) (j : Nat) : (strideAt step j).toNat = j * step.toNat % 2 ^ 64 := by
  rw [strideAt, UInt64.toNat_mul, UInt64.toNat_ofNat', Nat.mod_mul_mod]

theorem toNat_strideAt_of_lt {step : UInt64} {j : Nat} (h : j * step.toNat < 2 ^ 64) :
    (strideAt step j).toNat = j * step.toNat := by
  rw [toNat_strideAt, Nat.mod_eq_of_lt h]

/-- The counter stays where an item of that width ends within the size, until after so many steps it
first leaves, for a place where the end of the item does not wrap. -/
structure StopsAt (width size step : UInt64) (k : Nat) : Prop where
  inside : ∀ j < k, (strideAt step j).toNat + width.toNat ≤ size.toNat
  outside : size.toNat < (strideAt step k).toNat + width.toNat
  exact : (strideAt step k).toNat + width.toNat < 2 ^ 64

def StopsInside (width size step : UInt64) : Prop := ∃ k, StopsAt width size step k

theorem stopsInside_of_lt {width size step : UInt64} (h : size < width) : StopsInside width size step := by
  have hzero : (strideAt step 0).toNat = 0 := by rw [toNat_strideAt, Nat.zero_mul, Nat.zero_mod]
  refine ⟨0, fun j hj => absurd hj (Nat.not_lt_zero j), ?_, ?_⟩
  · rw [hzero, Nat.zero_add]
    exact UInt64.lt_iff_toNat_lt.mp h
  · rw [hzero, Nat.zero_add]
    exact width.toNat_lt

/-- For sizes of buffers the stride decides: it must not carry an item over the top in one step. -/
theorem stopsInside_iff {width size step : UInt64} (hsize : size.toNat < 2 ^ 63) (hstep : step ≠ 0) :
    StopsInside width size step ↔ size < width ∨ step.toNat + width.toNat < 2 ^ 64 := by
  have hpos : 0 < step.toNat := Nat.pos_of_ne_zero fun hzero => hstep (UInt64.toNat_inj.mp hzero)
  have hlt := step.toNat_lt
  have hone : (strideAt step 1).toNat = step.toNat := by
    rw [toNat_strideAt_of_lt (by omega), Nat.one_mul]
  have hzero : (strideAt step 0).toNat = 0 := by rw [toNat_strideAt_of_lt (by omega), Nat.zero_mul]
  rw [UInt64.lt_iff_toNat_lt]
  constructor
  · rintro ⟨k, hbefore, hout, hwrap⟩
    rcases k with _ | _ | k
    · rw [hzero] at hout
      omega
    · rw [hone] at hwrap
      exact .inr hwrap
    · have hsecond := hbefore 1 (by omega)
      rw [hone] at hsecond
      omega
  · intro h
    by_cases hsmall : size < width
    · exact stopsInside_of_lt hsmall
    · have hwidth := UInt64.le_iff_toNat_le.mp (UInt64.not_lt.mp hsmall)
      have hwrap := h.resolve_left (Nat.not_lt.mpr hwidth)
      -- the counter leaves after as many steps as fit before the last item
      have hmod := Nat.div_add_mod (size.toNat - width.toNat) step.toNat
      have hrest := Nat.mod_lt (size.toNat - width.toNat) hpos
      generalize hk : (size.toNat - width.toNat) / step.toNat = k at hmod
      have hlast : (k + 1) * step.toNat = step.toNat * k + step.toNat := by rw [Nat.mul_comm, Nat.mul_succ]
      have hbound : (k + 1) * step.toNat + width.toNat < 2 ^ 64 := by
        rw [hlast]
        rcases Nat.eq_zero_or_pos k with rfl | hkpos
        · omega
        · have hle : step.toNat ≤ step.toNat * k := Nat.le_mul_of_pos_right _ hkpos
          omega
      have hleave : (strideAt step (k + 1)).toNat = (k + 1) * step.toNat := toNat_strideAt_of_lt (by omega)
      refine ⟨k + 1, fun j hj => ?_, by omega, by omega⟩
      have hle : j * step.toNat ≤ step.toNat * k := by
        rw [Nat.mul_comm]
        exact Nat.mul_le_mul_left _ (Nat.le_of_lt_succ hj)
      rw [toNat_strideAt_of_lt (by omega)]
      omega

end Abix.Trace

import Abix.Folding.Injective
import Abix.Util.Hash
import Mathlib.Data.Nat.ModEq
import Mathlib.Data.Nat.Prime.Basic

/-! The two lanes of the hash engine run side by side, and no byte is lost in either: every step is a
permutation of the lane. -/
namespace Abix.Util
open Abix.Folding Abix.Model Function

theorem mul_injective_of_odd {p : UInt64} (h : p.toNat % 2 = 1) : Injective fun lane : UInt64 => lane * p := by
  intro a b heq
  have hcoprime : Nat.Coprime (2 ^ 64) p.toNat :=
    Nat.Coprime.pow_left 64 (Nat.coprime_two_left.mpr (Nat.odd_iff.mpr h))
  have hproduct : a.toNat * p.toNat ≡ b.toNat * p.toNat [MOD 2 ^ 64] := by
    have hnat := congrArg UInt64.toNat heq
    rwa [UInt64.toNat_mul, UInt64.toNat_mul] at hnat
  have hsame := Nat.ModEq.cancel_right_of_coprime hcoprime hproduct
  rw [Nat.ModEq, Nat.mod_eq_of_lt a.toNat_lt, Nat.mod_eq_of_lt b.toNat_lt] at hsame
  exact UInt64.toNat_inj.mp hsame

def loStep (lane : UInt64) (byte : UInt8) : UInt64 := (lane ^^^ byte.toUInt64) * fnv1aPrime

def hiStep (lane : UInt64) (byte : UInt8) : UInt64 := (lane ^^^ (byte.toUInt64 + 31)) * canonicalHiPrime

theorem canonicalHashBytes_lanes (state : CanonicalState) (data : List UInt8) :
    canonicalHashBytes state data = ⟨data.foldl loStep state.lo, data.foldl hiStep state.hi⟩ := by
  induction data generalizing state with
  | nil => rfl
  | cons byte data ih => exact ih (canonicalHashByte state byte)

theorem loStep_injective (byte : UInt8) : Injective fun lane => loStep lane byte := by
  intro lane lane' h
  exact (UInt64.xor_left_inj _).mp (mul_injective_of_odd (by decide) h)

theorem hiStep_injective (byte : UInt8) : Injective fun lane => hiStep lane byte := by
  intro lane lane' h
  exact (UInt64.xor_left_inj _).mp (mul_injective_of_odd (by decide) h)

theorem toUInt64_injective : Injective UInt8.toUInt64 := by
  intro byte byte' h
  have hnat := congrArg UInt64.toNat h
  rw [UInt8.toNat_toUInt64, UInt8.toNat_toUInt64] at hnat
  exact UInt8.toNat_inj.mp hnat

private theorem loStep_byte_injective (lane : UInt64) : Injective (loStep lane) := by
  intro byte byte' h
  exact toUInt64_injective ((UInt64.xor_right_inj _).mp (mul_injective_of_odd (by decide) h))

private theorem hiStep_byte_injective (lane : UInt64) : Injective (hiStep lane) := by
  intro byte byte' h
  have hadd := (UInt64.xor_right_inj _).mp (mul_injective_of_odd (by decide) h)
  exact toUInt64_injective ((UInt64.add_left_inj 31).mp hadd)

structure Apart (a b : Hash128) : Prop where
  lo : a.lo ≠ b.lo
  hi : a.hi ≠ b.hi

theorem canonicalHash_lo (data : List UInt8) (domain : UInt64) :
    (canonicalHash data domain).lo = data.foldl loStep (fnv1aOffsetBasis ^^^ domain) := by
  rw [canonicalHash, canonicalHashBytes_lanes]
  rfl

theorem canonicalHash_hi (data : List UInt8) (domain : UInt64) :
    (canonicalHash data domain).hi = data.foldl hiStep (fnv1aPrime + domain) := by
  rw [canonicalHash, canonicalHashBytes_lanes]
  rfl

theorem canonicalHash_lo_injective (data : List UInt8) : Injective fun domain => (canonicalHash data domain).lo := by
  intro domain domain' h
  simp only [canonicalHash_lo] at h
  exact (UInt64.xor_right_inj _).mp (foldl_injective loStep_injective data h)

theorem canonicalHash_hi_injective (data : List UInt8) : Injective fun domain => (canonicalHash data domain).hi := by
  intro domain domain' h
  simp only [canonicalHash_hi] at h
  exact (UInt64.add_right_inj _).mp (foldl_injective hiStep_injective data h)

theorem apart_of_oneChange {data data' : List UInt8} (h : OneChange data data') (domain : UInt64) :
    Apart (canonicalHash data domain) (canonicalHash data' domain) := by
  constructor
  · rw [canonicalHash_lo, canonicalHash_lo]
    exact foldl_ne_of_oneChange loStep_injective loStep_byte_injective h _
  · rw [canonicalHash_hi, canonicalHash_hi]
    exact foldl_ne_of_oneChange hiStep_injective hiStep_byte_injective h _

end Abix.Util

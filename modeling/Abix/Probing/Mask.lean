import Mathlib.Algebra.Order.Ring.Nat
import Mathlib.Data.Nat.Size
import Mathlib.Logic.Function.Iterate

/-! Capacities that are powers of two: rounding up by or-ing a number with its shifts, and
stepping around a table with the capacity's mask. -/
namespace Abix.Probing

section Smear
variable {w n s x : Nat}

/-- `x` has a bit wherever `w` has one less than `n` places further up. -/
def Smeared (w n x : Nat) : Prop := ∀ i, x.testBit i = true ↔ ∃ j < n, w.testBit (i + j) = true

theorem smeared_self : Smeared w 1 w := by
  intro i
  simp

theorem Smeared.or_shiftRight (h : Smeared w n x) (hs : s ≤ n) : Smeared w (n + s) (x ||| x >>> s) := by
  intro i
  rw [Nat.testBit_or, Nat.testBit_shiftRight, Bool.or_eq_true, h i, h (s + i)]
  constructor
  · rintro (⟨j, hj, hw⟩ | ⟨j, hj, hw⟩)
    · exact ⟨j, by omega, hw⟩
    · exact ⟨s + j, by omega, by rwa [← Nat.add_assoc, Nat.add_comm i s]⟩
  · rintro ⟨j, hj, hw⟩
    by_cases hjn : j < n
    · exact .inl ⟨j, hjn, hw⟩
    · exact .inr ⟨j - s, by omega, by rwa [show s + i + (j - s) = i + j by omega]⟩

/-- A reach over the whole number leaves ones from its top bit down. -/
theorem Smeared.eq (h : Smeared w n x) (hw : w < 2 ^ n) : x = 2 ^ w.size - 1 := by
  apply Nat.eq_of_testBit_eq
  intro i
  rw [Nat.testBit_two_pow_sub_one, Bool.eq_iff_iff, h i, decide_eq_true_eq, Nat.lt_size]
  constructor
  · rintro ⟨j, -, hj⟩
    exact Nat.le_trans (Nat.pow_le_pow_right Nat.two_pos (Nat.le_add_right i j)) (Nat.ge_two_pow_of_testBit hj)
  · intro hle
    obtain ⟨j, hij, hj⟩ := Nat.exists_ge_and_testBit_of_ge_two_pow hle
    have hlt : 2 ^ j < 2 ^ n := Nat.lt_of_le_of_lt (Nat.ge_two_pow_of_testBit hj) hw
    have hjn : j < n := (Nat.pow_lt_pow_iff_right Nat.one_lt_two).mp hlt
    exact ⟨j - i, by omega, by rwa [Nat.add_sub_cancel' hij]⟩

end Smear

section Mask
variable {mask p q : UInt32} {k : Nat}

def step (mask p : UInt32) : UInt32 := (p + 1) &&& mask

theorem toNat_and_mask (hm : mask.toNat = 2 ^ k - 1) : (p &&& mask).toNat = p.toNat % 2 ^ k := by
  rw [UInt32.toNat_and, hm, Nat.and_two_pow_sub_one_eq_mod]

theorem toNat_step (hm : mask.toNat = 2 ^ k - 1) (hk : k ≤ 32) : (step mask p).toNat = (p.toNat + 1) % 2 ^ k := by
  rw [step, toNat_and_mask hm, UInt32.toNat_add]
  exact Nat.mod_mod_of_dvd _ (Nat.pow_dvd_pow 2 hk)

theorem toNat_iterate_step (hm : mask.toNat = 2 ^ k - 1) (hk : k ≤ 32) (hp : p.toNat < 2 ^ k) (n : Nat) :
    ((step mask)^[n] p).toNat = (p.toNat + n) % 2 ^ k := by
  induction n with
  | zero => simp [Nat.mod_eq_of_lt hp]
  | succ n ih => rw [Function.iterate_succ_apply', toNat_step hm hk, ih, Nat.mod_add_mod, Nat.add_assoc]

/-- Stepping reaches every position in less than a turn. -/
theorem exists_iterate_step (hm : mask.toNat = 2 ^ k - 1) (hk : k ≤ 32) (hp : p.toNat < 2 ^ k) (hq : q.toNat < 2 ^ k) :
    ∃ n < 2 ^ k, (step mask)^[n] p = q := by
  refine ⟨(q.toNat + (2 ^ k - p.toNat)) % 2 ^ k, Nat.mod_lt _ (Nat.two_pow_pos k), ?_⟩
  apply UInt32.toNat_inj.mp
  rw [toNat_iterate_step hm hk hp, Nat.add_mod_mod, show p.toNat + (q.toNat + (2 ^ k - p.toNat)) = q.toNat + 2 ^ k by omega,
    Nat.add_mod_right, Nat.mod_eq_of_lt hq]

end Mask

end Abix.Probing

import Mathlib.Data.List.Basic
import Mathlib.Algebra.Group.Nat.Defs

/-! The wire records that providers, modules and registries share. -/
namespace Abix.Model

structure Hash128 where
  lo : UInt64
  hi : UInt64
  deriving DecidableEq, Repr

def Hash128.zero : Hash128 := ⟨0, 0⟩

abbrev TypeId := Hash128

abbrev LayoutHash := Hash128

abbrev SignatureHash := Hash128

structure TypeDesc where
  id : TypeId
  deriving DecidableEq, Repr

structure TypeLayout where
  size : UInt32
  align : UInt32
  layoutHash : LayoutHash
  deriving DecidableEq, Repr

/-- A count and a pointer, which is null or points to that many items. -/
structure Counted (α : Type) where
  count : UInt32
  data : Option (List α)
  length_eq : ∀ xs ∈ data, xs.length = count.toNat

namespace Counted
variable {α : Type}

/-- The items that a loop over the count reads; a null pointer is not read. -/
def items (b : Counted α) : List α := b.data.getD []

/-- The pointer is null although the count says that there are items. -/
def isDangling (b : Counted α) : Bool := b.count ≠ 0 ∧ b.data = none

private theorem length_of_some {xs ys : List α} (h : xs.length < 2 ^ 32) (hy : some xs = some ys) :
    ys.length = (UInt32.ofNat xs.length).toNat := by
  cases hy
  exact (UInt32.toNat_ofNat_of_lt' h).symm

def ofList (xs : List α) (h : xs.length < 2 ^ 32) : Counted α where
  count := UInt32.ofNat xs.length
  data := some xs
  length_eq _ hy := length_of_some h hy

theorem items_length (b : Counted α) (h : b.isDangling = false) : b.items.length = b.count.toNat := by
  obtain ⟨count, data, hlen⟩ := b
  cases data with
  | none =>
    obtain rfl : count = 0 := by simpa [isDangling] using h
    rfl
  | some xs => exact hlen xs rfl

end Counted

end Abix.Model

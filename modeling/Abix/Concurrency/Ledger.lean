import Mathlib.Algebra.BigOperators.Group.Finset.Basic
import Mathlib.Algebra.Order.BigOperators.Group.Finset
import Mathlib.Data.Fintype.Basic
import Mathlib.Tactic.Abel

/-! Totals over all threads of a quantity that each thread holds. A step that moves
such a quantity between a thread and the shared state is checked at that thread only. -/
namespace Abix.Concurrency

variable {Tid Local M : Type} [Fintype Tid] [DecidableEq Tid]

def total [AddCommMonoid M] (held : Local → M) (locals : Tid → Local) : M :=
  ∑ t, held (locals t)

/-- Replacing one thread's state trades what it held for what it holds. -/
theorem total_update [AddCommMonoid M] (held : Local → M) (locals : Tid → Local) (t : Tid) (l : Local) :
    total held (Function.update locals t l) + held (locals t) = total held locals + held l := by
  have hu := Finset.add_sum_erase Finset.univ (fun u => held (Function.update locals t l u)) (Finset.mem_univ t)
  have hl := Finset.add_sum_erase Finset.univ (fun u => held (locals u)) (Finset.mem_univ t)
  have he : ∑ u ∈ Finset.univ.erase t, held (Function.update locals t l u) =
      ∑ u ∈ Finset.univ.erase t, held (locals u) := by
    refine Finset.sum_congr rfl fun u hu => ?_
    rw [Function.update_of_ne (Finset.ne_of_mem_erase hu)]
  simp only [Function.update_self, he] at hu
  rw [total, total, ← hu, ← hl]
  abel

/-- A step that trades between the shared part and one thread, and may add to the whole. -/
theorem ledger_update [AddCommMonoid M] [IsCancelAdd M] {held : Local → M} {locals : Tid → Local} {t : Tid}
    {l : Local} {a b whole whole' : M} (hb : whole = a + total held locals)
    (hmove : b + held l + whole = a + held (locals t) + whole') :
    whole' = b + total held (Function.update locals t l) := by
  have := total_update held locals t l
  apply add_left_cancel (a := a + held (locals t))
  rw [← hmove, hb]
  calc b + held l + (a + total held locals) = a + b + (total held locals + held l) := by abel
    _ = a + b + (total held (Function.update locals t l) + held (locals t)) := by rw [this]
    _ = a + held (locals t) + (b + total held (Function.update locals t l)) := by abel

/-- A bound on what is held survives a step that adds no more than it bounds. -/
theorem bound_update [AddCommMonoid M] [PartialOrder M] [IsOrderedCancelAddMonoid M] {held : Local → M}
    {locals : Tid → Local} {t : Tid} {l : Local} {a b whole whole' : M} (hb : a + total held locals ≤ whole)
    (hmove : b + held l + whole ≤ a + held (locals t) + whole') :
    b + total held (Function.update locals t l) ≤ whole' := by
  have hu := total_update held locals t l
  apply le_of_add_le_add_left (a := held (locals t) + whole)
  calc held (locals t) + whole + (b + total held (Function.update locals t l))
      = b + (total held (Function.update locals t l) + held (locals t)) + whole := by abel
    _ = b + held l + whole + total held locals := by rw [hu]; abel
    _ ≤ a + held (locals t) + whole' + total held locals := add_le_add_left hmove _
    _ = a + total held locals + (held (locals t) + whole') := by abel
    _ ≤ whole + (held (locals t) + whole') := add_le_add_left hb _
    _ = held (locals t) + whole + whole' := by abel

omit [DecidableEq Tid] in
theorem held_le_total [AddCommMonoid M] [PartialOrder M] [CanonicallyOrderedAdd M] [IsOrderedAddMonoid M]
    (held : Local → M) (locals : Tid → Local) (t : Tid) : held (locals t) ≤ total held locals :=
  Finset.single_le_sum (f := fun u => held (locals u)) (fun _ _ => zero_le) (Finset.mem_univ t)

omit [DecidableEq Tid] in
theorem total_le_add [AddCommMonoid M] [PartialOrder M] [IsOrderedAddMonoid M] {f g h : Local → M}
    (hle : ∀ l, f l ≤ g l + h l) (locals : Tid → Local) : total f locals ≤ total g locals + total h locals := by
  rw [total, total, total, ← Finset.sum_add_distrib]
  exact Finset.sum_le_sum fun t _ => hle (locals t)

/-- Two threads together hold at most the total. -/
theorem held_add_held_le_total [AddCommMonoid M] [PartialOrder M] [CanonicallyOrderedAdd M] [IsOrderedAddMonoid M]
    (held : Local → M) (locals : Tid → Local) {t u : Tid} (h : t ≠ u) :
    held (locals t) + held (locals u) ≤ total held locals := by
  rw [← Finset.sum_pair (f := fun v => held (locals v)) h]
  exact Finset.sum_le_sum_of_subset (Finset.subset_univ _)

end Abix.Concurrency

import Mathlib.Data.List.Induction
import Mathlib.Data.List.Nodup

/-! Items that name the cell they belong to: the first and the last item of a cell, and writing
all items to their cells. -/
namespace Abix.Blocks
variable {α β : Type} (key : α → Nat) (value : α → β)

def firstAt (xs : List α) (k : Nat) : Option α := xs.find? fun x => key x = k

def lastAt (xs : List α) (k : Nat) : Option α := firstAt key xs.reverse k

def writeAll (xs : List α) (a : Nat → β) : Nat → β :=
  xs.foldl (fun a x => Function.update a (key x) (value x)) a

variable {key} {xs : List α} {k : Nat} {x : α}

theorem of_firstAt (h : firstAt key xs k = some x) : x ∈ xs ∧ key x = k :=
  ⟨List.mem_of_find?_eq_some h, by simpa using List.find?_some h⟩

theorem of_lastAt (h : lastAt key xs k = some x) : x ∈ xs ∧ key x = k := by
  obtain ⟨hmem, hkey⟩ := of_firstAt h
  exact ⟨List.mem_reverse.mp hmem, hkey⟩

theorem firstAt_isSome : (firstAt key xs k).isSome ↔ ∃ x ∈ xs, key x = k := by
  simp [firstAt, List.find?_isSome]

/-- A cell has a last item when it has a first one. -/
theorem exists_lastAt (h : firstAt key xs k = some x) : ∃ y, lastAt key xs k = some y := by
  obtain ⟨hmem, hkey⟩ := of_firstAt h
  exact Option.isSome_iff_exists.mp (firstAt_isSome.mpr ⟨x, List.mem_reverse.mpr hmem, hkey⟩)

/-- Where no two items share a cell, the first item is the last one. -/
theorem lastAt_eq_firstAt (h : (xs.map key).Nodup) : lastAt key xs k = firstAt key xs k := by
  cases hfirst : firstAt key xs k with
  | none =>
    rw [← Option.not_isSome_iff_eq_none, firstAt_isSome] at hfirst
    rw [lastAt, ← Option.not_isSome_iff_eq_none, firstAt_isSome]
    simpa using hfirst
  | some x =>
    obtain ⟨y, hlast⟩ := exists_lastAt hfirst
    obtain ⟨hx, hkx⟩ := of_firstAt hfirst
    obtain ⟨hy, hky⟩ := of_lastAt hlast
    rw [hlast, List.inj_on_of_nodup_map h hy hx (hky.trans hkx.symm)]

theorem writeAll_concat (xs : List α) (x : α) (a : Nat → β) :
    writeAll key value (xs ++ [x]) a = Function.update (writeAll key value xs a) (key x) (value x) := by
  simp [writeAll]

/-- A cell holds what its last item wrote, or what it held before. -/
theorem writeAll_apply (xs : List α) (a : Nat → β) (k : Nat) :
    writeAll key value xs a k = ((lastAt key xs k).map value).getD (a k) := by
  induction xs using List.reverseRecOn with
  | nil => rfl
  | append_singleton xs x ih =>
    rw [writeAll_concat, lastAt, firstAt, List.reverse_concat, List.find?_cons]
    by_cases hk : key x = k
    · subst hk
      simp
    · rw [Function.update_of_ne (Ne.symm hk), ih]
      simp [hk, lastAt, firstAt]

end Abix.Blocks

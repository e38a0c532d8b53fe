import Mathlib.Data.List.Basic
import Mathlib.Algebra.BigOperators.Group.List.Basic
import Mathlib.Algebra.GroupWithZero.Nat

/-! Arrays that hold blocks one after the other: appending a block at the end, and closing the
gap that a removed block leaves. -/
namespace Abix.Blocks
variable {α β σ : Type}

def contents (a : Nat → α) (n : Nat) : List α := (List.range n).map a

def store (a : Nat → α) (n : Nat) (xs : List α) : Nat → α :=
  (xs.foldl (fun r x => (Function.update r.1 r.2 x, r.2 + 1)) (a, n)).1

def foldDown (step : σ → α → σ) (a : Nat → α) : Nat → σ → σ
  | 0, s => s
  | i + 1, s => foldDown step a i (step s (a i))

/-- `for (i = begin; i + count < n; ++i) a[i] = a[i + count];`, for at most `fuel` turns. -/
def compact (count n : Nat) : Nat → Nat → (Nat → α) → Nat → α
  | 0, _, a => a
  | fuel + 1, i, a => if i + count < n then compact count n fuel (i + 1) (Function.update a i (a (i + count))) else a

@[simp] theorem contents_length (a : Nat → α) (n : Nat) : (contents a n).length = n := by
  simp [contents]

theorem contents_succ (a : Nat → α) (n : Nat) : contents a (n + 1) = contents a n ++ [a n] := by
  simp [contents, List.range_succ]

theorem getElem?_contents {a : Nat → α} {n i : Nat} (h : i < n) : (contents a n)[i]? = some (a i) := by
  simp [contents, h]

theorem contents_congr {a a' : Nat → α} {n : Nat} (h : ∀ i, i < n → a i = a' i) : contents a n = contents a' n :=
  List.map_congr_left fun i hi => h i (List.mem_range.mp hi)

theorem foldDown_eq (step : σ → α → σ) (a : Nat → α) (n : Nat) (s : σ) :
    foldDown step a n s = (contents a n).reverse.foldl step s := by
  induction n generalizing s with
  | zero => rfl
  | succ n ih => rw [foldDown, ih, contents_succ, List.reverse_append, List.foldl_append, List.reverse_singleton,
      List.foldl_cons, List.foldl_nil]

theorem store_cons (a : Nat → α) (n : Nat) (x : α) (xs : List α) :
    store a n (x :: xs) = store (Function.update a n x) (n + 1) xs := rfl

theorem store_of_le {a : Nat → α} {n i : Nat} {xs : List α} (h : n + xs.length ≤ i) : store a n xs i = a i := by
  induction xs generalizing a n with
  | nil => rfl
  | cons x xs ih =>
    rw [List.length_cons] at h
    rw [store_cons, ih (by omega), Function.update_of_ne (by omega)]

theorem contents_store (a : Nat → α) (n : Nat) (xs : List α) :
    contents (store a n xs) (n + xs.length) = contents a n ++ xs := by
  induction xs generalizing a n with
  | nil => simp [store]
  | cons x xs ih =>
    have hbelow : contents (Function.update a n x) n = contents a n :=
      contents_congr fun i hi => Function.update_of_ne (Nat.ne_of_lt hi) x a
    rw [store_cons, List.length_cons, Nat.add_comm xs.length, ← Nat.add_assoc, ih, contents_succ, hbelow]
    simp

/-- A cell of the gap or behind it takes the value `count` cells on, as far as there is one. -/
theorem compact_apply (count n fuel i : Nat) (a : Nat → α) (hfuel : n ≤ i + fuel) (j : Nat) :
    compact count n fuel i a j = if i ≤ j ∧ j + count < n then a (j + count) else a j := by
  induction fuel generalizing i a with
  | zero =>
    rw [compact, if_neg]
    omega
  | succ fuel ih =>
    rw [compact]
    by_cases hi : i + count < n
    · rw [if_pos hi, ih (i + 1) _ (by omega)]
      by_cases hj : j = i
      · subst hj
        rw [if_neg (by omega), if_pos (by omega), Function.update_self]
      · by_cases hlt : i + 1 ≤ j ∧ j + count < n
        · rw [if_pos hlt, if_pos (by omega), Function.update_of_ne (by omega)]
        · rw [if_neg hlt, if_neg (by omega), Function.update_of_ne hj]
    · rw [if_neg hi, if_neg (by omega)]

/-- Compaction takes the block out and keeps the order of the rest. -/
theorem contents_compact (a : Nat → α) (before mid after : List α)
    (h : contents a (before.length + mid.length + after.length) = before ++ mid ++ after) :
    contents (compact mid.length (before.length + mid.length + after.length)
        (before.length + mid.length + after.length - before.length) before.length a)
      (before.length + after.length) = before ++ after := by
  have hcell (i : Nat) (hi : i < before.length + mid.length + after.length) :
      (before ++ mid ++ after)[i]? = some (a i) := h ▸ getElem?_contents hi
  refine List.ext_getElem? fun i => ?_
  by_cases hi : i < before.length + after.length
  · rw [getElem?_contents hi, compact_apply _ _ _ _ _ (by omega)]
    by_cases hb : before.length ≤ i
    · rw [if_pos (by omega), ← hcell _ (by omega), List.getElem?_append_right (by simp; omega),
        List.getElem?_append_right hb]
      congr 1
      simp
      omega
    · rw [if_neg (by omega), ← hcell _ (by omega), List.append_assoc, List.getElem?_append_left (by omega),
        List.getElem?_append_left (by omega)]
  · rw [List.getElem?_eq_none (by simpa using hi), List.getElem?_eq_none (by simpa using hi)]

/-- A position inside the whole lies inside some block. -/
theorem exists_block (size : β → Nat) {blocks : List β} {k : Nat} (h : k < (blocks.map size).sum) :
    ∃ before b after, blocks = before ++ b :: after ∧ (before.map size).sum ≤ k ∧ k < (before.map size).sum + size b := by
  induction blocks generalizing k with
  | nil => simp at h
  | cons b blocks ih =>
    rw [List.map_cons, List.sum_cons] at h
    by_cases hk : k < size b
    · exact ⟨[], b, blocks, rfl, by simp, by simpa using hk⟩
    · obtain ⟨before, b', after, rfl, hle, hlt⟩ := @ih (k - size b) (by omega)
      refine ⟨b :: before, b', after, rfl, ?_, ?_⟩ <;> simp only [List.map_cons, List.sum_cons] <;> omega

theorem block_unique (size : β → Nat) {before before' after after' : List β} {b b' : β} {k : Nat}
    (h : before ++ b :: after = before' ++ b' :: after') (hle : (before.map size).sum ≤ k)
    (hlt : k < (before.map size).sum + size b) (hle' : (before'.map size).sum ≤ k)
    (hlt' : k < (before'.map size).sum + size b') : b = b' := by
  rcases List.append_eq_append_iff.mp h with ⟨mid, rfl, hmid⟩ | ⟨mid, rfl, hmid⟩
  · cases mid with
    | nil => exact (List.cons.inj hmid).1
    | cons x mid =>
      obtain ⟨rfl, -⟩ := List.cons.inj hmid
      simp only [List.map_append, List.map_cons, List.sum_append, List.sum_cons] at hle'
      omega
  · cases mid with
    | nil => exact (List.cons.inj hmid).1.symm
    | cons x mid =>
      obtain ⟨rfl, -⟩ := List.cons.inj hmid
      simp only [List.map_append, List.map_cons, List.sum_append, List.sum_cons] at hle
      omega

/-- An element of a list with one more at its end is that one, or was there before. -/
theorem concat_eq_append_cons {l before after : List β} {x b : β} (h : l ++ [x] = before ++ b :: after) :
    (b = x ∧ before = l) ∨ ∃ after', l = before ++ b :: after' := by
  rcases List.eq_nil_or_concat after with rfl | ⟨after', y, rfl⟩
  · obtain ⟨rfl, hb⟩ := List.append_inj' h rfl
    exact .inl ⟨(List.cons.inj hb).1.symm, rfl⟩
  · rw [List.concat_eq_append, ← List.cons_append, ← List.append_assoc] at h
    exact .inr ⟨after', (List.append_inj' h rfl).1⟩

/-- An element of a list from which one was removed was there before it or behind it. -/
theorem append_eq_append_cons {before after front back : List β} {b : β} (h : before ++ after = front ++ b :: back) :
    (∃ mid, before = front ++ b :: mid) ∨ ∃ mid, front = before ++ mid ∧ after = mid ++ b :: back := by
  rcases List.append_eq_append_iff.mp h with ⟨mid, rfl, hmid⟩ | ⟨mid, rfl, hmid⟩
  · exact .inr ⟨mid, rfl, hmid⟩
  · cases mid with
    | nil => exact .inr ⟨[], by simp, hmid.symm⟩
    | cons y mid =>
      obtain ⟨rfl, -⟩ := List.cons.inj hmid
      exact .inl ⟨mid, rfl⟩

end Abix.Blocks

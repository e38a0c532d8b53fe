import Abix.Blocks.Packed
import Mathlib.Order.Lattice

/-! Insertion sort in place, and the one order that a stable sort can lead to. -/
namespace Abix.Sorting
open Abix.Blocks
variable {α κ : Type} [LinearOrder κ] (key : α → κ)

/-- `while (j > 0 && key(a[j - 1]) > key(x)) { a[j] = a[j - 1]; --j; }`, and then `a[j] = x;`. -/
def insertDown (x : α) : Nat → (Nat → α) → Nat → α
  | 0, a => Function.update a 0 x
  | j + 1, a =>
    if key x < key (a j) then insertDown x j (Function.update a (j + 1) (a j)) else Function.update a (j + 1) x

/-- `for (i = 1; i < n; ++i)`, inserting `a[i]` into the cells before it. -/
def insertionSort (n : Nat) (a : Nat → α) : Nat → α :=
  (List.range' 1 (n - 1)).foldl (fun a i => insertDown key (a i) i a) a

/-- The items in the order of their keys, those of one key in the order they had. -/
structure StableSort (xs ys : List α) : Prop where
  perm : ys.Perm xs
  sorted : ys.Pairwise fun y y' => key y ≤ key y'
  stable : ∀ k, ys.filter (fun y => key y = k) = xs.filter fun x => key x = k

variable {key} {x : α} {xs ys zs : List α}

/-- Sorted lists that agree on every key are the same. -/
theorem eq_of_filter (hy : ys.Pairwise fun y y' => key y ≤ key y') (hz : zs.Pairwise fun z z' => key z ≤ key z')
    (h : ∀ k, ys.filter (fun y => key y = k) = zs.filter fun z => key z = k) : ys = zs := by
  -- an item of one list is in the other one, where the head is below it
  have hmem {us vs : List α} (h : ∀ k, us.filter (fun u => key u = k) = vs.filter fun v => key v = k) {u : α}
      (hu : u ∈ us) : u ∈ vs :=
    (List.mem_filter.mp (h (key u) ▸ List.mem_filter.mpr ⟨hu, decide_eq_true rfl⟩)).1
  induction ys generalizing zs with
  | nil =>
    cases zs with
    | nil => rfl
    | cons z zs => exact absurd (hmem (fun k => (h k).symm) List.mem_cons_self) List.not_mem_nil
  | cons y ys ih =>
    cases zs with
    | nil => exact absurd (hmem h List.mem_cons_self) List.not_mem_nil
    | cons z zs =>
      have hle {w : α} {ws : List α} (hw : (w :: ws).Pairwise fun u v => key u ≤ key v) {v : α} (hv : v ∈ w :: ws) :
          key w ≤ key v := by
        rcases List.mem_cons.mp hv with rfl | hv
        · exact le_refl _
        · exact (List.pairwise_cons.mp hw).1 v hv
      have hkey : key y = key z :=
        le_antisymm (hle hy (hmem (fun k => (h k).symm) List.mem_cons_self)) (hle hz (hmem h List.mem_cons_self))
      obtain ⟨rfl, -⟩ : y = z ∧ _ := by
        have hhead := h (key y)
        rw [List.filter_cons_of_pos (by simp), List.filter_cons_of_pos (by simpa using hkey.symm)] at hhead
        exact List.cons.inj hhead
      rw [ih (List.pairwise_cons.mp hy).2 (List.pairwise_cons.mp hz).2 fun k => ?_]
      have hk := h k
      by_cases hyk : key y = k
      · rw [List.filter_cons_of_pos (by simpa using hyk), List.filter_cons_of_pos (by simpa using hyk)] at hk
        exact (List.cons.inj hk).2
      · rwa [List.filter_cons_of_neg (by simpa using hyk), List.filter_cons_of_neg (by simpa using hyk)] at hk

theorem StableSort.unique (hy : StableSort key xs ys) (hz : StableSort key xs zs) : ys = zs :=
  eq_of_filter hy.sorted hz.sorted fun k => (hy.stable k).trans (hz.stable k).symm

/-- Where no two items share a key, items of one key are one item at most. -/
theorem filter_perm_eq (h : (xs.map key).Nodup) (hp : ys.Perm xs) (k : κ) :
    ys.filter (fun y => key y = k) = xs.filter fun x => key x = k := by
  have hperm := hp.filter fun x => decide (key x = k)
  have hone : (xs.filter fun x => key x = k).length ≤ 1 := by
    have hsame : ∀ y ∈ (xs.filter fun x => key x = k).map key, y = k := fun y hy => by
      obtain ⟨x, hx, rfl⟩ := List.mem_map.mp hy
      exact of_decide_eq_true (List.mem_filter.mp hx).2
    have hnodup := ((List.filter_sublist (p := fun x => decide (key x = k))).map key).nodup h
    rw [List.eq_replicate_of_mem hsame] at hnodup
    simpa using List.nodup_replicate.mp hnodup
  cases hf : xs.filter fun x => key x = k with
  | nil => exact List.perm_nil.mp (hf ▸ hperm)
  | cons x rest =>
    rw [hf, List.length_cons] at hone
    obtain rfl : rest = [] := List.length_eq_zero_iff.mp (Nat.le_zero.mp (Nat.succ_le_succ_iff.mp hone))
    exact List.perm_singleton.mp (hf ▸ hperm)

/-- With distinct keys any sorted arrangement is the stable one. -/
theorem StableSort.of_perm (h : (xs.map key).Nodup) (hp : ys.Perm xs) (hs : ys.Pairwise fun y y' => key y ≤ key y') :
    StableSort key xs ys := ⟨hp, hs, filter_perm_eq h hp⟩

/-- With distinct keys the arrangement of the items does not matter. -/
theorem StableSort.congr (h : (xs.map key).Nodup) (hp : ys.Perm xs) (hz : StableSort key ys zs) :
    StableSort key xs zs := .of_perm h (hz.perm.trans hp) hz.sorted

/-- An insertion splits the cells before: those that stay, and those that move up behind the item. -/
theorem insertDown_spec (key : α → κ) (x : α) (j : Nat) (a : Nat → α) :
    (∃ before after, contents a j = before ++ after ∧
      contents (insertDown key x j a) (j + 1) = before ++ x :: after ∧ (∀ y ∈ after, key x < key y) ∧
      ∀ y, before.getLast? = some y → key y ≤ key x) ∧ ∀ i, j < i → insertDown key x j a i = a i := by
  induction j generalizing a with
  | zero =>
    refine ⟨⟨[], [], rfl, by simp [insertDown, contents], fun _ hy => absurd hy List.not_mem_nil, nofun⟩,
      fun i hi => ?_⟩
    exact Function.update_of_ne (Nat.ne_of_gt hi) _ _
  | succ j ih =>
    rw [insertDown]
    have hbelow (v : α) : contents (Function.update a (j + 1) v) (j + 1) = contents a (j + 1) :=
      contents_congr fun i hi => Function.update_of_ne (Nat.ne_of_lt hi) _ _
    split
    · rename_i hlt
      obtain ⟨⟨before, after, hsplit, hinserted, habove, hlast⟩, hrest⟩ := ih (Function.update a (j + 1) (a j))
      refine ⟨⟨before, after ++ [a j], ?_, ?_, ?_, hlast⟩, fun i hi => ?_⟩
      · rw [contents_succ, ← List.append_assoc, ← hsplit]
        exact congrArg (· ++ [a j]) (contents_congr fun i hi => (Function.update_of_ne (by omega) _ _).symm)
      · rw [contents_succ, hinserted, hrest (j + 1) (Nat.lt_succ_self j), Function.update_self]
        simp
      · exact List.forall_mem_append.mpr ⟨habove, by simpa using hlt⟩
      · rw [hrest i (by omega), Function.update_of_ne (by omega)]
    · rename_i hle
      refine ⟨⟨contents a (j + 1), [], (List.append_nil _).symm, ?_, fun _ hy => absurd hy List.not_mem_nil, ?_⟩, ?_⟩
      · rw [contents_succ, hbelow, Function.update_self]
      · intro y hy
        rw [contents_succ, List.getLast?_concat] at hy
        exact Option.some.inj hy ▸ not_lt.mp hle
      · exact fun i hi => Function.update_of_ne (by omega) _ _

/-- An insertion into sorted cells sorts them with the new one. -/
theorem StableSort.insertDown {j : Nat} {a : Nat → α} (h : StableSort key xs (contents a j)) :
    StableSort key (xs ++ [x]) (contents (insertDown key x j a) (j + 1)) := by
  obtain ⟨⟨before, after, hsplit, hinserted, habove, hlast⟩, -⟩ := insertDown_spec key x j a
  obtain ⟨hperm, hsorted, hstable⟩ := h
  rw [hsplit] at hperm hsorted hstable
  rw [hinserted]
  obtain ⟨hbefore, hafter, hcross⟩ := List.pairwise_append.mp hsorted
  have hbelow : ∀ y ∈ before, key y ≤ key x := by
    intro y hy
    rcases List.eq_nil_or_concat before with rfl | ⟨front, last, rfl⟩
    · cases hy
    · rw [List.concat_eq_append] at hy hbefore hlast
      have hle := hlast last List.getLast?_concat
      rcases List.mem_append.mp hy with hy | hy
      · exact ((List.pairwise_append.mp hbefore).2.2 y hy last List.mem_cons_self).trans hle
      · exact List.mem_singleton.mp hy ▸ hle
  refine ⟨?_, ?_, fun k => ?_⟩
  · refine List.perm_middle.trans ((List.Perm.cons x hperm).trans ?_)
    exact (List.perm_append_singleton x xs).symm
  · refine List.pairwise_append.mpr ⟨hbefore, List.pairwise_cons.mpr ⟨fun y hy => (habove y hy).le, hafter⟩, ?_⟩
    intro y hy z hz
    rcases List.mem_cons.mp hz with rfl | hz
    · exact hbelow y hy
    · exact hcross y hy z hz
  · have hk := hstable k
    rw [List.filter_append] at hk
    rw [List.filter_append, List.filter_append, ← hk]
    by_cases hx : key x = k
    · -- the items that moved up have larger keys
      have hnone : after.filter (fun y => key y = k) = [] :=
        List.filter_eq_nil_iff.mpr fun y hy => by simpa [← hx] using (habove y hy).ne'
      rw [List.filter_cons_of_pos (by simpa using hx), hnone]
      simp [hx]
    · rw [List.filter_cons_of_neg (by simpa using hx)]
      simp [hx]

/-- The sort arranges the first `n` cells stably. -/
theorem stableSort_insertionSort (key : α → κ) (n : Nat) (a : Nat → α) :
    StableSort key (contents a n) (contents (insertionSort key n a) n) := by
  -- after the turn for `i` the cells up to it are sorted, and those behind are as they were
  have hturns (m : Nat) : let b := (List.range' 1 m).foldl (fun a i => Sorting.insertDown key (a i) i a) a
      StableSort key (contents a (m + 1)) (contents b (m + 1)) ∧ ∀ i, m < i → b i = a i := by
    induction m with
    | zero =>
      refine ⟨⟨.refl _, ?_, fun _ => rfl⟩, fun _ _ => rfl⟩
      rw [contents_succ]
      exact List.pairwise_singleton _ _
    | succ m ih =>
      obtain ⟨hsorted, hrest⟩ := ih
      rw [List.range'_1_concat, List.foldl_concat, Nat.add_comm 1 m]
      refine ⟨?_, fun i hi => ?_⟩
      · rw [contents_succ a, hrest (m + 1) (Nat.lt_succ_self m)]
        exact hsorted.insertDown
      · rw [(insertDown_spec _ _ _ _).2 i hi]
        exact hrest i (by omega)
  cases n with
  | zero => exact ⟨.refl _, .nil, fun _ => rfl⟩
  | succ m => exact (hturns m).1

end Abix.Sorting

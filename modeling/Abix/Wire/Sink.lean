import Abix.Blocks.Packed

/-! Writing bytes to something that may refuse one, and then gets no more. -/
namespace Abix.Wire
open Abix.Blocks
variable {σ α : Type}

/-- What writes to a sink, answers whether all was taken, and leaves the sink. -/
abbrev Put (σ : Type) := σ → Bool × σ

namespace Put

def done : Put σ := fun s => (true, s)

def refuse : Put σ := fun s => (false, s)

/-- The second part is written only if the first was taken. -/
def and (p q : Put σ) : Put σ := fun s => if (p s).1 then q (p s).2 else p s

def all (put : UInt8 → Put σ) : List UInt8 → Put σ
  | [] => done
  | b :: bs => (put b).and (all put bs)

def each (f : Nat → Put σ) : Nat → Nat → Put σ
  | 0, _ => done
  | left + 1, i => (f i).and (each f left (i + 1))

@[simp] theorem done_and (p : Put σ) : done.and p = p := rfl

@[simp] theorem and_done (p : Put σ) : p.and done = p := by
  funext s
  rcases h : p s with ⟨taken, s'⟩
  cases taken <;> simp [and, done, h]

theorem and_assoc (p q r : Put σ) : (p.and q).and r = p.and (q.and r) := by
  funext s
  by_cases h : (p s).1 = true <;> simp [and, h]

variable {put : UInt8 → Put σ}

@[simp] theorem all_nil : all put [] = done := rfl

theorem all_append (xs ys : List UInt8) : all put (xs ++ ys) = (all put xs).and (all put ys) := by
  induction xs with
  | nil => rfl
  | cons x xs ih => rw [List.cons_append, all, all, ih, and_assoc]

/-- What is put byte by byte and what follows are one string of bytes. -/
theorem all_and_all (xs ys : List UInt8) : (all put xs).and (all put ys) = all put (xs ++ ys) :=
  (all_append xs ys).symm

/-- A loop whose turns write bytes writes them one after the other. -/
theorem each_all (bytes : Nat → List UInt8) (n i : Nat) :
    each (fun k => all put (bytes k)) n i = all put ((List.range' i n).flatMap bytes) := by
  induction n generalizing i with
  | zero => rfl
  | succ n ih => rw [each, ih, all_and_all, List.range'_succ, List.flatMap_cons]

/-- A sink that takes everything folds over the bytes. -/
theorem all_of_takes {step : σ → UInt8 → σ} (h : ∀ b s, put b s = (true, step s b)) (bs : List UInt8) (s : σ) :
    all put bs s = (true, bs.foldl step s) := by
  induction bs generalizing s with
  | nil => rfl
  | cons b bs ih =>
    simp only [all, and, h, if_true]
    exact ih (step s b)

end Put

/-- An array with room for so many bytes, of which the first are written. -/
structure Buffer where
  out : Nat → UInt8
  capacity : Nat
  size : Nat

namespace Buffer

def put (byte : UInt8) : Put Buffer := fun b =>
  if b.capacity ≤ b.size then (false, b)
  else (true, { b with out := Function.update b.out b.size byte, size := b.size + 1 })

theorem all_put (bs : List UInt8) (b : Buffer) (h : b.size ≤ b.capacity) :
    Put.all put bs b = (decide (b.size + bs.length ≤ b.capacity),
      { b with
        out := store b.out b.size (bs.take (b.capacity - b.size))
        size := min b.capacity (b.size + bs.length) }) := by
  induction bs generalizing b with
  | nil => simp [Put.done, h, store]
  | cons x xs ih =>
    by_cases hfull : b.capacity ≤ b.size
    · have hsize : b.size = b.capacity := Nat.le_antisymm h hfull
      obtain ⟨out, capacity, size⟩ := b
      obtain rfl : size = capacity := hsize
      simp [Put.all, Put.and, put, store]
    · obtain ⟨out, capacity, size⟩ := b
      have hlt : size + 1 ≤ capacity := Nat.lt_of_not_le hfull
      have hroom : capacity - size = (capacity - (size + 1)) + 1 := by omega
      have hlength : size + 1 + xs.length = size + (x :: xs).length := by
        rw [List.length_cons]
        omega
      have hrest := ih ⟨Function.update out size x, capacity, size + 1⟩ hlt
      rw [hlength] at hrest
      rw [hroom, List.take_succ_cons, store_cons, ← hrest]
      simp [Put.all, Put.and, put, Nat.not_le.mpr hlt]

end Buffer

end Abix.Wire

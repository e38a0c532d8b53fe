import Mathlib.Algebra.Group.Nat.Defs
import Mathlib.Data.List.Basic
import Mathlib.Data.List.Infix

/-! Numbers of a fixed width, the most significant byte first, and readers that take a value from
the front of a string of bytes. -/
namespace Abix.Wire
variable {α β : Type}

def toBytes : Nat → Nat → List UInt8
  | 0, _ => []
  | n + 1, v => toBytes n (v / 256) ++ [UInt8.ofNat v]

def ofBytes (bs : List UInt8) : Nat := bs.foldl (fun v b => 256 * v + b.toNat) 0

@[simp] theorem length_toBytes (n v : Nat) : (toBytes n v).length = n := by
  induction n generalizing v with
  | zero => rfl
  | succ n ih => simp [toBytes, ih]

theorem ofBytes_concat (bs : List UInt8) (b : UInt8) : ofBytes (bs ++ [b]) = 256 * ofBytes bs + b.toNat := by
  simp [ofBytes]

theorem ofBytes_toBytes (n v : Nat) : ofBytes (toBytes n v) = v % 256 ^ n := by
  induction n generalizing v with
  | zero => simp [toBytes, ofBytes, Nat.mod_one]
  | succ n ih =>
    have hbyte : (UInt8.ofNat v).toNat = v % 256 := UInt8.toNat_ofNat'
    calc ofBytes (toBytes (n + 1) v) = 256 * (v / 256 % 256 ^ n) + v % 256 := by rw [toBytes, ofBytes_concat, ih, hbyte]
      _ = v % (256 * 256 ^ n) := by rw [Nat.mod_mul, Nat.add_comm]
      _ = v % 256 ^ (n + 1) := by rw [Nat.pow_succ']

theorem ofBytes_toBytes_of_lt {n v : Nat} (h : v < 256 ^ n) : ofBytes (toBytes n v) = v := by
  rw [ofBytes_toBytes, Nat.mod_eq_of_lt h]

/-- Takes a value from the front, and leaves the rest. -/
abbrev Reader := StateT (List UInt8) Option

namespace Reader

def number (n : Nat) : Reader Nat := fun bs =>
  if n ≤ bs.length then some (ofBytes (bs.take n), bs.drop n) else none

def expect (bs : List UInt8) : Reader Unit := fun input =>
  if bs <+: input then some ((), input.drop bs.length) else none

def times (p : Reader α) : Nat → Reader (List α)
  | 0 => pure []
  | n + 1 => do
    let x ← p
    let xs ← times p n
    pure (x :: xs)

/-- The reader takes exactly these bytes for the value, whatever follows. -/
def Reads (p : Reader α) (bs : List UInt8) (x : α) : Prop := ∀ rest, p.run (bs ++ rest) = some (x, rest)

theorem reads_pure (x : α) : Reads (pure x) [] x := fun _ => rfl

theorem Reads.bind {p : Reader α} {f : α → Reader β} {bs cs : List UInt8} {x : α} {y : β} (hp : Reads p bs x)
    (hf : Reads (f x) cs y) : Reads (p >>= f) (bs ++ cs) y := by
  intro rest
  rw [StateT.run_bind, List.append_assoc, hp]
  exact hf rest

theorem reads_number {n v : Nat} (h : v < 256 ^ n) : Reads (number n) (toBytes n v) v := by
  intro rest
  have hlength : n ≤ (toBytes n v ++ rest).length := by simp
  simp only [StateT.run, number, hlength, if_true]
  rw [List.take_left' (length_toBytes n v), List.drop_left' (length_toBytes n v), ofBytes_toBytes_of_lt h]

theorem reads_expect (bs : List UInt8) : Reads (expect bs) bs () := by
  intro rest
  simp [StateT.run, expect]

theorem reads_times {p : Reader α} {bytes : β → List UInt8} {value : β → α} (xs : List β)
    (h : ∀ x ∈ xs, Reads p (bytes x) (value x)) : Reads (times p xs.length) (xs.flatMap bytes) (xs.map value) := by
  induction xs with
  | nil => exact reads_pure []
  | cons x xs ih =>
    have hrest := ih fun y hy => h y (List.mem_cons_of_mem x hy)
    rw [List.flatMap_cons, ← List.append_nil (xs.flatMap bytes)]
    exact (h x List.mem_cons_self).bind (hrest.bind (reads_pure _))

/-- What one reader takes is no proper prefix of anything else that it takes. -/
theorem Reads.eq_of_front {p : Reader α} {bs cs : List UInt8} {x y : α} (hx : Reads p bs x) (hy : Reads p cs y)
    (h : bs <+: cs) : x = y ∧ bs = cs := by
  obtain ⟨rest, rfl⟩ := h
  have hsame : some (x, rest) = some (y, []) := by rw [← hx rest, ← hy [], List.append_nil]
  obtain ⟨rfl, rfl⟩ := Prod.mk.inj (Option.some.inj hsame)
  exact ⟨rfl, (List.append_nil bs).symm⟩

end Reader

end Abix.Wire

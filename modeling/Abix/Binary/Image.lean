import Abix.Trace.Traced
import Mathlib.Algebra.Group.Nat.Defs

/-! What the parsers of native binaries share: the model that they fill in, and reading the bytes
that they are given. -/
namespace Abix.Binary
open Abix.Trace Abix.Trace.Traced

inductive Format where
  | unknown
  | elf
  | macho
  | pe
  deriving DecidableEq

inductive OperatingSystem where
  | unknown
  | linux
  | windows
  | macos
  | freebsd
  | android
  deriving DecidableEq

inductive Architecture where
  | unknown
  | x86
  | x86_64
  | arm32
  | arm64
  | riscv32
  | riscv64
  deriving DecidableEq

inductive Endianness where
  | little
  | big
  deriving DecidableEq

/-- `segment` is for Mach-O alone. -/
structure Section where
  name : List UInt8
  segment : List UInt8 := []
  fileOffset : UInt64 := 0
  fileSize : UInt64 := 0
  address : UInt64 := 0
  size : UInt64 := 0
  alignment : UInt64 := 0
  type : UInt32 := 0
  flags : UInt64 := 0
  deriving DecidableEq

structure Export where
  name : List UInt8
  address : UInt64
  ordinal : UInt32
  deriving DecidableEq

structure Target where
  format : Format
  os : OperatingSystem
  architecture : Architecture
  endian : Endianness
  pointerSize : UInt8
  imageBase : UInt64
  deriving DecidableEq

structure ParseResult where
  target : Target
  sections : List Section
  exports : List Export

/-- A null pointer is `none`. What it points to goes on behind `size`, but is not to be read there. -/
structure Bytes where
  data : Option (UInt64 → UInt8)
  size : UInt64

/-- A byte that is read, or a symbol that is looked at: where it is in a table of so many bytes. -/
inductive Event where
  | byte (index : UInt64)
  | symbol (offset size : UInt64)
  deriving DecidableEq

namespace Bytes
variable (b : Bytes)

/-- Bytes are in the buffer, and symbols in their table. -/
def Inside : Event → Prop
  | .byte index => b.data.isSome ∧ index < b.size
  | .symbol offset size => offset.toNat + 24 ≤ size.toNat

def byteAt (index : UInt64) : UInt8 := (b.data.getD fun _ => 0) index

def read (index : UInt64) : Traced Event UInt8 := do
  emit (.byte index)
  pure (b.byteAt index)

/-- So many bytes as one number, the first the least significant. -/
def word (offset : UInt64) (count : Nat) : UInt64 :=
  (List.range count).foldl
    (fun value i => value ||| (b.byteAt (offset + .ofNat i)).toUInt64 <<< (.ofNat i * 8)) 0

def u16 (offset : UInt64) : UInt16 := (b.byteAt offset).toUInt16 ||| (b.byteAt (offset + 1)).toUInt16 <<< 8

def u32 (offset : UInt64) : UInt32 := (b.word offset 4).toUInt32

def u64 (offset : UInt64) : UInt64 := b.word offset 8

/-- The text from the cursor on, to the end or to a zero before it. -/
def text (cursor stop : UInt64) : List UInt8 :=
  ((List.range (stop.toNat - cursor.toNat)).map fun i => b.byteAt (cursor + .ofNat i)).takeWhile (· ≠ 0)

end Bytes

abbrev inBounds (offset length size : UInt64) : Prop := offset ≤ size ∧ length ≤ size - offset

theorem inBounds.part {offset length size k n : UInt64} (h : inBounds offset length size) (hk : k ≤ length)
    (hn : n ≤ length - k) : inBounds (offset + k) n size := by
  obtain ⟨hoffset, hlength⟩ := h
  exact ⟨by lia, by lia⟩

theorem inBounds.of_size {least size k n : UInt64} (h : least ≤ size) (hk : k ≤ least) (hn : n ≤ least - k) :
    inBounds k n size := ⟨by lia, by lia⟩

theorem inBounds.front {offset length size n : UInt64} (h : inBounds offset length size) (hn : n ≤ length) :
    inBounds offset n size := ⟨h.1, UInt64.le_trans hn h.2⟩

/-- So are the entries of a table, if its size does not wrap. -/
theorem inBounds.entry {offset count width size i : UInt64} (h : inBounds offset (count * width) size)
    (hwrap : count.toNat * width.toNat < 2 ^ 64) (hi : i < count) : inBounds (offset + i * width) width size := by
  have hlt := UInt64.lt_iff_toNat_lt.mp hi
  have hnext : (i.toNat + 1) * width.toNat ≤ count.toNat * width.toNat := Nat.mul_le_mul_right _ hlt
  rw [Nat.succ_mul] at hnext
  have htable : (count * width).toNat = count.toNat * width.toNat := by rw [UInt64.toNat_mul, Nat.mod_eq_of_lt hwrap]
  have hentry : (i * width).toNat = i.toNat * width.toNat := by
    rw [UInt64.toNat_mul, Nat.mod_eq_of_lt (by omega)]
  have hk : i * width ≤ count * width := by
    rw [UInt64.le_iff_toNat_le, htable, hentry]
    omega
  refine h.part hk ?_
  rw [UInt64.le_iff_toNat_le, UInt64.toNat_sub_of_le _ _ hk, htable, hentry]
  omega

/-- `for (i = 0; i < count; ++i) value |= data[offset + i] << (i * 8);`. -/
def readBytes (b : Bytes) (offset count : UInt64) : Traced Event UInt64 :=
  forUpTo count (fun i value => do
    let byte ← b.read (offset + i)
    pure (.inl (value ||| byte.toUInt64 <<< (i * 8)))) 0

def readU16 (b : Bytes) (offset : UInt64) : Traced Event UInt16 := do
  let low ← b.read offset
  let high ← b.read (offset + 1)
  pure (low.toUInt16 ||| high.toUInt16 <<< 8)

def readU32 (b : Bytes) (offset : UInt64) : Traced Event UInt32 := do
  let value ← readBytes b offset 4
  pure value.toUInt32

def readU64 (b : Bytes) (offset : UInt64) : Traced Event UInt64 := readBytes b offset 8

/-- `while (cursor < end && data[cursor] != 0) name.push_back(data[cursor++]);`. -/
def readName (turns : Nat) (b : Bytes) (cursor stop : UInt64) : Traced Event (List UInt8) :=
  loop (fun (cursor, name) =>
    if cursor < stop then do
      let c ← b.read cursor
      if c = 0 then pure (.inr name) else pure (.inl (cursor + 1, name ++ [c]))
    else pure (.inr name)) turns (cursor, ([] : List UInt8))

def fixedNameTurn (b : Bytes) (offset i : UInt64) (name : List UInt8) :
    Traced Event (List UInt8 ⊕ List UInt8) := do
  let c ← b.read (offset + i)
  if c = 0 then pure (.inr name) else pure (.inl (name ++ [c]))

def readFixedName (b : Bytes) (offset capacity : UInt64) : Traced Event (List UInt8) :=
  forUpTo capacity (fixedNameTurn b offset) []

/-- A parser that looks only at what is inside, and ends if its loops are given turns enough. -/
structure StaysInside (b : Bytes) (parse : Nat → Traced Event ParseResult) : Prop where
  inside : ∀ turns, ∀ e ∈ (parse turns).trace, b.Inside e
  ends : ∃ bound, ∀ turns, bound ≤ turns → (parse turns).outcome ≠ .running

theorem staysInside_of_spec {b : Bytes} {parse : Nat → Traced Event ParseResult} {E : Prop} {bound : Nat}
    {Q : ParseResult → Prop} (h : ∀ turns, Spec b.Inside E (turns < bound) (parse turns) Q) :
    StaysInside b parse where
  inside turns := (h turns).trace
  ends := ⟨bound, fun turns hle hrunning => Nat.not_lt.mpr hle ((h turns).running hrunning)⟩

section Reads
variable {b : Bytes} {E R : Prop} {offset count : UInt64}

theorem toUInt64_lt (x : UInt32) : x.toUInt64 < 4294967296 := by
  rw [UInt64.lt_iff_toNat_lt, UInt32.toNat_toUInt64]
  exact x.toNat_lt

theorem read_spec (hdata : b.data.isSome) (h : offset < b.size) :
    Spec b.Inside E R (b.read offset) (· = b.byteAt offset) :=
  (Spec.emit ⟨hdata, h⟩).bind fun _ _ => Spec.pure rfl

theorem readBytes_spec (hdata : b.data.isSome) (h : inBounds offset count b.size) :
    Spec b.Inside E R (readBytes b offset count) (· = b.word offset count.toNat) := by
  refine Spec.forUpTo (I := fun i value => value = b.word offset i.toNat) rfl
    (fun i value hi hvalue => ?_) fun _ h => h
  refine (read_spec hdata (by lia)).bind fun byte hbyte => Spec.pure ?_
  rw [Sum.elim_inl, toNat_succ hi, Bytes.word, List.range_succ, List.foldl_append, ← Bytes.word, hvalue, hbyte]
  simp

theorem readU16_spec (hdata : b.data.isSome) (h : inBounds offset 2 b.size) :
    Spec b.Inside E R (readU16 b offset) (· = b.u16 offset) := by
  refine (read_spec hdata (by lia)).bind fun low hlow => ?_
  refine (read_spec hdata (by lia)).bind fun high hhigh => Spec.pure ?_
  rw [hlow, hhigh, Bytes.u16]

theorem readU32_spec (hdata : b.data.isSome) (h : inBounds offset 4 b.size) :
    Spec b.Inside E R (readU32 b offset) (· = b.u32 offset) :=
  (readBytes_spec hdata h).bind fun _ hvalue => Spec.pure (congrArg UInt64.toUInt32 hvalue)

theorem readU64_spec (hdata : b.data.isSome) (h : inBounds offset 8 b.size) :
    Spec b.Inside E R (readU64 b offset) (· = b.u64 offset) := readBytes_spec hdata h

theorem text_of_le {cursor stop : UInt64} (h : stop ≤ cursor) : b.text cursor stop = [] := by
  rw [Bytes.text, Nat.sub_eq_zero_of_le (UInt64.le_iff_toNat_le.mp h)]
  rfl

theorem text_of_lt {cursor stop : UInt64} (h : cursor < stop) :
    b.text cursor stop = if b.byteAt cursor = 0 then [] else b.byteAt cursor :: b.text (cursor + 1) stop := by
  have hlt := UInt64.lt_iff_toNat_lt.mp h
  have hlength : stop.toNat - cursor.toNat = stop.toNat - (cursor + 1).toNat + 1 := by
    rw [toNat_succ h]
    omega
  have hshift : (fun i => b.byteAt (cursor + .ofNat i)) ∘ Nat.succ = fun i => b.byteAt (cursor + 1 + .ofNat i) := by
    funext i
    simp only [Function.comp, Nat.succ_eq_add_one, UInt64.ofNat_add]
    congr 1
    lia
  have hfirst : cursor + UInt64.ofNat 0 = cursor := UInt64.add_zero cursor
  rw [Bytes.text, hlength, List.range_succ_eq_map, List.map_cons, List.map_map, hshift, hfirst, List.takeWhile_cons]
  by_cases hzero : b.byteAt cursor = 0
  · simp [hzero]
  · simp [hzero, Bytes.text]

/-- A name ends in the buffer where its table does, and its loop ends too. -/
theorem readName_spec {turns : Nat} {cursor stop : UInt64} (hdata : b.data.isSome) (hstop : stop ≤ b.size)
    (hR : turns < 2 ^ 64 → R) : Spec b.Inside E R (readName turns b cursor stop) (· = b.text cursor stop) := by
  refine Spec.loop (I := fun n s => s.2 ++ b.text s.1 stop = b.text cursor stop ∧ n = stop.toNat - s.1.toNat)
    ?_ ⟨rfl, rfl⟩ fun hle => hR (Nat.lt_of_le_of_lt (Nat.le_trans hle (Nat.sub_le _ _)) stop.toNat_lt)
  rintro n ⟨c, name⟩ ⟨hname, rfl⟩
  refine Spec.ite (fun hlt => ?_) fun hge => Spec.pure ?_
  · have hnext := toNat_succ hlt
    rw [text_of_lt hlt] at hname
    refine (read_spec hdata (UInt64.lt_of_lt_of_le hlt hstop)).bind fun byte hbyte => ?_
    subst hbyte
    refine Spec.ite (fun hzero => Spec.pure ?_) fun hne => Spec.pure ⟨_, ?_, ?_, rfl⟩
    · rwa [if_pos hzero, List.append_nil] at hname
    · rw [UInt64.lt_iff_toNat_lt] at hlt
      dsimp only
      omega
    · rwa [if_neg hne, List.append_cons] at hname
  · rwa [text_of_le (UInt64.not_lt.mp hge), List.append_nil] at hname

theorem readFixedName_spec {offset capacity : UInt64} (hdata : b.data.isSome)
    (h : ∀ i < capacity, (∀ j < i, b.byteAt (offset + j) ≠ 0) → offset + i < b.size) :
    Spec b.Inside E R (readFixedName b offset capacity) fun _ => True := by
  refine Spec.forUpTo (I := fun i _ => ∀ j < i, b.byteAt (offset + j) ≠ 0) ?_ (fun i name hi hbefore => ?_)
    fun _ _ => trivial
  · exact fun j hj => absurd hj UInt64.not_lt_zero
  · refine (read_spec hdata (h i hi hbefore)).bind fun c hc => ?_
    refine Spec.ite (fun _ => Spec.pure trivial) fun hne => Spec.pure fun j hj => ?_
    by_cases hlast : j = i
    · rwa [hlast, ← hc]
    · exact hbefore j (by lia)

theorem readFixedName_fits {offset capacity : UInt64} (hdata : b.data.isSome) (h : inBounds offset capacity b.size) :
    Spec b.Inside E R (readFixedName b offset capacity) fun _ => True :=
  readFixedName_spec hdata fun i hi _ => by lia

end Reads

end Abix.Binary

import Abix.Util.Hash
import Abix.Wire.Reader
import Abix.Wire.Sink

/-! Canonical Layout Encoding v1: a layout as a string of bytes that names no names. The same visitor
feeds a buffer and the hash. -/
namespace Abix.Model.Compat
open Abix.Blocks Abix.Util Abix.Wire
variable {σ : Type}

structure LayoutContext where
  arch : UInt32
  os : UInt32
  abi : UInt32
  compiler : UInt32
  deriving DecidableEq

structure TypeLayout extends Model.TypeLayout where
  fieldBegin : UInt32
  fieldCount : UInt32
  deriving DecidableEq

structure Field where
  nameOffset : UInt32
  typeId : TypeId
  offset : UInt32
  flags : UInt32
  bitOffset : UInt16
  bitWidth : UInt16
  deriving DecidableEq

def canonicalLayoutVersion : UInt16 := 1

def canonicalLayoutDomain : UInt64 := 0x4C41594F55545631

def canonicalLayoutFlags (flags : UInt32) : UInt32 := flags &&& 0xFFFF0003

def magic : List UInt8 := [65, 66, 73, 88, 45, 67, 76, 69]

def putU16 (put : UInt8 → Put σ) (value : UInt16) : Put σ := (put (value >>> 8).toUInt8).and (put value.toUInt8)

def putU32 (put : UInt8 → Put σ) (value : UInt32) : Put σ :=
  (put (value >>> 24).toUInt8).and <| (put (value >>> 16).toUInt8).and <| (put (value >>> 8).toUInt8).and <|
    put value.toUInt8

def putU64 (put : UInt8 → Put σ) (value : UInt64) : Put σ :=
  (put (value >>> 56).toUInt8).and <| (put (value >>> 48).toUInt8).and <| (put (value >>> 40).toUInt8).and <|
    (put (value >>> 32).toUInt8).and <| (put (value >>> 24).toUInt8).and <| (put (value >>> 16).toUInt8).and <|
      (put (value >>> 8).toUInt8).and <| put value.toUInt8

def putHash (put : UInt8 → Put σ) (value : Hash128) : Put σ := (putU64 put value.lo).and (putU64 put value.hi)

def putField (put : UInt8 → Put σ) (field : Field) : Put σ :=
  (putHash put field.typeId).and <| (putU32 put field.offset).and <| putU32 put (canonicalLayoutFlags field.flags)

/-- A null `fields` is `none`. -/
def visitCanonicalLayout (put : UInt8 → Put σ) (context : LayoutContext) (typeId : TypeId) (layout : TypeLayout)
    (fields : Option (Nat → Field)) : Put σ :=
  (Put.all put magic).and <| (putU16 put canonicalLayoutVersion).and <| (putU32 put context.arch).and <|
    (putU32 put context.os).and <| (putU32 put context.abi).and <| (putU32 put context.compiler).and <|
      (putHash put typeId).and <| (putU32 put layout.size).and <| (putU32 put layout.align).and <|
        (putU32 put layout.fieldCount).and <|
          match fields with
          | none => if layout.fieldCount ≠ 0 then .refuse else .done
          | some fields => Put.each (fun i => putField put (fields i)) layout.fieldCount.toNat 0

/-- The sink of the hash takes everything. -/
def putByteHash (byte : UInt8) : Put CanonicalState := fun state => (true, canonicalHashByte state byte)

/-- The number of bytes, zero if they did not all fit, and the buffer afterwards. -/
def encodeCanonicalLayout (context : LayoutContext) (typeId : TypeId) (layout : TypeLayout)
    (fields : Option (Nat → Field)) (out : Nat → UInt8) (capacity : Nat) : Nat × (Nat → UInt8) :=
  let r := visitCanonicalLayout Buffer.put context typeId layout fields ⟨out, capacity, 0⟩
  (if r.1 then r.2.size else 0, r.2.out)

def canonicalLayoutHash (context : LayoutContext) (typeId : TypeId) (layout : TypeLayout)
    (fields : Option (Nat → Field)) : Hash128 :=
  let r := visitCanonicalLayout putByteHash context typeId layout fields (canonicalHashBegin canonicalLayoutDomain)
  if r.1 then r.2.hash else .zero

/-- A hash is its low lane, then its high lane. -/
def hashBytes (value : Hash128) : List UInt8 := toBytes 8 value.lo.toNat ++ toBytes 8 value.hi.toNat

def fieldBytes (field : Field) : List UInt8 :=
  hashBytes field.typeId ++ (toBytes 4 field.offset.toNat ++ toBytes 4 (field.flags &&& 0xFFFF0003).toNat)

def headerBytes (context : LayoutContext) (typeId : TypeId) (layout : TypeLayout) : List UInt8 :=
  [65, 66, 73, 88, 45, 67, 76, 69] ++ (toBytes 2 1 ++ (toBytes 4 context.arch.toNat ++ (toBytes 4 context.os.toNat ++
    (toBytes 4 context.abi.toNat ++ (toBytes 4 context.compiler.toNat ++ (hashBytes typeId ++
      (toBytes 4 layout.size.toNat ++ (toBytes 4 layout.align.toNat ++ toBytes 4 layout.fieldCount.toNat))))))))

def fieldList (layout : TypeLayout) (fields : Option (Nat → Field)) : List Field :=
  match fields with
  | none => []
  | some fields => contents fields layout.fieldCount.toNat

def layoutBytes (context : LayoutContext) (typeId : TypeId) (layout : TypeLayout) (fields : Option (Nat → Field)) :
    List UInt8 :=
  headerBytes context typeId layout ++ (fieldList layout fields).flatMap fieldBytes

section Visit
variable {put : UInt8 → Put σ}

private theorem toBytes_uint16 (value : UInt16) : toBytes 2 value.toNat = [(value >>> 8).toUInt8, value.toUInt8] := by
  simp [toBytes, ← UInt8.toNat_inj, Nat.shiftRight_eq_div_pow]

theorem toBytes_uint32 (value : UInt32) : toBytes 4 value.toNat =
    [(value >>> 24).toUInt8, (value >>> 16).toUInt8, (value >>> 8).toUInt8, value.toUInt8] := by
  simp [toBytes, ← UInt8.toNat_inj, Nat.shiftRight_eq_div_pow, Nat.div_div_eq_div_mul]

theorem toBytes_uint64 (value : UInt64) : toBytes 8 value.toNat =
    [(value >>> 56).toUInt8, (value >>> 48).toUInt8, (value >>> 40).toUInt8, (value >>> 32).toUInt8,
      (value >>> 24).toUInt8, (value >>> 16).toUInt8, (value >>> 8).toUInt8, value.toUInt8] := by
  simp [toBytes, ← UInt8.toNat_inj, Nat.shiftRight_eq_div_pow, Nat.div_div_eq_div_mul]

private theorem putU16_eq (value : UInt16) : putU16 put value = Put.all put (toBytes 2 value.toNat) := by
  simp only [toBytes_uint16, putU16, Put.all, Put.and_done]

theorem putU32_eq (value : UInt32) : putU32 put value = Put.all put (toBytes 4 value.toNat) := by
  simp only [toBytes_uint32, putU32, Put.all, Put.and_done]

theorem putU64_eq (value : UInt64) : putU64 put value = Put.all put (toBytes 8 value.toNat) := by
  simp only [toBytes_uint64, putU64, Put.all, Put.and_done]

theorem putHash_eq (value : Hash128) : putHash put value = Put.all put (hashBytes value) := by
  rw [putHash, putU64_eq, putU64_eq, Put.all_and_all, hashBytes]

private theorem putField_eq (field : Field) : putField put field = Put.all put (fieldBytes field) := by
  simp only [putField, putHash_eq, putU32_eq, Put.all_and_all, canonicalLayoutFlags, fieldBytes]

/-- What the visitor writes: the specified bytes, or the table without the entries that are not there. -/
theorem visit_eq (context : LayoutContext) (typeId : TypeId) (layout : TypeLayout) (fields : Option (Nat → Field)) :
    visitCanonicalLayout put context typeId layout fields =
      if layout.fieldCount ≠ 0 ∧ fields = none then (Put.all put (headerBytes context typeId layout)).and .refuse
      else Put.all put (layoutBytes context typeId layout fields) := by
  have hheader : ∀ p : Put σ, (Put.all put (headerBytes context typeId layout)).and p =
      (Put.all put magic).and ((putU16 put canonicalLayoutVersion).and ((putU32 put context.arch).and
        ((putU32 put context.os).and ((putU32 put context.abi).and ((putU32 put context.compiler).and
          ((putHash put typeId).and ((putU32 put layout.size).and ((putU32 put layout.align).and
            ((putU32 put layout.fieldCount).and p))))))))) := fun p => by
    simp only [headerBytes, Put.all_append, Put.and_assoc, putU16_eq, putU32_eq, putHash_eq]
    rfl
  unfold visitCanonicalLayout
  rw [← hheader]
  cases fields with
  | none =>
    by_cases hcount : layout.fieldCount = 0
    · simp [hcount, layoutBytes, fieldList]
    · simp [hcount]
  | some fields =>
    have hfields : Put.each (fun i => putField put (fields i)) layout.fieldCount.toNat 0 =
        Put.all put ((contents fields layout.fieldCount.toNat).flatMap fieldBytes) := by
      simp only [putField_eq]
      rw [Put.each_all, contents, List.flatMap_map, List.range_eq_range']
    simp only [hfields, Put.all_and_all, reduceCtorEq, and_false, if_false, layoutBytes, fieldList]

end Visit

@[simp] theorem length_hashBytes (value : Hash128) : (hashBytes value).length = 16 := by simp [hashBytes]

@[simp] theorem length_fieldBytes (field : Field) : (fieldBytes field).length = 24 := by simp [fieldBytes]

@[simp] theorem length_headerBytes (context : LayoutContext) (typeId : TypeId) (layout : TypeLayout) :
    (headerBytes context typeId layout).length = 54 := by simp [headerBytes]

theorem length_fieldList {layout : TypeLayout} {fields : Option (Nat → Field)}
    (h : ¬ (layout.fieldCount ≠ 0 ∧ fields = none)) : (fieldList layout fields).length = layout.fieldCount.toNat := by
  cases fields with
  | none =>
    obtain hzero : layout.fieldCount = 0 := not_not.mp fun hne => h ⟨hne, rfl⟩
    simp [fieldList, hzero]
  | some fields => simp [fieldList]

theorem length_layoutBytes {context : LayoutContext} {typeId : TypeId} {layout : TypeLayout}
    {fields : Option (Nat → Field)} (h : ¬ (layout.fieldCount ≠ 0 ∧ fields = none)) :
    (layoutBytes context typeId layout fields).length = 54 + 24 * layout.fieldCount.toNat := by
  have hentries : ∀ fs : List Field, (fs.flatMap fieldBytes).length = 24 * fs.length := fun fs => by
    induction fs with
    | nil => rfl
    | cons f fs ih => simp [ih, Nat.mul_add, Nat.add_comm]
  rw [layoutBytes, List.length_append, hentries, length_fieldList h, length_headerBytes]

section Encode
variable (context : LayoutContext) (typeId : TypeId) (layout : TypeLayout) (fields : Option (Nat → Field))
  (out : Nat → UInt8) (capacity : Nat)

/-- Fields that are counted and not there end the encoding behind the table, or earlier. -/
theorem encode_of_missing (h : layout.fieldCount ≠ 0 ∧ fields = none) :
    encodeCanonicalLayout context typeId layout fields out capacity =
      (0, store out 0 ((headerBytes context typeId layout).take capacity)) := by
  rw [encodeCanonicalLayout, visit_eq, if_pos h]
  simp only [Put.and, Buffer.all_put _ ⟨out, capacity, 0⟩ (Nat.zero_le capacity), Nat.sub_zero, Put.refuse]
  split <;> simp_all

/-- The bytes are written as far as they fit, and counted if they do. -/
theorem encode_of_present (h : ¬ (layout.fieldCount ≠ 0 ∧ fields = none)) :
    encodeCanonicalLayout context typeId layout fields out capacity =
      (if capacity < 54 + 24 * layout.fieldCount.toNat then 0 else 54 + 24 * layout.fieldCount.toNat,
        store out 0 ((layoutBytes context typeId layout fields).take capacity)) := by
  rw [encodeCanonicalLayout, visit_eq, if_neg h]
  simp only [Buffer.all_put _ ⟨out, capacity, 0⟩ (Nat.zero_le capacity), Nat.sub_zero, Nat.zero_add, length_layoutBytes h,
    decide_eq_true_eq]
  by_cases hroom : capacity < 54 + 24 * layout.fieldCount.toNat
  · rw [if_neg (Nat.not_le.mpr hroom), if_pos hroom]
  · rw [if_pos (Nat.not_lt.mp hroom), if_neg hroom, Nat.min_eq_right (Nat.not_lt.mp hroom)]

theorem contents_layoutBytes (h : ¬ (layout.fieldCount ≠ 0 ∧ fields = none)) :
    contents (store out 0 (layoutBytes context typeId layout fields)) (54 + 24 * layout.fieldCount.toNat) =
      layoutBytes context typeId layout fields := by
  have hstore := contents_store out 0 (layoutBytes context typeId layout fields)
  rwa [length_layoutBytes h, Nat.zero_add] at hstore

/-- An encoding that succeeds is the specified bytes at the front of the buffer. -/
theorem encode_of_success (h : (encodeCanonicalLayout context typeId layout fields out capacity).1 ≠ 0) :
    ¬ (layout.fieldCount ≠ 0 ∧ fields = none) ∧
      encodeCanonicalLayout context typeId layout fields out capacity =
        (54 + 24 * layout.fieldCount.toNat, store out 0 (layoutBytes context typeId layout fields)) := by
  by_cases hmissing : layout.fieldCount ≠ 0 ∧ fields = none
  · rw [encode_of_missing context typeId layout fields out capacity hmissing] at h
    exact absurd rfl h
  · rw [encode_of_present context typeId layout fields out capacity hmissing] at h ⊢
    have hroom : ¬ capacity < 54 + 24 * layout.fieldCount.toNat := fun hroom => h (if_pos hroom)
    refine ⟨hmissing, ?_⟩
    rw [if_neg hroom, List.take_of_length_le]
    rw [length_layoutBytes hmissing]
    exact Nat.not_lt.mp hroom

theorem encode_ne_zero (h : ¬ (layout.fieldCount ≠ 0 ∧ fields = none))
    (hroom : 54 + 24 * layout.fieldCount.toNat ≤ capacity) :
    (encodeCanonicalLayout context typeId layout fields out capacity).1 ≠ 0 := by
  rw [encode_of_present context typeId layout fields out capacity h, if_neg (Nat.not_lt.mpr hroom)]
  omega

theorem hash_of_present (h : ¬ (layout.fieldCount ≠ 0 ∧ fields = none)) :
    canonicalLayoutHash context typeId layout fields =
      canonicalHash (layoutBytes context typeId layout fields) canonicalLayoutDomain := by
  rw [canonicalLayoutHash, visit_eq, if_neg h]
  have htakes : ∀ b s, putByteHash b s = (true, canonicalHashByte s b) := fun _ _ => rfl
  simp only [Put.all_of_takes htakes, if_true, canonicalHash, canonicalHashBytes]

/-- The encoder writes the specified bytes and counts them, unless they do not fit or the fields are
missing; it never writes behind the capacity; and what it wrote has the layout hash. -/
theorem canonical_layout_bytes :
    (∀ i, capacity ≤ i → (encodeCanonicalLayout context typeId layout fields out capacity).2 i = out i) ∧
      (if capacity < 54 + 24 * layout.fieldCount.toNat ∨ (layout.fieldCount ≠ 0 ∧ fields = none) then
          (encodeCanonicalLayout context typeId layout fields out capacity).1 = 0
        else
          (encodeCanonicalLayout context typeId layout fields out capacity).1 = 54 + 24 * layout.fieldCount.toNat ∧
            contents (encodeCanonicalLayout context typeId layout fields out capacity).2
              (encodeCanonicalLayout context typeId layout fields out capacity).1 =
                layoutBytes context typeId layout fields ∧
            ∀ i, (encodeCanonicalLayout context typeId layout fields out capacity).1 ≤ i →
              (encodeCanonicalLayout context typeId layout fields out capacity).2 i = out i) ∧
      ((encodeCanonicalLayout context typeId layout fields out capacity).1 ≠ 0 →
        canonicalLayoutHash context typeId layout fields =
          canonicalHash (contents (encodeCanonicalLayout context typeId layout fields out capacity).2
            (encodeCanonicalLayout context typeId layout fields out capacity).1) canonicalLayoutDomain) := by
  by_cases hmissing : layout.fieldCount ≠ 0 ∧ fields = none
  · rw [encode_of_missing context typeId layout fields out capacity hmissing]
    refine ⟨fun i hi => store_of_le ?_, ?_, fun hne => absurd rfl hne⟩
    · rw [Nat.zero_add]
      exact Nat.le_trans (List.length_take_le _ _) hi
    · rw [if_pos (.inr hmissing)]
  · have hlength : (layoutBytes context typeId layout fields).length = 54 + 24 * layout.fieldCount.toNat :=
      length_layoutBytes hmissing
    rw [encode_of_present context typeId layout fields out capacity hmissing]
    refine ⟨fun i hi => store_of_le ?_, ?_⟩
    · rw [Nat.zero_add]
      exact Nat.le_trans (List.length_take_le _ _) hi
    · by_cases hroom : capacity < 54 + 24 * layout.fieldCount.toNat
      · simp only [hroom, true_or, if_true]
        exact ⟨trivial, fun hne => absurd rfl hne⟩
      · have hwritten := contents_layoutBytes context typeId layout fields out hmissing
        simp only [hroom, hmissing, or_false, if_false]
        rw [List.take_of_length_le (by rw [hlength]; exact Nat.not_lt.mp hroom)]
        refine ⟨⟨trivial, hwritten, fun i hi => store_of_le ?_⟩, fun _ => ?_⟩
        · rw [Nat.zero_add, hlength]
          exact hi
        · rw [hwritten]
          exact hash_of_present context typeId layout fields hmissing

end Encode

end Abix.Model.Compat

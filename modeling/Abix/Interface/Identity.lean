import Abix.Interface.BoundSlots
import Abix.Runtime.Search
import Abix.Text.Decimal
import Abix.Util.Hash
import Abix.Wire.Sink

/-! The identities of interfaces and methods: hashes of texts in which every number is a decimal
numeral. -/
namespace Abix.Interface
open Abix.Blocks Abix.Model Abix.Runtime Abix.Text Abix.Util Abix.Wire

def interfaceIdentityDomain : UInt64 := 0x494E544552464143

def methodSignatureDomain : UInt64 := 0x5349474E41545552

/-- `while (value != 0) { digits[count++] = '0' + value % 10; value /= 10; }`. -/
def putDigits (value : UInt64) : Put Buffer :=
  if value = 0 then .done else (Buffer.put (48 + (value % 10).toUInt8)).and (putDigits (value / 10))
termination_by value.toNat
decreasing_by
  have hpos : value.toNat ≠ 0 := fun hzero => ‹¬ value = 0› (UInt64.toNat_inj.mp hzero)
  rw [UInt64.toNat_div]
  exact Nat.div_lt_self (Nat.pos_of_ne_zero hpos) (by decide)

/-- The array `digits` and its `count`, and whether no digit was written behind its end. -/
def digitArray (value : UInt64) : Bool × Buffer :=
  ((if value = 0 then Buffer.put 48 else .done).and (putDigits value)) ⟨fun _ => 0, 20, 0⟩

def interfaceHashU64 (state : CanonicalState) (value : UInt64) : CanonicalState :=
  let digits := (digitArray value).2
  foldDown canonicalHashByte digits.out digits.size state

def interfaceMarker : List UInt8 := [65, 66, 73, 88, 45, 73, 78, 84, 69, 82, 70, 65, 67, 69, 58]

def interfaceHashSignature (state : CanonicalState) (signature : InterfaceMethodHash) : CanonicalState :=
  let state := interfaceHashU64 (canonicalHashByte state 58) signature.lo
  interfaceHashU64 (canonicalHashByte state 58) signature.hi

/-- A null name is `none`, and hashed as an empty one. -/
def interfaceId (name : Option CString) (version : UInt32) (signatures : List InterfaceMethodHash) : InterfaceId :=
  let state := canonicalHashBytes (canonicalHashBegin interfaceIdentityDomain) interfaceMarker
  let state := canonicalHashBytes state (name.getD [])
  let state := interfaceHashU64 (canonicalHashByte state 58) version.toUInt64
  (signatures.foldl interfaceHashSignature state).hash

def hashLanes (state : CanonicalState) (type : TypeId) : CanonicalState :=
  interfaceHashU64 (interfaceHashU64 state type.lo) type.hi

def methodSignature (name : Option CString) (returnType : TypeId) (parameters : List TypeId) : InterfaceMethodHash :=
  let state := canonicalHashBytes (canonicalHashBegin methodSignatureDomain) (name.getD [])
  (parameters.foldl hashLanes (hashLanes state returnType)).hash

def interfaceFields (version : UInt32) (signatures : List InterfaceMethodHash) : List (List UInt8) :=
  numeral version.toNat :: signatures.flatMap fun s => [numeral s.lo.toNat, numeral s.hi.toNat]

def interfaceText (name : CString) (version : UInt32) (signatures : List InterfaceMethodHash) : List UInt8 :=
  interfaceMarker ++ joined 58 name (interfaceFields version signatures)

private theorem digit_eq_digitByte (value : UInt64) : 48 + (value % 10).toUInt8 = digitByte (value.toNat % 10) := by
  apply UInt8.toNat_inj.mp
  have hlt : value.toNat % 10 < 10 := Nat.mod_lt _ (by decide)
  have hmod : (value % 10).toNat = value.toNat % 10 := UInt64.toNat_mod value 10
  have hbase : (48 : UInt8).toNat = 48 := rfl
  rw [toNat_digitByte hlt, UInt8.toNat_add, UInt64.toNat_toUInt8, hmod, hbase]
  omega

/-- The loop writes the digits of the value, the least significant first. -/
theorem putDigits_eq (value : UInt64) :
    putDigits value = Put.all Buffer.put ((Nat.digits 10 value.toNat).map digitByte) := by
  induction value using putDigits.induct with
  | case1 =>
    rw [putDigits, if_pos rfl]
    rfl
  | case2 value hne ih =>
    have hpos : 0 < value.toNat := Nat.pos_of_ne_zero fun hzero => hne (UInt64.toNat_inj.mp hzero)
    have hdiv : (value / 10).toNat = value.toNat / 10 := UInt64.toNat_div value 10
    rw [putDigits, if_neg hne, ih, hdiv, Nat.digits_def' (by decide) hpos, List.map_cons, Put.all, digit_eq_digitByte]

theorem length_digitBytes_le (value : UInt64) : (digitBytes value.toNat).length ≤ 20 := by
  have hlength : (numeral value.toNat).length ≤ 20 :=
    length_numeral_le (by decide) (Nat.lt_trans value.toNat_lt (by decide))
  rwa [numeral, List.length_reverse] at hlength

/-- The array has room for every digit, and they stand in it from its start. -/
theorem digitArray_eq (value : UInt64) :
    digitArray value =
      (true, ⟨store (fun _ => 0) 0 (digitBytes value.toNat), 20, (digitBytes value.toNat).length⟩) := by
  have hroom := length_digitBytes_le value
  have hall : digitArray value = Put.all Buffer.put (digitBytes value.toNat) ⟨fun _ => 0, 20, 0⟩ := by
    rw [digitArray, putDigits_eq]
    by_cases hzero : value = 0
    · subst hzero
      rw [if_pos rfl]
      rfl
    · have hne : value.toNat ≠ 0 := fun h => hzero (UInt64.toNat_inj.mp h)
      rw [if_neg hzero, digitBytes, if_neg hne, Put.done_and]
  rw [hall, Buffer.all_put _ _ (Nat.zero_le 20)]
  simp only [Nat.zero_add, Nat.sub_zero, hroom, decide_true, List.take_of_length_le hroom, Nat.min_eq_right hroom]

theorem interfaceHashU64_eq (state : CanonicalState) (value : UInt64) :
    interfaceHashU64 state value = canonicalHashBytes state (numeral value.toNat) := by
  have hcontents := contents_store (fun _ => (0 : UInt8)) 0 (digitBytes value.toNat)
  rw [Nat.zero_add] at hcontents
  rw [interfaceHashU64, digitArray_eq, foldDown_eq, hcontents]
  rfl

theorem hashByte_hashU64 (state : CanonicalState) (byte : UInt8) (value : UInt64) :
    interfaceHashU64 (canonicalHashByte state byte) value =
      canonicalHashBytes state (byte :: numeral value.toNat) := interfaceHashU64_eq _ _

private theorem hashSignatures_eq (state : CanonicalState) (signatures : List InterfaceMethodHash) :
    signatures.foldl interfaceHashSignature state =
      canonicalHashBytes state ((signatures.flatMap fun s => [numeral s.lo.toNat, numeral s.hi.toNat]).flatMap
        fun field => 58 :: field) := by
  induction signatures generalizing state with
  | nil => rfl
  | cons s signatures ih =>
    have hstep : interfaceHashSignature state s =
        canonicalHashBytes state ((58 :: numeral s.lo.toNat) ++ (58 :: numeral s.hi.toNat)) := by
      rw [interfaceHashSignature, hashByte_hashU64, hashByte_hashU64, canonicalHashBytes_append]
    rw [List.foldl_cons, ih, hstep, ← canonicalHashBytes_append]
    simp

/-- An interface identity is the hash of its text. -/
theorem interfaceId_eq (name : Option CString) (version : UInt32) (signatures : List InterfaceMethodHash) :
    interfaceId name version signatures =
      canonicalHash (interfaceText (name.getD []) version signatures) interfaceIdentityDomain := by
  have hversion : version.toUInt64.toNat = version.toNat := UInt32.toNat_toUInt64 version
  rw [interfaceId, hashByte_hashU64, hashSignatures_eq, ← canonicalHashBytes_append, ← canonicalHashBytes_append,
    ← canonicalHashBytes_append, hversion]
  rfl

/-- The last segment of a name is empty, or has more in it than digits. -/
def IsQualified (name : CString) : Prop :=
  ∀ segment, (name.splitOn 58).getLast? = some segment → segment = [] ∨ ∃ b ∈ segment, isDigit b = false

theorem IsQualified.not_isNumeric {name : CString} (h : IsQualified name) (segment : List UInt8)
    (hlast : (name.splitOn 58).getLast? = some segment) : isNumeric segment = false := by
  rw [← Bool.not_eq_true, isNumeric_iff]
  rintro ⟨hne, hdigits⟩
  rcases h segment hlast with hnil | ⟨b, hb, hdigit⟩
  · exact hne hnil
  · cases hdigit.symm.trans (hdigits b hb)

theorem isNumeric_of_mem_fields {version : UInt32} {signatures : List InterfaceMethodHash} {field : List UInt8}
    (h : field ∈ interfaceFields version signatures) : isNumeric field = true := by
  rcases List.mem_cons.mp h with rfl | h
  · exact isNumeric_numeral _
  · obtain ⟨s, -, hs⟩ := List.mem_flatMap.mp h
    rcases List.mem_pair.mp hs with rfl | rfl <;> exact isNumeric_numeral _

theorem numeral_toNat_injective : Function.Injective fun lane : UInt64 => numeral lane.toNat :=
  fun _ _ h => UInt64.toNat_inj.mp (numeral_injective h)

/-- Hashes are told apart by what is made of their lanes, if the lanes are. -/
theorem lanes_injective {β : Type} {f : UInt64 → β} (hf : Function.Injective f) :
    Function.Injective fun hashes : List Hash128 => hashes.flatMap fun h => [f h.lo, f h.hi] := by
  intro hashes
  induction hashes with
  | nil =>
    intro hashes' h
    cases hashes' with
    | nil => rfl
    | cons _ _ => cases h
  | cons s hashes ih =>
    intro hashes' h
    cases hashes' with
    | nil => cases h
    | cons s' hashes' =>
      simp only [List.flatMap_cons, List.cons_append, List.nil_append, List.cons.injEq] at h
      obtain ⟨hlo, hhi, hrest⟩ := h
      have hs : s = s' := by
        obtain ⟨lo, hi⟩ := s
        obtain ⟨lo', hi'⟩ := s'
        rw [Hash128.mk.injEq]
        exact ⟨hf hlo, hf hhi⟩
      rw [hs, ih hrest]

/-- The text behind the identity of a qualified name says what the interface is. -/
theorem interfaceText_inj {name name' : CString} {version version' : UInt32}
    {signatures signatures' : List InterfaceMethodHash} (hname : IsQualified name) (hname' : IsQualified name')
    (h : interfaceText name version signatures = interfaceText name' version' signatures') :
    name = name' ∧ version = version' ∧ signatures = signatures' := by
  have hjoined := List.append_cancel_left h
  obtain ⟨hsame, hfields⟩ := joined_inj (by decide) hjoined (fun _ => isNumeric_of_mem_fields)
    (fun _ => isNumeric_of_mem_fields) hname.not_isNumeric hname'.not_isNumeric
  obtain ⟨hversion, hsignatures⟩ := List.cons.inj hfields
  exact ⟨hsame, UInt32.toNat_inj.mp (numeral_injective hversion), lanes_injective numeral_toNat_injective hsignatures⟩

/-- An identity is the hash of a text that tells interfaces with qualified names apart, and in which
every number is its shortest decimal numeral, written without leaving the array of the digits. -/
theorem interface_identity_is_unambiguous :
    (∀ (name : Option CString) (version : UInt32) (signatures : List InterfaceMethodHash),
      interfaceId name version signatures =
        canonicalHash (interfaceText (name.getD []) version signatures) interfaceIdentityDomain) ∧
    (∀ (name name' : CString) (version version' : UInt32) (signatures signatures' : List InterfaceMethodHash),
      IsQualified name → IsQualified name' →
      interfaceText name version signatures = interfaceText name' version' signatures' →
        name = name' ∧ version = version' ∧ signatures = signatures') ∧
    (∀ (state : CanonicalState) (value : UInt64),
      (digitArray value).1 = true ∧ (digitArray value).2.size ≤ 20 ∧
        IsShortest (contents (digitArray value).2.out (digitArray value).2.size).reverse value.toNat ∧
        interfaceHashU64 state value =
          canonicalHashBytes state (contents (digitArray value).2.out (digitArray value).2.size).reverse) := by
  refine ⟨interfaceId_eq, fun _ _ _ _ _ _ => interfaceText_inj, fun state value => ?_⟩
  have hshortest := isShortest_numeral value.toNat
  have hhash : interfaceHashU64 state value =
      canonicalHashBytes state (contents (digitArray value).2.out (digitArray value).2.size).reverse :=
    foldDown_eq _ _ _ _
  have hcontents := contents_store (fun _ => (0 : UInt8)) 0 (digitBytes value.toNat)
  rw [Nat.zero_add] at hcontents
  rw [hhash, digitArray_eq, hcontents]
  exact ⟨rfl, length_digitBytes_le value, hshortest, rfl⟩

/-- `a::f1` in version 1 and `a::f` in version 11 have different texts. -/
theorem interface_identity_is_unambiguous_f1 :
    interfaceText [97, 58, 58, 102, 49] 1 [⟨2, 3⟩] ≠ interfaceText [97, 58, 58, 102] 11 [⟨2, 3⟩] := by
  intro h
  have hname : IsQualified [97, 58, 58, 102, 49] := fun segment hlast => by
    obtain rfl : [102, 49] = segment := Option.some.inj hlast
    exact .inr ⟨102, by decide, by decide⟩
  have hname' : IsQualified [97, 58, 58, 102] := fun segment hlast => by
    obtain rfl : [102] = segment := Option.some.inj hlast
    exact .inr ⟨102, by decide, by decide⟩
  have hsame := (interface_identity_is_unambiguous.2.1 _ _ _ _ _ _ hname hname' h).1
  exact absurd hsame (by decide)

end Abix.Interface

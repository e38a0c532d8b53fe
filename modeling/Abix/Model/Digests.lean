import Abix.Model.Compat

/-! The digests of type names and of physical signatures: hashes of bytes in which every integer is
big-endian and of fixed width. -/
namespace Abix.Model
open Abix.Blocks Abix.Model.Compat Abix.Util Abix.Wire

def canonicalHashU32Be (state : CanonicalState) (value : UInt32) : CanonicalState :=
  ([24, 16, 8, 0] : List UInt32).foldl (fun state shift => canonicalHashByte state (value >>> shift).toUInt8) state

def canonicalHashU64Be (state : CanonicalState) (value : UInt64) : CanonicalState :=
  ([56, 48, 40, 32, 24, 16, 8, 0] : List UInt64).foldl
    (fun state shift => canonicalHashByte state (value >>> shift).toUInt8) state

def typeIdDomain : UInt64 := 0x54595045

/-- A null name is `none`, and hashed as an empty one. -/
def canonicalTypeId (canonicalName : Option (List UInt8)) : TypeId :=
  canonicalHash (canonicalName.getD []) typeIdDomain

def abiSignatureDomain : UInt64 := 0x4142495349475F31

def hashTypeBe (state : CanonicalState) (type : TypeId) : CanonicalState :=
  canonicalHashU64Be (canonicalHashU64Be state type.lo) type.hi

/-- The loop does not run where the pointer is null. -/
def parameterList (parameters : Option (Nat → TypeId)) (parameterCount : UInt64) : List TypeId :=
  match parameters with
  | none => []
  | some parameters => contents parameters parameterCount.toNat

def abiSignatureHash (returnType : TypeId) (parameters : Option (Nat → TypeId)) (parameterCount : UInt64)
    (callingConvention qualifiers : UInt32) : SignatureHash :=
  let state := hashTypeBe (canonicalHashBegin abiSignatureDomain) returnType
  let state := canonicalHashU64Be state parameterCount
  let state := (parameterList parameters parameterCount).foldl hashTypeBe state
  let state := canonicalHashU32Be state callingConvention
  (canonicalHashU32Be state qualifiers).hash

def signatureBytes (returnType : TypeId) (parameters : Option (Nat → TypeId)) (parameterCount : UInt64)
    (callingConvention qualifiers : UInt32) : List UInt8 :=
  hashBytes returnType ++ (toBytes 8 parameterCount.toNat ++
    ((parameterList parameters parameterCount).flatMap hashBytes ++
      (toBytes 4 callingConvention.toNat ++ toBytes 4 qualifiers.toNat)))

theorem canonicalHashU32Be_eq (state : CanonicalState) (value : UInt32) :
    canonicalHashU32Be state value = canonicalHashBytes state (toBytes 4 value.toNat) := by
  rw [toBytes_uint32]
  simp [canonicalHashU32Be, canonicalHashBytes]

theorem canonicalHashU64Be_eq (state : CanonicalState) (value : UInt64) :
    canonicalHashU64Be state value = canonicalHashBytes state (toBytes 8 value.toNat) := by
  rw [toBytes_uint64]
  simp [canonicalHashU64Be, canonicalHashBytes]

theorem hashTypeBe_eq (state : CanonicalState) (type : TypeId) :
    hashTypeBe state type = canonicalHashBytes state (hashBytes type) := by
  rw [hashTypeBe, canonicalHashU64Be_eq, canonicalHashU64Be_eq, hashBytes, canonicalHashBytes_append]

private theorem foldl_hashTypeBe (state : CanonicalState) (types : List TypeId) :
    types.foldl hashTypeBe state = canonicalHashBytes state (types.flatMap hashBytes) := by
  induction types generalizing state with
  | nil => rfl
  | cons type types ih => rw [List.foldl_cons, ih, hashTypeBe_eq, List.flatMap_cons, canonicalHashBytes_append]

/-- A physical signature is the hash of its bytes. -/
theorem abiSignatureHash_eq (returnType : TypeId) (parameters : Option (Nat → TypeId)) (parameterCount : UInt64)
    (callingConvention qualifiers : UInt32) :
    abiSignatureHash returnType parameters parameterCount callingConvention qualifiers =
      canonicalHash (signatureBytes returnType parameters parameterCount callingConvention qualifiers)
        abiSignatureDomain := by
  rw [abiSignatureHash, hashTypeBe_eq, canonicalHashU64Be_eq, foldl_hashTypeBe, canonicalHashU32Be_eq,
    canonicalHashU32Be_eq, ← canonicalHashBytes_append, ← canonicalHashBytes_append, ← canonicalHashBytes_append,
    ← canonicalHashBytes_append, canonicalHash, signatureBytes]

end Abix.Model

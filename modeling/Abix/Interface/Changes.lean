import Abix.Interface.MethodShapes
import Abix.Model.Digests
import Abix.Util.Lanes

/-! What the hash engine cannot miss: the domain of an input, and a change of one byte of it. -/
namespace Abix.Interface
open Abix.Folding Abix.Model Abix.Model.Compat Abix.Util Function

/-- One input has different hashes in different domains, and inputs that differ in one byte have
different hashes in every domain, in each lane; so a change of one byte of a canonical layout, a type
name, a signature or an identity is never missed. -/
theorem canonical_hash_notices :
    (∀ data : List UInt8, (Injective fun domain => (canonicalHash data domain).lo) ∧
      (Injective fun domain => (canonicalHash data domain).hi) ∧ Injective (canonicalHash data)) ∧
    (∀ (data data' : List UInt8) (domain : UInt64), OneChange data data' →
      Apart (canonicalHash data domain) (canonicalHash data' domain)) ∧
    (∀ name name' : List UInt8, OneChange name name' →
      Apart (canonicalTypeId (some name)) (canonicalTypeId (some name'))) ∧
    (∀ (context context' : LayoutContext) (typeId typeId' : TypeId) (layout layout' : Compat.TypeLayout)
      (fields fields' : Option (Nat → Compat.Field)),
      ¬ (layout.fieldCount ≠ 0 ∧ fields = none) → ¬ (layout'.fieldCount ≠ 0 ∧ fields' = none) →
      OneChange (layoutBytes context typeId layout fields) (layoutBytes context' typeId' layout' fields') →
        Apart (canonicalLayoutHash context typeId layout fields)
          (canonicalLayoutHash context' typeId' layout' fields')) ∧
    (∀ m m' : MethodShape, OneChange m.text m'.text → Apart m.signature m'.signature) ∧
    ∀ (returnType returnType' : TypeId) (parameters parameters' : Option (Nat → TypeId))
      (parameterCount parameterCount' : UInt64) (callingConvention callingConvention' qualifiers qualifiers' : UInt32),
      OneChange (signatureBytes returnType parameters parameterCount callingConvention qualifiers)
        (signatureBytes returnType' parameters' parameterCount' callingConvention' qualifiers') →
          Apart (abiSignatureHash returnType parameters parameterCount callingConvention qualifiers)
            (abiSignatureHash returnType' parameters' parameterCount' callingConvention' qualifiers') := by
  refine ⟨fun data => ⟨canonicalHash_lo_injective data, canonicalHash_hi_injective data,
      fun domain domain' h => ?_⟩,
    fun data data' domain h => apart_of_oneChange h domain, fun name name' h => apart_of_oneChange h _,
    fun context context' typeId typeId' layout layout' fields fields' hpresent hpresent' h => ?_,
    fun m m' h => ?_,
    fun returnType returnType' parameters parameters' count count' convention convention' qualifiers qualifiers' h =>
      ?_⟩
  · exact canonicalHash_lo_injective data (congrArg Hash128.lo h)
  · rw [hash_of_present context typeId layout fields hpresent,
      hash_of_present context' typeId' layout' fields' hpresent']
    exact apart_of_oneChange h _
  · rw [MethodShape.signature_eq, MethodShape.signature_eq]
    exact apart_of_oneChange h _
  · rw [abiSignatureHash_eq, abiSignatureHash_eq]
    exact apart_of_oneChange h _

/-- `i32` and `u32` are told apart in both lanes. -/
theorem canonical_hash_notices_the_sign :
    Apart (canonicalTypeId (some [105, 51, 50])) (canonicalTypeId (some [117, 51, 50])) :=
  canonical_hash_notices.2.2.1 _ _ (oneChange_of_ne [] [51, 50] (by decide))

end Abix.Interface

import Abix.Interface.Identity
import Mathlib.Data.List.DropRight

/-! What the text behind a method signature says about the method. -/
namespace Abix.Interface
open Abix.Blocks Abix.Model Abix.Runtime Abix.Text Abix.Util

structure MethodShape where
  name : CString
  returnType : TypeId
  parameters : List TypeId
  deriving DecidableEq

namespace MethodShape

/-- The lanes of the return type and of the parameters, in their order. -/
def lanes (m : MethodShape) : List UInt64 := (m.returnType :: m.parameters).flatMap fun t => [t.lo, t.hi]

def numerals (m : MethodShape) : List (List UInt8) := m.lanes.map fun lane => numeral lane.toNat

/-- The text behind a method signature, with nothing between its parts. -/
def text (m : MethodShape) : List UInt8 := m.name ++ m.numerals.flatten

def signature (m : MethodShape) : InterfaceMethodHash := methodSignature (some m.name) m.returnType m.parameters

def stem (m : MethodShape) : CString := m.name.rdropWhile isDigit

def digits (m : MethodShape) : List UInt8 := m.name.rtakeWhile isDigit ++ m.numerals.flatten

/-- Where the text is to be cut: the lengths of its parts. -/
def cuts (m : MethodShape) : Nat × List Nat := (m.name.length, m.numerals.map List.length)

end MethodShape

private theorem hashLanes_eq (state : CanonicalState) (type : TypeId) :
    hashLanes state type = canonicalHashBytes state (numeral type.lo.toNat ++ numeral type.hi.toNat) := by
  rw [hashLanes, interfaceHashU64_eq, interfaceHashU64_eq, canonicalHashBytes_append]

private theorem hashTypes_eq (state : CanonicalState) (types : List TypeId) :
    types.foldl hashLanes state =
      canonicalHashBytes state ((types.flatMap fun t => [t.lo, t.hi]).map fun lane => numeral lane.toNat).flatten := by
  induction types generalizing state with
  | nil => rfl
  | cons t types ih =>
    rw [List.foldl_cons, ih, hashLanes_eq, ← canonicalHashBytes_append]
    simp

theorem methodSignature_eq (name : Option CString) (returnType : TypeId) (parameters : List TypeId) :
    methodSignature name returnType parameters =
      canonicalHash (MethodShape.text ⟨name.getD [], returnType, parameters⟩) methodSignatureDomain := by
  have htypes := hashTypes_eq (canonicalHashBytes (canonicalHashBegin methodSignatureDomain) (name.getD []))
    (returnType :: parameters)
  rw [List.foldl_cons, ← canonicalHashBytes_append] at htypes
  rw [methodSignature, htypes]
  rfl

namespace MethodShape

theorem signature_eq (m : MethodShape) : m.signature = canonicalHash m.text methodSignatureDomain :=
  methodSignature_eq (some m.name) m.returnType m.parameters

theorem text_eq (m : MethodShape) : m.text = m.stem ++ m.digits := by
  rw [text, stem, digits, ← List.append_assoc, List.rdropWhile_append_rtakeWhile]

theorem isDigit_of_mem_digits {m : MethodShape} {b : UInt8} (h : b ∈ m.digits) : isDigit b = true := by
  rcases List.mem_append.mp h with hname | hlane
  · exact List.mem_rtakeWhile_imp hname
  · obtain ⟨bytes, hbytes, hb⟩ := List.mem_flatten.mp hlane
    obtain ⟨lane, -, rfl⟩ := List.mem_map.mp hbytes
    exact isDigit_of_mem_numeral hb

theorem getLast?_stem {m : MethodShape} {b : UInt8} (h : m.stem.getLast? = some b) : isDigit b = false := by
  have hne : m.stem ≠ [] := fun hnil => by
    rw [hnil] at h
    cases h
  rw [List.getLast?_eq_getLast_of_ne_nil hne] at h
  obtain rfl := Option.some.inj h
  exact Bool.eq_false_iff.mpr (List.rdropWhile_last_not isDigit m.name hne)

/-- The text says the name up to its last digits, and all the digits from there on. -/
theorem text_eq_iff (m m' : MethodShape) : m.text = m'.text ↔ m.stem = m'.stem ∧ m.digits = m'.digits := by
  constructor
  · intro h
    rw [text_eq, text_eq] at h
    exact append_inj_of_trailing h (fun _ => isDigit_of_mem_digits) (fun _ => isDigit_of_mem_digits)
      (fun _ => getLast?_stem) (fun _ => getLast?_stem)
  · rintro ⟨hstem, hdigits⟩
    rw [text_eq, text_eq, hstem, hdigits]

private theorem numerals_inj {m m' : MethodShape} (h : m.numerals = m'.numerals) :
    m.returnType = m'.returnType ∧ m.parameters = m'.parameters := by
  have hlanes : m.lanes = m'.lanes := List.map_injective_iff.mpr numeral_toNat_injective h
  exact List.cons.inj (lanes_injective Function.injective_id hlanes)

/-- The text says which method it is to one who knows where to cut it. -/
theorem eq_iff_text_and_cuts (m m' : MethodShape) : m = m' ↔ m.text = m'.text ∧ m.cuts = m'.cuts := by
  constructor
  · rintro rfl
    exact ⟨rfl, rfl⟩
  · rintro ⟨htext, hcuts⟩
    obtain ⟨hlength, hlengths⟩ := Prod.mk.inj hcuts
    obtain ⟨hname, hflat⟩ := List.append_inj htext hlength
    have hnumerals : m.numerals = m'.numerals := List.eq_iff_flatten_eq.mpr ⟨hflat, hlengths⟩
    obtain ⟨hreturn, hparameters⟩ := numerals_inj hnumerals
    obtain ⟨name, returnType, parameters⟩ := m
    obtain ⟨name', returnType', parameters'⟩ := m'
    rw [mk.injEq]
    exact ⟨hname, hreturn, hparameters⟩

/-- Methods with one signature are one, or have one text that is cut in two ways, or have two texts
that collide. -/
theorem cases_of_signature {m m' : MethodShape} (h : m.signature = m'.signature) :
    m = m' ∨ (m.text = m'.text ∧ m.cuts ≠ m'.cuts) ∨
      (m.text ≠ m'.text ∧
        canonicalHash m.text methodSignatureDomain = canonicalHash m'.text methodSignatureDomain) := by
  rw [signature_eq, signature_eq] at h
  by_cases htext : m.text = m'.text
  · by_cases hcuts : m.cuts = m'.cuts
    · exact .inl ((eq_iff_text_and_cuts m m').mpr ⟨htext, hcuts⟩)
    · exact .inr (.inl ⟨htext, hcuts⟩)
  · exact .inr (.inr ⟨htext, h⟩)

end MethodShape

/-- A contract for one method binds to a table of one that has its signature. -/
theorem exists_bind_of_signature {m m' : MethodShape} (h : m'.signature = m.signature) {entry : UInt64}
    (hentry : entry ≠ 0) :
    ∃ bound, fillSlotEntries 1 (fun _ => 0) [⟨m'.signature, entry, 0⟩] ⟨[m.signature], Nat.le_refl 1⟩ = .ok bound := by
  apply exists_fillSlotEntries
  · intro provided hmem
    obtain rfl := List.mem_singleton.mp hmem
    exact Nat.one_pos
  · intro slot e he _
    obtain ⟨rfl, rfl⟩ : slot = 0 ∧ m.signature = e := by
      cases slot with
      | zero => exact ⟨rfl, Option.some.inj he⟩
      | succ slot => cases he
    exact ⟨_, rfl, hentry, h⟩

/-- `f` with a result of lanes 1 and 2, and a parameter of lanes 3 and 4. -/
def methodOfOneParameter : MethodShape := ⟨[102], ⟨1, 2⟩, [⟨3, 4⟩]⟩

def methodWithoutParameters : MethodShape := ⟨[102, 49, 50], ⟨3, 4⟩, []⟩

theorem text_without_parameters : methodWithoutParameters.text = methodOfOneParameter.text := by decide

theorem signature_without_parameters : methodWithoutParameters.signature = methodOfOneParameter.signature := by
  rw [MethodShape.signature_eq, MethodShape.signature_eq, text_without_parameters]

/-- The texts of both are `f1234`, and a contract for the one binds to the other. -/
theorem signature_text_is_ambiguous :
    methodWithoutParameters.text = methodOfOneParameter.text ∧
      methodWithoutParameters.name ≠ methodOfOneParameter.name ∧
      methodWithoutParameters.returnType ≠ methodOfOneParameter.returnType ∧
      methodWithoutParameters.parameters.length ≠ methodOfOneParameter.parameters.length ∧
      ∃ bound, fillSlotEntries 1 (fun _ => 0) [⟨methodWithoutParameters.signature, 16, 0⟩]
        ⟨[methodOfOneParameter.signature], Nat.le_refl 1⟩ = .ok bound :=
  ⟨text_without_parameters, by decide, by decide, by decide,
    exists_bind_of_signature signature_without_parameters (by decide)⟩

/-- The text behind a signature is made without separators, so it tells methods apart only up to
where it is cut; and a bind that accepts a slot may have found a method of the same text, or a collision. -/
theorem signature_up_to_cuts :
    (∀ (name : Option CString) (returnType : TypeId) (parameters : List TypeId),
      methodSignature name returnType parameters =
        canonicalHash (MethodShape.text ⟨name.getD [], returnType, parameters⟩) methodSignatureDomain) ∧
    (∀ m m' : MethodShape, m.text = m'.text ↔ m.stem = m'.stem ∧ m.digits = m'.digits) ∧
    (∀ m m' : MethodShape, m = m' ↔ m.text = m'.text ∧ m.cuts = m'.cuts) ∧
    (∀ (maxMethods : Nat) (start : Nat → UInt64) (methods : List InterfaceMethod) (contract : Signatures maxMethods)
      (bound : (Nat → UInt64) × UInt32) (slot : Nat) (m : MethodShape),
      fillSlotEntries maxMethods start methods contract = .ok bound →
      contract.expected[slot]? = some m.signature → m.signature ≠ .zero →
      ∃ first, firstAt InterfaceMethod.cell methods slot = some first ∧ first.entry ≠ 0 ∧
        ∀ m' : MethodShape, first.signature = m'.signature →
          m' = m ∨ (m'.text = m.text ∧ m'.cuts ≠ m.cuts) ∨
            (m'.text ≠ m.text ∧
              canonicalHash m'.text methodSignatureDomain = canonicalHash m.text methodSignatureDomain)) := by
  refine ⟨methodSignature_eq, MethodShape.text_eq_iff, MethodShape.eq_iff_text_and_cuts, ?_⟩
  intro maxMethods start methods contract bound slot m hbind hslot hne
  obtain ⟨-, hagrees, -⟩ := fillSlotEntries_eq_ok hbind
  obtain ⟨first, hfirst, hentry, hsignature⟩ := hagrees slot _ hslot hne
  refine ⟨first, hfirst, hentry, fun m' hm' => ?_⟩
  exact MethodShape.cases_of_signature (hm'.symm.trans hsignature)

/-- A bind for `f` that accepts `f12` has found a text that is cut in two ways. -/
theorem signature_up_to_cuts_rebound :
    methodWithoutParameters = methodOfOneParameter ∨
      (methodWithoutParameters.text = methodOfOneParameter.text ∧
        methodWithoutParameters.cuts ≠ methodOfOneParameter.cuts) ∨
      (methodWithoutParameters.text ≠ methodOfOneParameter.text ∧
        canonicalHash methodWithoutParameters.text methodSignatureDomain =
          canonicalHash methodOfOneParameter.text methodSignatureDomain) := by
  obtain ⟨bound, hbound⟩ := exists_bind_of_signature signature_without_parameters (by decide : (16 : UInt64) ≠ 0)
  have hne : methodOfOneParameter.signature ≠ .zero := by
    rw [MethodShape.signature_eq]
    decide +kernel
  obtain ⟨first, hfirst, -, hcases⟩ := signature_up_to_cuts.2.2.2 _ _ _ _ _ 0 methodOfOneParameter hbound rfl hne
  obtain rfl := Option.some.inj hfirst
  exact hcases methodWithoutParameters rfl

end Abix.Interface

import Abix.Model.LayoutDecoder

/-! Whether a value of one type can be read as one of another: the comparison sees no more of a type than
its id and the hash of its layout. -/
namespace Abix.Model.Compat
open Abix.Util

inductive CompatResult where
  | identical
  | layoutCompatible
  | mapCompatible
  | incompatible
  deriving DecidableEq, Repr

def sameHash (lhs rhs : Hash128) : Bool := lhs.lo = rhs.lo ∧ lhs.hi = rhs.hi

def compare (sourceId : TypeId) (source : TypeLayout) (targetId : TypeId) (target : TypeLayout) (hasMap : Bool) :
    CompatResult :=
  if sameHash sourceId targetId && sameHash source.layoutHash target.layoutHash then .identical
  else if sameHash source.layoutHash target.layoutHash then .layoutCompatible
  else if hasMap then .mapCompatible else .incompatible

/-- The layout carries the hash of its own encoding. -/
structure CarriesHash (context : LayoutContext) (typeId : TypeId) (layout : TypeLayout)
    (fields : Option (Nat → Field)) : Prop where
  present : ¬ (layout.fieldCount ≠ 0 ∧ fields = none)
  layoutHash : layout.layoutHash = canonicalLayoutHash context typeId layout fields

/-- The layout with the hash of its encoding, which does not have that hash in it. -/
def TypeLayout.hashed (layout : TypeLayout) (context : LayoutContext) (typeId : TypeId)
    (fields : Option (Nat → Field)) : TypeLayout :=
  { layout with layoutHash := canonicalLayoutHash context typeId layout fields }

structure Collide (bytes bytes' : List UInt8) : Prop where
  differ : bytes ≠ bytes'
  sameHash : canonicalHash bytes canonicalLayoutDomain = canonicalHash bytes' canonicalLayoutDomain

section Comparison
variable {context context' : LayoutContext} {typeId typeId' : TypeId} {layout layout' : TypeLayout}
  {fields fields' : Option (Nat → Field)} {hasMap : Bool}

theorem sameHash_iff {lhs rhs : Hash128} : sameHash lhs rhs = true ↔ lhs = rhs := by
  cases lhs
  cases rhs
  simp [sameHash]

theorem CarriesHash.eq_canonicalHash (h : CarriesHash context typeId layout fields) :
    layout.layoutHash = canonicalHash (layoutBytes context typeId layout fields) canonicalLayoutDomain :=
  h.layoutHash.trans (hash_of_present context typeId layout fields h.present)

private theorem carriesHash_hashed (h : ¬ (layout.fieldCount ≠ 0 ∧ fields = none)) :
    CarriesHash context typeId (layout.hashed context typeId fields) fields where
  present := h
  layoutHash := (hash_of_present context typeId layout fields h).trans
    (hash_of_present context typeId (layout.hashed context typeId fields) fields h).symm

/-- Encodings are the same only where the layouts are. -/
theorem CarriesHash.sameLayout_iff (h : CarriesHash context typeId layout fields)
    (h' : CarriesHash context' typeId' layout' fields') :
    SameLayout context context' typeId typeId' layout layout' fields fields' ↔
      layoutBytes context typeId layout fields = layoutBytes context' typeId' layout' fields' := by
  constructor
  · intro hsame
    refine hsame.layoutBytes ?_
    rw [length_fieldList h.present, length_fieldList h'.present, hsame.fieldCount]
  · intro hbytes
    have hreads := reads_decodeLayout context typeId h.present
    have hreads' := reads_decodeLayout context' typeId' h'.present
    have hfacts := (hreads.eq_of_front hreads' (hbytes ▸ List.prefix_rfl)).1
    exact sameLayout_of_facts hfacts h.present h'.present

/-- Layouts with one hash are the same, or their encodings collide. -/
theorem CarriesHash.same_or_collide (h : CarriesHash context typeId layout fields)
    (h' : CarriesHash context' typeId' layout' fields') (hhash : layout.layoutHash = layout'.layoutHash) :
    SameLayout context context' typeId typeId' layout layout' fields fields' ∨
      Collide (layoutBytes context typeId layout fields) (layoutBytes context' typeId' layout' fields') := by
  by_cases hbytes : layoutBytes context typeId layout fields = layoutBytes context' typeId' layout' fields'
  · exact .inl ((h.sameLayout_iff h').mpr hbytes)
  · refine .inr ⟨hbytes, ?_⟩
    rw [← h.eq_canonicalHash, ← h'.eq_canonicalHash, hhash]

/-- Layouts that carry their own hashes are found identical when they are the same, and are otherwise told
apart, unless their two encodings collide. Nothing short of a collision is found layout-compatible: the
encoding has the id of the type in it. -/
theorem comparison_tells_layouts_apart (h : CarriesHash context typeId layout fields)
    (h' : CarriesHash context' typeId' layout' fields') :
    (SameLayout context context' typeId typeId' layout layout' fields fields' →
        compare typeId layout typeId' layout' hasMap = .identical) ∧
      (¬ SameLayout context context' typeId typeId' layout layout' fields fields' →
        compare typeId layout typeId' layout' hasMap = (if hasMap then .mapCompatible else .incompatible) ∨
          Collide (layoutBytes context typeId layout fields) (layoutBytes context' typeId' layout' fields')) ∧
      (compare typeId layout typeId' layout' hasMap = .layoutCompatible →
        typeId ≠ typeId' ∧
          Collide (layoutBytes context typeId layout fields) (layoutBytes context' typeId' layout' fields')) := by
  refine ⟨fun hsame => ?_, fun hdiffer => ?_, fun hcompat => ?_⟩
  · have hhash : layout.layoutHash = layout'.layoutHash := by
      rw [h.eq_canonicalHash, h'.eq_canonicalHash, (h.sameLayout_iff h').mp hsame]
    rw [compare, sameHash_iff.mpr hsame.typeId, sameHash_iff.mpr hhash]
    rfl
  · by_cases hhash : layout.layoutHash = layout'.layoutHash
    · exact .inr ((h.same_or_collide h' hhash).resolve_left hdiffer)
    · have hfalse : sameHash layout.layoutHash layout'.layoutHash = false :=
        Bool.eq_false_iff.mpr fun hs => hhash (sameHash_iff.mp hs)
      exact .inl (by simp [compare, hfalse])
  · unfold compare at hcompat
    split at hcompat
    · cases hcompat
    · rename_i hnot
      split at hcompat
      · rename_i hs
        have hne : typeId ≠ typeId' := fun he => hnot (by rw [sameHash_iff.mpr he, hs, Bool.and_self])
        exact ⟨hne, (h.same_or_collide h' (sameHash_iff.mp hs)).resolve_left fun hsame => hne hsame.typeId⟩
      · split at hcompat <;> cases hcompat

end Comparison

def hashedLayout (fieldBegin : UInt32) (field : Field) : TypeLayout :=
  TypeLayout.hashed ⟨⟨8, 4, .zero⟩, fieldBegin, 1⟩ ⟨1, 1, 1, 1⟩ ⟨0x11, 0x22⟩ (some fun _ => field)

def movedField : Field := { oneField with offset := 0 }

/-- Another name makes no difference, and another offset does. -/
theorem comparison_tells_layouts_apart_moved :
    compare ⟨0x11, 0x22⟩ (hashedLayout 0 oneField) ⟨0x11, 0x22⟩ (hashedLayout 3 renamedField) true = .identical ∧
      compare ⟨0x11, 0x22⟩ (hashedLayout 0 oneField) ⟨0x11, 0x22⟩ (hashedLayout 0 movedField) true =
        .mapCompatible := by
  have hcarries (fieldBegin : UInt32) (field : Field) :
      CarriesHash ⟨1, 1, 1, 1⟩ ⟨0x11, 0x22⟩ (hashedLayout fieldBegin field) (some fun _ => field) :=
    carriesHash_hashed fun h => Option.some_ne_none _ h.2
  have hhash : (hashedLayout 0 oneField).layoutHash ≠ (hashedLayout 0 movedField).layoutHash := by decide +kernel
  refine ⟨(comparison_tells_layouts_apart (hcarries 0 oneField) (hcarries 3 renamedField)).1
    ⟨rfl, rfl, rfl, rfl, rfl, fun _ _ _ => same_renamedField⟩, ((comparison_tells_layouts_apart (hcarries 0 oneField)
      (hcarries 0 movedField)).2.1 ?_).resolve_right ?_⟩
  · intro hsame
    exact absurd (hsame.fields 0 oneField movedField rfl rfl).2.1 (by decide)
  · rintro ⟨-, hcollide⟩
    rw [← (hcarries 0 oneField).eq_canonicalHash, ← (hcarries 0 movedField).eq_canonicalHash] at hcollide
    exact hhash hcollide

end Abix.Model.Compat

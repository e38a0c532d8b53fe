import Abix.Model.Compat

/-! Canonical Layout Encoding v1 can be read back, so it tells apart whatever it encodes. -/
namespace Abix.Model.Compat
open Abix.Blocks Abix.Wire Abix.Wire.Reader

structure FieldFacts where
  typeId : TypeId
  offset : UInt32
  flags : UInt32
  deriving DecidableEq

structure LayoutFacts where
  context : LayoutContext
  typeId : TypeId
  size : UInt32
  align : UInt32
  fields : List FieldFacts
  deriving DecidableEq

def fieldFacts (field : Field) : FieldFacts := ⟨field.typeId, field.offset, canonicalLayoutFlags field.flags⟩

def layoutFacts (context : LayoutContext) (typeId : TypeId) (layout : TypeLayout) (fields : Option (Nat → Field)) :
    LayoutFacts :=
  ⟨context, typeId, layout.size, layout.align, (fieldList layout fields).map fieldFacts⟩

def decodeU32 : Reader UInt32 := do
  let value ← number 4
  pure (UInt32.ofNat value)

def decodeHash : Reader Hash128 := do
  let lo ← number 8
  let hi ← number 8
  pure ⟨UInt64.ofNat lo, UInt64.ofNat hi⟩

def decodeField : Reader FieldFacts := do
  let typeId ← decodeHash
  let offset ← decodeU32
  let flags ← decodeU32
  pure ⟨typeId, offset, flags⟩

def decodeLayout : Reader LayoutFacts := do
  expect [65, 66, 73, 88, 45, 67, 76, 69]
  expect (toBytes 2 1)
  let arch ← decodeU32
  let os ← decodeU32
  let abi ← decodeU32
  let compiler ← decodeU32
  let typeId ← decodeHash
  let size ← decodeU32
  let align ← decodeU32
  let count ← decodeU32
  let fields ← times decodeField count.toNat
  pure ⟨⟨arch, os, abi, compiler⟩, typeId, size, align, fields⟩

theorem reads_decodeU32 (value : UInt32) : Reads decodeU32 (toBytes 4 value.toNat) value := by
  rw [← List.append_nil (toBytes 4 value.toNat)]
  refine (reads_number value.toNat_lt).bind ?_
  rw [UInt32.ofNat_toNat]
  exact reads_pure value

theorem reads_decodeHash (value : Hash128) : Reads decodeHash (hashBytes value) value := by
  rw [hashBytes, ← List.append_nil (toBytes 8 value.hi.toNat)]
  refine (reads_number value.lo.toNat_lt).bind ((reads_number value.hi.toNat_lt).bind ?_)
  rw [UInt64.ofNat_toNat, UInt64.ofNat_toNat]
  exact reads_pure value

private theorem reads_decodeField (field : Field) : Reads decodeField (fieldBytes field) (fieldFacts field) := by
  rw [fieldBytes, ← List.append_nil (toBytes 4 (field.flags &&& 0xFFFF0003).toNat)]
  exact (reads_decodeHash _).bind ((reads_decodeU32 _).bind ((reads_decodeU32 _).bind (reads_pure _)))

/-- The decoder takes an encoding back to what it says, and leaves what follows. -/
theorem reads_decodeLayout (context : LayoutContext) (typeId : TypeId) {layout : TypeLayout}
    {fields : Option (Nat → Field)} (h : ¬ (layout.fieldCount ≠ 0 ∧ fields = none)) :
    Reads decodeLayout (layoutBytes context typeId layout fields) (layoutFacts context typeId layout fields) := by
  have hfields : Reads (times decodeField layout.fieldCount.toNat) ((fieldList layout fields).flatMap fieldBytes)
      ((fieldList layout fields).map fieldFacts) := by
    rw [← length_fieldList h]
    exact reads_times _ fun field _ => reads_decodeField field
  rw [layoutBytes, ← List.append_nil ((fieldList layout fields).flatMap fieldBytes), headerBytes]
  simp only [List.append_assoc]
  exact (reads_expect _).bind <| (reads_expect _).bind <| (reads_decodeU32 _).bind <| (reads_decodeU32 _).bind <|
    (reads_decodeU32 _).bind <| (reads_decodeU32 _).bind <| (reads_decodeHash _).bind <| (reads_decodeU32 _).bind <|
      (reads_decodeU32 _).bind <| (reads_decodeU32 _).bind <| hfields.bind (reads_pure _)

/-- Two layouts that differ in nothing that is part of the physical layout. -/
structure SameLayout (context context' : LayoutContext) (typeId typeId' : TypeId) (layout layout' : TypeLayout)
    (fields fields' : Option (Nat → Field)) : Prop where
  context : context = context'
  typeId : typeId = typeId'
  size : layout.size = layout'.size
  align : layout.align = layout'.align
  fieldCount : layout.fieldCount = layout'.fieldCount
  fields : ∀ (i : Nat) (field field' : Field), (fieldList layout fields)[i]? = some field →
    (fieldList layout' fields')[i]? = some field' → field.typeId = field'.typeId ∧ field.offset = field'.offset ∧
      canonicalLayoutFlags field.flags = canonicalLayoutFlags field'.flags

section Injective
variable {context context' : LayoutContext} {typeId typeId' : TypeId} {layout layout' : TypeLayout}
  {fields fields' : Option (Nat → Field)}

private theorem SameLayout.map_fieldFacts (h : SameLayout context context' typeId typeId' layout layout' fields fields')
    (hlength : (fieldList layout fields).length = (fieldList layout' fields').length) :
    (fieldList layout fields).map fieldFacts = (fieldList layout' fields').map fieldFacts := by
  refine List.ext_getElem (by simpa using hlength) fun i hi hi' => ?_
  rw [List.length_map] at hi hi'
  obtain ⟨htypeId, hoffset, hflags⟩ := h.fields i _ _ (List.getElem?_eq_getElem hi) (List.getElem?_eq_getElem hi')
  simp [fieldFacts, htypeId, hoffset, hflags]

theorem sameLayout_of_facts (h : layoutFacts context typeId layout fields = layoutFacts context' typeId' layout' fields')
    (hpresent : ¬ (layout.fieldCount ≠ 0 ∧ fields = none)) (hpresent' : ¬ (layout'.fieldCount ≠ 0 ∧ fields' = none)) :
    SameLayout context context' typeId typeId' layout layout' fields fields' := by
  simp only [layoutFacts, LayoutFacts.mk.injEq] at h
  obtain ⟨hcontext, htypeId, hsize, halign, hfields⟩ := h
  refine ⟨hcontext, htypeId, hsize, halign, ?_, fun i field field' hfield hfield' => ?_⟩
  · have hlength := congrArg List.length hfields
    rw [List.length_map, List.length_map, length_fieldList hpresent, length_fieldList hpresent'] at hlength
    exact UInt32.toNat_inj.mp hlength
  · have hsame := congrArg (fun facts => facts[i]?) hfields
    simp only [List.getElem?_map, hfield, hfield', Option.map_some, Option.some.injEq] at hsame
    simpa [fieldFacts] using hsame

def FieldFacts.bytes (facts : FieldFacts) : List UInt8 :=
  hashBytes facts.typeId ++ (toBytes 4 facts.offset.toNat ++ toBytes 4 facts.flags.toNat)

theorem SameLayout.headerBytes (h : SameLayout context context' typeId typeId' layout layout' fields fields') :
    headerBytes context typeId layout = headerBytes context' typeId' layout' := by
  simp only [Compat.headerBytes, h.context, h.typeId, h.size, h.align, h.fieldCount]

theorem SameLayout.layoutBytes (h : SameLayout context context' typeId typeId' layout layout' fields fields')
    (hlength : (fieldList layout fields).length = (fieldList layout' fields').length) :
    layoutBytes context typeId layout fields = layoutBytes context' typeId' layout' fields' := by
  have hbytes : ∀ fs : List Field, fs.flatMap fieldBytes = (fs.map fieldFacts).flatMap FieldFacts.bytes := fun fs => by
    rw [List.flatMap_map]
    rfl
  rw [Compat.layoutBytes, Compat.layoutBytes, h.headerBytes, hbytes, hbytes, h.map_fieldFacts hlength]

private theorem SameLayout.encode (h : SameLayout context context' typeId typeId' layout layout' fields fields')
    (hnull : fields = none ↔ fields' = none) (out : Nat → UInt8) (capacity : Nat) :
    encodeCanonicalLayout context typeId layout fields out capacity =
      encodeCanonicalLayout context' typeId' layout' fields' out capacity := by
  by_cases hmissing : layout.fieldCount ≠ 0 ∧ fields = none
  · have hmissing' : layout'.fieldCount ≠ 0 ∧ fields' = none := ⟨h.fieldCount ▸ hmissing.1, hnull.mp hmissing.2⟩
    rw [encode_of_missing _ _ _ _ _ _ hmissing, encode_of_missing _ _ _ _ _ _ hmissing', h.headerBytes]
  · have hmissing' : ¬ (layout'.fieldCount ≠ 0 ∧ fields' = none) := by
      rw [← h.fieldCount, ← hnull]
      exact hmissing
    have hlength : (fieldList layout fields).length = (fieldList layout' fields').length := by
      rw [length_fieldList hmissing, length_fieldList hmissing', h.fieldCount]
    rw [encode_of_present _ _ _ _ _ _ hmissing, encode_of_present _ _ _ _ _ _ hmissing', h.layoutBytes hlength,
      h.fieldCount]

end Injective

def encoded (r : Nat × (Nat → UInt8)) : List UInt8 := contents r.2 r.1

/-- An encoding is read back whole, and says what was encoded. -/
theorem reads_encoded {context : LayoutContext} {typeId : TypeId} {layout : TypeLayout} {fields : Option (Nat → Field)}
    {out : Nat → UInt8} {capacity : Nat} (h : (encodeCanonicalLayout context typeId layout fields out capacity).1 ≠ 0) :
    ¬ (layout.fieldCount ≠ 0 ∧ fields = none) ∧
      encoded (encodeCanonicalLayout context typeId layout fields out capacity) =
        layoutBytes context typeId layout fields ∧
      Reads decodeLayout (encoded (encodeCanonicalLayout context typeId layout fields out capacity))
        (layoutFacts context typeId layout fields) := by
  obtain ⟨hpresent, hencode⟩ := encode_of_success context typeId layout fields out capacity h
  have hbytes : encoded (encodeCanonicalLayout context typeId layout fields out capacity) =
      layoutBytes context typeId layout fields := by
    rw [hencode]
    dsimp only [encoded]
    exact contents_layoutBytes context typeId layout fields out hpresent
  exact ⟨hpresent, hbytes, hbytes ▸ reads_decodeLayout context typeId hpresent⟩

/-- Of two successful encodings one is a prefix of the other exactly when they encode the same physical
layout; whatever else differs, the encoder does the same; and an encoding can be read back. -/
theorem canonical_layout_is_injective (context context' : LayoutContext) (typeId typeId' : TypeId)
    (layout layout' : TypeLayout) (fields fields' : Option (Nat → Field)) (out out' : Nat → UInt8)
    (capacity capacity' : Nat) :
    ((encodeCanonicalLayout context typeId layout fields out capacity).1 ≠ 0 →
      (encodeCanonicalLayout context' typeId' layout' fields' out' capacity').1 ≠ 0 →
      ((encoded (encodeCanonicalLayout context typeId layout fields out capacity) <+:
            encoded (encodeCanonicalLayout context' typeId' layout' fields' out' capacity') ∨
          encoded (encodeCanonicalLayout context' typeId' layout' fields' out' capacity') <+:
            encoded (encodeCanonicalLayout context typeId layout fields out capacity)) ↔
        SameLayout context context' typeId typeId' layout layout' fields fields')) ∧
    (SameLayout context context' typeId typeId' layout layout' fields fields' → (fields = none ↔ fields' = none) →
      encodeCanonicalLayout context typeId layout fields out capacity =
        encodeCanonicalLayout context' typeId' layout' fields' out capacity) ∧
    ((encodeCanonicalLayout context typeId layout fields out capacity).1 ≠ 0 → ∀ rest,
      decodeLayout.run (encoded (encodeCanonicalLayout context typeId layout fields out capacity) ++ rest) =
        some (layoutFacts context typeId layout fields, rest)) := by
  refine ⟨fun h h' => ?_, fun h hnull => h.encode hnull out capacity, fun h => (reads_encoded h).2.2⟩
  obtain ⟨hpresent, hbytes, hreads⟩ := reads_encoded h
  obtain ⟨hpresent', hbytes', hreads'⟩ := reads_encoded h'
  constructor
  · rintro (hfront | hfront)
    · exact sameLayout_of_facts (hreads.eq_of_front hreads' hfront).1 hpresent hpresent'
    · exact sameLayout_of_facts (hreads'.eq_of_front hreads hfront).1.symm hpresent hpresent'
  · intro hsame
    have hlength : (fieldList layout fields).length = (fieldList layout' fields').length := by
      rw [length_fieldList hpresent, length_fieldList hpresent', hsame.fieldCount]
    rw [hbytes, hbytes', hsame.layoutBytes hlength]
    exact .inl List.prefix_rfl

def oneField : Field := ⟨0, ⟨0x33, 0x44⟩, 4, 1, 0, 0⟩

def renamedField : Field := ⟨256, ⟨0x33, 0x44⟩, 4, 513, 0, 0⟩

def oneFieldLayout : TypeLayout := ⟨⟨8, 4, ⟨0, 0⟩⟩, 0, 1⟩

def renamedLayout : TypeLayout := ⟨⟨8, 4, ⟨7, 7⟩⟩, 3, 1⟩

private def oneFieldEncoded : Nat × (Nat → UInt8) :=
  encodeCanonicalLayout ⟨1, 1, 1, 1⟩ ⟨0x11, 0x22⟩ oneFieldLayout (some fun _ => oneField) (fun _ => 0) 78

private def renamedEncoded : Nat × (Nat → UInt8) :=
  encodeCanonicalLayout ⟨1, 1, 1, 1⟩ ⟨0x11, 0x22⟩ renamedLayout (some fun _ => renamedField) (fun _ => 0) 78

theorem same_renamedField {i : Nat} {field field' : Field} (hfield : [oneField][i]? = some field)
    (hfield' : [renamedField][i]? = some field') : field.typeId = field'.typeId ∧ field.offset = field'.offset ∧
      canonicalLayoutFlags field.flags = canonicalLayoutFlags field'.flags := by
  obtain rfl : field = oneField := List.eq_of_mem_singleton (List.mem_of_getElem? hfield)
  obtain rfl : field' = renamedField := List.eq_of_mem_singleton (List.mem_of_getElem? hfield')
  decide

/-- A layout with other names encodes to the same bytes. -/
theorem canonical_layout_is_injective_renamed : oneFieldEncoded.1 = 78 ∧ renamedEncoded.1 = 78 ∧
    (encoded oneFieldEncoded <+: encoded renamedEncoded ∨ encoded renamedEncoded <+: encoded oneFieldEncoded) := by
  have hsame : SameLayout ⟨1, 1, 1, 1⟩ ⟨1, 1, 1, 1⟩ ⟨0x11, 0x22⟩ ⟨0x11, 0x22⟩ oneFieldLayout renamedLayout
      (some fun _ => oneField) (some fun _ => renamedField) :=
    ⟨rfl, rfl, rfl, rfl, rfl, fun _ _ _ => same_renamedField⟩
  have hone : oneFieldEncoded.1 = 78 := by decide +kernel
  have hrenamed : renamedEncoded.1 = 78 := by decide +kernel
  refine ⟨hone, hrenamed, ((canonical_layout_is_injective ⟨1, 1, 1, 1⟩ ⟨1, 1, 1, 1⟩ ⟨0x11, 0x22⟩ ⟨0x11, 0x22⟩
    oneFieldLayout renamedLayout (some fun _ => oneField) (some fun _ => renamedField) (fun _ => 0) (fun _ => 0)
    78 78).1 ?_ ?_).mpr hsame⟩
  · exact encode_ne_zero _ _ _ _ _ _ (by simp [oneFieldLayout]) (by decide)
  · exact encode_ne_zero _ _ _ _ _ _ (by simp [renamedLayout]) (by decide)

end Abix.Model.Compat

import Abix.Binary.Detect
import Mathlib.Order.Interval.Set.Basic

/-! PE images: headers, a table of sections, and an export directory that is found through them. -/
namespace Abix.Binary
open Abix.Trace Abix.Trace.Traced

def readPeName (b : Bytes) (offset : UInt64) : Traced Event (List UInt8) := readFixedName b offset 8

namespace PE

def architecture (machine : UInt16) : Architecture :=
  if machine = 0x014c then .x86
  else if machine = 0x8664 then .x86_64
  else if machine = 0x01c0 ∨ machine = 0x01c4 then .arm32
  else if machine = 0xaa64 then .arm64
  else .unknown

structure Header where
  machine : UInt16
  pe32plus : Bool
  imageBase : UInt64
  dataDirectory : UInt64
  sectionTable : UInt64
  sectionCount : UInt16

def readBase (b : Bytes) (pe32plus : Bool) (optional : UInt64) (optionalSize : UInt16) :
    Traced Event (UInt64 × UInt64) :=
  if pe32plus then do
    failIf (optionalSize < 112 + 8) "PE32+ optional header is too small"
    let imageBase ← readU64 b (optional + 24)
    pure (imageBase, optional + 112)
  else do
    failIf (optionalSize < 96 + 8) "PE32 optional header is too small"
    let imageBase ← readU32 b (optional + 28)
    pure (imageBase.toUInt64, optional + 96)

def readHeader (b : Bytes) : Traced Event Header := do
  let recognised ← isPe b
  failIf (recognised = false) "not a PE image"
  let nt ← readU32 b 0x3C
  let coff := nt.toUInt64 + 4
  failIf (¬ inBounds coff 20 b.size) "truncated PE header"
  let machine ← readU16 b coff
  let sectionCount ← readU16 b (coff + 2)
  let optionalSize ← readU16 b (coff + 16)
  let optional := coff + 20
  failIf (¬ inBounds optional optionalSize.toUInt64 b.size) "PE optional header is out of bounds"
  failIf (optionalSize < 2) "truncated PE optional header"
  let optionalMagic ← readU16 b optional
  let pe32plus : Bool := optionalMagic = 0x20B
  failIf (pe32plus = false ∧ optionalMagic ≠ 0x10B) "unsupported PE optional header magic"
  let (imageBase, dataDirectory) ← readBase b pe32plus optional optionalSize
  let sectionTable := optional + optionalSize.toUInt64
  failIf (¬ inBounds sectionTable (sectionCount.toUInt64 * 40) b.size) "PE section table is out of bounds"
  pure ⟨machine, pe32plus, imageBase, dataDirectory, sectionTable, sectionCount⟩

structure SectionRange where
  rva : UInt32
  virtualSize : UInt32
  rawSize : UInt32
  rawOffset : UInt32
  deriving DecidableEq

def readSection (b : Bytes) (imageBase header : UInt64) : Traced Event (Section × SectionRange) := do
  let virtualSize ← readU32 b (header + 8)
  let virtualAddress ← readU32 b (header + 12)
  let rawSize ← readU32 b (header + 16)
  let rawOffset ← readU32 b (header + 20)
  let name ← readPeName b header
  let flags ← readU32 b (header + 36)
  pure ({
    name := name
    fileOffset := rawOffset.toUInt64
    fileSize := rawSize.toUInt64
    address := imageBase + virtualAddress.toUInt64
    size := virtualSize.toUInt64
    flags := flags.toUInt64
  }, ⟨virtualAddress, virtualSize, rawSize, rawOffset⟩)

def readSections (b : Bytes) (header : Header) : Traced Event (List (Section × SectionRange)) :=
  forUpTo header.sectionCount.toUInt64 (fun i found => do
    let next ← readSection b header.imageBase (header.sectionTable + i * 40)
    pure (.inl (found ++ [next]))) []

/-- `rva_to_offset`: the first range that has the address decides. -/
def rvaToOffset (size : UInt64) (rva : UInt32) : List SectionRange → Option UInt64
  | [] => none
  | range :: ranges =>
    let span := if range.rawSize < range.virtualSize then range.virtualSize else range.rawSize
    if rva < range.rva ∨ range.rva + span ≤ rva then rvaToOffset size rva ranges
    else
      let delta := rva - range.rva
      if range.rawSize ≤ delta then none
      else
        let offset := range.rawOffset.toUInt64 + delta.toUInt64
        if inBounds offset 1 size then some offset else none

structure ExportTables where
  ordinalBase : UInt32
  names : UInt64
  functions : UInt64
  ordinals : UInt64

/-- One turn of the walk over the names, which stops at an entry that is out of bounds. -/
def exportTurn (turns : Nat) (b : Bytes) (imageBase : UInt64) (ranges : List SectionRange)
    (tables : ExportTables) (i : UInt64) (exports : List Export) : Traced Event (List Export ⊕ List Export) :=
  if ¬ inBounds (tables.names + i * 4) 4 b.size then pure (.inr exports)
  else if ¬ inBounds (tables.ordinals + i * 2) 2 b.size then pure (.inr exports)
  else do
    let nameRva ← readU32 b (tables.names + i * 4)
    match rvaToOffset b.size nameRva ranges with
    | none => pure (.inr exports)
    | some nameOffset =>
      let ordinal ← readU16 b (tables.ordinals + i * 2)
      if ¬ inBounds (tables.functions + ordinal.toUInt64 * 4) 4 b.size then pure (.inr exports)
      else
        let functionRva ← readU32 b (tables.functions + ordinal.toUInt64 * 4)
        let name ← readName turns b nameOffset b.size
        pure (.inl (if name = [] then exports
          else exports ++ [⟨name, imageBase + functionRva.toUInt64, tables.ordinalBase + ordinal.toUInt32⟩]))

def readExportTables (turns : Nat) (b : Bytes) (imageBase : UInt64) (ranges : List SectionRange)
    (directory : UInt64) : Traced Event (List Export) := do
  let ordinalBase ← readU32 b (directory + 16)
  let nameCount ← readU32 b (directory + 24)
  let functionsRva ← readU32 b (directory + 28)
  let namesRva ← readU32 b (directory + 32)
  let ordinalsRva ← readU32 b (directory + 36)
  if nameCount = 0 then pure []
  else
    match rvaToOffset b.size namesRva ranges, rvaToOffset b.size functionsRva ranges,
      rvaToOffset b.size ordinalsRva ranges with
    | some names, some functions, some ordinals =>
      forUpTo nameCount.toUInt64 (exportTurn turns b imageBase ranges ⟨ordinalBase, names, functions, ordinals⟩) []
    | _, _, _ => pure []

def readExports (turns : Nat) (b : Bytes) (header : Header) (ranges : List SectionRange) :
    Traced Event (List Export) := do
  let exportRva ← readU32 b header.dataDirectory
  let exportSize ← readU32 b (header.dataDirectory + 4)
  if exportRva = 0 ∨ exportSize < 40 then pure []
  else
    match rvaToOffset b.size exportRva ranges with
    | none => pure []
    | some directory =>
      if ¬ inBounds directory 40 b.size then pure []
      else readExportTables turns b header.imageBase ranges directory

end PE

def parsePe (turns : Nat) (b : Bytes) : Traced Event ParseResult := do
  let header ← PE.readHeader b
  let found ← PE.readSections b header
  let exports ← PE.readExports turns b header (found.map Prod.snd)
  pure ⟨⟨.pe, .windows, PE.architecture header.machine, .little, if header.pe32plus then 8 else 4,
    header.imageBase⟩, found.map Prod.fst, exports⟩

namespace PE

def coffAt (b : Bytes) : UInt64 := (b.u32 0x3C).toUInt64 + 4

def optionalAt (b : Bytes) : UInt64 := coffAt b + 20

def optionalSizeOf (b : Bytes) : UInt16 := b.u16 (coffAt b + 16)

/-- The magic of PE32+, whose optional header has its fields further back. -/
def isPlus (b : Bytes) : Bool := b.u16 (optionalAt b) = 0x20B

def headerOf (b : Bytes) : Header where
  machine := b.u16 (coffAt b)
  pe32plus := isPlus b
  imageBase := if isPlus b then b.u64 (optionalAt b + 24) else (b.u32 (optionalAt b + 28)).toUInt64
  dataDirectory := if isPlus b then optionalAt b + 112 else optionalAt b + 96
  sectionTable := optionalAt b + (optionalSizeOf b).toUInt64
  sectionCount := b.u16 (coffAt b + 2)

structure HasHeader (b : Bytes) : Prop where
  data : b.data.isSome
  size : 0x40 ≤ b.size
  signature : b.ShowsPe
  coff : inBounds (coffAt b) 20 b.size
  optional : inBounds (optionalAt b) (optionalSizeOf b).toUInt64 b.size
  magic : b.u16 (optionalAt b) = 0x20B ∨ b.u16 (optionalAt b) = 0x10B
  room : (if isPlus b then 112 + 8 else 96 + 8) ≤ optionalSizeOf b
  table : inBounds (headerOf b).sectionTable ((headerOf b).sectionCount.toUInt64 * 40) b.size

section Specs
variable {b : Bytes} {E R : Prop}

/-- The directory has its first entry in the optional header, or that is refused. -/
theorem readBase_spec {optionalSize : UInt16} (hdata : b.data.isSome) (hsize : optionalSize = optionalSizeOf b)
    (h : inBounds (optionalAt b) optionalSize.toUInt64 b.size) :
    Spec b.Inside (¬ HasHeader b) R (readBase b (isPlus b) (optionalAt b) optionalSize) fun found =>
      (if isPlus b then 112 + 8 else 96 + 8) ≤ optionalSize ∧ inBounds found.2 8 b.size ∧
        found = ((headerOf b).imageBase, (headerOf b).dataDirectory) := by
  have hwiden : ∀ least : UInt16, ¬ optionalSize < least → least.toUInt64 ≤ optionalSize.toUInt64 :=
    fun least hle => UInt16.toUInt64_le.mpr (UInt16.not_lt.mp hle)
  subst hsize
  cases hplus : isPlus b with
  | true =>
    refine (Spec.failIf fun hrefused hheader => ?_).bind fun _ hroom => ?_
    · have hroom := hheader.room
      rw [hplus] at hroom
      exact UInt16.not_le.mpr hrefused hroom
    have h : inBounds (optionalAt b) 120 b.size := h.front (hwiden _ hroom)
    refine (readU64_spec hdata (h.part (by decide) (by decide))).bind fun imageBase heq => Spec.pure ?_
    subst heq
    refine ⟨UInt16.not_lt.mp hroom, h.part (by decide) (by decide), ?_⟩
    simp only [headerOf, hplus, if_true]
  | false =>
    refine (Spec.failIf fun hrefused hheader => ?_).bind fun _ hroom => ?_
    · have hroom := hheader.room
      rw [hplus] at hroom
      exact UInt16.not_le.mpr hrefused hroom
    have h : inBounds (optionalAt b) 104 b.size := h.front (hwiden _ hroom)
    refine (readU32_spec hdata (h.part (by decide) (by decide))).bind fun imageBase heq => Spec.pure ?_
    subst heq
    refine ⟨UInt16.not_lt.mp hroom, h.part (by decide) (by decide), ?_⟩
    simp only [headerOf, hplus, if_false, Bool.false_eq_true]

/-- The header fails for those that are not taken for images, and for no others. -/
theorem readHeader_spec :
    Spec b.Inside (¬ HasHeader b) R (readHeader b) fun header =>
      HasHeader b ∧ header = headerOf b ∧ inBounds (headerOf b).dataDirectory 8 b.size := by
  refine isPe_spec.bind fun recognised hrecognised => ?_
  refine (Spec.failIf fun hrefused hheader => ?_).bind fun _ haccepted => ?_
  · exact Bool.false_ne_true
      (hrefused.symm.trans (hrecognised.mpr ⟨hheader.data, hheader.size, hheader.signature⟩))
  obtain ⟨hdata, hsize, hsignature⟩ := hrecognised.mp (eq_true_of_ne_false haccepted)
  refine (readU32_spec hdata (by lia)).bind fun nt hnt => ?_
  subst hnt
  refine (Spec.failIf fun hrefused hheader => hrefused hheader.coff).bind fun _ hcoff => ?_
  have hcoff : inBounds (coffAt b) 20 b.size := not_not.mp hcoff
  refine (readU16_spec hdata (hcoff.front (by decide))).bind fun machine heq => ?_
  subst heq
  refine (readU16_spec hdata (hcoff.part (by decide) (by decide))).bind fun sectionCount heq => ?_
  subst heq
  refine (readU16_spec hdata (hcoff.part (by decide) (by decide))).bind fun optionalSize hsizeOf => ?_
  refine (Spec.failIf fun hrefused hheader => hrefused (hsizeOf ▸ hheader.optional)).bind fun _ hoptional => ?_
  have hoptional : inBounds (optionalAt b) optionalSize.toUInt64 b.size := not_not.mp hoptional
  refine (Spec.failIf fun hrefused hheader => ?_).bind fun _ htwo => ?_
  · have hroom := hheader.room
    subst hsizeOf
    have hsmall : optionalSizeOf b < 2 := hrefused
    split at hroom <;> lia
  have htwo : 2 ≤ optionalSize.toUInt64 := UInt16.toUInt64_le.mpr (UInt16.not_lt.mp htwo)
  refine (readU16_spec hdata (hoptional.front htwo)).bind fun optionalMagic heq => ?_
  subst heq
  refine (Spec.failIf fun hrefused hheader => ?_).bind fun _ hmagic => ?_
  · exact hheader.magic.elim (of_decide_eq_false hrefused.1) hrefused.2
  have hmagic : b.u16 (optionalAt b) = 0x20B ∨ b.u16 (optionalAt b) = 0x10B := by
    by_cases hplus : b.u16 (optionalAt b) = 0x20B
    · exact .inl hplus
    · exact .inr (by_contra fun hne => hmagic ⟨decide_eq_false hplus, hne⟩)
  refine (readBase_spec hdata hsizeOf hoptional).bind fun found hfound => ?_
  obtain ⟨hroom, hdirectory, rfl⟩ := hfound
  subst hsizeOf
  refine (Spec.failIf fun hrefused hheader => hrefused hheader.table).bind fun _ htable => Spec.pure ?_
  exact ⟨⟨hdata, hsize, hsignature, hcoff, hoptional, hmagic, hroom, not_not.mp htable⟩, rfl, hdirectory⟩

/-- The addresses of a section, as its header at an offset has them. -/
def rangeOf (b : Bytes) (header : UInt64) : SectionRange :=
  ⟨b.u32 (header + 12), b.u32 (header + 8), b.u32 (header + 16), b.u32 (header + 20)⟩

def rangesOf (b : Bytes) : List SectionRange :=
  (List.range (headerOf b).sectionCount.toNat).map fun i => rangeOf b ((headerOf b).sectionTable + .ofNat i * 40)

theorem readSection_spec {imageBase header : UInt64} (hdata : b.data.isSome) (h : inBounds header 40 b.size) :
    Spec b.Inside E R (readSection b imageBase header) fun found => found.2 = rangeOf b header := by
  refine (readU32_spec hdata (h.part (by decide) (by decide))).bind fun virtualSize heq => ?_
  subst heq
  refine (readU32_spec hdata (h.part (by decide) (by decide))).bind fun virtualAddress heq => ?_
  subst heq
  refine (readU32_spec hdata (h.part (by decide) (by decide))).bind fun rawSize heq => ?_
  subst heq
  refine (readU32_spec hdata (h.part (by decide) (by decide))).bind fun rawOffset heq => ?_
  subst heq
  refine (readFixedName_fits hdata (h.front (by decide))).bind fun _ _ => ?_
  exact (readU32_spec hdata (h.part (by decide) (by decide))).bind fun _ _ => Spec.pure rfl

theorem readSections_spec (h : HasHeader b) :
    Spec b.Inside E R (readSections b (headerOf b)) fun found => found.map Prod.snd = rangesOf b := by
  refine Spec.forUpTo (I := fun i found => found.map Prod.snd = (List.range i.toNat).map fun i =>
    rangeOf b ((headerOf b).sectionTable + .ofNat i * 40)) rfl (fun i found hi hfound => ?_) fun found hfound => ?_
  · have hwrap : (headerOf b).sectionCount.toUInt64.toNat * (40 : UInt64).toNat < 2 ^ 64 := by
      have hlt := (headerOf b).sectionCount.toNat_lt
      have hforty : (40 : UInt64).toNat = 40 := rfl
      rw [UInt16.toNat_toUInt64, hforty]
      omega
    refine (readSection_spec h.data (h.table.entry hwrap hi)).bind fun next hnext => Spec.pure ?_
    rw [Sum.elim_inl, toNat_succ hi, List.range_succ, List.map_append, List.map_append, hfound, List.map_singleton,
      List.map_singleton, hnext, UInt64.ofNat_toNat]
  · rw [hfound, UInt16.toNat_toUInt64]
    rfl

end Specs

end PE

end Abix.Binary

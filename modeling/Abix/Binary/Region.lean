import Abix.Binary.ELF
import Abix.Binary.MachO
import Abix.Binary.Exports

/-! A parsed image, and the regions that are read from its sections by their canonical names. -/
namespace Abix.Binary
open Abix.Trace Abix.Trace.Traced

/-- A view over the bytes, which are not owned. -/
structure BinaryImage where
  bytes : Bytes := ⟨none, 0⟩
  result : ParseResult := ⟨⟨.unknown, .unknown, .unknown, .little, 0, 0⟩, [], []⟩

def metadataName : List UInt8 := [46, 97, 98, 105, 120, 46, 109, 101, 116, 97, 100, 97, 116, 97]

def namesName : List UInt8 := [46, 97, 98, 105, 120, 46, 110, 97, 109, 101, 115]

/-- `.abix` and `.abix.n`, which fit in the eight bytes of PE. -/
def peMetadataName : List UInt8 := [46, 97, 98, 105, 120]

def peNamesName : List UInt8 := [46, 97, 98, 105, 120, 46, 110]

def dot : UInt8 := 46

def underscore : UInt8 := 95

/-- Mach-O has two underscores for the first dot and one for each other. -/
def machoSectionName : List UInt8 → List UInt8
  | [] => []
  | c :: rest =>
    if c ≠ dot then c :: rest
    else (underscore :: underscore :: rest).map fun c => if c = dot then underscore else c

def nativeSectionName (format : Format) (canonical : List UInt8) : List UInt8 :=
  match format with
  | .macho => machoSectionName canonical
  | .pe =>
    if canonical = metadataName then peMetadataName
    else if canonical = namesName then peNamesName
    else canonical
  | _ => canonical

/-- `__abix_metadata`. -/
example : nativeSectionName .macho metadataName =
    [95, 95, 97, 98, 105, 120, 95, 109, 101, 116, 97, 100, 97, 116, 97] := by decide

namespace BinaryImage

def findSection (image : BinaryImage) (name : List UInt8) : Option Section :=
  image.result.sections.find? fun s => s.name = name

def findRegion (image : BinaryImage) (canonical : List UInt8) : Option Section :=
  image.findSection (nativeSectionName image.result.target.format canonical)

end BinaryImage

def sectionQuote : List UInt8 := [115, 101, 99, 116, 105, 111, 110, 32, 39]

def notFound : List UInt8 := [39, 32, 110, 111, 116, 32, 102, 111, 117, 110, 100]

def noFileContent : List UInt8 :=
  [39, 32, 104, 97, 115, 32, 110, 111, 32, 102, 105, 108, 101, 32, 99, 111, 110, 116, 101, 110, 116]

def outOfBounds : List UInt8 :=
  [39, 32, 105, 115, 32, 111, 117, 116, 32, 111, 102, 32, 98, 111, 117, 110, 100, 115]

/-- What `read_region` returns, and what it leaves in `content` and `error`. -/
structure RegionRead where
  found : Bool
  content : List UInt8
  error : List UInt8
  deriving DecidableEq

def regionError (canonical reason : List UInt8) : RegionRead := ⟨false, [], sectionQuote ++ canonical ++ reason⟩

def readSlice (b : Bytes) (offset length : UInt64) : Traced Event (List UInt8) :=
  forUpTo length (fun i content => do
    let c ← b.read (offset + i)
    pure (.inl (content ++ [c]))) []

/-- Past the private header that PE has in front of a region, where there is one. -/
def skipPeHeader (b : Bytes) (offset length : UInt64) : Traced Event (UInt64 × UInt64) := do
  let magic ← readsAs b [(offset, 0x41), (offset + 1, 0x42), (offset + 2, 0x49), (offset + 3, 0x58)]
  if magic = false then pure (offset, length)
  else
    let version ← readU16 b (offset + 4)
    let headerSize ← readU16 b (offset + 6)
    let regionOffset ← readU32 b (offset + 12)
    let regionSize ← readU32 b (offset + 16)
    if version = 1 ∧ 24 ≤ headerSize ∧ headerSize.toUInt32 ≤ regionOffset ∧
        regionOffset.toUInt64 + regionSize.toUInt64 ≤ length then
      pure (offset + regionOffset.toUInt64, regionSize.toUInt64)
    else pure (offset, length)

def BinaryImage.readRegion (image : BinaryImage) (canonical : List UInt8) : Traced Event RegionRead :=
  match image.findRegion canonical with
  | none => pure (regionError canonical notFound)
  | some s =>
    if s.fileSize = 0 ∧ 0 < s.size then pure (regionError canonical noFileContent)
    else if ¬ inBounds s.fileOffset s.fileSize image.bytes.size then pure (regionError canonical outOfBounds)
    else do
      let (offset, length) ← (if image.result.target.format = .pe ∧ 24 ≤ s.fileSize then
          skipPeHeader image.bytes s.fileOffset s.fileSize
        else pure (s.fileOffset, s.fileSize))
      let content ← readSlice image.bytes offset length
      pure ⟨true, content, []⟩

/-- What `parse_binary_image` returns, and what it leaves in `image` and `error`. -/
structure ImageParse where
  accepted : Bool
  image : BinaryImage
  error : String

def parseAs (turns : Nat) (b : Bytes) : Format → Traced Event ParseResult
  | .elf => parseElf turns b
  | .macho => parseMacho turns b
  | .pe => parsePe turns b
  | .unknown => fail "not a supported binary (expected ELF, Mach-O or PE)"

def parseBinaryImage (turns : Nat) (b : Bytes) (image : BinaryImage) : Traced Event ImageParse := do
  let format ← detectFormat b
  match ← attempt (parseAs turns b format) with
  | .error error => pure ⟨false, image, error⟩
  | .ok result => pure ⟨true, ⟨b, result⟩, ""⟩

/-- So many bytes from an offset on, in exact arithmetic. -/
def Bytes.slice (b : Bytes) (offset length : Nat) : List UInt8 :=
  (List.range length).map fun i => b.byteAt (.ofNat (offset + i))

def regionOffsetAt (b : Bytes) (offset : UInt64) : Nat := (b.u32 (offset + 12)).toNat

def regionSizeAt (b : Bytes) (offset : UInt64) : Nat := (b.u32 (offset + 16)).toNat

/-- A valid header of version 1, and the region that it declares lies behind it in the section. -/
structure HasPeHeader (b : Bytes) (offset length : UInt64) : Prop where
  magic : b.shows [(offset, 0x41), (offset + 1, 0x42), (offset + 2, 0x49), (offset + 3, 0x58)]
  version : b.u16 (offset + 4) = 1
  headerSize : 24 ≤ (b.u16 (offset + 6)).toNat
  behind : (b.u16 (offset + 6)).toNat ≤ regionOffsetAt b offset
  inside : regionOffsetAt b offset + regionSizeAt b offset ≤ length.toNat

def IsWrapped (b : Bytes) (format : Format) (s : Section) : Prop :=
  format = .pe ∧ 24 ≤ s.fileSize ∧ HasPeHeader b s.fileOffset s.fileSize

/-- The content is that of the section, without the header that may be in front of it. -/
structure IsRegion (b : Bytes) (format : Format) (s : Section) (content : List UInt8) : Prop where
  inside : s.fileOffset.toNat + s.fileSize.toNat ≤ b.size.toNat
  plain : ¬ IsWrapped b format s → content = b.slice s.fileOffset.toNat s.fileSize.toNat
  wrapped : IsWrapped b format s →
    content = b.slice (s.fileOffset.toNat + regionOffsetAt b s.fileOffset) (regionSizeAt b s.fileOffset)

def IsFirst (sections : List Section) (name : List UInt8) (s : Section) : Prop :=
  ∃ before after, sections = before ++ s :: after ∧ s.name = name ∧ ∀ other ∈ before, other.name ≠ name

section Specs
variable {b : Bytes} {E R : Prop} {offset length : UInt64}

private theorem readSlice_spec (hdata : b.data.isSome) (h : inBounds offset length b.size) :
    Spec b.Inside E R (readSlice b offset length) (· = b.slice offset.toNat length.toNat) := by
  refine Spec.forUpTo (I := fun i content => content = b.slice offset.toNat i.toNat) rfl
    (fun i content hi hcontent => ?_) fun _ h => h
  refine (read_spec hdata (by lia)).bind fun c hc => Spec.pure ?_
  rw [Sum.elim_inl, toNat_succ hi, Bytes.slice, List.range_succ, List.map_append, ← Bytes.slice, hcontent, hc,
    List.map_singleton, UInt64.ofNat_add, UInt64.ofNat_toNat, UInt64.ofNat_toNat]

/-- The sum that is compared with the length does not wrap. -/
theorem toNat_add_toUInt64 (x y : UInt32) : (x.toUInt64 + y.toUInt64).toNat = x.toNat + y.toNat := by
  have hx := x.toNat_lt
  have hy := y.toNat_lt
  rw [UInt64.toNat_add, UInt32.toNat_toUInt64, UInt32.toNat_toUInt64, Nat.mod_eq_of_lt (by omega)]

private theorem skipPeHeader_spec (hdata : b.data.isSome) (h : inBounds offset length b.size) (hlength : 24 ≤ length) :
    Spec b.Inside E R (skipPeHeader b offset length) fun found =>
      (¬ HasPeHeader b offset length → found = (offset, length)) ∧
      (HasPeHeader b offset length →
        found = (offset + (b.u32 (offset + 12)).toUInt64, (b.u32 (offset + 16)).toUInt64)) := by
  have h24 : inBounds offset 24 b.size := h.front hlength
  refine (readsAs_spec hdata fun p hp => ?_).bind fun magic hmagic => ?_
  · simp only [List.mem_cons, List.not_mem_nil, or_false] at hp
    rcases hp with rfl | rfl | rfl | rfl <;> lia
  refine Spec.ite (fun hother => Spec.pure ⟨fun _ => rfl, fun hheader => ?_⟩) fun hsame => ?_
  · exact absurd (hmagic.trans hheader.magic) (Bool.eq_false_iff.mp hother)
  refine (readU16_spec hdata (h24.part (by decide) (by decide))).bind fun version heq => ?_
  subst heq
  refine (readU16_spec hdata (h24.part (by decide) (by decide))).bind fun headerSize heq => ?_
  subst heq
  refine (readU32_spec hdata (h24.part (by decide) (by decide))).bind fun regionOffset heq => ?_
  subst heq
  refine (readU32_spec hdata (h24.part (by decide) (by decide))).bind fun regionSize heq => ?_
  subst heq
  have hvalid : b.u16 (offset + 4) = 1 ∧ 24 ≤ b.u16 (offset + 6) ∧
      (b.u16 (offset + 6)).toUInt32 ≤ b.u32 (offset + 12) ∧
        (b.u32 (offset + 12)).toUInt64 + (b.u32 (offset + 16)).toUInt64 ≤ length ↔ HasPeHeader b offset length := by
    rw [UInt16.le_iff_toNat_le, UInt32.le_iff_toNat_le, UInt64.le_iff_toNat_le, UInt16.toNat_toUInt32,
      toNat_add_toUInt64]
    exact ⟨fun ⟨hversion, hsize, hbehind, hinside⟩ =>
      ⟨hmagic.symm.trans (eq_true_of_ne_false hsame), hversion, hsize, hbehind, hinside⟩,
      fun h => ⟨h.version, h.headerSize, h.behind, h.inside⟩⟩
  refine Spec.ite (fun haccepted => Spec.pure ?_) fun hrefused => Spec.pure ?_
  · exact ⟨fun hno => absurd (hvalid.mp haccepted) hno, fun _ => rfl⟩
  · exact ⟨fun _ => rfl, fun hheader => absurd (hvalid.mpr hheader) hrefused⟩

structure ReadsRegion (b : Bytes) (image : BinaryImage) (canonical : List UInt8) (read : RegionRead) : Prop where
  found : read.found = true → read.error = [] ∧
    ∃ s, IsFirst image.result.sections (nativeSectionName image.result.target.format canonical) s ∧
      IsRegion b image.result.target.format s read.content
  missing : read.found = false → read.content = [] ∧ read.error ≠ []

theorem regionError_reads (image : BinaryImage) (canonical reason : List UInt8) :
    ReadsRegion b image canonical (regionError canonical reason) where
  found h := absurd h Bool.false_ne_true
  missing _ := ⟨rfl, List.cons_ne_nil _ _⟩

private theorem isFirst_of_findSection {image : BinaryImage} {name : List UInt8} {s : Section}
    (h : image.findSection name = some s) : IsFirst image.result.sections name s := by
  obtain ⟨hname, before, after, heq, hbefore⟩ := List.find?_eq_some_iff_append.mp h
  exact ⟨before, after, heq, of_decide_eq_true hname, fun other hother => by
    simpa using hbefore other hother⟩

/-- Where the region is, which lies in its section and so in the buffer. -/
structure Located (b : Bytes) (format : Format) (s : Section) (found : UInt64 × UInt64) : Prop where
  bounds : inBounds found.1 found.2 b.size
  plain : ¬ IsWrapped b format s → found = (s.fileOffset, s.fileSize)
  wrapped : IsWrapped b format s →
    found = (s.fileOffset + (b.u32 (s.fileOffset + 12)).toUInt64, (b.u32 (s.fileOffset + 16)).toUInt64)

private theorem locate_spec {format : Format} {s : Section} (hdata : b.data.isSome)
    (hbounds : inBounds s.fileOffset s.fileSize b.size) :
    Spec b.Inside E R (if format = .pe ∧ 24 ≤ s.fileSize then skipPeHeader b s.fileOffset s.fileSize
      else pure (s.fileOffset, s.fileSize)) (Located b format s) := by
  refine Spec.ite (fun hpe => ?_) fun hplain => Spec.pure ?_
  · refine (skipPeHeader_spec hdata hbounds hpe.2).weaken fun found hfound => ?_
    by_cases hheader : HasPeHeader b s.fileOffset s.fileSize
    · obtain rfl := hfound.2 hheader
      refine ⟨?_, fun hno => absurd ⟨hpe.1, hpe.2, hheader⟩ hno, fun _ => rfl⟩
      have hinside := hheader.inside
      rw [regionOffsetAt, regionSizeAt] at hinside
      have hle : (b.u32 (s.fileOffset + 12)).toUInt64 ≤ s.fileSize := by
        rw [UInt64.le_iff_toNat_le, UInt32.toNat_toUInt64]
        omega
      refine hbounds.part hle ?_
      rw [UInt64.le_iff_toNat_le, UInt64.toNat_sub_of_le _ _ hle, UInt32.toNat_toUInt64, UInt32.toNat_toUInt64]
      omega
    · obtain rfl := hfound.1 hheader
      exact ⟨hbounds, fun _ => rfl, fun h => absurd h.2.2 hheader⟩
  · exact ⟨hbounds, fun _ => rfl, fun h => absurd ⟨h.1, h.2.1⟩ hplain⟩

private theorem toNat_le_of_inBounds {size : UInt64} (h : inBounds offset length size) :
    offset.toNat + length.toNat ≤ size.toNat := by
  obtain ⟨hoffset, hlength⟩ := h
  rw [UInt64.le_iff_toNat_le, UInt64.toNat_sub_of_le _ _ hoffset] at hlength
  rw [UInt64.le_iff_toNat_le] at hoffset
  omega

/-- Whatever the sections are, the read is inside and comes to the region, or to an error. -/
theorem readRegion_spec {image : BinaryImage} (hdata : image.bytes.data.isSome) (canonical : List UInt8) :
    Spec image.bytes.Inside E R (image.readRegion canonical) (ReadsRegion image.bytes image canonical) := by
  rw [BinaryImage.readRegion]
  cases hfound : image.findRegion canonical with
  | none => exact Spec.pure (regionError_reads ..)
  | some s =>
    refine Spec.ite (fun _ => Spec.pure (regionError_reads ..)) fun _ => ?_
    refine Spec.ite (fun _ => Spec.pure (regionError_reads ..)) fun hbounds => ?_
    have hinside := toNat_le_of_inBounds (not_not.mp hbounds)
    refine (locate_spec hdata (not_not.mp hbounds)).bind fun found hlocated => ?_
    refine (readSlice_spec hdata hlocated.bounds).bind fun content heq => Spec.pure ?_
    subst heq
    refine ⟨fun _ => ⟨rfl, s, isFirst_of_findSection hfound, hinside, fun hplain => ?_, fun hwrapped => ?_⟩,
      fun h => absurd h.symm Bool.false_ne_true⟩
    · rw [hlocated.plain hplain]
    · have hsize := image.bytes.size.toNat_lt
      have hregion := hwrapped.2.2.inside
      rw [hlocated.wrapped hwrapped, UInt64.toNat_add, UInt32.toNat_toUInt64, UInt32.toNat_toUInt64, Nat.mod_eq_of_lt]
      · rfl
      · rw [regionOffsetAt] at hregion
        omega

/-- A buffer that is taken for one of the formats is not null. -/
theorem detectFormat_spec : Spec b.Inside E R (detectFormat b) fun format => format ≠ .unknown → b.data.isSome := by
  refine isElf_spec.bind fun elf helf => Spec.ite (fun hsome => Spec.pure fun _ => ?_) fun _ => ?_
  · exact (of_decide_eq_true (helf.symm.trans hsome)).1
  refine isMacho_spec.bind fun macho hmacho => Spec.ite (fun hsome => Spec.pure fun _ => ?_) fun _ => ?_
  · exact (of_decide_eq_true (hmacho.symm.trans hsome)).1
  refine isPe_spec.bind fun pe hpe => Spec.pure fun hknown => ?_
  split at hknown
  · rename_i hsome
    exact (hpe.mp hsome).1
  · exact absurd rfl hknown

/-- An image that is accepted is of a buffer that is not null, and one that is refused is as it was. -/
theorem parseBinaryImage_done {turns : Nat} {image : BinaryImage} {parsed : ImageParse}
    (h : (parseBinaryImage turns b image).outcome = .done parsed) :
    (parsed.accepted = true → b.data.isSome ∧ parsed.image.bytes = b) ∧
      (parsed.accepted = false → parsed.image = image) := by
  obtain ⟨format, hformat, h⟩ := bind_done h
  obtain ⟨answer, hanswer, h⟩ := bind_done h
  obtain ⟨result, rfl, hresult⟩ | ⟨error, rfl, -⟩ := attempt_done hanswer
  · obtain rfl := Outcome.done.inj h
    refine ⟨fun _ => ⟨?_, rfl⟩, fun hno => absurd hno.symm Bool.false_ne_true⟩
    refine (detectFormat_spec (E := False) (R := False)).done format hformat ?_
    rintro rfl
    cases hresult
  · obtain rfl := Outcome.done.inj h
    exact ⟨fun hno => absurd hno Bool.false_ne_true, fun _ => rfl⟩

/-- Every region that is read from an image is exactly the region, inside the buffer, and a buffer that
is refused leaves the image as it was. -/
theorem region_is_exact (turns : Nat) (b : Bytes) (image : BinaryImage) (parsed : ImageParse)
    (h : (parseBinaryImage turns b image).outcome = .done parsed) :
    (parsed.accepted = true → ∀ canonical, ∃ read,
      (parsed.image.readRegion canonical).outcome = .done read ∧
        (∀ e ∈ (parsed.image.readRegion canonical).trace, b.Inside e) ∧
          ReadsRegion b parsed.image canonical read) ∧
    (parsed.accepted = false → parsed.image = image) := by
  obtain ⟨haccepted, hrefused⟩ := parseBinaryImage_done h
  refine ⟨fun hok canonical => ?_, hrefused⟩
  obtain ⟨hdata, rfl⟩ := haccepted hok
  have hread := readRegion_spec (E := False) (R := False) hdata canonical
  obtain ⟨read, hdone, hregion⟩ := hread.exists_done not_false not_false
  exact ⟨read, hdone, hread.trace, hregion⟩

/-- PE32 with one section `.abix`, which has two bytes behind the private header. -/
def wrappedImage : Bytes where
  data := some fun i => ([(0, 0x4d), (1, 0x5a), (0x3C, 64), (64, 0x50), (65, 0x45), (70, 1), (84, 104), (88, 0x0B),
    (89, 0x01), (192, 46), (193, 97), (194, 98), (195, 105), (196, 120), (200, 26), (208, 26), (212, 232),
    (232, 0x41), (233, 0x42), (234, 0x49), (235, 0x58), (236, 1), (238, 24), (244, 24), (248, 2), (256, 7),
    (257, 9)].lookup i).getD 0
  size := 258

private def abixRegion : List UInt8 := [46, 97, 98, 105, 120]

theorem region_is_exact_wrapped : ∃ parsed read, (parseBinaryImage 16 wrappedImage {}).outcome = .done parsed ∧
    parsed.accepted = true ∧ (parsed.image.readRegion abixRegion).outcome = .done read ∧
      read.found = true ∧ read.content = [7, 9] ∧
        (∀ e ∈ (parsed.image.readRegion abixRegion).trace, wrappedImage.Inside e) ∧
          ReadsRegion wrappedImage parsed.image abixRegion read := by
  have hruns : (match (parseBinaryImage 16 wrappedImage {}).outcome with
      | .done parsed =>
        match (parsed.image.readRegion abixRegion).outcome with
        | .done read => parsed.accepted && read.found && decide (read.content = [7, 9])
        | _ => false
      | _ => false) = true := by decide +kernel
  cases hparsed : (parseBinaryImage 16 wrappedImage {}).outcome with
  | done parsed =>
    rw [hparsed] at hruns
    dsimp only at hruns
    cases hread : (parsed.image.readRegion abixRegion).outcome with
    | done read =>
      rw [hread] at hruns
      simp only [Bool.and_eq_true, decide_eq_true_eq] at hruns
      obtain ⟨⟨haccepted, hfound⟩, hcontent⟩ := hruns
      obtain ⟨read', hread', hinside, hregion⟩ :=
        (region_is_exact 16 wrappedImage {} parsed hparsed).1 haccepted abixRegion
      obtain rfl := Outcome.done.inj (hread.symm.trans hread')
      exact ⟨parsed, read, rfl, haccepted, hread, hfound, hcontent, hinside, hregion⟩
    | failed error =>
      rw [hread] at hruns
      cases hruns
    | running =>
      rw [hread] at hruns
      cases hruns
  | failed error =>
    rw [hparsed] at hruns
    cases hruns
  | running =>
    rw [hparsed] at hruns
    cases hruns

end Specs

end Abix.Binary

import Abix.Binary.MachoContents
import Abix.Binary.PeContents
import Abix.Binary.Region

/-! Every container that is recognised is decoded as it says. -/
namespace Abix.Binary
open Abix.Trace Abix.Trace.Traced
variable {b : Bytes} {E R : Prop}

instance (b : Bytes) : Decidable b.ShowsPe :=
  decidable_of_iff (_ ∧ _ ∧ _) ⟨fun h => ⟨h.1, h.2.1, h.2.2⟩, fun h => ⟨h.dos, h.bounds, h.signature⟩⟩

def formatOf (b : Bytes) : Format :=
  if b.data.isSome ∧ 4 ≤ b.size ∧ b.shows elfMagic then .elf
  else if b.data.isSome ∧ 4 ≤ b.size ∧ (b.u32 0 = 0xFEEDFACF ∨ b.u32 0 = 0xFEEDFACE) then .macho
  else if b.data.isSome ∧ 0x40 ≤ b.size ∧ b.ShowsPe then .pe
  else .unknown

/-- Nothing leads a parser of the format out of the buffer, or round in circles. -/
def Bounded (b : Bytes) : Format → Prop
  | .elf => ∀ table, ELF.Walks b table → StopsInside 24 table.fileSize table.step
  | .macho => MachO.SegmentNamesEnd b
  | .pe | .unknown => True

def Accepted (b : Bytes) : Format → Prop
  | .elf => ELF.HasHeader b
  | .macho => MachO.Accepted b
  | .pe => PE.HasHeader b
  | .unknown => False

def contentsAs (b : Bytes) : Format → ParseResult
  | .elf => ELF.contentsOf b
  | .macho => MachO.contentsOf b
  | .pe => PE.contentsOf b
  | .unknown => ⟨⟨.unknown, .unknown, .unknown, .little, 0, 0⟩, [], []⟩

private theorem detectFormat_reads : Spec b.Inside E R (detectFormat b) (· = formatOf b) := by
  rw [formatOf]
  refine isElf_spec.bind fun elf helf => ?_
  subst helf
  refine Spec.ite (fun h => Spec.pure ?_) fun h => ?_
  · rw [if_pos (of_decide_eq_true h)]
  rw [if_neg fun h' => h (decide_eq_true h')]
  refine isMacho_spec.bind fun macho hmacho => ?_
  subst hmacho
  refine Spec.ite (fun h => Spec.pure ?_) fun h => ?_
  · rw [if_pos (of_decide_eq_true h)]
  rw [if_neg fun h' => h (decide_eq_true h')]
  refine isPe_spec.bind fun pe hpe => Spec.pure ?_
  by_cases h : pe = true
  · rw [if_pos h, if_pos (hpe.mp h)]
  · rw [if_neg h, if_neg fun h' => h (hpe.mpr h')]

/-- A parser of a format returns what the file says, or refuses it. -/
theorem parseAs_reads (hsize : b.size.toNat < 2 ^ 63) {format : Format} (h : Bounded b format) :
    ∃ bound, ∀ turns, Spec b.Inside (¬ Accepted b format) (turns < bound) (parseAs turns b format) fun result =>
      Accepted b format ∧ result = contentsAs b format := by
  cases format with
  | elf =>
    by_cases hwalks : ∃ table, ELF.Walks b table
    · obtain ⟨table, htable⟩ := hwalks
      obtain ⟨k, hk⟩ := h table htable
      have hlt := Nat.lt_of_le_of_lt htable.fileSize_le hsize
      refine ⟨2 ^ 64 + k, fun turns => ELF.parseElf_reads (fun table' h' => ?_) fun table' h' => ?_⟩
      · exact htable.unique h' ▸ hk
      · exact htable.unique h' ▸ hk.eq_count hlt htable.step_ne_zero
    · exact ⟨2 ^ 64 + 0, fun turns => ELF.parseElf_reads (fun table h' => absurd ⟨table, h'⟩ hwalks)
        fun table h' => absurd ⟨table, h'⟩ hwalks⟩
  | macho => exact ⟨2 ^ 64, fun turns => MachO.parseMacho_reads h⟩
  | pe => exact ⟨2 ^ 64, fun turns => PE.parsePe_reads⟩
  | unknown => exact ⟨0, fun turns => Spec.fail not_false⟩

/-- Every export has a name, and a name is text. -/
theorem exports_are_named {format : Format} {e : Export} (h : e ∈ (contentsAs b format).exports) :
    e.name ≠ [] ∧ 0 ∉ e.name := by
  have hnamed {cursor stop address : UInt64} (h : e ∈ named (b.text cursor stop) address) :
      e.name ≠ [] ∧ 0 ∉ e.name := by
    obtain ⟨hname, hne⟩ := named_of_mem h
    rw [hname]
    exact ⟨hne, zero_not_mem_text⟩
  cases format with
  | unknown => cases h
  | elf =>
    simp only [contentsAs, ELF.contentsOf, ELF.exportsOf] at h
    split at h
    · cases h
    · split at h
      · obtain ⟨j, -, h⟩ := List.mem_flatMap.mp h
        unfold ELF.symbolAt at h
        split at h
        · cases h
        · split at h
          · cases h
          · exact hnamed h
      · cases h
  | macho =>
    simp only [contentsAs, MachO.contentsOf, MachO.symbolsOf] at h
    split at h
    · cases h
    · split at h
      · obtain ⟨i, -, h⟩ := List.mem_flatMap.mp h
        unfold MachO.symbolAt at h
        split at h
        · cases h
        · split at h
          · cases h
          · exact hnamed h
      · cases h
  | pe =>
    simp only [contentsAs, PE.contentsOf, PE.namedExportsOf] at h
    split at h
    · cases h
    · split at h
      · cases h
      · split at h
        · cases h
        · unfold PE.exportsAt at h
          split at h
          · cases h
          · split at h
            · obtain ⟨i, exports, hentry, h⟩ := Spec.exists_of_mem_before h
              exact PE.named_of_entryAt hentry h
            · cases h

/-- Whatever the format, a file in which nothing leads out of the buffer is parsed as it says: an image that
fits has exactly its target, its sections and its named exports in their order, and any other buffer is
refused and leaves the image as it was. -/
theorem parse_binary_image_decodes (b : Bytes) (image : BinaryImage) (hsize : b.size.toNat < 2 ^ 63)
    (hbounded : Bounded b (formatOf b)) :
    ∃ bound, ∀ turns, bound ≤ turns →
      (Accepted b (formatOf b) →
        (parseBinaryImage turns b image).outcome = .done ⟨true, ⟨b, contentsAs b (formatOf b)⟩, ""⟩ ∧
          ∀ e ∈ (contentsAs b (formatOf b)).exports, e.name ≠ [] ∧ 0 ∉ e.name) ∧
      (¬ Accepted b (formatOf b) →
        ∃ error, (parseBinaryImage turns b image).outcome = .done ⟨false, image, error⟩) := by
  obtain ⟨bound, hreads⟩ := parseAs_reads hsize hbounded
  refine ⟨bound, fun turns hturns => ?_⟩
  obtain ⟨format, hformat, rfl⟩ :=
    (detectFormat_reads (b := b) (E := False) (R := False)).exists_done not_false not_false
  have hspec := hreads turns
  have hnot : ¬ turns < bound := Nat.not_lt.mpr hturns
  have hparse : (parseBinaryImage turns b image).outcome = _ := bind_outcome hformat
  constructor
  · intro haccepted
    obtain ⟨result, hdone, -, rfl⟩ := hspec.exists_done (not_not.mpr haccepted) hnot
    have hok : (attempt (parseAs turns b (formatOf b))).outcome = .done (.ok (contentsAs b (formatOf b))) := by
      simp only [attempt, hdone]
    refine ⟨?_, fun e he => exports_are_named he⟩
    rw [hparse, bind_outcome hok]
    rfl
  · intro hrefused
    obtain ⟨error, hfailed⟩ : ∃ error, (parseAs turns b (formatOf b)).outcome = .failed error := by
      cases houtcome : (parseAs turns b (formatOf b)).outcome with
      | done result => exact absurd (hspec.done result houtcome).1 hrefused
      | failed error => exact ⟨error, rfl⟩
      | running => exact absurd (hspec.running houtcome) hnot
    have herror : (attempt (parseAs turns b (formatOf b))).outcome = .done (.error error) := by
      simp only [attempt, hfailed]
    refine ⟨error, ?_⟩
    rw [hparse, bind_outcome herror]
    rfl

/-- ELF with its table of names and, behind it, a `.dynsym` of two entries, the second of them `f`. -/
def dynamicImage : Bytes where
  data := some fun i =>
    ([(0, 0x7f), (1, 0x45), (2, 0x4c), (3, 0x46), (4, 2), (5, 1), (0x12, 62), (0x28, 64), (0x3A, 64),
    (0x3C, 2), (68, 3), (88, 192), (96, 11), (128, 1), (132, 11), (152, 203), (160, 48), (184, 24), (193, 46),
    (194, 100), (195, 121), (196, 110), (197, 115), (198, 121), (199, 109), (201, 102), (227, 9), (231, 0x10),
    (233, 1), (236, 0x10)].lookup i).getD 0
  size := 251

private theorem dynamicImage_walks {table : ELF.SymbolTable} (h : ELF.Walks dynamicImage table) :
    table.fileSize = 48 ∧ table.step = 24 := by
  obtain ⟨dynsym, index, hfound, -, rfl⟩ := h.found
  have hfirst : (ELF.findDynsym (ELF.sectionsOf dynamicImage)).map (fun found => (found.1.fileSize, found.2)) =
      some (48, 1) := by decide +kernel
  rw [hfound, Option.map_some] at hfirst
  obtain ⟨hsize, rfl⟩ := Prod.mk.inj (Option.some.inj hfirst)
  have hentsize : dynamicImage.u64 (ELF.headerAt (ELF.headerOf dynamicImage).shoff (.ofNat 1) + 56) = 24 := by
    decide +kernel
  refine ⟨hsize, ?_⟩
  rw [ELF.tableOf, hentsize]
  rfl

theorem parse_binary_image_decodes_dynamic :
    ∃ bound, ∀ turns, bound ≤ turns →
      (parseBinaryImage turns dynamicImage {}).outcome = .done ⟨true, ⟨dynamicImage, ELF.contentsOf dynamicImage⟩, ""⟩ ∧
        (ELF.contentsOf dynamicImage).exports = [⟨[102], 0x1000, 0⟩] := by
  have hformat : formatOf dynamicImage = .elf := by decide +kernel
  have hbounded : Bounded dynamicImage (formatOf dynamicImage) := by
    rw [hformat]
    intro table htable
    obtain ⟨hsize, hstep⟩ := dynamicImage_walks htable
    rw [hsize, hstep]
    exact (stopsInside_iff (by decide) (by decide)).mpr (.inr (by decide))
  have haccepted : Accepted dynamicImage (formatOf dynamicImage) := by
    rw [hformat]
    exact ⟨rfl, by decide, by decide +kernel, by decide +kernel, by decide +kernel, by decide +kernel,
      by decide +kernel, by decide +kernel, by decide +kernel, by decide +kernel⟩
  obtain ⟨bound, hdecodes⟩ := parse_binary_image_decodes dynamicImage {} (by decide) hbounded
  refine ⟨bound, fun turns hturns => ⟨?_, by decide +kernel⟩⟩
  have hdone := ((hdecodes turns hturns).1 haccepted).1
  rwa [hformat] at hdone

end Abix.Binary

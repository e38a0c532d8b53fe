import Abix.Binary.ElfContents
import Abix.Binary.Exports

/-! What a PE file says: its sections, and the exports that are found through them. -/
namespace Abix.Binary
open Abix.Trace Abix.Trace.Traced
variable {b : Bytes} {E R : Prop}

namespace PE

def sectionAt (b : Bytes) (imageBase header : UInt64) : Section where
  name := b.text header (header + 8)
  fileOffset := (b.u32 (header + 20)).toUInt64
  fileSize := (b.u32 (header + 16)).toUInt64
  address := imageBase + (b.u32 (header + 12)).toUInt64
  size := (b.u32 (header + 8)).toUInt64
  flags := (b.u32 (header + 36)).toUInt64

def sectionsOf (b : Bytes) : List (Section × SectionRange) :=
  (List.range (headerOf b).sectionCount.toUInt64.toNat).flatMap fun i =>
    [(sectionAt b (headerOf b).imageBase ((headerOf b).sectionTable + .ofNat i * 40),
      rangeOf b ((headerOf b).sectionTable + .ofNat i * 40))]

/-- The named export of an index, or nothing where one of its entries or its name is not in the file. -/
def entryAt (b : Bytes) (imageBase : UInt64) (ranges : List SectionRange) (tables : ExportTables) (i : Nat) :
    Option (List Export) :=
  if ¬ inBounds (tables.names + .ofNat i * 4) 4 b.size ∨ ¬ inBounds (tables.ordinals + .ofNat i * 2) 2 b.size then none
  else (rvaToOffset b.size (nameRvaAt b tables i) ranges).bind fun name =>
    if ¬ inBounds (tables.functions + (ordinalAt b tables i).toUInt64 * 4) 4 b.size then none
    else some (exportAt b imageBase tables i name).toList

/-- The exports of the tables that a directory points to, up to the first that is not in the file. -/
def exportsAt (b : Bytes) (imageBase : UInt64) (ranges : List SectionRange) (directory : UInt64) : List Export :=
  if b.u32 (directory + 24) = 0 then []
  else
    match rvaToOffset b.size (b.u32 (directory + 32)) ranges, rvaToOffset b.size (b.u32 (directory + 28)) ranges,
      rvaToOffset b.size (b.u32 (directory + 36)) ranges with
    | some names, some functions, some ordinals =>
      Spec.before (entryAt b imageBase ranges ⟨b.u32 (directory + 16), names, functions, ordinals⟩)
        (b.u32 (directory + 24)).toUInt64.toNat
    | _, _, _ => []

def namedExportsOf (b : Bytes) (ranges : List SectionRange) : List Export :=
  if exportRvaOf b = 0 ∨ b.u32 ((headerOf b).dataDirectory + 4) < 40 then []
  else
    match rvaToOffset b.size (exportRvaOf b) ranges with
    | none => []
    | some directory =>
      if ¬ inBounds directory 40 b.size then [] else exportsAt b (headerOf b).imageBase ranges directory

def contentsOf (b : Bytes) : ParseResult where
  target := ⟨.pe, .windows, architecture (headerOf b).machine, .little, if (headerOf b).pe32plus then 8 else 4,
    (headerOf b).imageBase⟩
  sections := (sectionsOf b).map Prod.fst
  exports := namedExportsOf b ((sectionsOf b).map Prod.snd)

theorem readSection_reads {imageBase header : UInt64} (hdata : b.data.isSome) (h : inBounds header 40 b.size) :
    Spec b.Inside E R (readSection b imageBase header) (· = (sectionAt b imageBase header, rangeOf b header)) := by
  refine (readU32_spec hdata (h.part (by decide) (by decide))).bind fun virtualSize hvirtual => ?_
  refine (readU32_spec hdata (h.part (by decide) (by decide))).bind fun virtualAddress haddress => ?_
  refine (readU32_spec hdata (h.part (by decide) (by decide))).bind fun rawSize hsize => ?_
  refine (readU32_spec hdata (h.part (by decide) (by decide))).bind fun rawOffset hoffset => ?_
  refine (readFixedName_text hdata (h.front (by decide))).bind fun name hname => ?_
  refine (readU32_spec hdata (h.part (by decide) (by decide))).bind fun flags hflags => Spec.pure ?_
  rw [hvirtual, haddress, hsize, hoffset, hname, hflags]
  rfl

private theorem readSections_reads (h : HasHeader b) :
    Spec b.Inside E R (readSections b (headerOf b)) (· = sectionsOf b) := by
  refine Spec.collect [] fun i found hi => ?_
  have hwrap : (headerOf b).sectionCount.toUInt64.toNat * (40 : UInt64).toNat < 2 ^ 64 := by
    have hlt := (headerOf b).sectionCount.toNat_lt
    have hforty : (40 : UInt64).toNat = 40 := rfl
    rw [UInt16.toNat_toUInt64, hforty]
    omega
  refine (readSection_reads h.data (h.table.entry hwrap hi)).bind fun next heq => Spec.pure ?_
  rw [heq, UInt64.ofNat_toNat]

/-- A turn takes the export of its index in, or breaks off. -/
theorem exportTurn_reads {turns : Nat} {imageBase i : UInt64} {ranges : List SectionRange} {tables : ExportTables}
    {exports : List Export} (hdata : b.data.isSome) (hR : turns < 2 ^ 64 → R) :
    Spec b.Inside E R (exportTurn turns b imageBase ranges tables i exports)
      (· = (entryAt b imageBase ranges tables i.toNat).elim (.inr exports) fun last => .inl (exports ++ last)) := by
  have hindex : UInt64.ofNat i.toNat = i := UInt64.ofNat_toNat
  rw [entryAt, nameRvaAt, ordinalAt, hindex]
  refine Spec.ite (fun hname => Spec.pure ?_) fun hname => ?_
  · rw [if_pos (.inl hname)]
    rfl
  refine Spec.ite (fun hordinal => Spec.pure ?_) fun hordinal => ?_
  · rw [if_pos (.inr hordinal)]
    rfl
  rw [if_neg (not_or.mpr ⟨hname, hordinal⟩)]
  refine (readU32_spec hdata (not_not.mp hname)).bind fun nameRva heq => ?_
  subst heq
  cases hfound : rvaToOffset b.size (b.u32 (tables.names + i * 4)) ranges with
  | none => exact Spec.pure rfl
  | some nameOffset =>
    refine (readU16_spec hdata (not_not.mp hordinal)).bind fun ordinal heq => ?_
    subst heq
    rw [Option.bind_some]
    refine Spec.ite (fun hfunction => Spec.pure ?_) fun hfunction => ?_
    · rw [if_pos hfunction]
      rfl
    rw [if_neg hfunction]
    refine (readU32_spec hdata (not_not.mp hfunction)).bind fun functionRva heq => ?_
    subst heq
    refine (readName_spec hdata (UInt64.le_refl _) hR).bind fun name heq => Spec.pure ?_
    subst heq
    rw [Option.elim_some, exportAt, ordinalAt, hindex]
    by_cases hempty : b.text nameOffset b.size = [] <;> simp [hempty]

private theorem readExportTables_reads {turns : Nat} {imageBase directory : UInt64} {ranges : List SectionRange}
    (hdata : b.data.isSome) (h : inBounds directory 40 b.size) (hR : turns < 2 ^ 64 → R) :
    Spec b.Inside E R (readExportTables turns b imageBase ranges directory)
      (· = exportsAt b imageBase ranges directory) := by
  refine (readU32_spec hdata (h.part (by decide) (by decide))).bind fun ordinalBase heq => ?_
  subst heq
  refine (readU32_spec hdata (h.part (by decide) (by decide))).bind fun nameCount heq => ?_
  subst heq
  refine (readU32_spec hdata (h.part (by decide) (by decide))).bind fun functionsRva heq => ?_
  subst heq
  refine (readU32_spec hdata (h.part (by decide) (by decide))).bind fun namesRva heq => ?_
  subst heq
  refine (readU32_spec hdata (h.part (by decide) (by decide))).bind fun ordinalsRva heq => ?_
  subst heq
  rw [exportsAt]
  refine Spec.ite (fun hnone => Spec.pure (if_pos hnone).symm) fun hsome => ?_
  rw [if_neg hsome]
  cases rvaToOffset b.size (b.u32 (directory + 32)) ranges with
  | none => exact Spec.pure rfl
  | some names =>
    cases rvaToOffset b.size (b.u32 (directory + 28)) ranges with
    | none => exact Spec.pure rfl
    | some functions =>
      cases rvaToOffset b.size (b.u32 (directory + 36)) ranges with
      | none => exact Spec.pure rfl
      | some ordinals => exact Spec.collectUntil fun i exports _ => exportTurn_reads hdata hR

private theorem readExports_reads {turns : Nat} {ranges : List SectionRange} (hdata : b.data.isSome)
    (hfits : inBounds (headerOf b).dataDirectory 8 b.size) (hR : turns < 2 ^ 64 → R) :
    Spec b.Inside E R (readExports turns b (headerOf b) ranges) (· = namedExportsOf b ranges) := by
  refine (readU32_spec hdata (hfits.front (by decide))).bind fun exportRva heq => ?_
  obtain rfl : exportRva = exportRvaOf b := heq
  refine (readU32_spec hdata (hfits.part (by decide) (by decide))).bind fun exportSize heq => ?_
  subst heq
  rw [namedExportsOf]
  refine Spec.ite (fun hnone => Spec.pure (if_pos hnone).symm) fun hsome => ?_
  rw [if_neg hsome]
  cases rvaToOffset b.size (exportRvaOf b) ranges with
  | none => exact Spec.pure rfl
  | some directory =>
    refine Spec.ite (fun hshort => Spec.pure (if_pos hshort).symm) fun hbounds => ?_
    refine (readExportTables_reads hdata (not_not.mp hbounds) hR).weaken fun exports heq => ?_
    rw [heq]
    exact (if_neg hbounds).symm

theorem parsePe_reads {turns : Nat} :
    Spec b.Inside (¬ HasHeader b) (turns < 2 ^ 64) (parsePe turns b) fun result =>
      HasHeader b ∧ result = contentsOf b := by
  refine readHeader_spec.bind fun header hheader => ?_
  obtain ⟨hheader, rfl, hdirectory⟩ := hheader
  refine (readSections_reads hheader).bind fun found heq => ?_
  subst heq
  refine (readExports_reads hheader.data hdirectory id).bind fun exports heq => Spec.pure ⟨hheader, ?_⟩
  subst heq
  rfl

theorem named_of_entryAt {imageBase : UInt64} {ranges : List SectionRange} {tables : ExportTables} {i : Nat}
    {exports : List Export} {e : Export} (h : entryAt b imageBase ranges tables i = some exports) (he : e ∈ exports) :
    e.name ≠ [] ∧ 0 ∉ e.name := by
  unfold entryAt at h
  split at h
  · cases h
  · obtain ⟨name, -, h⟩ := Option.bind_eq_some_iff.mp h
    split at h
    · cases h
    · cases h
      unfold exportAt at he
      split at he
      · cases he
      · rename_i hne
        rw [List.mem_singleton.mp he]
        exact ⟨hne, zero_not_mem_text⟩

end PE

end Abix.Binary

import Abix.Binary.PE
import Mathlib.Algebra.Group.Nat.Defs
import Mathlib.Order.Interval.Set.Basic
import Mathlib.Order.CompletePartialOrder
import Mathlib.Data.Set.BooleanAlgebra

/-! Where the addresses of a PE image are in its file, in exact arithmetic, and the exports that are
found there. -/
namespace Abix.Binary.PE
open Abix.Trace Abix.Trace.Traced

def SectionRange.stop (range : SectionRange) : Nat :=
  range.rva.toNat + max range.virtualSize.toNat range.rawSize.toNat

def SectionRange.addresses (range : SectionRange) : Set Nat := Set.Ico range.rva.toNat range.stop

/-- The section has the address, with content in the file at that offset. -/
structure SectionRange.Holds (range : SectionRange) (size : UInt64) (rva : UInt32) (offset : UInt64) : Prop where
  address : rva.toNat ∈ range.addresses
  content : rva.toNat - range.rva.toNat < range.rawSize.toNat
  exact : offset.toNat = range.rawOffset.toNat + (rva.toNat - range.rva.toNat)
  file : offset.toNat < size.toNat

def Resolves (size : UInt64) (ranges : List SectionRange) (rva : UInt32) (offset : UInt64) : Prop :=
  ∃ range ∈ ranges, range.Holds size rva offset

def Separate (ranges : List SectionRange) : Prop := ranges.Pairwise fun r r' => Disjoint r.addresses r'.addresses

/-- No section that has the address ends at the top of the address space, or above. -/
def EndsBelowTop (ranges : List SectionRange) (rva : UInt32) : Prop :=
  ∀ range ∈ ranges, rva.toNat ∈ range.addresses → range.stop < 2 ^ 32

section Resolution
variable {size : UInt64} {ranges : List SectionRange} {range : SectionRange} {rva : UInt32} {offset : UInt64}

/-- The code sees the addresses of a section, unless their end wraps, and then it sees none of them. -/
theorem inSpan_iff :
    ¬ (rva < range.rva ∨
        range.rva + (if range.rawSize < range.virtualSize then range.virtualSize else range.rawSize) ≤ rva) ↔
      rva.toNat ∈ range.addresses ∧ range.stop < 2 ^ 32 := by
  have hspan : (if range.rawSize < range.virtualSize then range.virtualSize else range.rawSize).toNat =
      max range.virtualSize.toNat range.rawSize.toNat := by
    split
    · rename_i hlt
      rw [UInt32.lt_iff_toNat_lt] at hlt
      omega
    · rename_i hge
      rw [UInt32.lt_iff_toNat_lt] at hge
      omega
  have hrva := rva.toNat_lt
  have hstart := range.rva.toNat_lt
  have hlast : max range.virtualSize.toNat range.rawSize.toNat < 2 ^ 32 := by
    rw [← hspan]
    exact UInt32.toNat_lt _
  rw [UInt32.lt_iff_toNat_lt, UInt32.le_iff_toNat_le, UInt32.toNat_add, hspan, SectionRange.addresses, Set.mem_Ico,
    SectionRange.stop]
  omega

/-- An address of the section is where the code says it is. -/
theorem holds_iff (haddress : rva.toNat ∈ range.addresses) :
    (if range.rawSize ≤ rva - range.rva then none
      else if inBounds (range.rawOffset.toUInt64 + (rva - range.rva).toUInt64) 1 size then
        some (range.rawOffset.toUInt64 + (rva - range.rva).toUInt64) else none) = some offset ↔
      range.Holds size rva offset := by
  have hstart : range.rva ≤ rva := UInt32.le_iff_toNat_le.mpr haddress.1
  have hdelta : (rva - range.rva).toNat = rva.toNat - range.rva.toNat := UInt32.toNat_sub_of_le _ _ hstart
  have hoffset : (range.rawOffset.toUInt64 + (rva - range.rva).toUInt64).toNat =
      range.rawOffset.toNat + (rva.toNat - range.rva.toNat) := by
    have hraw := range.rawOffset.toNat_lt
    have hrva := rva.toNat_lt
    rw [UInt64.toNat_add, UInt32.toNat_toUInt64, UInt32.toNat_toUInt64, hdelta]
    omega
  generalize range.rawOffset.toUInt64 + (rva - range.rva).toUInt64 = found at hoffset ⊢
  have hfile : inBounds found 1 size ↔ found.toNat < size.toNat := by
    rw [← UInt64.lt_iff_toNat_lt]
    exact ⟨fun h => by lia, fun h => ⟨by lia, by lia⟩⟩
  have hcontent : range.rawSize ≤ rva - range.rva ↔ range.rawSize.toNat ≤ rva.toNat - range.rva.toNat := by
    rw [UInt32.le_iff_toNat_le, hdelta]
  by_cases htail : range.rawSize ≤ rva - range.rva
  · rw [if_pos htail]
    refine iff_of_false (Option.some_ne_none offset).symm fun h => ?_
    exact Nat.not_lt.mpr (hcontent.mp htail) h.content
  · rw [if_neg htail]
    by_cases hinside : inBounds found 1 size
    · rw [if_pos hinside, Option.some.injEq]
      constructor
      · rintro rfl
        exact ⟨haddress, Nat.not_le.mp fun hle => htail (hcontent.mpr hle), hoffset, hfile.mp hinside⟩
      · exact fun h => UInt64.toNat_inj.mp (hoffset.trans h.exact.symm)
    · rw [if_neg hinside]
      refine iff_of_false (Option.some_ne_none offset).symm fun h => hinside (hfile.mpr ?_)
      have hexact := h.exact
      have hlt := h.file
      omega

/-- What resolves in separate sections is found, unless the end of its section wraps. -/
theorem rvaToOffset_eq_some_iff (hseparate : Separate ranges) :
    rvaToOffset size rva ranges = some offset ↔ Resolves size ranges rva offset ∧ EndsBelowTop ranges rva := by
  induction ranges with
  | nil => exact iff_of_false (Option.some_ne_none offset).symm fun ⟨⟨_, hmem, _⟩, _⟩ => absurd hmem List.not_mem_nil
  | cons range ranges ih =>
    obtain ⟨hfirst, hrest⟩ := List.pairwise_cons.mp hseparate
    rw [rvaToOffset]
    by_cases haddress : rva.toNat ∈ range.addresses
    · -- the sections behind this one do not have the address
      have hothers : ∀ other ∈ ranges, rva.toNat ∉ other.addresses := fun other hother hmem =>
        Set.disjoint_left.mp (hfirst other hother) haddress hmem
      by_cases hstop : range.stop < 2 ^ 32
      · rw [if_neg (inSpan_iff.mpr ⟨haddress, hstop⟩), holds_iff haddress]
        constructor
        · refine fun h => ⟨⟨range, List.mem_cons_self, h⟩, fun other hother hmem => ?_⟩
          rcases List.mem_cons.mp hother with rfl | hother
          · exact hstop
          · exact absurd hmem (hothers other hother)
        · rintro ⟨⟨other, hother, h⟩, -⟩
          rcases List.mem_cons.mp hother with rfl | hother
          · exact h
          · exact absurd h.address (hothers other hother)
      · rw [if_pos (not_not.mp fun h => hstop (inSpan_iff.mp h).2), ih hrest]
        refine iff_of_false ?_ fun h => hstop (h.2 range List.mem_cons_self haddress)
        rintro ⟨⟨other, hother, h⟩, -⟩
        exact hothers other hother h.address
    · rw [if_pos (not_not.mp fun h => haddress (inSpan_iff.mp h).1), ih hrest]
      constructor
      · rintro ⟨⟨other, hother, h⟩, htop⟩
        refine ⟨⟨other, List.mem_cons_of_mem _ hother, h⟩, fun other' hother' hmem => ?_⟩
        rcases List.mem_cons.mp hother' with rfl | hother'
        · exact absurd hmem haddress
        · exact htop other' hother' hmem
      · rintro ⟨⟨other, hother, h⟩, htop⟩
        rcases List.mem_cons.mp hother with rfl | hother
        · exact absurd h.address haddress
        · exact ⟨⟨other, hother, h⟩, fun other' hother' => htop other' (List.mem_cons_of_mem _ hother')⟩

end Resolution

def nameRvaAt (b : Bytes) (tables : ExportTables) (i : Nat) : UInt32 := b.u32 (tables.names + .ofNat i * 4)

def ordinalAt (b : Bytes) (tables : ExportTables) (i : Nat) : UInt16 := b.u16 (tables.ordinals + .ofNat i * 2)

def exportAt (b : Bytes) (imageBase : UInt64) (tables : ExportTables) (i : Nat) (name : UInt64) : Option Export :=
  if b.text name b.size = [] then none
  else some ⟨b.text name b.size,
    imageBase + (b.u32 (tables.functions + (ordinalAt b tables i).toUInt64 * 4)).toUInt64,
    tables.ordinalBase + (ordinalAt b tables i).toUInt32⟩

structure EntryResolves (b : Bytes) (ranges : List SectionRange) (tables : ExportTables) (i : Nat) (name : UInt64) :
    Prop where
  nameEntry : tables.names.toNat + i * 4 + 4 ≤ b.size.toNat
  ordinalEntry : tables.ordinals.toNat + i * 2 + 2 ≤ b.size.toNat
  functionEntry : tables.functions.toNat + (ordinalAt b tables i).toNat * 4 + 4 ≤ b.size.toNat
  resolves : Resolves b.size ranges (nameRvaAt b tables i) name

def nameCountAt (b : Bytes) (directory : UInt64) : Nat := (b.u32 (directory + 24)).toNat

structure TablesResolve (b : Bytes) (ranges : List SectionRange) (directory : UInt64) (tables : ExportTables)
    (names : Nat → UInt64) : Prop where
  ordinalBase : tables.ordinalBase = b.u32 (directory + 16)
  functionArray : Resolves b.size ranges (b.u32 (directory + 28)) tables.functions
  nameArray : Resolves b.size ranges (b.u32 (directory + 32)) tables.names
  ordinalArray : Resolves b.size ranges (b.u32 (directory + 36)) tables.ordinals
  entries : ∀ i < nameCountAt b directory, EntryResolves b ranges tables i (names i)

def exportsOf (b : Bytes) (imageBase directory : UInt64) (tables : ExportTables) (names : Nat → UInt64) :
    List Export :=
  (List.range (nameCountAt b directory)).filterMap fun i => exportAt b imageBase tables i (names i)

section Walk
variable {b : Bytes} {E R : Prop} {turns : Nat} {imageBase directory : UInt64} {ranges : List SectionRange}
  {tables : ExportTables} {names : Nat → UInt64}

/-- What is in the file in exact arithmetic is in bounds. -/
theorem inBounds_of_toNat {offset length size : UInt64} (h : offset.toNat + length.toNat ≤ size.toNat) :
    inBounds offset length size := by
  have hle : offset ≤ size := UInt64.le_iff_toNat_le.mpr (by omega)
  refine ⟨hle, ?_⟩
  rw [UInt64.le_iff_toNat_le, UInt64.toNat_sub_of_le _ _ hle]
  omega

theorem inBounds_of_exact {base i width size : UInt64}
    (h : base.toNat + i.toNat * width.toNat + width.toNat ≤ size.toNat) : inBounds (base + i * width) width size := by
  have hsize := size.toNat_lt
  have hentry : (i * width).toNat = i.toNat * width.toNat := by
    rw [UInt64.toNat_mul, Nat.mod_eq_of_lt (by omega)]
  have hoffset : (base + i * width).toNat = base.toNat + i.toNat * width.toNat := by
    rw [UInt64.toNat_add, hentry, Nat.mod_eq_of_lt (by omega)]
  exact inBounds_of_toNat (hoffset ▸ h)

/-- A turn at an entry that is in the file adds the export, unless the end of the section of its name wraps. -/
theorem exportTurn_spec {i : UInt64} {exports : List Export} (hdata : b.data.isSome) (hR : turns < 2 ^ 64 → R) :
    Spec b.Inside E R (exportTurn turns b imageBase ranges tables i exports) fun next =>
      ∀ name, Separate ranges → EntryResolves b ranges tables i.toNat name →
        (EndsBelowTop ranges (nameRvaAt b tables i.toNat) ∧
          next = .inl (exports ++ (exportAt b imageBase tables i.toNat name).toList)) ∨
        (¬ EndsBelowTop ranges (nameRvaAt b tables i.toNat) ∧ next = .inr exports) := by
  refine Spec.ite (fun hname => Spec.pure fun name _ h => absurd ?_ hname) fun hname => ?_
  · exact inBounds_of_exact h.nameEntry
  refine Spec.ite (fun hordinal => Spec.pure fun name _ h => absurd ?_ hordinal) fun hordinal => ?_
  · exact inBounds_of_exact h.ordinalEntry
  have hindex : UInt64.ofNat i.toNat = i := UInt64.ofNat_toNat
  refine (readU32_spec hdata (not_not.mp hname)).bind fun nameRva heq => ?_
  obtain rfl : nameRva = nameRvaAt b tables i.toNat := by rw [heq, nameRvaAt, hindex]
  cases hfound : rvaToOffset b.size (nameRvaAt b tables i.toNat) ranges with
  | none =>
    refine Spec.pure fun name hseparate h => .inr ⟨fun htop => ?_, rfl⟩
    exact Option.some_ne_none name (((rvaToOffset_eq_some_iff hseparate).mpr ⟨h.resolves, htop⟩).symm.trans hfound)
  | some nameOffset =>
    refine (readU16_spec hdata (not_not.mp hordinal)).bind fun ordinal heq => ?_
    obtain rfl : ordinal = ordinalAt b tables i.toNat := by rw [heq, ordinalAt, hindex]
    refine Spec.ite (fun hfunction => Spec.pure fun name _ h => absurd ?_ hfunction) fun hfunction => ?_
    · refine inBounds_of_exact ?_
      rw [UInt16.toNat_toUInt64]
      exact h.functionEntry
    refine (readU32_spec hdata (not_not.mp hfunction)).bind fun functionRva heq => ?_
    subst heq
    refine (readName_spec hdata (UInt64.le_refl _) hR).bind fun text heq => Spec.pure fun name hseparate h => .inl ?_
    subst heq
    have htop := ((rvaToOffset_eq_some_iff hseparate).mp hfound).2
    obtain rfl : nameOffset = name :=
      Option.some.inj (hfound.symm.trans ((rvaToOffset_eq_some_iff hseparate).mpr ⟨h.resolves, htop⟩))
    refine ⟨htop, congrArg Sum.inl ?_⟩
    rw [exportAt]
    split
    · exact (List.append_nil _).symm
    · rfl

/-- The walk over the names stops at the first whose section has an end that wraps. -/
structure StopsAtWrap (b : Bytes) (imageBase directory : UInt64) (ranges : List SectionRange)
    (tables : ExportTables) (names : Nat → UInt64) (exports : List Export) (k : Nat) : Prop where
  counted : k ≤ nameCountAt b directory
  exports : exports = (List.range k).filterMap fun i => exportAt b imageBase tables i (names i)
  before : ∀ j < k, EndsBelowTop ranges (nameRvaAt b tables j)
  stop : k = nameCountAt b directory ∨ ¬ EndsBelowTop ranges (nameRvaAt b tables k)

/-- It has every named export if none comes after that. -/
theorem StopsAtWrap.eq_iff {exports : List Export} {k : Nat}
    (h : StopsAtWrap b imageBase directory ranges tables names exports k) :
    exports = exportsOf b imageBase directory tables names ↔
      ∀ i < nameCountAt b directory, (exportAt b imageBase tables i (names i)).isSome →
        ∀ j ≤ i, EndsBelowTop ranges (nameRvaAt b tables j) := by
  obtain ⟨rest, hrest⟩ := Nat.exists_eq_add_of_le h.counted
  rw [exportsOf, hrest, List.range_add, List.filterMap_append, ← h.exports, List.self_eq_append_right,
    List.filterMap_eq_nil_iff]
  constructor
  · intro hnone i hi hsome j hj
    by_cases hik : i < k
    · exact h.before j (Nat.lt_of_le_of_lt hj hik)
    · have hlater := hnone i (List.mem_map.mpr ⟨i - k, List.mem_range.mpr (by omega), by omega⟩)
      rw [hlater] at hsome
      cases hsome
  · intro htop i hi
    obtain ⟨d, hd, rfl⟩ := List.mem_map.mp hi
    have hlt := List.mem_range.mp hd
    refine Option.not_isSome_iff_eq_none.mp fun hsome => ?_
    have hwraps := h.stop.resolve_left (by omega)
    exact hwraps (htop (k + d) (by omega) hsome k (Nat.le_add_right k d))

private theorem walkExports_spec {nameCount : UInt32} (hcount : nameCount.toNat = nameCountAt b directory)
    (hdata : b.data.isSome) (hR : turns < 2 ^ 64 → R) :
    Spec b.Inside E R (forUpTo nameCount.toUInt64 (exportTurn turns b imageBase ranges tables) []) fun exports =>
      ∀ names, Separate ranges → (∀ i < nameCountAt b directory, EntryResolves b ranges tables i (names i)) →
        ∃ k, StopsAtWrap b imageBase directory ranges tables names exports k := by
  have hcount : nameCount.toUInt64.toNat = nameCountAt b directory := (UInt32.toNat_toUInt64 _).trans hcount
  refine Spec.forUpTo (I := fun i exports => ∀ names : Nat → UInt64, Separate ranges →
    (∀ i < nameCountAt b directory, EntryResolves b ranges tables i (names i)) →
    exports = (List.range i.toNat).filterMap (fun i => exportAt b imageBase tables i (names i)) ∧
      ∀ j < i.toNat, EndsBelowTop ranges (nameRvaAt b tables j)) ?_ (fun i exports hi hwalked => ?_)
    fun exports hwalked names hseparate hentries => ?_
  · exact fun names _ _ => ⟨rfl, fun j hj => absurd hj (Nat.not_lt_zero j)⟩
  · have hlt : i.toNat < nameCountAt b directory := hcount ▸ UInt64.lt_iff_toNat_lt.mp hi
    refine (exportTurn_spec hdata hR).weaken fun next hturn => ?_
    -- a turn that goes on is one whose name is below the top, and one that breaks off is not
    cases next with
    | inl exports' =>
      intro names hseparate hentries
      obtain ⟨hexports, hbefore⟩ := hwalked names hseparate hentries
      obtain ⟨htop, heq⟩ | ⟨_, heq⟩ := hturn (names i.toNat) hseparate (hentries _ hlt)
      · obtain rfl := Sum.inl.inj heq
        rw [toNat_succ hi, List.range_succ, List.filterMap_append, ← hexports]
        refine ⟨?_, fun j hj => ?_⟩
        · rw [List.filterMap_cons]
          cases exportAt b imageBase tables i.toNat (names i.toNat) <;> rfl
        · rcases Nat.lt_succ_iff_lt_or_eq.mp hj with hj | rfl
          · exact hbefore j hj
          · exact htop
      · cases heq
    | inr exports' =>
      intro names hseparate hentries
      obtain ⟨hexports, hbefore⟩ := hwalked names hseparate hentries
      obtain ⟨_, heq⟩ | ⟨hwraps, heq⟩ := hturn (names i.toNat) hseparate (hentries _ hlt)
      · cases heq
      · obtain rfl := Sum.inr.inj heq
        exact ⟨i.toNat, hlt.le, hexports, hbefore, .inr hwraps⟩
  · obtain ⟨hexports, hbefore⟩ := hwalked names hseparate hentries
    exact ⟨_, hcount.le, hexports, hbefore, .inl hcount⟩

/-- The arrays, and the names up to an entry, are in sections that end below the top. -/
structure TablesBelowTop (b : Bytes) (ranges : List SectionRange) (directory : UInt64) (tables : ExportTables)
    (i : Nat) : Prop where
  functionArray : EndsBelowTop ranges (b.u32 (directory + 28))
  nameArray : EndsBelowTop ranges (b.u32 (directory + 32))
  ordinalArray : EndsBelowTop ranges (b.u32 (directory + 36))
  names : ∀ j ≤ i, EndsBelowTop ranges (nameRvaAt b tables j)

/-- Without any export, every named one is there if none is named. -/
theorem nil_eq_exportsOf_iff {P : Nat → Prop} (h : ∀ i < nameCountAt b directory, ¬ P i) :
    [] = exportsOf b imageBase directory tables names ↔
      ∀ i < nameCountAt b directory, (exportAt b imageBase tables i (names i)).isSome → P i := by
  rw [exportsOf, eq_comm, List.filterMap_eq_nil_iff]
  constructor
  · intro hnone i hi hsome
    rw [hnone i (List.mem_range.mpr hi)] at hsome
    cases hsome
  · intro hnamed i hi
    have hi := List.mem_range.mp hi
    exact Option.not_isSome_iff_eq_none.mp fun hsome => h i hi (hnamed i hi hsome)

private theorem readExportTables_spec (hdata : b.data.isSome) (h : inBounds directory 40 b.size)
    (hR : turns < 2 ^ 64 → R) :
    Spec b.Inside E R (readExportTables turns b imageBase ranges directory) fun exports =>
      ∀ tables names, Separate ranges → TablesResolve b ranges directory tables names →
        (exports = exportsOf b imageBase directory tables names ↔
          ∀ i < nameCountAt b directory, (exportAt b imageBase tables i (names i)).isSome →
            TablesBelowTop b ranges directory tables i) := by
  refine (readU32_spec hdata (h.part (by decide) (by decide))).bind fun ordinalBase heq => ?_
  subst heq
  refine (readU32_spec hdata (h.part (by decide) (by decide))).bind fun nameCount heq => ?_
  subst heq
  refine (readU32_spec hdata (h.part (by decide) (by decide))).bind fun functionsRva heq => ?_
  subst heq
  refine (readU32_spec hdata (h.part (by decide) (by decide))).bind fun namesRva heq => ?_
  subst heq
  refine (readU32_spec hdata (h.part (by decide) (by decide))).bind fun ordinalsRva heq => ?_
  subst heq
  refine Spec.ite (fun hzero => Spec.pure fun tables names _ _ => nil_eq_exportsOf_iff fun i hi => ?_) fun _ => ?_
  · rw [nameCountAt, hzero] at hi
    exact absurd hi (Nat.not_lt_zero i)
  split
  · rename_i nameArray functionArray ordinalArray hnames hfunctions hordinals
    refine (walkExports_spec rfl hdata hR).weaken fun exports hwalked tables names hseparate h => ?_
    -- what the code has found is what the tables are
    have hfound : ∀ {rva : UInt32} {found offset : UInt64}, rvaToOffset b.size rva ranges = some found →
        Resolves b.size ranges rva offset → EndsBelowTop ranges rva ∧ offset = found := by
      intro rva found offset hfound hresolves
      have htop := ((rvaToOffset_eq_some_iff hseparate).mp hfound).2
      have hoffset := (rvaToOffset_eq_some_iff hseparate).mpr ⟨hresolves, htop⟩
      exact ⟨htop, Option.some.inj (hoffset.symm.trans hfound)⟩
    obtain ⟨base, nameTable, functionTable, ordinalTable⟩ := tables
    obtain ⟨hnameTop, rfl⟩ := hfound hnames h.nameArray
    obtain ⟨hfunctionTop, rfl⟩ := hfound hfunctions h.functionArray
    obtain ⟨hordinalTop, rfl⟩ := hfound hordinals h.ordinalArray
    obtain rfl : base = _ := h.ordinalBase
    obtain ⟨k, hk⟩ := hwalked names hseparate h.entries
    rw [hk.eq_iff]
    exact forall₃_congr fun i _ _ => ⟨fun hbefore => ⟨hfunctionTop, hnameTop, hordinalTop, hbefore⟩,
      fun htop => htop.names⟩
  · rename_i hnone
    refine Spec.pure fun tables names hseparate h => nil_eq_exportsOf_iff fun i _ htop => ?_
    exact hnone _ _ _ ((rvaToOffset_eq_some_iff hseparate).mpr ⟨h.nameArray, htop.nameArray⟩)
      ((rvaToOffset_eq_some_iff hseparate).mpr ⟨h.functionArray, htop.functionArray⟩)
      ((rvaToOffset_eq_some_iff hseparate).mpr ⟨h.ordinalArray, htop.ordinalArray⟩)

def exportRvaOf (b : Bytes) : UInt32 := b.u32 (headerOf b).dataDirectory

/-- The export directory of an image, its arrays and its names are where exact arithmetic finds them. -/
structure ExportsResolve (b : Bytes) (directory : UInt64) (tables : ExportTables) (names : Nat → UInt64) :
    Prop where
  header : HasHeader b
  separate : Separate (rangesOf b)
  declared : exportRvaOf b ≠ 0
  size : 40 ≤ b.u32 ((headerOf b).dataDirectory + 4)
  located : Resolves b.size (rangesOf b) (exportRvaOf b) directory
  fits : directory.toNat + 40 ≤ b.size.toNat
  tables : TablesResolve b (rangesOf b) directory tables names

def NamedBelowTop (b : Bytes) (directory : UInt64) (tables : ExportTables) (names : Nat → UInt64) : Prop :=
  ∀ i < nameCountAt b directory, (exportAt b (headerOf b).imageBase tables i (names i)).isSome →
    EndsBelowTop (rangesOf b) (exportRvaOf b) ∧ TablesBelowTop b (rangesOf b) directory tables i

private theorem readExports_spec (hheader : HasHeader b) (hfits : inBounds (headerOf b).dataDirectory 8 b.size)
    (hR : turns < 2 ^ 64 → R) :
    Spec b.Inside E R (readExports turns b (headerOf b) (rangesOf b)) fun exports =>
      ∀ directory tables names, ExportsResolve b directory tables names →
        (exports = exportsOf b (headerOf b).imageBase directory tables names ↔
          NamedBelowTop b directory tables names) := by
  refine (readU32_spec hheader.data (hfits.front (by decide))).bind fun exportRva heq => ?_
  obtain rfl : exportRva = exportRvaOf b := heq
  refine (readU32_spec hheader.data (hfits.part (by decide) (by decide))).bind fun exportSize heq => ?_
  subst heq
  refine Spec.ite (fun hnone => Spec.pure fun directory tables names h => ?_) fun _ => ?_
  · exact absurd hnone (not_or.mpr ⟨h.declared, UInt32.not_lt.mpr h.size⟩)
  cases hfound : rvaToOffset b.size (exportRvaOf b) (rangesOf b) with
  | none =>
    refine Spec.pure fun directory tables names h => nil_eq_exportsOf_iff fun i _ htop => ?_
    exact Option.some_ne_none directory
      (((rvaToOffset_eq_some_iff h.separate).mpr ⟨h.located, htop.1⟩).symm.trans hfound)
  | some found =>
    have hdirectory : ∀ {directory tables names}, ExportsResolve b directory tables names →
        EndsBelowTop (rangesOf b) (exportRvaOf b) ∧ directory = found := by
      intro directory tables names h
      have htop := ((rvaToOffset_eq_some_iff h.separate).mp hfound).2
      have hoffset := (rvaToOffset_eq_some_iff h.separate).mpr ⟨h.located, htop⟩
      exact ⟨htop, Option.some.inj (hoffset.symm.trans hfound)⟩
    refine Spec.ite (fun hshort => Spec.pure fun directory tables names h => absurd ?_ hshort) fun hbounds => ?_
    · obtain ⟨-, rfl⟩ := hdirectory h
      exact inBounds_of_toNat h.fits
    refine (readExportTables_spec hheader.data (not_not.mp hbounds) hR).weaken
      fun exports hexports directory tables names h => ?_
    obtain ⟨htop, rfl⟩ := hdirectory h
    rw [hexports tables names h.separate h.tables]
    exact forall₃_congr fun i _ _ => (and_iff_right htop).symm

theorem parsePe_spec (turns : Nat) :
    Spec b.Inside (¬ HasHeader b) (turns < 2 ^ 64) (parsePe turns b) fun result =>
      ∀ directory tables names, ExportsResolve b directory tables names →
        (result.exports = exportsOf b (headerOf b).imageBase directory tables names ↔
          NamedBelowTop b directory tables names) := by
  refine readHeader_spec.bind fun header hheader => ?_
  obtain ⟨hheader, rfl, hdirectory⟩ := hheader
  refine (readSections_spec hheader).bind fun found hfound => ?_
  rw [hfound]
  exact (readExports_spec hheader hdirectory id).bind fun exports hexports => Spec.pure hexports

end Walk

/-- PE parsing stays inside the buffer and its loops end, whatever the buffer is. -/
theorem parse_pe_stays_inside (b : Bytes) : StaysInside b (parsePe · b) := staysInside_of_spec parsePe_spec

def ReturnsExports (b : Bytes) (exports : List Export) : Prop :=
  ∃ bound, ∀ turns, bound ≤ turns →
    ∃ result, (parsePe turns b).outcome = .done result ∧ result.exports = exports

/-- An address of separate sections resolves as it does in exact arithmetic unless it is content of a
section whose end wraps, and an image has its named exports unless such a section leads to one. -/
theorem address_resolution_exact_iff (size : UInt64) (ranges : List SectionRange) (rva : UInt32) (b : Bytes)
    (directory : UInt64) (tables : ExportTables) (names : Nat → UInt64) :
    (Separate ranges →
      ((∀ offset, rvaToOffset size rva ranges = some offset ↔ Resolves size ranges rva offset) ↔
        ((∃ offset, Resolves size ranges rva offset) → EndsBelowTop ranges rva))) ∧
    (ExportsResolve b directory tables names →
      (ReturnsExports b (exportsOf b (headerOf b).imageBase directory tables names) ↔
        NamedBelowTop b directory tables names)) := by
  refine ⟨fun hseparate => ?_, fun h => ?_⟩
  · constructor
    · rintro hexact ⟨offset, hresolves⟩
      exact ((rvaToOffset_eq_some_iff hseparate).mp ((hexact offset).mpr hresolves)).2
    · intro htop offset
      rw [rvaToOffset_eq_some_iff hseparate]
      exact ⟨And.left, fun hresolves => ⟨hresolves, htop ⟨offset, hresolves⟩⟩⟩
  · constructor
    · rintro ⟨bound, hreturns⟩
      obtain ⟨result, hdone, hexports⟩ := hreturns bound (Nat.le_refl bound)
      exact ((parsePe_spec bound).done result hdone directory tables names h).mp hexports
    · refine fun htop => ⟨2 ^ 64, fun turns hturns => ?_⟩
      obtain ⟨result, hdone, hresult⟩ :=
        (parsePe_spec turns).exists_done (not_not.mpr h.header) (Nat.not_lt.mpr hturns)
      exact ⟨result, hdone, (hresult directory tables names h).mpr htop⟩

def lastPage : SectionRange := ⟨0xFFFFF000, 0x1000, 0x200, 0x200⟩

theorem last_page_is_not_resolved :
    Separate [lastPage] ∧ Resolves 0x400 [lastPage] 0xFFFFF000 0x200 ∧
      rvaToOffset 0x400 0xFFFFF000 [lastPage] = none :=
  ⟨List.pairwise_singleton _ _, ⟨lastPage, List.mem_cons_self, ⟨by decide, by decide⟩, by decide, by decide, by decide⟩,
    by decide⟩

/-- PE32 with one section, which holds the whole file from the address 0x1000 on, and one export `f`. -/
def smallImage : Bytes where
  data := some fun i => ([(0, 0x4d), (1, 0x5a), (0x3C, 64), (64, 0x50), (65, 0x45), (70, 1), (84, 104), (88, 0x0B),
    (89, 0x01), (184, 0xE8), (185, 0x10), (188, 40), (200, 0x1C), (201, 0x01), (205, 0x10), (208, 0x1C), (209, 0x01),
    (248, 1), (256, 1), (260, 0x10), (261, 0x11), (264, 0x14), (265, 0x11), (268, 0x18), (269, 0x11), (273, 0x20),
    (276, 0x1A), (277, 0x11), (282, 0x66)].lookup i).getD 0
  size := 284

theorem smallImage_ranges : rangesOf smallImage = [⟨0x1000, 284, 284, 0⟩] := by decide +kernel

theorem smallImage_separate : Separate (rangesOf smallImage) := by
  rw [smallImage_ranges]
  exact List.pairwise_singleton _ _

theorem smallImage_resolves {rva : UInt32} {offset : UInt64} (hrva : rva.toNat = 0x1000 + offset.toNat)
    (hoffset : offset.toNat < 284) : Resolves smallImage.size (rangesOf smallImage) rva offset := by
  rw [smallImage_ranges]
  have hstart : (0x1000 : UInt32).toNat = 0x1000 := rfl
  have hcontent : (284 : UInt32).toNat = 284 := rfl
  have hraw : (0 : UInt32).toNat = 0 := rfl
  refine ⟨_, List.mem_cons_self, ⟨?_, ?_⟩, ?_, ?_, hoffset⟩
  all_goals
    dsimp only [SectionRange.stop]
    omega

theorem address_resolution_exact_iff_small :
    ((∀ offset, rvaToOffset 284 0x1000 (rangesOf smallImage) = some offset ↔
        Resolves 284 (rangesOf smallImage) 0x1000 offset) ↔
      ((∃ offset, Resolves 284 (rangesOf smallImage) 0x1000 offset) → EndsBelowTop (rangesOf smallImage) 0x1000)) ∧
    (ReturnsExports smallImage
        (exportsOf smallImage (headerOf smallImage).imageBase 232 ⟨1, 276, 272, 280⟩ fun _ => 282) ↔
      NamedBelowTop smallImage 232 ⟨1, 276, 272, 280⟩ fun _ => 282) := by
  obtain ⟨haddress, hexports⟩ := address_resolution_exact_iff 284 (rangesOf smallImage) 0x1000 smallImage 232
    ⟨1, 276, 272, 280⟩ fun _ => 282
  refine ⟨haddress smallImage_separate, hexports ?_⟩
  have hcount : nameCountAt smallImage 232 = 1 := by decide +kernel
  refine ⟨⟨rfl, by decide, ⟨by decide +kernel, by decide +kernel, by decide +kernel⟩, by decide +kernel,
      by decide +kernel, by decide +kernel, by decide +kernel, by decide +kernel⟩, smallImage_separate,
    by decide +kernel, by decide +kernel, smallImage_resolves (by decide +kernel) (by decide), by decide,
    by decide +kernel, smallImage_resolves (by decide +kernel) (by decide),
    smallImage_resolves (by decide +kernel) (by decide), smallImage_resolves (by decide +kernel) (by decide),
    fun i hi => ?_⟩
  obtain rfl : i = 0 := by omega
  exact ⟨by decide, by decide, by decide +kernel, smallImage_resolves (by decide +kernel) (by decide)⟩

end Abix.Binary.PE

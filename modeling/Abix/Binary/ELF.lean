import Abix.Binary.Detect
import Abix.Trace.Stride

/-! ELF images: a header, a table of section headers, and the dynamic symbols that one section holds. -/
namespace Abix.Binary
open Abix.Trace Abix.Trace.Traced

namespace ELF

def architecture (machine : UInt16) : Architecture :=
  if machine = 3 then .x86
  else if machine = 62 then .x86_64
  else if machine = 40 then .arm32
  else if machine = 183 then .arm64
  else if machine = 243 then .riscv64
  else .unknown

structure Header where
  shoff : UInt64
  shnum : UInt16
  namesOffset : UInt64
  namesSize : UInt64
  osabi : UInt8
  machine : UInt16

def headerAt (shoff : UInt64) (index : UInt16) : UInt64 := shoff + index.toUInt64 * 64

def readHeader (b : Bytes) : Traced Event Header := do
  let recognised ← isElf b
  failIf (recognised = false) "not an ELF file"
  failIf (b.size < 16) "truncated ELF identification"
  let elfClass ← b.read 4
  failIf (elfClass ≠ 2) "unsupported ELF class (only ELF64 is supported)"
  let encoding ← b.read 5
  failIf (encoding ≠ 1) "unsupported ELF endianness (only little-endian is supported)"
  failIf (b.size < 0x40) "truncated ELF header"
  let shoff ← readU64 b 0x28
  let shentsize ← readU16 b 0x3A
  let shnum ← readU16 b 0x3C
  let shstrndx ← readU16 b 0x3E
  failIf (shentsize ≠ 64) "unexpected ELF64 section header size"
  failIf (shnum = 0) "ELF has no section headers"
  failIf (¬ inBounds shoff (shentsize.toUInt64 * shnum.toUInt64) b.size)
    "ELF section header table is out of bounds"
  failIf (shnum ≤ shstrndx) "ELF section name table index is out of range"
  let namesOffset ← readU64 b (headerAt shoff shstrndx + 24)
  let namesSize ← readU64 b (headerAt shoff shstrndx + 32)
  failIf (¬ inBounds namesOffset namesSize b.size) "ELF section name table is out of bounds"
  let osabi ← b.read 7
  let machine ← readU16 b 0x12
  pure ⟨shoff, shnum, namesOffset, namesSize, osabi, machine⟩

def nameOf (turns : Nat) (b : Bytes) (header : Header) (nameOffset : UInt32) : Traced Event (List UInt8) :=
  if header.namesSize ≤ nameOffset.toUInt64 then pure []
  else readName turns b (header.namesOffset + nameOffset.toUInt64) (header.namesOffset + header.namesSize)

/-- A section of type 8 has no content in the file. -/
def readSection (turns : Nat) (b : Bytes) (header : Header) (offset : UInt64) : Traced Event Section := do
  let type ← readU32 b (offset + 4)
  let flags ← readU64 b (offset + 8)
  let address ← readU64 b (offset + 16)
  let fileOffset ← readU64 b (offset + 24)
  let size ← readU64 b (offset + 32)
  let alignment ← readU64 b (offset + 48)
  let nameOffset ← readU32 b offset
  let name ← nameOf turns b header nameOffset
  pure {
    name := name
    fileOffset := fileOffset
    fileSize := if type = 8 then 0 else size
    address := address
    size := size
    alignment := alignment
    type := type
    flags := flags
  }

def readSections (turns : Nat) (b : Bytes) (header : Header) : Traced Event (List Section) :=
  forUpTo header.shnum.toUInt64 (fun i sections => do
    let found ← readSection turns b header (headerAt header.shoff i.toUInt16)
    pure (.inl (sections ++ [found]))) []

/-- Where the dynamic symbols are, how far apart they are, and where their names are. -/
structure SymbolTable where
  fileOffset : UInt64
  fileSize : UInt64
  step : UInt64
  strOffset : UInt64
  strSize : UInt64

/-- Symbols that are defined, named, and global or weak are kept. -/
def readSymbol (turns : Nat) (b : Bytes) (table : SymbolTable) (entry : UInt64) (exports : List Export) :
    Traced Event (List Export) := do
  let stName ← readU32 b entry
  let stInfo ← b.read (entry + 4)
  let stShndx ← readU16 b (entry + 6)
  let stValue ← readU64 b (entry + 8)
  if stShndx = 0 ∨ stName = 0 then pure exports
  else if stInfo >>> 4 ≠ 1 ∧ stInfo >>> 4 ≠ 2 then pure exports
  else
    let name ← readName turns b (table.strOffset + stName.toUInt64) (table.strOffset + table.strSize)
    pure (if name = [] then exports else exports ++ [⟨name, stValue, 0⟩])

/-- `for (off = 0; off + 24 <= dynsym.file_size; off += step)`, where both sums may wrap. -/
def symbolTurn (turns : Nat) (b : Bytes) (table : SymbolTable) (state : UInt64 × List Export) :
    Traced Event ((UInt64 × List Export) ⊕ List Export) :=
  if state.1 + 24 ≤ table.fileSize then do
    emit (.symbol state.1 table.fileSize)
    let exports ← readSymbol turns b table (table.fileOffset + state.1) state.2
    pure (.inl (state.1 + table.step, exports))
  else pure (.inr state.2)

def readSymbols (turns : Nat) (b : Bytes) (table : SymbolTable) : Traced Event (List Export) :=
  loop (symbolTurn turns b table) turns (0, [])

def dynsymName : List UInt8 := [46, 100, 121, 110, 115, 121, 109]

def readDynsym (turns : Nat) (b : Bytes) (header : Header) (dynsym : Section) (index : Nat) :
    Traced Event (List Export) := do
  let dynsymHeader := headerAt header.shoff (.ofNat index)
  let link ← readU32 b (dynsymHeader + 40)
  let entsize ← readU64 b (dynsymHeader + 56)
  if ¬ (link < header.shnum.toUInt32 ∧ inBounds dynsym.fileOffset dynsym.fileSize b.size) then pure []
  else
    let linkHeader := headerAt header.shoff link.toUInt16
    let strOffset ← readU64 b (linkHeader + 24)
    let strSize ← readU64 b (linkHeader + 32)
    if ¬ inBounds strOffset strSize b.size then pure []
    else
      readSymbols turns b
        ⟨dynsym.fileOffset, dynsym.fileSize, if entsize ≠ 0 then entsize else 24, strOffset, strSize⟩

def findDynsym (sections : List Section) : Option (Section × Nat) :=
  sections.zipIdx.find? fun found => found.1.name = dynsymName

end ELF

def parseElf (turns : Nat) (b : Bytes) : Traced Event ParseResult := do
  let header ← ELF.readHeader b
  let sections ← ELF.readSections turns b header
  let exports ← (match ELF.findDynsym sections with
    | none => pure []
    | some (dynsym, index) => ELF.readDynsym turns b header dynsym index)
  pure ⟨⟨.elf, if header.osabi = 9 then .freebsd else .linux, ELF.architecture header.machine, .little, 8, 0⟩,
    sections, exports⟩

namespace ELF

def headerOf (b : Bytes) : Header where
  shoff := b.u64 0x28
  shnum := b.u16 0x3C
  namesOffset := b.u64 (headerAt (b.u64 0x28) (b.u16 0x3E) + 24)
  namesSize := b.u64 (headerAt (b.u64 0x28) (b.u16 0x3E) + 32)
  osabi := b.byteAt 7
  machine := b.u16 0x12

structure HasHeader (b : Bytes) : Prop where
  data : b.data.isSome
  size : 0x40 ≤ b.size
  magic : b.shows elfMagic
  elfClass : b.byteAt 4 = 2
  encoding : b.byteAt 5 = 1
  entsize : b.u16 0x3A = 64
  some : b.u16 0x3C ≠ 0
  table : inBounds (b.u64 0x28) ((b.u16 0x3A).toUInt64 * (b.u16 0x3C).toUInt64) b.size
  index : b.u16 0x3E < b.u16 0x3C
  names : inBounds (headerOf b).namesOffset (headerOf b).namesSize b.size

def nameAt (b : Bytes) (nameOffset : UInt32) : List UInt8 :=
  if (headerOf b).namesSize ≤ nameOffset.toUInt64 then []
  else b.text ((headerOf b).namesOffset + nameOffset.toUInt64) ((headerOf b).namesOffset + (headerOf b).namesSize)

def sectionOf (b : Bytes) (offset : UInt64) : Section where
  name := nameAt b (b.u32 offset)
  fileOffset := b.u64 (offset + 24)
  fileSize := if b.u32 (offset + 4) = 8 then 0 else b.u64 (offset + 32)
  address := b.u64 (offset + 16)
  size := b.u64 (offset + 32)
  alignment := b.u64 (offset + 48)
  type := b.u32 (offset + 4)
  flags := b.u64 (offset + 8)

def sectionsOf (b : Bytes) : List Section :=
  (List.range (headerOf b).shnum.toNat).map fun i => sectionOf b (headerAt (headerOf b).shoff (.ofNat i))

def linkOf (b : Bytes) (index : Nat) : UInt32 := b.u32 (headerAt (headerOf b).shoff (.ofNat index) + 40)

def tableOf (b : Bytes) (dynsym : Section) (index : Nat) : SymbolTable where
  fileOffset := dynsym.fileOffset
  fileSize := dynsym.fileSize
  step := if b.u64 (headerAt (headerOf b).shoff (.ofNat index) + 56) ≠ 0 then
    b.u64 (headerAt (headerOf b).shoff (.ofNat index) + 56) else 24
  strOffset := b.u64 (headerAt (headerOf b).shoff (linkOf b index).toUInt16 + 24)
  strSize := b.u64 (headerAt (headerOf b).shoff (linkOf b index).toUInt16 + 32)

structure Walks (b : Bytes) (table : SymbolTable) : Prop where
  header : HasHeader b
  found : ∃ dynsym index, findDynsym (sectionsOf b) = some (dynsym, index) ∧
    linkOf b index < (headerOf b).shnum.toUInt32 ∧ table = tableOf b dynsym index
  symbols : inBounds table.fileOffset table.fileSize b.size
  names : inBounds table.strOffset table.strSize b.size

section Specs
variable {b : Bytes} {E R : Prop}

/-- The header of a section that is counted lies in the table, and the table in the buffer. -/
theorem headerAt_inBounds {shoff : UInt64} {shentsize shnum index : UInt16} (hentsize : shentsize = 64)
    (htable : inBounds shoff (shentsize.toUInt64 * shnum.toUInt64) b.size) (hindex : index < shnum) :
    inBounds (headerAt shoff index) 64 b.size := by
  subst hentsize
  have hwrap : shnum.toUInt64.toNat * (64 : UInt64).toNat < 2 ^ 64 := by
    have hlt := shnum.toNat_lt
    have hwidth : (64 : UInt64).toNat = 64 := rfl
    rw [UInt16.toNat_toUInt64, hwidth]
    omega
  rw [UInt64.mul_comm] at htable
  exact htable.entry hwrap (UInt16.toUInt64_lt.mpr hindex)

/-- The header fails for those that are not taken for images, and for no others. -/
theorem readHeader_spec :
    Spec b.Inside (¬ HasHeader b) R (readHeader b) fun header => HasHeader b ∧ header = headerOf b := by
  refine isElf_spec.bind fun recognised hrecognised => ?_
  subst hrecognised
  refine (Spec.failIf fun hrefused hheader => ?_).bind fun _ haccepted => ?_
  · rw [decide_eq_false_iff_not] at hrefused
    have hsize := hheader.size
    exact hrefused ⟨hheader.data, by lia, hheader.magic⟩
  · rw [Bool.not_eq_false, decide_eq_true_iff] at haccepted
    obtain ⟨hdata, -, hmagic⟩ := haccepted
    refine (Spec.failIf fun hrefused hheader => ?_).bind fun _ hident => ?_
    · have hsize := hheader.size
      lia
    · refine (read_spec hdata (by lia)).bind fun elfClass heq => ?_
      subst heq
      refine (Spec.failIf fun hrefused hheader => hrefused hheader.elfClass).bind fun _ hclass => ?_
      refine (read_spec hdata (by lia)).bind fun encoding heq => ?_
      subst heq
      refine (Spec.failIf fun hrefused hheader => hrefused hheader.encoding).bind fun _ hencoding => ?_
      refine (Spec.failIf fun hrefused hheader => absurd hheader.size (UInt64.not_le.mpr hrefused)).bind
        fun _ hsize => ?_
      have hsize := UInt64.not_lt.mp hsize
      refine (readU64_spec hdata (.of_size hsize (by decide) (by decide))).bind fun shoff heq => ?_
      subst heq
      refine (readU16_spec hdata (.of_size hsize (by decide) (by decide))).bind fun shentsize heq => ?_
      subst heq
      refine (readU16_spec hdata (.of_size hsize (by decide) (by decide))).bind fun shnum heq => ?_
      subst heq
      refine (readU16_spec hdata (.of_size hsize (by decide) (by decide))).bind fun shstrndx heq => ?_
      subst heq
      refine (Spec.failIf fun hrefused hheader => hrefused hheader.entsize).bind fun _ hentsize => ?_
      have hentsize := not_not.mp hentsize
      refine (Spec.failIf fun hrefused hheader => hheader.some hrefused).bind fun _ hsome => ?_
      refine (Spec.failIf fun hrefused hheader => hrefused hheader.table).bind fun _ htable => ?_
      have htable := not_not.mp htable
      refine (Spec.failIf fun hrefused hheader => absurd hheader.index (UInt16.not_lt.mpr hrefused)).bind
        fun _ hindex => ?_
      have hindex := UInt16.not_le.mp hindex
      have hnames := headerAt_inBounds hentsize htable hindex
      refine (readU64_spec hdata (hnames.part (by decide) (by decide))).bind fun namesOffset heq => ?_
      subst heq
      refine (readU64_spec hdata (hnames.part (by decide) (by decide))).bind fun namesSize heq => ?_
      subst heq
      refine (Spec.failIf fun hrefused hheader => hrefused hheader.names).bind fun _ hnameTable => ?_
      refine (read_spec hdata (by lia)).bind fun osabi heq => ?_
      subst heq
      refine (readU16_spec hdata (.of_size hsize (by decide) (by decide))).bind fun machine heq => Spec.pure ?_
      subst heq
      exact ⟨⟨hdata, hsize, hmagic, not_not.mp hclass, not_not.mp hencoding, hentsize, hsome, htable, hindex,
        not_not.mp hnameTable⟩, rfl⟩

theorem HasHeader.section_inBounds {index : UInt16} (h : HasHeader b) (hindex : index < (headerOf b).shnum) :
    inBounds (headerAt (headerOf b).shoff index) 64 b.size := headerAt_inBounds h.entsize h.table hindex

private theorem nameOf_spec {turns : Nat} {nameOffset : UInt32} (h : HasHeader b) (hR : turns < 2 ^ 64 → R) :
    Spec b.Inside E R (nameOf turns b (headerOf b) nameOffset) (· = nameAt b nameOffset) := by
  obtain ⟨hoffset, hlength⟩ := h.names
  rw [nameAt]
  refine Spec.ite (fun hnone => Spec.pure ?_) fun hsome => ?_
  · rw [if_pos hnone]
  · rw [if_neg hsome]
    exact readName_spec h.data (by lia) hR

theorem readSection_spec {turns : Nat} {offset : UInt64} (h : HasHeader b) (hbounds : inBounds offset 64 b.size)
    (hR : turns < 2 ^ 64 → R) :
    Spec b.Inside E R (readSection turns b (headerOf b) offset) (· = sectionOf b offset) := by
  refine (readU32_spec h.data (hbounds.part (by decide) (by decide))).bind fun type heq => ?_
  subst heq
  refine (readU64_spec h.data (hbounds.part (by decide) (by decide))).bind fun flags heq => ?_
  subst heq
  refine (readU64_spec h.data (hbounds.part (by decide) (by decide))).bind fun address heq => ?_
  subst heq
  refine (readU64_spec h.data (hbounds.part (by decide) (by decide))).bind fun fileOffset heq => ?_
  subst heq
  refine (readU64_spec h.data (hbounds.part (by decide) (by decide))).bind fun size heq => ?_
  subst heq
  refine (readU64_spec h.data (hbounds.part (by decide) (by decide))).bind fun alignment heq => ?_
  subst heq
  refine (readU32_spec h.data (hbounds.front (by decide))).bind fun nameOffset heq => ?_
  subst heq
  refine (nameOf_spec h hR).bind fun name heq => Spec.pure ?_
  subst heq
  rfl

private theorem toUInt16_lt {i : UInt64} {n : UInt16} (h : i < n.toUInt64) : i.toUInt16 < n := by
  have hlt := UInt64.lt_iff_toNat_lt.mp h
  rw [UInt16.toNat_toUInt64] at hlt
  rw [UInt16.lt_iff_toNat_lt, UInt64.toNat_toUInt16]
  exact Nat.lt_of_le_of_lt (Nat.mod_le _ _) hlt

theorem readSections_spec {turns : Nat} (h : HasHeader b) (hR : turns < 2 ^ 64 → R) :
    Spec b.Inside E R (readSections turns b (headerOf b)) (· = sectionsOf b) := by
  refine Spec.forUpTo (I := fun i sections => sections = (List.range i.toNat).map fun i =>
    sectionOf b (headerAt (headerOf b).shoff (.ofNat i))) rfl (fun i sections hi hsections => ?_)
    fun sections h => ?_
  · refine (readSection_spec h (h.section_inBounds (toUInt16_lt hi)) hR).bind fun found heq => Spec.pure ?_
    subst heq
    rw [Sum.elim_inl, toNat_succ hi, List.range_succ, List.map_append, hsections]
    rfl
  · rw [h, UInt16.toNat_toUInt64]
    rfl

theorem readSymbol_spec {turns : Nat} {table : SymbolTable} {entry : UInt64} {exports : List Export}
    (hdata : b.data.isSome) (hentry : inBounds entry 24 b.size)
    (hnames : inBounds table.strOffset table.strSize b.size) (hR : turns < 2 ^ 64 → R) :
    Spec b.Inside E R (readSymbol turns b table entry exports) fun _ => True := by
  refine (readU32_spec hdata (hentry.front (by decide))).bind fun stName _ => ?_
  refine (read_spec hdata (by lia)).bind fun stInfo _ => ?_
  refine (readU16_spec hdata (hentry.part (by decide) (by decide))).bind fun stShndx _ => ?_
  refine (readU64_spec hdata (hentry.part (by decide) (by decide))).bind fun stValue _ => ?_
  refine Spec.ite (fun _ => Spec.pure trivial) fun _ => Spec.ite (fun _ => Spec.pure trivial) fun _ => ?_
  exact (readName_spec hdata (by lia) hR).bind fun name _ => Spec.pure trivial

/-- A symbol that ends in its table lies in the buffer. -/
theorem symbol_inBounds {table : SymbolTable} {off : UInt64}
    (hsymbols : inBounds table.fileOffset table.fileSize b.size)
    (hinside : off.toNat + 24 ≤ table.fileSize.toNat) : inBounds (table.fileOffset + off) 24 b.size := by
  have hoff : off ≤ table.fileSize := UInt64.le_iff_toNat_le.mpr (by omega)
  refine hsymbols.part hoff ?_
  rw [UInt64.le_iff_toNat_le, UInt64.toNat_sub_of_le _ _ hoff]
  have hwidth : (24 : UInt64).toNat = 24 := rfl
  omega

/-- A turn at a symbol that ends in its table reads that symbol and goes on to the next. -/
theorem symbolTurn_spec {turns j : Nat} {table : SymbolTable} {exports : List Export} (hdata : b.data.isSome)
    (hsymbols : inBounds table.fileOffset table.fileSize b.size)
    (hnames : inBounds table.strOffset table.strSize b.size) (hR : turns < 2 ^ 64 → R)
    (hinside : (strideAt table.step j).toNat + 24 ≤ table.fileSize.toNat) :
    Spec b.Inside E R (symbolTurn turns b table (strideAt table.step j, exports)) fun next =>
      ∃ exports', next = .inl (strideAt table.step (j + 1), exports') := by
  have hevent : b.Inside (.symbol (strideAt table.step j) table.fileSize) := hinside
  refine Spec.ite (fun _ => ?_) fun hout => absurd ?_ hout
  · refine (Spec.emit hevent).bind fun _ _ => ?_
    refine (readSymbol_spec hdata (symbol_inBounds hsymbols hinside) hnames hR).bind fun exports' _ => Spec.pure ?_
    rw [strideAt_succ]
    exact ⟨exports', rfl⟩
  · have hsize := table.fileSize.toNat_lt
    have hwidth : (24 : UInt64).toNat = 24 := rfl
    dsimp only
    rw [UInt64.le_iff_toNat_le, UInt64.toNat_add, hwidth, Nat.mod_eq_of_lt (by omega)]
    exact hinside

theorem readSymbols_spec {turns k : Nat} {table : SymbolTable} (hdata : b.data.isSome)
    (hsymbols : inBounds table.fileOffset table.fileSize b.size)
    (hnames : inBounds table.strOffset table.strSize b.size) (hstop : StopsAt 24 table.fileSize table.step k)
    (hR : turns < 2 ^ 64 + k → R) : Spec b.Inside E R (readSymbols turns b table) fun _ => True := by
  have hwidth : (24 : UInt64).toNat = 24 := rfl
  refine Spec.loop (I := fun n s => n ≤ k ∧ s.1 = strideAt table.step (k - n)) ?_ ⟨Nat.le_refl k, ?_⟩
    fun hle => hR (Nat.lt_of_le_of_lt hle (by omega))
  · rintro n ⟨off, exports⟩ ⟨hn, hoff⟩
    obtain rfl : off = strideAt table.step (k - n) := hoff
    rcases Nat.eq_zero_or_pos n with rfl | hpos
    · -- the counter has left the table, and the test sees that because the sum does not wrap
      refine Spec.ite (fun hinside => absurd hinside ?_) fun _ => Spec.pure trivial
      rw [UInt64.le_iff_toNat_le, UInt64.toNat_add, Nat.sub_zero, Nat.mod_eq_of_lt hstop.exact]
      exact Nat.not_le.mpr hstop.outside
    · have hinside := hstop.inside (k - n) (by omega)
      refine (symbolTurn_spec hdata hsymbols hnames (fun hlt => hR (by omega)) hinside).weaken ?_
      rintro next ⟨exports', rfl⟩
      refine ⟨n - 1, by omega, by omega, ?_⟩
      show strideAt table.step (k - n + 1) = strideAt table.step (k - (n - 1))
      congr 1
      omega
  · rw [Nat.sub_self, strideAt]
    exact UInt64.zero_mul.symm

/-- A section that is found is one of those that are counted. -/
theorem lt_of_findDynsym {dynsym : Section} {index : Nat} (h : findDynsym (sectionsOf b) = some (dynsym, index)) :
    UInt16.ofNat index < (headerOf b).shnum := by
  have hmem := List.getElem?_eq_some_iff.mp (List.mk_mem_zipIdx_iff_getElem?.mp (List.mem_of_find?_eq_some h))
  obtain ⟨hlt, -⟩ := hmem
  rw [sectionsOf, List.length_map, List.length_range] at hlt
  rw [UInt16.lt_iff_toNat_lt, UInt16.toNat_ofNat']
  exact Nat.lt_of_le_of_lt (Nat.mod_le _ _) hlt

theorem toUInt16_lt_of_toUInt32 {link : UInt32} {n : UInt16} (h : link < n.toUInt32) : link.toUInt16 < n := by
  have hlt := UInt32.lt_iff_toNat_lt.mp h
  rw [UInt16.toNat_toUInt32] at hlt
  rw [UInt16.lt_iff_toNat_lt, UInt32.toNat_toUInt16]
  exact Nat.lt_of_le_of_lt (Nat.mod_le _ _) hlt

private theorem readDynsym_spec {turns k index : Nat} {dynsym : Section} (h : HasHeader b)
    (hfound : findDynsym (sectionsOf b) = some (dynsym, index))
    (hstop : ∀ table, Walks b table → StopsAt 24 table.fileSize table.step k) (hR : turns < 2 ^ 64 + k → R) :
    Spec b.Inside E R (readDynsym turns b (headerOf b) dynsym index) fun _ => True := by
  have hheader := h.section_inBounds (lt_of_findDynsym hfound)
  refine (readU32_spec h.data (hheader.part (by decide) (by decide))).bind fun link heq => ?_
  subst heq
  refine (readU64_spec h.data (hheader.part (by decide) (by decide))).bind fun entsize heq => ?_
  subst heq
  refine Spec.ite (fun _ => Spec.pure trivial) fun haccepted => ?_
  obtain ⟨hlink, hsymbols⟩ := not_not.mp haccepted
  have hnames := h.section_inBounds (toUInt16_lt_of_toUInt32 hlink)
  refine (readU64_spec h.data (hnames.part (by decide) (by decide))).bind fun strOffset heq => ?_
  subst heq
  refine (readU64_spec h.data (hnames.part (by decide) (by decide))).bind fun strSize heq => ?_
  subst heq
  refine Spec.ite (fun _ => Spec.pure trivial) fun hstrings => ?_
  have hstrings := not_not.mp hstrings
  have hwalks : Walks b (tableOf b dynsym index) :=
    ⟨h, ⟨dynsym, index, hfound, hlink, rfl⟩, hsymbols, hstrings⟩
  exact readSymbols_spec h.data hsymbols hstrings (hstop _ hwalks) hR

theorem parseElf_spec {turns k : Nat} (hstop : ∀ table, Walks b table → StopsAt 24 table.fileSize table.step k) :
    Spec b.Inside True (turns < 2 ^ 64 + k) (parseElf turns b) fun _ => True := by
  refine (readHeader_spec.mono (fun _ => trivial) id fun _ h => h).bind fun header hheader => ?_
  obtain ⟨hheader, rfl⟩ := hheader
  refine (readSections_spec hheader fun hlt => by omega).bind fun sections heq => ?_
  subst heq
  refine Spec.bind (Q := fun _ => True) ?_ fun exports _ => Spec.pure trivial
  cases hfound : findDynsym (sectionsOf b) with
  | none => exact Spec.pure trivial
  | some found => exact readDynsym_spec hheader hfound hstop id

/-- A buffer has one table of dynamic symbols at most. -/
theorem Walks.unique {table table' : SymbolTable} (h : Walks b table) (h' : Walks b table') : table = table' := by
  obtain ⟨dynsym, index, hfound, -, rfl⟩ := h.found
  obtain ⟨dynsym', index', hfound', -, rfl⟩ := h'.found
  obtain ⟨rfl, rfl⟩ := Prod.mk.inj (Option.some.inj (hfound.symm.trans hfound'))
  rfl

/-- A table that is walked is reached, when the loops before it have turns enough. -/
theorem Walks.reaches {turns : Nat} {table : SymbolTable} (h : Walks b table) (hturns : 2 ^ 64 ≤ turns) :
    Reaches (parseElf turns b) (readSymbols turns b table) := by
  have hheader := h.header
  obtain ⟨dynsym, index, hfound, hlink, rfl⟩ := h.found
  obtain ⟨header, hdone, -, rfl⟩ :=
    (readHeader_spec (b := b) (R := False)).exists_done (not_not.mpr hheader) not_false
  refine .next hdone ((readSections_spec hheader (Nat.not_lt.mpr hturns)).reaches fun sections heq => ?_)
  subst heq
  refine .first ?_
  rw [hfound]
  have hsection := hheader.section_inBounds (lt_of_findDynsym hfound)
  refine (readU32_spec hheader.data (hsection.part (by decide) (by decide))).reaches fun link heq => ?_
  subst heq
  refine (readU64_spec hheader.data (hsection.part (by decide) (by decide))).reaches fun entsize heq => ?_
  subst heq
  rw [if_neg (not_not.mpr ⟨hlink, h.symbols⟩)]
  have hnames := hheader.section_inBounds (toUInt16_lt_of_toUInt32 hlink)
  refine (readU64_spec hheader.data (hnames.part (by decide) (by decide))).reaches fun strOffset heq => ?_
  subst heq
  refine (readU64_spec hheader.data (hnames.part (by decide) (by decide))).reaches fun strSize heq => ?_
  subst heq
  have hstrings : inBounds (b.u64 (headerAt (headerOf b).shoff (linkOf b index).toUInt16 + 24))
    (b.u64 (headerAt (headerOf b).shoff (linkOf b index).toUInt16 + 32)) b.size := h.names
  rw [if_neg (not_not.mpr hstrings)]
  exact .refl _

/-- A walk that ends, and sees symbols inside the table only, ends where the counter leaves the table. -/
theorem stopsInside_of_walk {turns n j : Nat} {table : SymbolTable} {exports : List Export}
    (hturns : 2 ^ 64 ≤ turns) (hdata : b.data.isSome) (hsymbols : inBounds table.fileOffset table.fileSize b.size)
    (hnames : inBounds table.strOffset table.strSize b.size) (hlarge : 24 ≤ table.fileSize.toNat)
    (hbefore : ∀ i < j, (strideAt table.step i).toNat + 24 ≤ table.fileSize.toNat)
    (hinside : ∀ e ∈ (loop (symbolTurn turns b table) n (strideAt table.step j, exports)).trace, b.Inside e)
    (hends : (loop (symbolTurn turns b table) n (strideAt table.step j, exports)).outcome ≠ .running) :
    StopsInside 24 table.fileSize table.step := by
  have hwidth : (24 : UInt64).toNat = 24 := rfl
  induction n generalizing j exports with
  | zero => exact absurd rfl hends
  | succ n ih =>
    by_cases hguard : strideAt table.step j + 24 ≤ table.fileSize
    · have hemit : Reaches (loop (symbolTurn turns b table) (n + 1) (strideAt table.step j, exports))
          (emit (.symbol (strideAt table.step j) table.fileSize)) := by
        refine .first ?_
        rw [symbolTurn, if_pos hguard]
        exact .first (.refl _)
      have hsymbol : (strideAt table.step j).toNat + 24 ≤ table.fileSize.toNat :=
        hinside _ (hemit.trace _ List.mem_cons_self)
      have hturn : Spec b.Inside False False (symbolTurn turns b table (strideAt table.step j, exports)) _ :=
        symbolTurn_spec hdata hsymbols hnames (Nat.not_lt.mpr hturns) hsymbol
      obtain ⟨next, hdone, exports', rfl⟩ := hturn.exists_done not_false not_false
      have hrest : Reaches (loop (symbolTurn turns b table) (n + 1) (strideAt table.step j, exports))
          (loop (symbolTurn turns b table) n (strideAt table.step (j + 1), exports')) := .next hdone (.refl _)
      refine ih (fun i hi => ?_) (fun e he => hinside e (hrest.trace e he)) fun hr => hends (hrest.running hr)
      rcases Nat.lt_succ_iff_lt_or_eq.mp hi with hi | rfl
      · exact hbefore i hi
      · exact hsymbol
    · have hout := UInt64.lt_iff_toNat_lt.mp (UInt64.not_le.mp hguard)
      have hlt := (strideAt table.step j).toNat_lt
      rw [UInt64.toNat_add, hwidth] at hout
      -- a sum that wraps is less than 24, and so not more than the size
      have hexact : (strideAt table.step j).toNat + 24 < 2 ^ 64 := by omega
      exact ⟨j, hbefore, by omega, hexact⟩

private theorem readSymbols_eq (turns : Nat) (table : SymbolTable) :
    readSymbols turns b table = loop (symbolTurn turns b table) turns (strideAt table.step 0, []) := by
  have hzero : strideAt table.step 0 = 0 := UInt64.zero_mul
  rw [readSymbols, hzero]

theorem Walks.step_ne_zero {table : SymbolTable} (h : Walks b table) : table.step ≠ 0 := by
  obtain ⟨dynsym, index, -, -, rfl⟩ := h.found
  dsimp only [tableOf]
  split
  · assumption
  · exact (by decide : (24 : UInt64) ≠ 0)

theorem Walks.fileSize_le {table : SymbolTable} (h : Walks b table) : table.fileSize.toNat ≤ b.size.toNat := by
  obtain ⟨hoffset, hlength⟩ := h.symbols
  have hle : table.fileSize ≤ b.size := by lia
  exact UInt64.le_iff_toNat_le.mp hle

theorem staysInside_iff_stopsInside (b : Bytes) :
    StaysInside b (parseElf · b) ↔ ∀ table, Walks b table → StopsInside 24 table.fileSize table.step := by
  constructor
  · intro h table hwalks
    obtain ⟨bound, hends⟩ := h.ends
    have hturns : 2 ^ 64 ≤ max bound (2 ^ 64) := Nat.le_max_right _ _
    have hreaches := hwalks.reaches hturns
    rw [readSymbols_eq] at hreaches
    by_cases hlarge : 24 ≤ table.fileSize.toNat
    · exact stopsInside_of_walk hturns hwalks.header.data hwalks.symbols hwalks.names hlarge
        (fun i hi => absurd hi (Nat.not_lt_zero i)) (fun e he => h.inside _ e (hreaches.trace e he))
        fun hr => hends _ (Nat.le_max_left _ _) (hreaches.running hr)
    · exact stopsInside_of_lt (UInt64.lt_iff_toNat_lt.mpr (Nat.not_le.mp hlarge))
  · intro h
    by_cases hwalks : ∃ table, Walks b table
    · obtain ⟨table, htable⟩ := hwalks
      obtain ⟨k, hk⟩ := h table htable
      exact staysInside_of_spec fun turns => parseElf_spec fun table' htable' => htable.unique htable' ▸ hk
    · exact staysInside_of_spec fun turns => parseElf_spec (k := 0) fun table htable =>
        absurd ⟨table, htable⟩ hwalks

/-- ELF parsing stays inside the buffer and the symbol table, and its loops end, exactly when the
counter of the symbols, if there are any to walk, leaves their table without wrapping. In a buffer of
less than half the address space, only an entry size at the very top makes it wrap. -/
theorem parse_elf_stays_inside_iff (b : Bytes) :
    (StaysInside b (parseElf · b) ↔ ∀ table, Walks b table → StopsInside 24 table.fileSize table.step) ∧
    (b.size.toNat < 2 ^ 63 → (StaysInside b (parseElf · b) ↔
      ∀ table, Walks b table → table.fileSize < 24 ∨ table.step.toNat + 24 < 2 ^ 64)) := by
  refine ⟨staysInside_iff_stopsInside b, fun hsize => (staysInside_iff_stopsInside b).trans ?_⟩
  refine forall_congr' fun table => forall_congr' fun hwalks => ?_
  exact stopsInside_iff (Nat.lt_of_le_of_lt hwalks.fileSize_le hsize) hwalks.step_ne_zero

/-- An image whose one section is its table of names and its dynamic symbols, with 2^64 - 8 bytes from
one symbol to the next. -/
def wrappingSymbols : Bytes where
  data := some fun i =>
    [0x7F, 0x45, 0x4C, 0x46, 2, 1, 0, 0, 0x2E, 0x64, 0x79, 0x6E, 0x73, 0x79, 0x6D, 0, 0, 0, 0, 0, 0, 0, 0, 0,
      0, 0, 0, 0, 0, 0, 0, 0, 0, 0, 0, 0, 0, 0, 0, 0, 0x40, 0, 0, 0, 0, 0, 0, 0,
      0, 0, 0, 0, 0, 0, 0, 0, 0, 0, 0x40, 0, 1, 0, 0, 0, 8, 0, 0, 0, 0, 0, 0, 0,
      0, 0, 0, 0, 0, 0, 0, 0, 0, 0, 0, 0, 0, 0, 0, 0, 0, 0, 0, 0, 0, 0, 0, 0,
      0x80, 0, 0, 0, 0, 0, 0, 0, 0, 0, 0, 0, 0, 0, 0, 0, 0, 0, 0, 0, 0, 0, 0, 0,
      0xF8, 0xFF, 0xFF, 0xFF, 0xFF, 0xFF, 0xFF, 0xFF].getD i.toNat 0
  size := 128

/-- The second symbol stands eight bytes before the buffer. -/
theorem symbol_is_read_outside :
    (detectFormat wrappingSymbols).outcome = .done .elf ∧
      Event.symbol (0 - 8) 128 ∈ (parseElf 16 wrappingSymbols).trace ∧
      Event.byte (0 - 8) ∈ (parseElf 16 wrappingSymbols).trace ∧ ¬ wrappingSymbols.Inside (.byte (0 - 8)) ∧
      ¬ StaysInside wrappingSymbols (parseElf · wrappingSymbols) := by
  have hread : Event.byte (0 - 8) ∈ (parseElf 16 wrappingSymbols).trace := by decide +kernel
  have houtside : ¬ wrappingSymbols.Inside (.byte (0 - 8)) := fun h => absurd h.2 (by decide)
  exact ⟨by decide +kernel, by decide +kernel, hread, houtside, fun h => houtside (h.inside 16 _ hread)⟩

/-- The image is small enough for the second condition. -/
theorem parse_elf_stays_inside_iff_small :
    StaysInside wrappingSymbols (parseElf · wrappingSymbols) ↔
      ∀ table, Walks wrappingSymbols table → table.fileSize < 24 ∨ table.step.toNat + 24 < 2 ^ 64 :=
  (parse_elf_stays_inside_iff wrappingSymbols).2 (by decide)

end Specs

end ELF

end Abix.Binary

import Abix.Binary.ELF
import Abix.Trace.Collect

/-! What an ELF file says, field by field, and that its parser returns that. -/
namespace Abix.Binary
open Abix.Trace Abix.Trace.Traced
variable {b : Bytes} {E R : Prop}

/-- A fixed field holds the text up to its end or to a zero before it. -/
theorem readFixedName_text {offset capacity : UInt64} (hdata : b.data.isSome) (h : inBounds offset capacity b.size) :
    Spec b.Inside E R (readFixedName b offset capacity) (· = b.text offset (offset + capacity)) := by
  refine Spec.forUpTo (I := fun i name =>
      name ++ b.text (offset + i) (offset + capacity) = b.text offset (offset + capacity))
    ?_ (fun i name hi hname => ?_) fun name hname => ?_
  · rw [UInt64.add_zero, List.nil_append]
  · have hlt : offset + i < offset + capacity := by
      obtain ⟨hoffset, hlength⟩ := h
      lia
    rw [text_of_lt hlt] at hname
    refine (read_spec hdata (by lia)).bind fun c hc => ?_
    subst hc
    refine Spec.ite (fun hzero => Spec.pure ?_) fun hne => Spec.pure ?_
    · rw [if_pos hzero, List.append_nil] at hname
      exact hname
    · rw [if_neg hne, List.append_cons] at hname
      rw [Sum.elim_inl, ← UInt64.add_assoc]
      exact hname
  · rwa [text_of_le (UInt64.le_refl _), List.append_nil] at hname

theorem zero_not_mem_text {cursor stop : UInt64} : 0 ∉ b.text cursor stop := by
  intro h
  simpa using List.mem_takeWhile_imp h

def named (name : List UInt8) (address : UInt64) : List Export := if name = [] then [] else [⟨name, address, 0⟩]

theorem append_named (exports : List Export) (name : List UInt8) (address : UInt64) :
    (if name = [] then exports else exports ++ [⟨name, address, 0⟩]) = exports ++ named name address := by
  unfold named
  split
  · rw [List.append_nil]
  · rfl

theorem named_of_mem {name : List UInt8} {address : UInt64} {e : Export} (h : e ∈ named name address) :
    e.name = name ∧ name ≠ [] := by
  unfold named at h
  split at h
  · cases h
  · rename_i hne
    rw [List.mem_singleton.mp h]
    exact ⟨rfl, hne⟩

namespace ELF

/-- The symbol of an entry, if it is defined, named, and global or weak. -/
def symbolAt (b : Bytes) (table : SymbolTable) (entry : UInt64) : List Export :=
  if b.u16 (entry + 6) = 0 ∨ b.u32 entry = 0 then []
  else if b.byteAt (entry + 4) >>> 4 ≠ 1 ∧ b.byteAt (entry + 4) >>> 4 ≠ 2 then []
  else named (b.text (table.strOffset + (b.u32 entry).toUInt64) (table.strOffset + table.strSize)) (b.u64 (entry + 8))

def symbolsOf (b : Bytes) (table : SymbolTable) : List Export :=
  (List.range (countOf 24 table.fileSize table.step)).flatMap fun j =>
    symbolAt b table (table.fileOffset + strideAt table.step j)

/-- The symbols of the first section that is called `.dynsym`, if it and its names are in the file. -/
def exportsOf (b : Bytes) : List Export :=
  match findDynsym (sectionsOf b) with
  | none => []
  | some (dynsym, index) =>
    if linkOf b index < (headerOf b).shnum.toUInt32 ∧ inBounds dynsym.fileOffset dynsym.fileSize b.size ∧
        inBounds (tableOf b dynsym index).strOffset (tableOf b dynsym index).strSize b.size then
      symbolsOf b (tableOf b dynsym index)
    else []

def contentsOf (b : Bytes) : ParseResult where
  target := ⟨.elf, if b.byteAt 7 = 9 then .freebsd else .linux, architecture (b.u16 0x12), .little, 8, 0⟩
  sections := sectionsOf b
  exports := exportsOf b

theorem readSymbol_reads {turns : Nat} {table : SymbolTable} {entry : UInt64} {exports : List Export}
    (hdata : b.data.isSome) (hentry : inBounds entry 24 b.size)
    (hnames : inBounds table.strOffset table.strSize b.size) (hR : turns < 2 ^ 64 → R) :
    Spec b.Inside E R (readSymbol turns b table entry exports) (· = exports ++ symbolAt b table entry) := by
  refine (readU32_spec hdata (hentry.front (by decide))).bind fun stName heq => ?_
  subst heq
  refine (read_spec hdata (by lia)).bind fun stInfo heq => ?_
  subst heq
  refine (readU16_spec hdata (hentry.part (by decide) (by decide))).bind fun stShndx heq => ?_
  subst heq
  refine (readU64_spec hdata (hentry.part (by decide) (by decide))).bind fun stValue heq => ?_
  subst heq
  rw [symbolAt]
  refine Spec.ite (fun hanonymous => Spec.pure ?_) fun hdefined => ?_
  · rw [if_pos hanonymous, List.append_nil]
  rw [if_neg hdefined]
  refine Spec.ite (fun hlocal => Spec.pure ?_) fun hglobal => ?_
  · rw [if_pos hlocal, List.append_nil]
  rw [if_neg hglobal]
  refine (readName_spec hdata (by lia) hR).bind fun name heq => Spec.pure ?_
  subst heq
  exact append_named ..

/-- The walk over the symbols collects those that end in their table. -/
theorem readSymbols_reads {turns k : Nat} {table : SymbolTable} (hdata : b.data.isSome)
    (hsymbols : inBounds table.fileOffset table.fileSize b.size)
    (hnames : inBounds table.strOffset table.strSize b.size) (hstop : StopsAt 24 table.fileSize table.step k)
    (hR : turns < 2 ^ 64 + k → R) :
    Spec b.Inside E R (readSymbols turns b table) (· = (List.range k).flatMap fun j =>
      symbolAt b table (table.fileOffset + strideAt table.step j)) := by
  have hwidth : (24 : UInt64).toNat = 24 := rfl
  refine Spec.loop (I := fun n s => n ≤ k ∧ s.1 = strideAt table.step (k - n) ∧ s.2 = (List.range (k - n)).flatMap
    fun j => symbolAt b table (table.fileOffset + strideAt table.step j)) ?_ ⟨Nat.le_refl k, ?_⟩
    fun hle => hR (Nat.lt_of_le_of_lt hle (by omega))
  · rintro n ⟨off, exports⟩ ⟨hn, hoff, hexports⟩
    obtain rfl : off = strideAt table.step (k - n) := hoff
    rcases Nat.eq_zero_or_pos n with rfl | hpos
    · -- the counter has left the table, and the test sees that because the sum does not wrap
      refine Spec.ite (fun hinside => absurd hinside ?_) fun _ => Spec.pure hexports
      rw [UInt64.le_iff_toNat_le, UInt64.toNat_add, Nat.sub_zero, Nat.mod_eq_of_lt hstop.exact]
      exact Nat.not_le.mpr hstop.outside
    · have hinside := hstop.inside (k - n) (by omega)
      have hguard : strideAt table.step (k - n) + 24 ≤ table.fileSize := by
        have hsize := table.fileSize.toNat_lt
        rw [UInt64.le_iff_toNat_le, UInt64.toNat_add, hwidth, Nat.mod_eq_of_lt (by omega)]
        exact hinside
      refine Spec.ite (fun _ => ?_) fun hout => absurd hguard hout
      refine (Spec.emit (show b.Inside (.symbol _ _) from hinside)).bind fun _ _ => ?_
      refine (readSymbol_reads hdata (symbol_inBounds hsymbols hinside) hnames fun hlt => hR (by omega)).bind
        fun exports' heq => Spec.pure ?_
      subst heq
      have hnext : k - (n - 1) = k - n + 1 := by omega
      refine ⟨n - 1, by omega, by omega, ?_, ?_⟩
      · rw [hnext, strideAt_succ]
      · rw [hnext, List.range_succ, List.flatMap_append, List.flatMap_singleton, ← hexports]
  · rw [Nat.sub_self, strideAt]
    exact ⟨UInt64.zero_mul.symm, rfl⟩

private theorem readDynsym_reads {turns k index : Nat} {dynsym : Section} (h : HasHeader b)
    (hfound : findDynsym (sectionsOf b) = some (dynsym, index))
    (hstop : ∀ table, Walks b table → StopsAt 24 table.fileSize table.step k)
    (hcount : ∀ table, Walks b table → k = countOf 24 table.fileSize table.step) (hR : turns < 2 ^ 64 + k → R) :
    Spec b.Inside E R (readDynsym turns b (headerOf b) dynsym index) (· = exportsOf b) := by
  have hheader := h.section_inBounds (lt_of_findDynsym hfound)
  refine (readU32_spec h.data (hheader.part (by decide) (by decide))).bind fun link heq => ?_
  obtain rfl : link = linkOf b index := heq
  refine (readU64_spec h.data (hheader.part (by decide) (by decide))).bind fun entsize heq => ?_
  subst heq
  rw [exportsOf, hfound]
  refine Spec.ite (fun hrefused => Spec.pure ?_) fun haccepted => ?_
  · exact (if_neg fun hwalks => hrefused ⟨hwalks.1, hwalks.2.1⟩).symm
  obtain ⟨hlink, hsymbols⟩ := not_not.mp haccepted
  have hnames := h.section_inBounds (toUInt16_lt_of_toUInt32 hlink)
  refine (readU64_spec h.data (hnames.part (by decide) (by decide))).bind fun strOffset heq => ?_
  subst heq
  refine (readU64_spec h.data (hnames.part (by decide) (by decide))).bind fun strSize heq => ?_
  subst heq
  refine Spec.ite (fun hrefused => Spec.pure ?_) fun hstrings => ?_
  · exact (if_neg fun hwalks => hrefused hwalks.2.2).symm
  have hstrings := not_not.mp hstrings
  have hwalks : Walks b (tableOf b dynsym index) := ⟨h, ⟨dynsym, index, hfound, hlink, rfl⟩, hsymbols, hstrings⟩
  refine (readSymbols_reads h.data hsymbols hstrings (hstop _ hwalks) hR).weaken fun exports heq => ?_
  subst heq
  rw [hcount _ hwalks]
  exact (if_pos ⟨hlink, hsymbols, hstrings⟩).symm

theorem parseElf_reads {turns k : Nat} (hstop : ∀ table, Walks b table → StopsAt 24 table.fileSize table.step k)
    (hcount : ∀ table, Walks b table → k = countOf 24 table.fileSize table.step) :
    Spec b.Inside (¬ HasHeader b) (turns < 2 ^ 64 + k) (parseElf turns b) fun result =>
      HasHeader b ∧ result = contentsOf b := by
  refine readHeader_spec.bind fun header hheader => ?_
  obtain ⟨hheader, rfl⟩ := hheader
  refine (readSections_spec hheader fun hlt => by omega).bind fun sections heq => ?_
  subst heq
  refine Spec.bind (Q := (· = exportsOf b)) ?_ fun exports heq => Spec.pure ⟨hheader, ?_⟩
  · cases hfound : findDynsym (sectionsOf b) with
    | none =>
      refine Spec.pure ?_
      rw [exportsOf, hfound]
    | some found => exact readDynsym_reads hheader hfound hstop hcount id
  · subst heq
    rfl

end ELF

end Abix.Binary

import Abix.Binary.ElfContents
import Abix.Binary.MachO

/-! What a Mach-O file says: its load commands one after the other, and what the walk over them collects. -/
namespace Abix.Binary
open Abix.Trace Abix.Trace.Traced
variable {b : Bytes} {E R : Prop}

namespace MachO

def fieldAt (b : Bytes) (offset : UInt64) : List UInt8 := b.text offset (offset + 16)

def sectionAt (b : Bytes) (is64 : Bool) (header : UInt64) : Section :=
  if is64 then
    sectionOf (fieldAt b header) (fieldAt b (header + 16)) (b.u64 (header + 32)) (b.u64 (header + 40))
      (b.u32 (header + 48)) (b.u32 (header + 52)) (b.u32 (header + 64))
  else
    sectionOf (fieldAt b header) (fieldAt b (header + 16)) (b.u32 (header + 32)).toUInt64 (b.u32 (header + 36)).toUInt64
      (b.u32 (header + 40)) (b.u32 (header + 44)) (b.u32 (header + 56))

def addressAt (b : Bytes) (is64 : Bool) (offset : UInt64) : UInt64 :=
  if is64 then b.u64 offset else (b.u32 offset).toUInt64

def symtabAt (b : Bytes) (cursor : UInt64) : Symtab :=
  ⟨b.u32 (cursor + 8), b.u32 (cursor + 12), b.u32 (cursor + 16), b.u32 (cursor + 20)⟩

def IsSymtab (b : Bytes) (cursor : UInt64) : Prop := b.u32 cursor = 0x2 ∧ 24 ≤ b.u32 (cursor + 4)

instance (b : Bytes) (cursor : UInt64) : Decidable (IsSymtab b cursor) := instDecidableAnd

instance (b : Bytes) (cursor : UInt64) : Decidable (IsSegment b cursor) := inferInstanceAs (Decidable (_ = _))

def cursorAt (b : Bytes) : Nat → UInt64
  | 0 => headerSize (headerOf b).is64
  | k + 1 => cursorAt b k + (b.u32 (cursorAt b k + 4)).toUInt64

def commandsOf (b : Bytes) (n : Nat) : List UInt64 := (List.range n).map (cursorAt b)

def segmentsOf (b : Bytes) (n : Nat) : List UInt64 := (commandsOf b n).filter fun c => IsSegment b c

def sectionsAt (b : Bytes) (cursor : UInt64) : List Section :=
  (List.range (b.u32 (cursor + nsectsOffset (headerOf b).is64)).toUInt64.toNat).flatMap fun s =>
    [sectionAt b (headerOf b).is64 (cursor + sectionStart (headerOf b).is64 + .ofNat s * sectionSize (headerOf b).is64)]

/-- What the first commands say: the symbol table of the last that has one, the address of the first
segment, and the sections of all segments. -/
def walkOf (b : Bytes) (n : Nat) : Walk where
  cursor := cursorAt b n
  symtab := ((commandsOf b n).filter fun c => IsSymtab b c).getLast?.map (symtabAt b)
  sawTextBase := !(segmentsOf b n).isEmpty
  imageBase := ((segmentsOf b n).head?.map fun c => addressAt b (headerOf b).is64 (c + 24)).getD 0
  sections := (segmentsOf b n).flatMap (sectionsAt b)

/-- The symbol of an entry, if it is external, defined in a section, and named. -/
def symbolAt (b : Bytes) (is64 : Bool) (symtab : Symtab) (entry : UInt64) : List Export :=
  if b.byteAt (entry + 4) &&& 0x01 = 0 ∨ b.byteAt (entry + 4) &&& 0x0e ≠ 0x0e then []
  else if b.u32 entry = 0 then []
  else
    named (b.text (symtab.stroff.toUInt64 + (b.u32 entry).toUInt64) (symtab.stroff.toUInt64 + symtab.strsize.toUInt64))
      (addressAt b is64 (entry + 8))

def symbolsOf (b : Bytes) (is64 : Bool) : Option Symtab → List Export
  | none => []
  | some symtab =>
    if inBounds symtab.symoff.toUInt64 (symtab.nsyms.toUInt64 * entrySize is64) b.size ∧
        inBounds symtab.stroff.toUInt64 symtab.strsize.toUInt64 b.size then
      (List.range symtab.nsyms.toUInt64.toNat).flatMap fun i =>
        symbolAt b is64 symtab (symtab.symoff.toUInt64 + .ofNat i * entrySize is64)
    else []

def commandCountOf (b : Bytes) : Nat := (b.u32 16).toUInt64.toNat

def contentsOf (b : Bytes) : ParseResult where
  target := ⟨.macho, .macos, architecture (b.u32 4), .little, if (headerOf b).is64 then 8 else 4,
    (walkOf b (commandCountOf b)).imageBase⟩
  sections := (walkOf b (commandCountOf b)).sections
  exports := symbolsOf b (headerOf b).is64 (walkOf b (commandCountOf b)).symtab

structure Accepted (b : Bytes) : Prop where
  header : HasHeader b
  commands : ∀ k < commandCountOf b, Passes b (cursorAt b k)

theorem readSection_reads {is64 : Bool} {header : UInt64} (hdata : b.data.isSome)
    (h : inBounds header (sectionSize is64) b.size) :
    Spec b.Inside E R (readSection b is64 header) (· = sectionAt b is64 header) := by
  cases is64 with
  | true =>
    have h : inBounds header 80 b.size := h
    refine (readFixedName_text hdata (h.front (by decide))).bind fun name hname => ?_
    refine (readFixedName_text hdata (h.part (by decide) (by decide))).bind fun segment hsegment => ?_
    refine (readU64_spec hdata (h.part (by decide) (by decide))).bind fun address haddress => ?_
    refine (readU64_spec hdata (h.part (by decide) (by decide))).bind fun size hsize => ?_
    refine (readU32_spec hdata (h.part (by decide) (by decide))).bind fun fileOffset hoffset => ?_
    refine (readU32_spec hdata (h.part (by decide) (by decide))).bind fun alignment halignment => ?_
    refine (readU32_spec hdata (h.part (by decide) (by decide))).bind fun flags hflags => Spec.pure ?_
    rw [hname, hsegment, haddress, hsize, hoffset, halignment, hflags]
    rfl
  | false =>
    have h : inBounds header 68 b.size := h
    refine (readFixedName_text hdata (h.front (by decide))).bind fun name hname => ?_
    refine (readFixedName_text hdata (h.part (by decide) (by decide))).bind fun segment hsegment => ?_
    refine (readU32_spec hdata (h.part (by decide) (by decide))).bind fun address haddress => ?_
    refine (readU32_spec hdata (h.part (by decide) (by decide))).bind fun size hsize => ?_
    refine (readU32_spec hdata (h.part (by decide) (by decide))).bind fun fileOffset hoffset => ?_
    refine (readU32_spec hdata (h.part (by decide) (by decide))).bind fun alignment halignment => ?_
    refine (readU32_spec hdata (h.part (by decide) (by decide))).bind fun flags hflags => Spec.pure ?_
    rw [hname, hsegment, haddress, hsize, hoffset, halignment, hflags]
    rfl

private theorem readSymtab_reads {cursor : UInt64} (hdata : b.data.isSome) (h : inBounds cursor 24 b.size) :
    Spec b.Inside E R (readSymtab b cursor) (· = some (symtabAt b cursor)) := by
  refine (readU32_spec hdata (h.part (by decide) (by decide))).bind fun symoff hsymoff => ?_
  refine (readU32_spec hdata (h.part (by decide) (by decide))).bind fun nsyms hnsyms => ?_
  refine (readU32_spec hdata (h.part (by decide) (by decide))).bind fun stroff hstroff => ?_
  refine (readU32_spec hdata (h.part (by decide) (by decide))).bind fun strsize hstrsize => Spec.pure ?_
  rw [hsymoff, hnsyms, hstroff, hstrsize]
  rfl

theorem readAddress_reads {is64 : Bool} {offset : UInt64} (hdata : b.data.isSome)
    (h : inBounds offset (if is64 then 8 else 4) b.size) :
    Spec b.Inside E R (readAddress b is64 offset) (· = addressAt b is64 offset) := by
  cases is64 with
  | true => exact readU64_spec hdata h
  | false =>
    refine (readU32_spec hdata h).bind fun address heq => Spec.pure ?_
    rw [heq]
    rfl

theorem readSymbol_reads {turns : Nat} {is64 : Bool} {symtab : Symtab} {entry : UInt64} {exports : List Export}
    (hdata : b.data.isSome) (hentry : inBounds entry (entrySize is64) b.size)
    (hnames : inBounds symtab.stroff.toUInt64 symtab.strsize.toUInt64 b.size) (hR : turns < 2 ^ 64 → R) :
    Spec b.Inside E R (readSymbol turns b is64 symtab entry exports) (· = exports ++ symbolAt b is64 symtab entry) := by
  have hsize : 12 ≤ entrySize is64 ∧ (if is64 then 8 else 4) ≤ entrySize is64 - 8 := by cases is64 <;> decide
  refine (readU32_spec hdata (hentry.front (UInt64.le_trans (by decide) hsize.1))).bind fun nStrx heq => ?_
  subst heq
  refine (read_spec hdata (by lia)).bind fun nType heq => ?_
  subst heq
  refine (readAddress_reads hdata (hentry.part (UInt64.le_trans (by decide) hsize.1) hsize.2)).bind fun nValue heq => ?_
  subst heq
  rw [symbolAt]
  refine Spec.ite (fun hlocal => Spec.pure ?_) fun hexternal => ?_
  · rw [if_pos hlocal, List.append_nil]
  rw [if_neg hexternal]
  refine Spec.ite (fun hanonymous => Spec.pure ?_) fun hnamed => ?_
  · rw [if_pos hanonymous, List.append_nil]
  rw [if_neg hnamed]
  refine (readName_spec hdata (by lia) hR).bind fun name heq => Spec.pure ?_
  subst heq
  exact append_named ..

theorem readSymbols_reads {turns : Nat} {is64 : Bool} {symtab : Option Symtab} (hdata : b.data.isSome)
    (hR : turns < 2 ^ 64 → R) :
    Spec b.Inside E R (readSymbols turns b is64 symtab) (· = symbolsOf b is64 symtab) := by
  cases symtab with
  | none => exact Spec.pure rfl
  | some symtab =>
    rw [symbolsOf]
    refine Spec.ite (fun h => ?_) fun h => Spec.pure (if_neg h).symm
    rw [if_pos h]
    obtain ⟨hentries, hnames⟩ := h
    refine Spec.collect [] fun i exports hi => ?_
    have hentry := hentries.entry (table_lt _ is64) hi
    refine (readSymbol_reads hdata hentry hnames hR).bind fun exports' heq => Spec.pure ?_
    rw [heq, UInt64.ofNat_toNat]

namespace Walk

/-- The walk has taken in the symbol table of the command at its cursor, if that has one. -/
def withSymtab (b : Bytes) (walk : Walk) : Walk where
  cursor := walk.cursor
  symtab := if IsSymtab b walk.cursor then some (symtabAt b walk.cursor) else walk.symtab
  sawTextBase := walk.sawTextBase
  imageBase := walk.imageBase
  sections := walk.sections

def withSegment (b : Bytes) (walk : Walk) : Walk where
  cursor := walk.cursor
  symtab := walk.symtab
  sawTextBase := true
  imageBase := if walk.sawTextBase then walk.imageBase else addressAt b (headerOf b).is64 (walk.cursor + 24)
  sections := walk.sections ++ sectionsAt b walk.cursor

def past (b : Bytes) (walk : Walk) : Walk where
  cursor := walk.cursor + (b.u32 (walk.cursor + 4)).toUInt64
  symtab := walk.symtab
  sawTextBase := walk.sawTextBase
  imageBase := walk.imageBase
  sections := walk.sections

end Walk

private theorem readSegment_reads {walk : Walk} (hheader : HasHeader b) (hcursor : walk.cursor ≤ (headerOf b).commandsEnd)
    (hfits : CommandFits b walk.cursor) (hends : NameEnds b walk.cursor) :
    Spec b.Inside (¬ SegmentFits b walk.cursor) R
      (readSegment b (headerOf b).is64 (b.u32 (walk.cursor + 4)) walk) fun walk' =>
        SegmentFits b walk.cursor ∧ walk' = walk.withSegment b := by
  have hdata := hheader.data
  have hcommand := hfits.inBounds hheader hcursor
  have hcmdsize := toUInt64_lt (b.u32 (walk.cursor + 4))
  have hlow := UInt64.le_trans hcursor hheader.commandsEnd_le.2
  have height := UInt64.le_trans hfits.header hheader.commandsEnd_le.1
  have hmost := UInt64.le_trans hfits.most hheader.commandsEnd_le.1
  obtain ⟨hstart, hnsects, hsmall⟩ := sectionStart_bounds (headerOf b).is64
  refine (segmentName_spec hdata (UInt64.le_trans hlow (by decide)) height hends).bind fun _ _ => ?_
  refine (Spec.failIf fun hrefused hsegment => absurd hsegment.start (UInt64.not_le.mpr hrefused)).bind
    fun _ hroom => ?_
  have hroom : sectionStart (headerOf b).is64 ≤ (b.u32 (walk.cursor + 4)).toUInt64 := UInt64.not_lt.mp hroom
  refine Spec.bind (Q := (· = (walk.withSegment b).imageBase)) ?_ fun imageBase hbase => ?_
  · rw [Walk.withSegment]
    refine Spec.ite (fun hsaw => Spec.pure (if_pos hsaw).symm) fun hnot => ?_
    refine (readAddress_reads hdata (hcommand.part (by lia) (by split <;> lia))).weaken fun address heq => ?_
    rw [heq, if_neg hnot]
  refine (readU32_spec hdata (hcommand.part (by lia) (by lia))).bind fun count hcount => ?_
  subst hcount
  refine (Spec.failIf fun hrefused hsegment => absurd hsegment.sections (UInt64.not_le.mpr hrefused)).bind
    fun _ hsections => ?_
  have hsections := UInt64.not_lt.mp hsections
  refine Spec.bind (Q := (· = walk.sections ++ sectionsAt b walk.cursor)) ?_ fun sections heq => Spec.pure ?_
  · refine Spec.collect walk.sections fun s sections hs => ?_
    have hsection := section_fits hlow hcmdsize (toUInt64_lt _) hsections hmost hs
    refine (readSection_reads hdata hsection).bind fun found heq => Spec.pure ?_
    rw [heq, UInt64.ofNat_toNat]
  · subst heq
    subst hbase
    exact ⟨⟨hroom, hsections⟩, rfl⟩

theorem commandsOf_succ (b : Bytes) (k : Nat) : commandsOf b (k + 1) = commandsOf b k ++ [cursorAt b k] := by
  rw [commandsOf, List.range_succ, List.map_append, List.map_singleton, ← commandsOf]

theorem segmentsOf_succ (b : Bytes) (k : Nat) :
    segmentsOf b (k + 1) = segmentsOf b k ++ if IsSegment b (cursorAt b k) then [cursorAt b k] else [] := by
  rw [segmentsOf, commandsOf_succ, List.filter_append, ← segmentsOf]
  congr 1
  by_cases h : IsSegment b (cursorAt b k) <;> simp [h]

private theorem head_append (f : UInt64 → UInt64) (segments : List UInt64) (c : UInt64) :
    ((segments ++ [c]).head?.map f).getD 0 = if !segments.isEmpty then (segments.head?.map f).getD 0 else f c := by
  cases segments <;> simp

theorem walkOf_succ (b : Bytes) (k : Nat) : walkOf b (k + 1) =
    (if IsSegment b (cursorAt b k) then ((walkOf b k).withSymtab b).withSegment b
      else (walkOf b k).withSymtab b).past b := by
  have hsymtab : (walkOf b (k + 1)).symtab = ((walkOf b k).withSymtab b).symtab := by
    simp only [Walk.withSymtab, walkOf, commandsOf_succ, List.filter_append]
    by_cases h : IsSymtab b (cursorAt b k) <;> simp [h]
  by_cases h : IsSegment b (cursorAt b k)
  · have hbase : (walkOf b (k + 1)).imageBase = (((walkOf b k).withSymtab b).withSegment b).imageBase := by
      simp only [walkOf, segmentsOf_succ, if_pos h]
      exact head_append ..
    have hsections : (walkOf b (k + 1)).sections = (((walkOf b k).withSymtab b).withSegment b).sections := by
      simp only [walkOf, segmentsOf_succ, if_pos h, List.flatMap_append, List.flatMap_singleton]
      rfl
    have hsaw : (walkOf b (k + 1)).sawTextBase = true := by
      simp [walkOf, segmentsOf_succ, h]
    rw [if_pos h]
    exact (Walk.mk.injEq ..).mpr ⟨rfl, hsymtab, hsaw, hbase, hsections⟩
  · have hsegments : segmentsOf b (k + 1) = segmentsOf b k := by rw [segmentsOf_succ, if_neg h, List.append_nil]
    rw [if_neg h]
    refine (Walk.mk.injEq ..).mpr ⟨rfl, hsymtab, ?_, ?_, ?_⟩ <;> simp only [hsegments] <;> rfl

/-- The walk takes a command in, and fails where it does not get past it. -/
theorem readCommand_reads {k : Nat} (hheader : HasHeader b) (hcursor : cursorAt b k ≤ (headerOf b).commandsEnd)
    (hends : CommandFits b (cursorAt b k) → IsSegment b (cursorAt b k) → NameEnds b (cursorAt b k)) :
    Spec b.Inside (¬ Passes b (cursorAt b k)) R
      (readCommand b (headerOf b).is64 (headerOf b).commandsEnd (walkOf b k)) fun walk =>
        Passes b (cursorAt b k) ∧ walk = walkOf b (k + 1) := by
  have hdata := hheader.data
  obtain ⟨hend, hsmall⟩ := hheader.commandsEnd_le
  refine (Spec.failIf fun hrefused hpasses => absurd hpasses.1.header (UInt64.not_le.mpr hrefused)).bind
    fun _ hroom => ?_
  have hroom : cursorAt b k + 8 ≤ (headerOf b).commandsEnd := UInt64.not_lt.mp hroom
  have hfront : inBounds (cursorAt b k) 8 b.size := ⟨by lia, by lia⟩
  refine (readU32_spec hdata (hfront.front (by decide))).bind fun cmd hcmd => ?_
  subst hcmd
  refine (readU32_spec hdata (hfront.part (by decide) (by decide))).bind fun cmdsize hcmdsize => ?_
  subst hcmdsize
  refine (Spec.failIf fun hrefused hpasses => hpasses.1.accepted hrefused).bind fun _ haccepted => ?_
  obtain ⟨hleast, hmost⟩ := not_or.mp haccepted
  have hfits : CommandFits b (cursorAt b k) := ⟨hroom, UInt32.not_lt.mp hleast, UInt64.not_lt.mp hmost⟩
  have hcommand := hfits.inBounds hheader hcursor
  refine Spec.bind (Q := (· = ((walkOf b k).withSymtab b).symtab)) ?_ fun symtab heq => ?_
  · refine Spec.ite (fun hsymtab => ?_) fun hother => Spec.pure (if_neg hother).symm
    refine (readSymtab_reads hdata (hcommand.front (UInt32.toUInt64_le.mpr hsymtab.2))).weaken fun symtab heq => ?_
    rw [heq]
    exact (if_pos hsymtab).symm
  subst heq
  refine Spec.bind (Q := fun walk : Walk => (IsSegment b (cursorAt b k) → SegmentFits b (cursorAt b k)) ∧
    walk.past b = walkOf b (k + 1) ∧ walk.cursor = cursorAt b k)
    (Spec.ite (fun hsegment => ?_) fun hother => Spec.pure ?_) fun walk hwalk => Spec.pure ?_
  · have hread := @readSegment_reads b R ((walkOf b k).withSymtab b) hheader hcursor hfits (hends hfits hsegment)
    refine hread.mono (fun hnot hpasses => hnot (hpasses.2 hsegment)) id fun walk h => ?_
    obtain ⟨hsegment', rfl⟩ := h
    have hsegment : IsSegment b (cursorAt b k) := hsegment
    exact ⟨fun _ => hsegment', by rw [walkOf_succ, if_pos hsegment], rfl⟩
  · have hother : ¬ IsSegment b (cursorAt b k) := hother
    refine ⟨fun hsegment => absurd hsegment hother, ?_, rfl⟩
    rw [walkOf_succ, if_neg hother]
    rfl
  · obtain ⟨hsegment, hnext, hat⟩ := hwalk
    refine ⟨⟨hfits, hsegment⟩, ?_⟩
    rw [← hnext, ← hat]
    rfl

/-- The walk passes all commands, or fails at the first that it does not get past. -/
theorem readCommands_reads (hheader : HasHeader b) (hnames : SegmentNamesEnd b) :
    Spec b.Inside (¬ Accepted b) R (readCommands b (headerOf b)) fun walk =>
      Accepted b ∧ walk = walkOf b (commandCountOf b) := by
  refine Spec.forUpTo (I := fun k walk => Reached b k (cursorAt b k.toNat) ∧ walk = walkOf b k.toNat ∧
    ∀ j < k.toNat, Passes b (cursorAt b j)) ⟨.start, rfl, fun j hj => absurd hj (Nat.not_lt_zero j)⟩
    (fun k walk hk hwalk => ?_) fun walk hwalk => ?_
  · obtain ⟨hreached, rfl, hpassed⟩ := hwalk
    have hends := hnames hheader k _ hreached hk
    have hlt : k.toNat < commandCountOf b := UInt64.lt_iff_toNat_lt.mp hk
    refine ((readCommand_reads hheader hreached.cursor_le hends).mono
      (fun hnot haccepted => hnot (haccepted.commands _ hlt)) id fun _ h => h).bind fun walk' hwalk' => Spec.pure ?_
    obtain ⟨hpasses, rfl⟩ := hwalk'
    rw [Sum.elim_inl, toNat_succ hk]
    refine ⟨hreached.next hk hpasses, rfl, fun j hj => ?_⟩
    rcases Nat.lt_succ_iff_lt_or_eq.mp hj with hj | rfl
    · exact hpassed j hj
    · exact hpasses
  · obtain ⟨-, rfl, hpassed⟩ := hwalk
    exact ⟨⟨hheader, hpassed⟩, rfl⟩

theorem parseMacho_reads {turns : Nat} (hnames : SegmentNamesEnd b) :
    Spec b.Inside (¬ Accepted b) (turns < 2 ^ 64) (parseMacho turns b) fun result =>
      Accepted b ∧ result = contentsOf b := by
  refine (readHeader_spec.mono (fun hnot h => hnot h.header) id fun _ h => h).bind fun header hheader => ?_
  obtain ⟨hheader, rfl⟩ := hheader
  refine (readCommands_reads hheader hnames).bind fun walk hwalk => ?_
  obtain ⟨haccepted, rfl⟩ := hwalk
  refine (readSymbols_reads hheader.data id).bind fun exports heq => Spec.pure ⟨haccepted, ?_⟩
  subst heq
  rfl

end MachO

end Abix.Binary

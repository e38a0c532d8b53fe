import Abix.Binary.Detect

/-! Mach-O images: a header, load commands one after the other, and a table of symbols that one of
them describes. -/
namespace Abix.Binary
open Abix.Trace Abix.Trace.Traced

namespace MachO

def headerSize (is64 : Bool) : UInt64 := if is64 then 32 else 28

structure Header where
  is64 : Bool
  commandCount : UInt32
  commandsSize : UInt32
  cputype : UInt32

def Header.commandsEnd (header : Header) : UInt64 := headerSize header.is64 + header.commandsSize.toUInt64

def readHeader (b : Bytes) : Traced Event Header := do
  let recognised ← isMacho b
  failIf (recognised = false) "not a Mach-O file"
  let magic ← readU32 b 0
  let is64 : Bool := magic = 0xFEEDFACF
  failIf (b.size < headerSize is64) "truncated Mach-O header"
  let commandCount ← readU32 b 16
  let commandsSize ← readU32 b 20
  failIf (¬ inBounds (headerSize is64) commandsSize.toUInt64 b.size) "Mach-O load commands are out of bounds"
  let cputype ← readU32 b 4
  pure ⟨is64, commandCount, commandsSize, cputype⟩

def architecture (cputype : UInt32) : Architecture :=
  if cputype = 7 then .x86
  else if cputype = 0x01000007 then .x86_64
  else if cputype = 12 then .arm32
  else if cputype = 0x0100000C then .arm64
  else .unknown

structure Symtab where
  symoff : UInt32
  nsyms : UInt32
  stroff : UInt32
  strsize : UInt32

/-- What the walk over the load commands has found. There is no symbol table until `has_symtab`. -/
structure Walk where
  cursor : UInt64
  symtab : Option Symtab := none
  sawTextBase : Bool := false
  imageBase : UInt64 := 0
  sections : List Section := []

/-- A zero file offset denotes a zero-fill section. -/
def sectionOf (name segment : List UInt8) (address size : UInt64) (fileOffset alignment flags : UInt32) :
    Section where
  name := name
  segment := segment
  fileOffset := fileOffset.toUInt64
  fileSize := if fileOffset = 0 ∧ 0 < size then 0 else size
  address := address
  size := size
  alignment := alignment.toUInt64
  flags := flags.toUInt64

def readSection (b : Bytes) (is64 : Bool) (header : UInt64) : Traced Event Section := do
  let name ← readFixedName b header 16
  let segment ← readFixedName b (header + 16) 16
  if is64 then
    let address ← readU64 b (header + 32)
    let size ← readU64 b (header + 40)
    let fileOffset ← readU32 b (header + 48)
    let alignment ← readU32 b (header + 52)
    let flags ← readU32 b (header + 64)
    pure (sectionOf name segment address size fileOffset alignment flags)
  else
    let address ← readU32 b (header + 32)
    let size ← readU32 b (header + 36)
    let fileOffset ← readU32 b (header + 40)
    let alignment ← readU32 b (header + 44)
    let flags ← readU32 b (header + 56)
    pure (sectionOf name segment address.toUInt64 size.toUInt64 fileOffset alignment flags)

def readSymtab (b : Bytes) (cursor : UInt64) : Traced Event (Option Symtab) := do
  let symoff ← readU32 b (cursor + 8)
  let nsyms ← readU32 b (cursor + 12)
  let stroff ← readU32 b (cursor + 16)
  let strsize ← readU32 b (cursor + 20)
  pure (some ⟨symoff, nsyms, stroff, strsize⟩)

def readAddress (b : Bytes) (is64 : Bool) (offset : UInt64) : Traced Event UInt64 :=
  if is64 then readU64 b offset
  else do
    let address ← readU32 b offset
    pure address.toUInt64

def nsectsOffset (is64 : Bool) : UInt64 := if is64 then 64 else 48

def sectionStart (is64 : Bool) : UInt64 := if is64 then 72 else 56

def sectionSize (is64 : Bool) : UInt64 := if is64 then 80 else 68

/-- A segment. Its name is read first, and not used. -/
def readSegment (b : Bytes) (is64 : Bool) (cmdsize : UInt32) (walk : Walk) : Traced Event Walk := do
  let _segmentName ← readFixedName b (walk.cursor + 8) 16
  failIf (cmdsize.toUInt64 < sectionStart is64) "malformed Mach-O segment command"
  let imageBase ← (if walk.sawTextBase then pure walk.imageBase else readAddress b is64 (walk.cursor + 24))
  let sectionCount ← readU32 b (walk.cursor + nsectsOffset is64)
  failIf (cmdsize.toUInt64 < sectionStart is64 + sectionCount.toUInt64 * sectionSize is64)
    "Mach-O segment section count exceeds command size"
  let sections ← forUpTo sectionCount.toUInt64 (fun s sections => do
    let found ← readSection b is64 (walk.cursor + sectionStart is64 + s * sectionSize is64)
    pure (.inl (sections ++ [found]))) walk.sections
  pure { walk with sawTextBase := true, imageBase := imageBase, sections := sections }

def segmentKind (is64 : Bool) : UInt32 := if is64 then 0x19 else 0x1

def readCommand (b : Bytes) (is64 : Bool) (commandsEnd : UInt64) (walk : Walk) : Traced Event Walk := do
  failIf (commandsEnd < walk.cursor + 8) "truncated Mach-O load command"
  let cmd ← readU32 b walk.cursor
  let cmdsize ← readU32 b (walk.cursor + 4)
  failIf (cmdsize < 8 ∨ commandsEnd < walk.cursor + cmdsize.toUInt64) "malformed Mach-O load command"
  let symtab ← (if cmd = 0x2 ∧ 24 ≤ cmdsize then readSymtab b walk.cursor else pure walk.symtab)
  let walk := { walk with symtab := symtab }
  let walk ← (if cmd = segmentKind is64 then readSegment b is64 cmdsize walk else pure walk)
  pure { walk with cursor := walk.cursor + cmdsize.toUInt64 }

def commandTurn (b : Bytes) (header : Header) (_command : UInt64) (walk : Walk) :
    Traced Event (Walk ⊕ Walk) := do
  let walk ← readCommand b header.is64 header.commandsEnd walk
  pure (.inl walk)

def readCommands (b : Bytes) (header : Header) : Traced Event Walk :=
  forUpTo header.commandCount.toUInt64 (commandTurn b header) { cursor := headerSize header.is64 }

def entrySize (is64 : Bool) : UInt64 := if is64 then 16 else 12

/-- One turn of the walk over the symbols: external ones that are defined in a section are kept. -/
def readSymbol (turns : Nat) (b : Bytes) (is64 : Bool) (symtab : Symtab) (entry : UInt64) (exports : List Export) :
    Traced Event (List Export) := do
  let nStrx ← readU32 b entry
  let nType ← b.read (entry + 4)
  let nValue ← readAddress b is64 (entry + 8)
  if nType &&& 0x01 = 0 ∨ nType &&& 0x0e ≠ 0x0e then pure exports
  else if nStrx = 0 then pure exports
  else
    let stroff := symtab.stroff.toUInt64
    let name ← readName turns b (stroff + nStrx.toUInt64) (stroff + symtab.strsize.toUInt64)
    pure (if name = [] then exports else exports ++ [⟨name, nValue, 0⟩])

def readSymbols (turns : Nat) (b : Bytes) (is64 : Bool) : Option Symtab → Traced Event (List Export)
  | none => pure []
  | some symtab =>
    if inBounds symtab.symoff.toUInt64 (symtab.nsyms.toUInt64 * entrySize is64) b.size ∧
        inBounds symtab.stroff.toUInt64 symtab.strsize.toUInt64 b.size then
      forUpTo symtab.nsyms.toUInt64 (fun i exports => do
        let exports ← readSymbol turns b is64 symtab (symtab.symoff.toUInt64 + i * entrySize is64) exports
        pure (.inl exports)) []
    else pure []

end MachO

def parseMacho (turns : Nat) (b : Bytes) : Traced Event ParseResult := do
  let header ← MachO.readHeader b
  let walk ← MachO.readCommands b header
  let exports ← MachO.readSymbols turns b header.is64 walk.symtab
  pure ⟨⟨.macho, .macos, MachO.architecture header.cputype, .little, if header.is64 then 8 else 4,
    walk.imageBase⟩, walk.sections, exports⟩

namespace MachO

def headerOf (b : Bytes) : Header := ⟨b.u32 0 = 0xFEEDFACF, b.u32 16, b.u32 20, b.u32 4⟩

structure HasHeader (b : Bytes) : Prop where
  data : b.data.isSome
  magic : b.u32 0 = 0xFEEDFACF ∨ b.u32 0 = 0xFEEDFACE
  size : headerSize (headerOf b).is64 ≤ b.size
  commands : inBounds (headerSize (headerOf b).is64) (b.u32 20).toUInt64 b.size

structure CommandFits (b : Bytes) (cursor : UInt64) : Prop where
  header : cursor + 8 ≤ (headerOf b).commandsEnd
  least : 8 ≤ b.u32 (cursor + 4)
  most : cursor + (b.u32 (cursor + 4)).toUInt64 ≤ (headerOf b).commandsEnd

def IsSegment (b : Bytes) (cursor : UInt64) : Prop := b.u32 cursor = segmentKind (headerOf b).is64

/-- The command at the cursor has room for the sections of its segment. -/
structure SegmentFits (b : Bytes) (cursor : UInt64) : Prop where
  start : sectionStart (headerOf b).is64 ≤ (b.u32 (cursor + 4)).toUInt64
  sections : sectionStart (headerOf b).is64 +
    (b.u32 (cursor + nsectsOffset (headerOf b).is64)).toUInt64 * sectionSize (headerOf b).is64 ≤
      (b.u32 (cursor + 4)).toUInt64

/-- The name of the segment at the cursor has all its bytes in the buffer, or ends before it does. -/
def NameEnds (b : Bytes) (cursor : UInt64) : Prop :=
  cursor + 24 ≤ b.size ∨ ∃ i < 16, cursor + 8 + i < b.size ∧ b.byteAt (cursor + 8 + i) = 0

section Specs
variable {b : Bytes} {E R : Prop}

theorem headerSize_bounds (is64 : Bool) : 28 ≤ headerSize is64 ∧ headerSize is64 ≤ 32 := by
  cases is64 <;> decide

/-- The header fails for those that are not taken for images, and for no others. -/
theorem readHeader_spec :
    Spec b.Inside (¬ HasHeader b) R (readHeader b) fun header => HasHeader b ∧ header = headerOf b := by
  refine isMacho_spec.bind fun recognised hrecognised => ?_
  subst hrecognised
  refine (Spec.failIf fun hrefused hheader => ?_).bind fun _ haccepted => ?_
  · rw [decide_eq_false_iff_not] at hrefused
    have hsize := hheader.size
    have hleast := (headerSize_bounds (headerOf b).is64).1
    exact hrefused ⟨hheader.data, by lia, hheader.magic⟩
  · rw [Bool.not_eq_false, decide_eq_true_iff] at haccepted
    obtain ⟨hdata, hfour, hmagic⟩ := haccepted
    refine (readU32_spec hdata (by lia)).bind fun magic heq => ?_
    subst heq
    refine (Spec.failIf fun hrefused hheader => ?_).bind fun _ hsize => ?_
    · exact absurd hheader.size (UInt64.not_le.mpr hrefused)
    · have hleast := (headerSize_bounds (headerOf b).is64).1
      have hsize : headerSize (headerOf b).is64 ≤ b.size := UInt64.not_lt.mp hsize
      refine (readU32_spec hdata (by lia)).bind fun commandCount heq => ?_
      subst heq
      refine (readU32_spec hdata (by lia)).bind fun commandsSize heq => ?_
      subst heq
      refine (Spec.failIf fun hrefused hheader => hrefused hheader.commands).bind fun _ hcommands => ?_
      refine (readU32_spec hdata (by lia)).bind fun cputype heq => Spec.pure ?_
      subst heq
      exact ⟨⟨hdata, hmagic, hsize, not_not.mp hcommands⟩, rfl⟩

theorem segmentName_spec {cursor : UInt64} (hdata : b.data.isSome) (hcursor : cursor ≤ 0x200000000)
    (hroom : cursor + 8 ≤ b.size) (hends : NameEnds b cursor) :
    Spec b.Inside E R (readFixedName b (cursor + 8) 16) fun _ => True := by
  rcases hends with hfits | ⟨k, hk, hinside, hzero⟩
  · exact readFixedName_fits hdata (by lia)
  · refine readFixedName_spec hdata fun i hi hbefore => ?_
    have hle : i ≤ k := UInt64.not_lt.mp fun hlt => hbefore k hlt hzero
    lia

/-- A name that is read inside the buffer has all its bytes there, or ends. -/
theorem fixedName_ends {offset : UInt64} {left : Nat} {i : UInt64} {name : List UInt8}
    (hoffset : offset ≤ 0x300000000) (hleft : i.toNat + left = 16) (hroom : offset + i ≤ b.size)
    (h : ∀ e ∈ (each (fixedNameTurn b offset) left i name).trace, b.Inside e) :
    offset + 16 ≤ b.size ∨ ∃ k < 16, offset + k < b.size ∧ b.byteAt (offset + k) = 0 := by
  induction left generalizing i name with
  | zero =>
    obtain rfl : i = 16 := UInt64.toNat_inj.mp hleft
    exact .inl hroom
  | succ left ih =>
    have hlt : i < 16 := UInt64.lt_iff_toNat_lt.mpr (by
      have hsixteen : (16 : UInt64).toNat = 16 := rfl
      omega)
    have hread := (h (.byte (offset + i)) ((Reaches.first (.refl _)).each_turn.trace _ List.mem_cons_self)).2
    by_cases hzero : b.byteAt (offset + i) = 0
    · exact .inr ⟨i, hlt, hread, hzero⟩
    · have hnext := toNat_succ hlt
      have hturn : (fixedNameTurn b offset i name).outcome = .done (.inl (name ++ [b.byteAt (offset + i)])) := by
        show (if b.byteAt (offset + i) = 0 then _ else _ : Traced Event _).outcome = _
        rw [if_neg hzero]
        rfl
      exact ih (by omega) (by lia) fun e he => h e ((Reaches.each_rest hturn).trace e he)

private theorem nameEnds_of_inside {cursor : UInt64} (hcursor : cursor ≤ 0x200000000) (hroom : cursor + 8 ≤ b.size)
    (h : ∀ e ∈ (readFixedName b (cursor + 8) 16).trace, b.Inside e) : NameEnds b cursor := by
  rcases fixedName_ends (by lia) (Nat.zero_add 16) (by lia) h with hfits | hzero
  · exact .inl (by lia)
  · exact .inr hzero

theorem readSection_spec {is64 : Bool} {header : UInt64} (hdata : b.data.isSome)
    (h : inBounds header (sectionSize is64) b.size) :
    Spec b.Inside E R (readSection b is64 header) fun _ => True := by
  cases is64 with
  | true =>
    have h : inBounds header 80 b.size := h
    refine (readFixedName_fits hdata (h.front (by decide))).bind fun _ _ => ?_
    refine (readFixedName_fits hdata (h.part (by decide) (by decide))).bind fun _ _ => ?_
    refine (readU64_spec hdata (h.part (by decide) (by decide))).bind fun _ _ => ?_
    refine (readU64_spec hdata (h.part (by decide) (by decide))).bind fun _ _ => ?_
    refine (readU32_spec hdata (h.part (by decide) (by decide))).bind fun _ _ => ?_
    refine (readU32_spec hdata (h.part (by decide) (by decide))).bind fun _ _ => ?_
    exact (readU32_spec hdata (h.part (by decide) (by decide))).bind fun _ _ => Spec.pure trivial
  | false =>
    have h : inBounds header 68 b.size := h
    refine (readFixedName_fits hdata (h.front (by decide))).bind fun _ _ => ?_
    refine (readFixedName_fits hdata (h.part (by decide) (by decide))).bind fun _ _ => ?_
    refine (readU32_spec hdata (h.part (by decide) (by decide))).bind fun _ _ => ?_
    refine (readU32_spec hdata (h.part (by decide) (by decide))).bind fun _ _ => ?_
    refine (readU32_spec hdata (h.part (by decide) (by decide))).bind fun _ _ => ?_
    refine (readU32_spec hdata (h.part (by decide) (by decide))).bind fun _ _ => ?_
    exact (readU32_spec hdata (h.part (by decide) (by decide))).bind fun _ _ => Spec.pure trivial

theorem readSymtab_spec {cursor : UInt64} (hdata : b.data.isSome) (h : inBounds cursor 24 b.size) :
    Spec b.Inside E R (readSymtab b cursor) fun _ => True := by
  refine (readU32_spec hdata (h.part (by decide) (by decide))).bind fun _ _ => ?_
  refine (readU32_spec hdata (h.part (by decide) (by decide))).bind fun _ _ => ?_
  refine (readU32_spec hdata (h.part (by decide) (by decide))).bind fun _ _ => ?_
  exact (readU32_spec hdata (h.part (by decide) (by decide))).bind fun _ _ => Spec.pure trivial

theorem readAddress_spec {is64 : Bool} {offset : UInt64} (hdata : b.data.isSome)
    (h : inBounds offset (if is64 then 8 else 4) b.size) :
    Spec b.Inside E R (readAddress b is64 offset) fun _ => True := by
  cases is64 with
  | true => exact (readU64_spec hdata h).weaken fun _ _ => trivial
  | false => exact (readU32_spec hdata h).bind fun _ _ => Spec.pure trivial

/-- The load commands end in the buffer, and soon enough that no sum along the walk wraps. -/
theorem HasHeader.commandsEnd_le (h : HasHeader b) :
    (headerOf b).commandsEnd ≤ b.size ∧ (headerOf b).commandsEnd ≤ 0x10000001F := by
  obtain ⟨-, hmost⟩ := headerSize_bounds (headerOf b).is64
  have hsize := h.size
  have hcommands := h.commands
  have hlt := toUInt64_lt (b.u32 20)
  have hdef : (headerOf b).commandsEnd = headerSize (headerOf b).is64 + (b.u32 20).toUInt64 := rfl
  exact ⟨by lia, by lia⟩

/-- A section that the segment counts lies in its command. -/
theorem section_fits {is64 : Bool} {cursor cmdsize count size s : UInt64} (hcursor : cursor ≤ 0x10000001F)
    (hcmdsize : cmdsize < 4294967296) (hcount : count < 4294967296)
    (hsections : sectionStart is64 + count * sectionSize is64 ≤ cmdsize) (hroom : cursor + cmdsize ≤ size)
    (hs : s < count) : inBounds (cursor + sectionStart is64 + s * sectionSize is64) (sectionSize is64) size := by
  cases is64 with
  | true =>
    have hsections : 72 + count * 80 ≤ cmdsize := hsections
    have hgoal : inBounds (cursor + 72 + s * 80) 80 size := ⟨by lia, by lia⟩
    exact hgoal
  | false =>
    have hsections : 56 + count * 68 ≤ cmdsize := hsections
    have hgoal : inBounds (cursor + 56 + s * 68) 68 size := ⟨by lia, by lia⟩
    exact hgoal

theorem sectionStart_bounds (is64 : Bool) : 56 ≤ sectionStart is64 ∧ nsectsOffset is64 + 4 ≤ sectionStart is64 ∧
    nsectsOffset is64 ≤ 64 := by
  cases is64 <;> decide

theorem CommandFits.inBounds {cursor : UInt64} (hfits : CommandFits b cursor) (hheader : HasHeader b)
    (hcursor : cursor ≤ (headerOf b).commandsEnd) : inBounds cursor (b.u32 (cursor + 4)).toUInt64 b.size := by
  obtain ⟨hend, hsmall⟩ := hheader.commandsEnd_le
  obtain ⟨hroom, hleast, hmost⟩ := hfits
  have hcmdsize := toUInt64_lt (b.u32 (cursor + 4))
  have hlength : (b.u32 (cursor + 4)).toUInt64 ≤ (headerOf b).commandsEnd - cursor := by lia
  exact ⟨by lia, by lia⟩

/-- A command that fits is not refused for its size. -/
theorem CommandFits.accepted {cursor : UInt64} (h : CommandFits b cursor) :
    ¬ (b.u32 (cursor + 4) < 8 ∨ (headerOf b).commandsEnd < cursor + (b.u32 (cursor + 4)).toUInt64) :=
  not_or.mpr ⟨UInt32.not_lt.mpr h.least, UInt64.not_lt.mpr h.most⟩

/-- A segment fails when its sections do not fit, and only then. -/
theorem readSegment_spec {walk : Walk} (hheader : HasHeader b) (hcursor : walk.cursor ≤ (headerOf b).commandsEnd)
    (hfits : CommandFits b walk.cursor) (hends : NameEnds b walk.cursor) :
    Spec b.Inside (¬ SegmentFits b walk.cursor) R
      (readSegment b (headerOf b).is64 (b.u32 (walk.cursor + 4)) walk) fun walk' =>
        SegmentFits b walk.cursor ∧ walk'.cursor = walk.cursor := by
  have hdata := hheader.data
  have hcommand := hfits.inBounds hheader hcursor
  have hcmdsize := toUInt64_lt (b.u32 (walk.cursor + 4))
  have hlow := UInt64.le_trans hcursor hheader.commandsEnd_le.2
  have height := UInt64.le_trans hfits.header hheader.commandsEnd_le.1
  have hmost := UInt64.le_trans hfits.most hheader.commandsEnd_le.1
  obtain ⟨hstart, hnsects, hsmall⟩ := sectionStart_bounds (headerOf b).is64
  refine (segmentName_spec hdata (UInt64.le_trans hlow (by decide)) height hends).bind fun _ _ => ?_
  refine (Spec.failIf fun hrefused hsegment => absurd hsegment.start (UInt64.not_le.mpr hrefused)).bind
    fun _ hroom => ?_
  have hroom : sectionStart (headerOf b).is64 ≤ (b.u32 (walk.cursor + 4)).toUInt64 := UInt64.not_lt.mp hroom
  refine Spec.bind (Q := fun _ => True) (Spec.ite (fun _ => Spec.pure trivial) fun _ => ?_) fun imageBase _ => ?_
  · exact readAddress_spec hdata (hcommand.part (by lia) (by split <;> lia))
  · refine (readU32_spec hdata (hcommand.part (by lia) (by lia))).bind fun count hcount => ?_
    subst hcount
    refine (Spec.failIf fun hrefused hsegment => absurd hsegment.sections (UInt64.not_le.mpr hrefused)).bind
      fun _ hsections => ?_
    have hsections := UInt64.not_lt.mp hsections
    refine (Spec.forUpTo (I := fun _ _ => True) (Q := fun _ => True) trivial (fun s sections hs _ => ?_)
      fun _ _ => trivial).bind fun sections _ => Spec.pure ⟨⟨hroom, hsections⟩, rfl⟩
    have hsection := section_fits hlow hcmdsize (toUInt64_lt _) hsections hmost hs
    exact (readSection_spec hdata hsection).bind fun _ _ => Spec.pure trivial

def Passes (b : Bytes) (cursor : UInt64) : Prop :=
  CommandFits b cursor ∧ (IsSegment b cursor → SegmentFits b cursor)

/-- Where it does not get past a command, the walk fails, and only there. -/
theorem readCommand_spec {walk : Walk} (hheader : HasHeader b) (hcursor : walk.cursor ≤ (headerOf b).commandsEnd)
    (hends : CommandFits b walk.cursor → IsSegment b walk.cursor → NameEnds b walk.cursor) :
    Spec b.Inside (¬ Passes b walk.cursor) R
      (readCommand b (headerOf b).is64 (headerOf b).commandsEnd walk) fun walk' =>
        Passes b walk.cursor ∧ walk'.cursor = walk.cursor + (b.u32 (walk.cursor + 4)).toUInt64 := by
  have hdata := hheader.data
  obtain ⟨hend, hsmall⟩ := hheader.commandsEnd_le
  refine (Spec.failIf fun hrefused hpasses => absurd hpasses.1.header (UInt64.not_le.mpr hrefused)).bind
    fun _ hroom => ?_
  have hroom := UInt64.not_lt.mp hroom
  have hfront : inBounds walk.cursor 8 b.size := ⟨by lia, by lia⟩
  refine (readU32_spec hdata (hfront.front (by decide))).bind fun cmd hcmd => ?_
  refine (readU32_spec hdata (hfront.part (by decide) (by decide))).bind fun cmdsize hcmdsize => ?_
  subst hcmdsize
  refine (Spec.failIf fun hrefused hpasses => hpasses.1.accepted hrefused).bind fun _ haccepted => ?_
  · obtain ⟨hleast, hmost⟩ := not_or.mp haccepted
    have hfits : CommandFits b walk.cursor := ⟨hroom, UInt32.not_lt.mp hleast, UInt64.not_lt.mp hmost⟩
    have hcommand := hfits.inBounds hheader hcursor
    refine Spec.bind (Q := fun _ => True) (Spec.ite (fun hsymtab => ?_) fun _ => Spec.pure trivial)
      fun symtab _ => ?_
    · exact readSymtab_spec hdata (hcommand.front (UInt32.toUInt64_le.mpr hsymtab.2))
    · refine Spec.bind (Q := fun walk' : Walk => (IsSegment b walk.cursor → SegmentFits b walk.cursor) ∧
        walk'.cursor = walk.cursor) (Spec.ite (fun hsegment => ?_) fun hother => Spec.pure ?_) fun walk' hwalk' => ?_
      · have hsegment : IsSegment b walk.cursor := hcmd.symm.trans hsegment
        have hfound := @readSegment_spec b R { walk with symtab := symtab } hheader hcursor hfits (hends hfits hsegment)
        exact hfound.mono (fun hnot hpasses => hnot (hpasses.2 hsegment)) id fun walk' h => ⟨fun _ => h.1, h.2⟩
      · exact ⟨fun hsegment => absurd (hcmd.trans hsegment) hother, rfl⟩
      · obtain ⟨hsegment, hsame⟩ := hwalk'
        refine Spec.pure ⟨⟨hfits, hsegment⟩, ?_⟩
        dsimp only
        rw [hsame]

/-- The walk comes to its command of that index with the cursor there. -/
inductive Reached (b : Bytes) : UInt64 → UInt64 → Prop where
  | start : Reached b 0 (headerSize (headerOf b).is64)
  | next {k cursor : UInt64} (hreached : Reached b k cursor) (hk : k < (b.u32 16).toUInt64)
      (hpasses : Passes b cursor) : Reached b (k + 1) (cursor + (b.u32 (cursor + 4)).toUInt64)

/-- Every segment that the walk comes to has a name that ends in the buffer. -/
def SegmentNamesEnd (b : Bytes) : Prop :=
  HasHeader b → ∀ k cursor, Reached b k cursor → k < (b.u32 16).toUInt64 → CommandFits b cursor →
    IsSegment b cursor → NameEnds b cursor

theorem Reached.cursor_le {k cursor : UInt64} (h : Reached b k cursor) :
    cursor ≤ (headerOf b).commandsEnd := by
  cases h with
  | start =>
    obtain ⟨-, hmost⟩ := headerSize_bounds (headerOf b).is64
    have hlt := toUInt64_lt (b.u32 20)
    have hdef : (headerOf b).commandsEnd = headerSize (headerOf b).is64 + (b.u32 20).toUInt64 := rfl
    lia
  | next _ _ hpasses => exact hpasses.1.most

private theorem readCommands_spec (hheader : HasHeader b) (hnames : SegmentNamesEnd b) :
    Spec b.Inside True R (readCommands b (headerOf b)) fun _ => True := by
  refine Spec.forUpTo (I := fun k walk => Reached b k walk.cursor) .start (fun k walk hk hreached => ?_)
    fun _ _ => trivial
  have hends := hnames hheader k walk.cursor hreached hk
  refine ((readCommand_spec hheader (hreached.cursor_le) hends).mono (fun _ => trivial) id fun _ h => h).bind
    fun walk' hwalk' => Spec.pure ?_
  show Reached b (k + 1) walk'.cursor
  rw [hwalk'.2]
  exact hreached.next hk hwalk'.1

theorem table_lt (nsyms : UInt32) (is64 : Bool) : nsyms.toUInt64.toNat * (entrySize is64).toNat < 2 ^ 64 := by
  have hlt := nsyms.toNat_lt
  have hsize : (entrySize is64).toNat ≤ 16 := by cases is64 <;> decide
  rw [UInt32.toNat_toUInt64]
  exact Nat.lt_of_le_of_lt (Nat.mul_le_mul (Nat.le_of_lt hlt) hsize) (by decide)

theorem readSymbol_spec {turns : Nat} {is64 : Bool} {symtab : Symtab} {entry : UInt64} {exports : List Export}
    (hdata : b.data.isSome) (hentry : inBounds entry (entrySize is64) b.size)
    (hnames : inBounds symtab.stroff.toUInt64 symtab.strsize.toUInt64 b.size) (hR : turns < 2 ^ 64 → R) :
    Spec b.Inside E R (readSymbol turns b is64 symtab entry exports) fun _ => True := by
  have hsize : 12 ≤ entrySize is64 ∧ (if is64 then 8 else 4) ≤ entrySize is64 - 8 := by cases is64 <;> decide
  refine (readU32_spec hdata (hentry.front (UInt64.le_trans (by decide) hsize.1))).bind fun nStrx _ => ?_
  refine (read_spec hdata ?_).bind fun nType _ => ?_
  · lia
  · refine (readAddress_spec hdata (hentry.part (UInt64.le_trans (by decide) hsize.1) hsize.2)).bind
      fun nValue _ => ?_
    refine Spec.ite (fun _ => Spec.pure trivial) fun _ => Spec.ite (fun _ => Spec.pure trivial) fun _ => ?_
    refine (readName_spec hdata ?_ hR).bind fun name _ => Spec.pure trivial
    lia

theorem readSymbols_spec {turns : Nat} {is64 : Bool} {symtab : Option Symtab} (hdata : b.data.isSome)
    (hR : turns < 2 ^ 64 → R) : Spec b.Inside E R (readSymbols turns b is64 symtab) fun _ => True := by
  cases symtab with
  | none => exact Spec.pure trivial
  | some symtab =>
    refine Spec.ite (fun h => ?_) fun _ => Spec.pure trivial
    obtain ⟨hentries, hnames⟩ := h
    refine Spec.forUpTo (I := fun _ _ => True) trivial (fun i exports hi _ => ?_) fun _ _ => trivial
    have hentry := hentries.entry (table_lt _ is64) hi
    exact (readSymbol_spec hdata hentry hnames hR).bind fun _ _ => Spec.pure trivial

private theorem parseMacho_spec {turns : Nat} (hnames : SegmentNamesEnd b) :
    Spec b.Inside True (turns < 2 ^ 64) (parseMacho turns b) fun _ => True := by
  refine (readHeader_spec.mono (fun _ => trivial) id fun _ h => h).bind fun header hheader => ?_
  obtain ⟨hheader, rfl⟩ := hheader
  refine (readCommands_spec hheader hnames).bind fun walk _ => ?_
  exact (readSymbols_spec hheader.data id).bind fun exports _ => Spec.pure trivial

/-- A command that the walk gets past has the name of its segment inside. -/
theorem Passes.nameEnds {cursor : UInt64} (h : Passes b cursor) (hheader : HasHeader b)
    (hcursor : cursor ≤ (headerOf b).commandsEnd) (hsegment : IsSegment b cursor) : NameEnds b cursor := by
  obtain ⟨hoffset, hlength⟩ := h.1.inBounds hheader hcursor
  have hstart := UInt64.le_trans (sectionStart_bounds (headerOf b).is64).1 (h.2 hsegment).start
  have hlow := UInt64.le_trans hcursor hheader.commandsEnd_le.2
  exact .inl (by lia)

/-- The walk reaches the turns from a command that it comes to. -/
theorem Reached.exists_walk {k cursor : UInt64} (h : Reached b k cursor) (hheader : HasHeader b)
    (hk : k ≤ (b.u32 16).toUInt64) :
    ∃ walk : Walk, walk.cursor = cursor ∧ Reaches (readCommands b (headerOf b))
      (each (commandTurn b (headerOf b)) ((b.u32 16).toUInt64.toNat - k.toNat) k walk) := by
  induction h with
  | start => exact ⟨{ cursor := headerSize (headerOf b).is64 }, rfl, .refl _⟩
  | next hreached hlt hpasses ih =>
    rename_i k cursor
    obtain ⟨walk, rfl, hwalk⟩ := ih (UInt64.le_of_lt hlt)
    have hcursor := hreached.cursor_le
    obtain ⟨walk', hdone, -, hnext⟩ := (readCommand_spec (R := False) hheader hcursor
      fun _ => hpasses.nameEnds hheader hcursor).exists_done (not_not.mpr hpasses) not_false
    have hleft : (b.u32 16).toUInt64.toNat - k.toNat = (b.u32 16).toUInt64.toNat - (k + 1).toNat + 1 := by
      rw [toNat_succ hlt]
      have hlt := UInt64.lt_iff_toNat_lt.mp hlt
      omega
    refine ⟨walk', hnext, hwalk.trans ?_⟩
    rw [hleft]
    exact .each_rest (bind_outcome hdone)

/-- A command that fits, and is a segment, has its name read. -/
theorem readCommand_reaches {walk : Walk} (hheader : HasHeader b)
    (hcursor : walk.cursor ≤ (headerOf b).commandsEnd) (hfits : CommandFits b walk.cursor)
    (hsegment : IsSegment b walk.cursor) :
    Reaches (readCommand b (headerOf b).is64 (headerOf b).commandsEnd walk)
      (readFixedName b (walk.cursor + 8) 16) := by
  have hdata := hheader.data
  have hcommand := hfits.inBounds hheader hcursor
  have height : 8 ≤ (b.u32 (walk.cursor + 4)).toUInt64 := UInt32.toUInt64_le.mpr hfits.least
  refine (Spec.failIf (P := b.Inside) fun h => absurd hfits.header (UInt64.not_le.mpr h)).reaches fun _ _ => ?_
  refine (readU32_spec hdata (hcommand.front (by lia))).reaches fun cmd hcmd => ?_
  refine (readU32_spec hdata (hcommand.part (by lia) (by lia))).reaches fun cmdsize hcmdsize => ?_
  subst hcmdsize
  refine (Spec.failIf (P := b.Inside) hfits.accepted).reaches fun _ _ => ?_
  refine Spec.reaches (P := b.Inside) (Q := fun _ => True)
    (Spec.ite (fun hsymtab => ?_) fun _ => Spec.pure trivial) fun symtab _ => .first ?_
  · exact readSymtab_spec hdata (hcommand.front (UInt32.toUInt64_le.mpr hsymtab.2))
  · rw [if_pos (hcmd.trans hsegment)]
    exact .first (.refl _)

/-- Mach-O parsing stays inside the buffer, and its loops end, exactly when no segment that the walk
comes to has a name that runs out of the buffer. -/
theorem parse_macho_stays_inside_iff (b : Bytes) : StaysInside b (parseMacho · b) ↔ SegmentNamesEnd b := by
  constructor
  · intro h hheader k cursor hreached hk hfits hsegment
    obtain ⟨walk, rfl, hwalk⟩ := hreached.exists_walk hheader (UInt64.le_of_lt hk)
    have hcursor := hreached.cursor_le
    obtain ⟨hend, hsmall⟩ := hheader.commandsEnd_le
    refine nameEnds_of_inside (UInt64.le_trans (UInt64.le_trans hcursor hsmall) (by decide))
      (UInt64.le_trans hfits.header hend) fun e he => h.inside 0 e (Reaches.trace ?_ e he)
    obtain ⟨header, hdone, -, rfl⟩ :=
      (readHeader_spec (b := b) (R := False)).exists_done (not_not.mpr hheader) not_false
    refine .next hdone (.first (hwalk.trans ?_))
    have hleft : (b.u32 16).toUInt64.toNat - k.toNat = (b.u32 16).toUInt64.toNat - k.toNat - 1 + 1 := by
      have hlt := UInt64.lt_iff_toNat_lt.mp hk
      omega
    rw [hleft]
    exact .each_turn (.first (readCommand_reaches hheader hcursor hfits hsegment))
  · exact fun hnames => staysInside_of_spec fun _ => parseMacho_spec hnames

/-- A 64-bit image whose one load command, a segment, is eight bytes long and ends the buffer. -/
def shortSegment : Bytes where
  data := some fun i =>
    [0xCF, 0xFA, 0xED, 0xFE, 0, 0, 0, 0, 0, 0, 0, 0, 0, 0, 0, 0, 1, 0, 0, 0, 8, 0, 0, 0, 0, 0, 0, 0, 0, 0, 0, 0,
      0x19, 0, 0, 0, 8, 0, 0, 0].getD i.toNat 0
  size := 40

/-- The buffer is taken for Mach-O, and the name of the segment is read behind its end. -/
theorem segment_name_is_read_outside :
    (detectFormat shortSegment).outcome = .done .macho ∧
      Event.byte 40 ∈ (parseMacho 0 shortSegment).trace ∧ ¬ shortSegment.Inside (.byte 40) ∧
      ¬ StaysInside shortSegment (parseMacho · shortSegment) := by
  have hread : Event.byte 40 ∈ (parseMacho 0 shortSegment).trace := by decide +kernel
  have houtside : ¬ shortSegment.Inside (.byte 40) := fun h => absurd h.2 (by decide)
  exact ⟨by decide +kernel, hread, houtside, fun h => houtside (h.inside 0 _ hread)⟩

end Specs

end MachO

end Abix.Binary

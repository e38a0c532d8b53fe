import Abix.Binary.Image

/-! Which container a buffer holds, by its first bytes. -/
namespace Abix.Binary
open Abix.Trace Abix.Trace.Traced

/-- `data[i] == c && data[j] == d && …`, which reads no further once a byte differs. -/
def readsAs (b : Bytes) : List (UInt64 × UInt8) → Traced Event Bool
  | [] => pure true
  | (index, expected) :: rest => do
    let c ← b.read index
    if c = expected then readsAs b rest else pure false

def Bytes.shows (b : Bytes) (expected : List (UInt64 × UInt8)) : Bool := expected.all fun p => b.byteAt p.1 = p.2

def elfMagic : List (UInt64 × UInt8) := [(0, 0x7f), (1, 0x45), (2, 0x4c), (3, 0x46)]

def isElf (b : Bytes) : Traced Event Bool :=
  if b.data.isNone ∨ b.size < 4 then pure false
  else readsAs b elfMagic

def isMacho (b : Bytes) : Traced Event Bool :=
  if b.data.isNone ∨ b.size < 4 then pure false
  else do
    let magic ← readU32 b 0
    pure (magic = 0xFEEDFACF ∨ magic = 0xFEEDFACE)

/-- The offset of the signature is 32 bits wide, and so are the sums that index its bytes. -/
def isPe (b : Bytes) : Traced Event Bool :=
  if b.data.isNone ∨ b.size < 0x40 then pure false
  else do
    let dos ← readsAs b [(0, 0x4d), (1, 0x5a)]
    if dos = false then pure false
    else
      let nt ← readU32 b 0x3C
      if ¬ inBounds nt.toUInt64 4 b.size then pure false
      else
        readsAs b
          [(nt.toUInt64, 0x50), ((nt + 1).toUInt64, 0x45), ((nt + 2).toUInt64, 0), ((nt + 3).toUInt64, 0)]

def detectFormat (b : Bytes) : Traced Event Format := do
  let elf ← isElf b
  if elf then pure .elf
  else
    let macho ← isMacho b
    if macho then pure .macho
    else
      let pe ← isPe b
      pure (if pe then .pe else .unknown)

theorem Bytes.isSome_of_not_isNone {b : Bytes} (h : ¬ b.data.isNone) : b.data.isSome := by
  rw [Option.isSome_iff_ne_none]
  exact fun hnone => h (Option.isNone_iff_eq_none.mpr hnone)

section Specs
variable {b : Bytes} {E R : Prop}

theorem guarded_spec {least : UInt64} {m : Traced Event Bool} {accepts : Prop} [Decidable accepts]
    (h : b.data.isSome → least ≤ b.size → Spec b.Inside E R m (· = decide accepts)) :
    Spec b.Inside E R (if b.data.isNone ∨ b.size < least then pure false else m)
      (· = decide (b.data.isSome ∧ least ≤ b.size ∧ accepts)) := by
  refine Spec.ite (fun hsmall => Spec.pure ?_) fun hlarge => ?_
  · rw [eq_comm, decide_eq_false_iff_not]
    rintro ⟨hdata, hsize, -⟩
    rcases hsmall with hnull | hshort
    · rw [Option.isNone_iff_eq_none] at hnull
      rw [hnull] at hdata
      cases hdata
    · exact absurd hsize (UInt64.not_le.mpr hshort)
  · obtain ⟨hnull, hsize⟩ := not_or.mp hlarge
    have hdata := Bytes.isSome_of_not_isNone hnull
    have hsize := UInt64.not_lt.mp hsize
    refine (h hdata hsize).weaken fun accepted heq => ?_
    simp only [heq, hdata, hsize, true_and]

theorem readsAs_spec (hdata : b.data.isSome) {expected : List (UInt64 × UInt8)}
    (h : ∀ p ∈ expected, p.1 < b.size) :
    Spec b.Inside E R (readsAs b expected) (· = b.shows expected) := by
  induction expected with
  | nil => exact Spec.pure rfl
  | cons p rest ih =>
    refine (read_spec hdata (h p List.mem_cons_self)).bind fun c hc => ?_
    subst hc
    refine Spec.ite (fun hsame => ?_) fun hother => Spec.pure ?_
    · refine (ih fun q hq => h q (List.mem_cons_of_mem p hq)).weaken fun accepted heq => ?_
      simp only [heq, Bytes.shows, List.all_cons, hsame, decide_true, Bool.true_and]
    · simp only [Bytes.shows, List.all_cons, hother, decide_false, Bool.false_and]

theorem isElf_spec : Spec b.Inside E R (isElf b)
    (· = decide (b.data.isSome ∧ 4 ≤ b.size ∧ b.shows elfMagic)) := by
  refine guarded_spec fun hdata hsize => (readsAs_spec hdata fun p hp => ?_).weaken fun _ h =>
    h.trans (Bool.decide_coe _).symm
  simp only [elfMagic, List.mem_cons, List.not_mem_nil, or_false] at hp
  rcases hp with rfl | rfl | rfl | rfl <;> lia

theorem isMacho_spec : Spec b.Inside E R (isMacho b)
    (· = decide (b.data.isSome ∧ 4 ≤ b.size ∧ (b.u32 0 = 0xFEEDFACF ∨ b.u32 0 = 0xFEEDFACE))) := by
  refine guarded_spec fun hdata hsize => ?_
  refine (readU32_spec hdata (by lia)).bind fun magic hmagic => Spec.pure ?_
  rw [hmagic]

theorem toUInt64_add_le (x k : UInt32) : (x + k).toUInt64 ≤ x.toUInt64 + k.toUInt64 := by
  have hx := x.toNat_lt
  have hk := k.toNat_lt
  rw [UInt64.le_iff_toNat_le, UInt64.toNat_add, UInt32.toNat_toUInt64, UInt32.toNat_toUInt64,
    UInt32.toNat_toUInt64, UInt32.toNat_add]
  omega

/-- The two letters at the front, and the signature where the header says it is. -/
structure Bytes.ShowsPe (b : Bytes) : Prop where
  dos : b.shows [(0, 0x4d), (1, 0x5a)]
  bounds : inBounds (b.u32 0x3C).toUInt64 4 b.size
  signature : b.shows [((b.u32 0x3C).toUInt64, 0x50), ((b.u32 0x3C + 1).toUInt64, 0x45),
    ((b.u32 0x3C + 2).toUInt64, 0), ((b.u32 0x3C + 3).toUInt64, 0)]

/-- A signature that is in bounds has its bytes in the buffer, even where their index wraps. -/
theorem isPe_spec : Spec b.Inside E R (isPe b) fun accepted =>
    accepted = true ↔ b.data.isSome ∧ 0x40 ≤ b.size ∧ b.ShowsPe := by
  refine Spec.ite (fun hsmall => Spec.pure ?_) fun hlarge => ?_
  · refine iff_of_false Bool.false_ne_true fun ⟨hdata, hsize, _⟩ => ?_
    rcases hsmall with hnull | hshort
    · rw [Option.isNone_iff_eq_none] at hnull
      rw [hnull] at hdata
      cases hdata
    · exact absurd hsize (UInt64.not_le.mpr hshort)
  obtain ⟨hnull, hsize⟩ := not_or.mp hlarge
  have hdata := Bytes.isSome_of_not_isNone hnull
  have hsize := UInt64.not_lt.mp hsize
  refine (readsAs_spec hdata fun p hp => ?_).bind fun dos hdos => ?_
  · simp only [List.mem_cons, List.not_mem_nil, or_false] at hp
    rcases hp with rfl | rfl <;> lia
  · refine Spec.ite (fun hother => Spec.pure ?_) fun hsame => ?_
    · exact iff_of_false Bool.false_ne_true fun h => Bool.false_ne_true ((hdos.symm.trans hother).symm.trans h.2.2.dos)
    refine (readU32_spec hdata (by lia)).bind fun nt hnt => ?_
    subst hnt
    refine Spec.ite (fun hout => Spec.pure ?_) fun hbounds => ?_
    · exact iff_of_false Bool.false_ne_true fun h => hout h.2.2.bounds
    have hbounds := not_not.mp hbounds
    have hlow := toUInt64_lt (b.u32 0x3C)
    have hone : (b.u32 0x3C + 1).toUInt64 ≤ (b.u32 0x3C).toUInt64 + 1 := toUInt64_add_le _ 1
    have htwo : (b.u32 0x3C + 2).toUInt64 ≤ (b.u32 0x3C).toUInt64 + 2 := toUInt64_add_le _ 2
    have hthree : (b.u32 0x3C + 3).toUInt64 ≤ (b.u32 0x3C).toUInt64 + 3 := toUInt64_add_le _ 3
    refine (readsAs_spec hdata fun p hp => ?_).weaken fun accepted heq => ?_
    · simp only [List.mem_cons, List.not_mem_nil, or_false] at hp
      rcases hp with rfl | rfl | rfl | rfl <;> lia
    · subst heq
      exact ⟨fun hshows => ⟨hdata, hsize, hdos.symm.trans (eq_true_of_ne_false hsame), hbounds, hshows⟩,
        fun h => h.2.2.signature⟩

end Specs

end Abix.Binary

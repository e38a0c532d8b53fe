import Abix.Model.ABI
import Abix.Trace.Traced

/-! Mapping a value of one layout to another: a plan is data, and runs over two buffers in one memory. -/
namespace Abix.Model
open Abix.Trace Abix.Trace.Traced

inductive Opcode where
  | copyField
  | convertInt
  | convertFloat
  | defaultField
  | renameField
  | skipField
  | addDefault
  | callConverter
  /-- The byte has another value. -/
  | other (value : UInt8)
  deriving DecidableEq

structure Operation where
  opcode : Opcode
  sourceFieldIndex : UInt32
  targetFieldIndex : UInt32
  auxiliary : UInt64
  deriving DecidableEq

inductive PlanStatus where
  | ok
  | invalidPlan
  | invalidLayout
  | invalidOperation
  | conversionFailed
  deriving DecidableEq

/-- The offset is all that a plan reads of a field. -/
structure Field where
  offset : UInt32
  deriving DecidableEq

abbrev Memory := UInt64 → UInt8

/-- Bytes that start at an address, which wrap at the end of the memory. -/
abbrev Within (start length address : UInt64) : Prop := address - start < length

def Memory.copy (memory : Memory) (target source length : UInt64) : Memory := fun address =>
  if Within target length address then memory (source + (address - target)) else memory address

def Memory.zero (memory : Memory) (target length : UInt64) : Memory := fun address =>
  if Within target length address then 0 else memory address

/-- A callback with a context: whether it succeeds, and what it leaves. -/
abbrev Converter (σ : Type) :=
  (source target auxiliary : UInt64) → σ × Memory → Bool × σ × Memory

/-- A layout, its count of fields and their array, and a pointer to a value, which is null at zero. -/
structure Side where
  layout : TypeLayout
  fields : Counted Field
  pointer : UInt64

inductive Access where
  | copied (target source length : UInt64)
  | zeroed (target length : UInt64)
  | converted (field : Field)
  deriving DecidableEq

namespace Side

def validLayout (side : Side) : Bool :=
  side.layout.size ≠ 0 ∧ side.layout.align ≠ 0 ∧ side.layout.align &&& (side.layout.align - 1) = 0 ∧
    ¬ side.fields.isDangling

def fieldAt (side : Side) (index : UInt32) : Field := side.fields.items.getD index.toNat ⟨0⟩

def validField (side : Side) (index : UInt32) : Bool :=
  side.fields.data.isSome ∧ index < side.fields.count ∧ (side.fieldAt index).offset < side.layout.size

def validRange (side : Side) (index : UInt32) (bytes : UInt64) : Bool :=
  side.validField index ∧ bytes ≤ side.layout.size.toUInt64 ∧
    (side.fieldAt index).offset.toUInt64 ≤ side.layout.size.toUInt64 - bytes

def address (side : Side) (index : UInt32) : UInt64 := side.pointer + (side.fieldAt index).offset.toUInt64

end Side

section Apply
variable {σ : Type} (source target : Side) (converter : Option (Converter σ))

def copyField (op : Operation) (s : σ × Memory) : Traced Access (PlanStatus × σ × Memory) :=
  if ¬ source.validRange op.sourceFieldIndex op.auxiliary ∨ ¬ target.validRange op.targetFieldIndex op.auxiliary ∨
      op.auxiliary = 0 then pure (.invalidOperation, s)
  else do
    emit (.copied (target.address op.targetFieldIndex) (source.address op.sourceFieldIndex) op.auxiliary)
    pure (.ok, s.1,
      s.2.copy (target.address op.targetFieldIndex) (source.address op.sourceFieldIndex) op.auxiliary)

def defaultField (op : Operation) (s : σ × Memory) : Traced Access (PlanStatus × σ × Memory) :=
  if ¬ target.validRange op.targetFieldIndex op.auxiliary ∨ op.auxiliary = 0 then pure (.invalidOperation, s)
  else do
    emit (.zeroed (target.address op.targetFieldIndex) op.auxiliary)
    pure (.ok, s.1, s.2.zero (target.address op.targetFieldIndex) op.auxiliary)

def skipField (op : Operation) (s : σ × Memory) : Traced Access (PlanStatus × σ × Memory) :=
  pure (if ¬ source.validField op.sourceFieldIndex then .invalidOperation else .ok, s)

def convertField (op : Operation) (s : σ × Memory) : Traced Access (PlanStatus × σ × Memory) :=
  match converter with
  | none => pure (.invalidOperation, s)
  | some convert =>
    if ¬ source.validField op.sourceFieldIndex ∨ ¬ target.validField op.targetFieldIndex then
      pure (.conversionFailed, s)
    else do
      emit (.converted (target.fieldAt op.targetFieldIndex))
      let (converted, s) := convert (source.address op.sourceFieldIndex) (target.address op.targetFieldIndex)
        op.auxiliary s
      pure (if converted then .ok else .conversionFailed, s)

def execute (op : Operation) (s : σ × Memory) : Traced Access (PlanStatus × σ × Memory) :=
  match op.opcode with
  | .copyField | .renameField => copyField source target op s
  | .defaultField | .addDefault => defaultField target op s
  | .skipField => skipField source op s
  | .convertInt | .convertFloat | .callConverter => convertField source target converter op s
  | .other _ => pure (.invalidOperation, s)

/-- `for (i = 0; i < _count; ++i)`, which returns at the first operation that fails. -/
def executeAll : List Operation → σ × Memory → Traced Access (PlanStatus × σ × Memory)
  | [], s => pure (.ok, s)
  | op :: ops, s => do
    let (status, s) ← execute source target converter op s
    if status = .ok then executeAll ops s else pure (status, s)

structure MapPlan (capacity : Nat) where
  operations : Counted Operation

def MapPlan.apply {capacity : Nat} (plan : MapPlan capacity) (s : σ × Memory) :
    Traced Access (PlanStatus × σ × Memory) :=
  if plan.operations.data.isNone ∨ capacity < plan.operations.count.toNat ∨ target.pointer = 0 ∨ source.pointer = 0 then
    pure (.invalidPlan, s)
  else if ¬ source.validLayout ∨ ¬ target.validLayout then pure (.invalidLayout, s)
  else executeAll source target converter plan.operations.items s

end Apply

/-- Bytes from `start` on lie in the value of a side, in exact arithmetic. -/
def Side.Covers (side : Side) (start length : UInt64) : Prop :=
  side.pointer.toNat ≤ start.toNat ∧ start.toNat + length.toNat ≤ side.pointer.toNat + side.layout.size.toNat

/-- What is copied or zeroed lies in the target, and what it is copied from in the source. -/
def Access.Inside (source target : Side) : Access → Prop
  | .copied dest start length => target.Covers dest length ∧ source.Covers start length
  | .zeroed dest length => target.Covers dest length
  | .converted field => field ∈ target.fields.items ∧ field.offset < target.layout.size

def Access.Names (target : Side) (op : Operation) : Access → Prop
  | .copied dest _ length | .zeroed dest length => dest = target.address op.targetFieldIndex ∧ length = op.auxiliary
  | .converted field => field = target.fieldAt op.targetFieldIndex

/-- The bytes of the target that an access is for. How long a field is that is converted, its type says. -/
def Access.Touches (target : Side) (extent : Field → UInt64) (address : UInt64) : Access → Prop
  | .copied dest _ length | .zeroed dest length => Within dest length address
  | .converted field => Within (target.pointer + field.offset.toUInt64) (extent field) address

/-- Two values that do not share a byte, and do not wrap. -/
structure Apart (source target : Side) : Prop where
  sourceFits : source.pointer.toNat + source.layout.size.toNat ≤ 2 ^ 64
  targetFits : target.pointer.toNat + target.layout.size.toNat ≤ 2 ^ 64
  disjoint : ∀ address, Within source.pointer source.layout.size.toUInt64 address →
    ¬ Within target.pointer target.layout.size.toUInt64 address

/-- Fields, which may have any length, end in their value. -/
def FieldsFit (side : Side) (extent : Field → UInt64) : Prop :=
  ∀ field ∈ side.fields.items, field.offset < side.layout.size →
    field.offset.toNat + (extent field).toNat ≤ side.layout.size.toNat

/-- The converter writes in the field that it is given and nowhere else. -/
def Confined {σ : Type} (target : Side) (extent : Field → UInt64) (convert : Converter σ) : Prop :=
  ∀ field ∈ target.fields.items, field.offset < target.layout.size → ∀ source auxiliary s address,
    ¬ Within (target.pointer + field.offset.toUInt64) (extent field) address →
      (convert source (target.pointer + field.offset.toUInt64) auxiliary s).2.2 address = s.2 address

section Meaning
variable {σ : Type} (source target : Side) (converter : Option (Converter σ))

def Operation.effect (s : σ × Memory) (op : Operation) : σ × Memory :=
  match op.opcode with
  | .copyField | .renameField =>
    (s.1, s.2.copy (target.address op.targetFieldIndex) (source.address op.sourceFieldIndex) op.auxiliary)
  | .defaultField | .addDefault => (s.1, s.2.zero (target.address op.targetFieldIndex) op.auxiliary)
  | .convertInt | .convertFloat | .callConverter =>
    match converter with
    | none => s
    | some convert =>
      (convert (source.address op.sourceFieldIndex) (target.address op.targetFieldIndex) op.auxiliary s).2
  | .skipField | .other _ => s

end Meaning

section Specs
variable {σ : Type} {source target : Side} {converter : Option (Converter σ)} {extent : Field → UInt64}
  {ops : List Operation} {op : Operation} {s s' s'' : σ × Memory} {trace trace' : List Access}

/-- An index that is counted names a field of the array. -/
theorem Side.fieldAt_mem {side : Side} {index : UInt32} (hdata : side.fields.data.isSome)
    (hindex : index < side.fields.count) : side.fieldAt index ∈ side.fields.items := by
  obtain ⟨fields, hfields⟩ := Option.isSome_iff_exists.mp hdata
  have hlength := side.fields.length_eq fields hfields
  have hlt : index.toNat < side.fields.items.length := by
    rw [Counted.items, hfields, Option.getD_some, hlength]
    exact UInt32.lt_iff_toNat_lt.mp hindex
  rw [Side.fieldAt, List.getD_eq_getElem?_getD, List.getElem?_eq_getElem hlt, Option.getD_some]
  exact List.getElem_mem hlt

theorem Side.validField_iff {side : Side} {index : UInt32} : side.validField index = true ↔
    side.fields.data.isSome ∧ index < side.fields.count ∧ (side.fieldAt index).offset < side.layout.size :=
  decide_eq_true_iff

/-- The checks of a range, partly in 32 and partly in 64 bits, say what they are for. -/
theorem Side.covers_of_validRange {side : Side} {index : UInt32} {bytes : UInt64}
    (hfits : side.pointer.toNat + side.layout.size.toNat ≤ 2 ^ 64) (h : side.validRange index bytes = true) :
    side.Covers (side.address index) bytes := by
  obtain ⟨hfield, hbytes, hoffset⟩ := of_decide_eq_true h
  have hinside := (Side.validField_iff.mp hfield).2.2
  have hoffset64 : (side.fieldAt index).offset.toUInt64.toNat = (side.fieldAt index).offset.toNat :=
    UInt32.toNat_toUInt64 _
  have hsize64 : side.layout.size.toUInt64.toNat = side.layout.size.toNat := UInt32.toNat_toUInt64 _
  rw [UInt64.le_iff_toNat_le, UInt64.toNat_sub_of_le _ _ hbytes, hoffset64, hsize64] at hoffset
  rw [UInt64.le_iff_toNat_le, hsize64] at hbytes
  rw [UInt32.lt_iff_toNat_lt] at hinside
  have haddress : (side.address index).toNat = side.pointer.toNat + (side.fieldAt index).offset.toNat := by
    rw [Side.address, UInt64.toNat_add, hoffset64, Nat.mod_eq_of_lt (by omega)]
  rw [Side.Covers, haddress]
  exact ⟨by omega, by omega⟩

/-- What a part of a run leaves: accesses that are inside and named, and every other byte as it was. -/
structure Leaves (source target : Side) (extent : Field → UInt64) (ops : List Operation) (s s' : σ × Memory)
    (trace : List Access) : Prop where
  inside : ∀ access ∈ trace, access.Inside source target
  named : ∀ access ∈ trace, ∃ op ∈ ops, access.Names target op
  frame : ∀ address, (∀ access ∈ trace, ¬ access.Touches target extent address) → s'.2 address = s.2 address

theorem Leaves.refl : Leaves source target extent ops s s [] where
  inside _ h := absurd h List.not_mem_nil
  named _ h := absurd h List.not_mem_nil
  frame _ _ := rfl

theorem Leaves.single {access : Access} (hinside : access.Inside source target) (hnamed : access.Names target op)
    (hframe : ∀ address, ¬ access.Touches target extent address → s'.2 address = s.2 address) :
    Leaves source target extent [op] s s' [access] where
  inside access' h := by
    obtain rfl := List.mem_singleton.mp h
    exact hinside
  named access' h := by
    obtain rfl := List.mem_singleton.mp h
    exact ⟨op, List.mem_singleton_self op, hnamed⟩
  frame address h := hframe address (h access (List.mem_singleton_self access))

theorem Leaves.append (h : Leaves source target extent [op] s s' trace)
    (h' : Leaves source target extent ops s' s'' trace') :
    Leaves source target extent (op :: ops) s s'' (trace ++ trace') where
  inside access hmem := by
    rcases List.mem_append.mp hmem with hmem | hmem
    · exact h.inside access hmem
    · exact h'.inside access hmem
  named access hmem := by
    rcases List.mem_append.mp hmem with hmem | hmem
    · obtain ⟨op', hop, hnames⟩ := h.named access hmem
      obtain rfl := List.mem_singleton.mp hop
      exact ⟨op', List.mem_cons_self, hnames⟩
    · obtain ⟨op', hop, hnames⟩ := h'.named access hmem
      exact ⟨op', List.mem_cons_of_mem op hop, hnames⟩
  frame address hmem := by
    rw [h'.frame address fun access h => hmem access (List.mem_append_right trace h)]
    exact h.frame address fun access h => hmem access (List.mem_append_left trace' h)

/-- A part of a run ends, leaves what it may, and when all is well comes to its meaning. -/
def Runs (source target : Side) (extent : Field → UInt64) (ops : List Operation) (s meaning : σ × Memory)
    (m : Traced Access (PlanStatus × σ × Memory)) : Prop :=
  ∃ status s' trace, m = ⟨.done (status, s'), trace⟩ ∧ Leaves source target extent ops s s' trace ∧
    (status = .ok → s' = meaning)

theorem Runs.refused {status : PlanStatus} {meaning : σ × Memory} (h : status ≠ .ok) :
    Runs source target extent ops s meaning (pure (status, s)) :=
  ⟨status, s, [], rfl, Leaves.refl, fun hok => absurd hok h⟩

private theorem copyField_runs (hapart : Apart source target) :
    Runs source target extent [op] s (s.1,
      s.2.copy (target.address op.targetFieldIndex) (source.address op.sourceFieldIndex) op.auxiliary)
      (copyField source target op s) := by
  rw [copyField]
  split
  · apply Runs.refused
    decide
  · rename_i hvalid
    obtain ⟨hsource, htarget, -⟩ := not_or.mp hvalid |>.imp_right not_or.mp
    refine ⟨.ok, _, _, rfl, Leaves.single ⟨?_, ?_⟩ ⟨rfl, rfl⟩ fun address houtside => if_neg houtside, fun _ => rfl⟩
    · exact Side.covers_of_validRange hapart.targetFits (not_not.mp htarget)
    · exact Side.covers_of_validRange hapart.sourceFits (not_not.mp hsource)

private theorem defaultField_runs (hapart : Apart source target) :
    Runs source target extent [op] s (s.1, s.2.zero (target.address op.targetFieldIndex) op.auxiliary)
      (defaultField target op s) := by
  rw [defaultField]
  split
  · apply Runs.refused
    decide
  · rename_i hvalid
    have htarget := not_not.mp (not_or.mp hvalid).1
    refine ⟨.ok, _, _, rfl, Leaves.single ?_ ⟨rfl, rfl⟩ fun address houtside => if_neg houtside, fun _ => rfl⟩
    exact Side.covers_of_validRange hapart.targetFits htarget

private theorem skipField_runs : Runs source target extent [op] s s (skipField source op s) :=
  ⟨_, s, [], rfl, Leaves.refl, fun _ => rfl⟩

private theorem convertField_runs (hconfined : ∀ convert ∈ converter, Confined target extent convert)
    (hopcode : op.opcode = .convertInt ∨ op.opcode = .convertFloat ∨ op.opcode = .callConverter) :
    Runs source target extent [op] s (op.effect source target converter s)
      (convertField source target converter op s) := by
  cases converter with
  | none =>
    apply Runs.refused
    decide
  | some convert =>
    dsimp only [convertField]
    split
    · apply Runs.refused
      decide
    · rename_i hvalid
      obtain ⟨hdata, hindex, hoffset⟩ := Side.validField_iff.mp (not_not.mp (not_or.mp hvalid).2)
      have hmem := Side.fieldAt_mem hdata hindex
      refine ⟨_, _, _, rfl, Leaves.single ⟨hmem, hoffset⟩ rfl fun address houtside => ?_, fun _ => ?_⟩
      · exact hconfined convert rfl _ hmem hoffset _ _ _ address houtside
      · rcases hopcode with h | h | h
        all_goals simp only [Operation.effect, h]

private theorem execute_runs (hapart : Apart source target)
    (hconfined : ∀ convert ∈ converter, Confined target extent convert) (op : Operation) (s : σ × Memory) :
    Runs source target extent [op] s (op.effect source target converter s)
      (execute source target converter op s) := by
  rw [execute]
  cases h : op.opcode with
  | copyField | renameField =>
    simp only [Operation.effect, h]
    exact copyField_runs hapart
  | defaultField | addDefault =>
    simp only [Operation.effect, h]
    exact defaultField_runs hapart
  | skipField =>
    simp only [Operation.effect, h]
    exact skipField_runs
  | convertInt | convertFloat | callConverter =>
    apply convertField_runs hconfined
    simp only [h, true_or, or_true, reduceCtorEq]
  | other value =>
    apply Runs.refused
    decide

/-- The run of a list of operations, by induction on it. -/
theorem executeAll_runs (hapart : Apart source target)
    (hconfined : ∀ convert ∈ converter, Confined target extent convert) (ops : List Operation) (s : σ × Memory) :
    Runs source target extent ops s (ops.foldl (Operation.effect source target converter) s)
      (executeAll source target converter ops s) := by
  induction ops generalizing s with
  | nil => exact ⟨.ok, s, [], rfl, Leaves.refl, fun _ => rfl⟩
  | cons op ops ih =>
    obtain ⟨status, s', trace, heq, hleaves, hmeaning⟩ := execute_runs hapart hconfined op s
    rw [executeAll, heq]
    by_cases hok : status = .ok
    · obtain ⟨status', s'', trace', heq', hleaves', hmeaning'⟩ := ih s'
      refine ⟨status', s'', trace ++ trace', ?_, hleaves.append hleaves', fun hok' => ?_⟩
      · apply bind_eq
        dsimp only
        rw [if_pos hok, heq']
      · rw [hmeaning' hok', hmeaning hok, List.foldl_cons]
    · refine ⟨status, s', trace ++ [], ?_, hleaves.append Leaves.refl, fun h => absurd h hok⟩
      apply bind_eq
      dsimp only
      rw [if_neg hok]
      rfl

private theorem apply_runs {capacity : Nat} (plan : MapPlan capacity) (hapart : Apart source target)
    (hconfined : ∀ convert ∈ converter, Confined target extent convert) (s : σ × Memory) :
    Runs source target extent plan.operations.items s
      (plan.operations.items.foldl (Operation.effect source target converter) s)
      (plan.apply source target converter s) := by
  rw [MapPlan.apply]
  split
  · apply Runs.refused
    decide
  · split
    · apply Runs.refused
      decide
    · exact executeAll_runs hapart hconfined _ s

/-- Bytes of a part of a value are bytes of the value. -/
theorem Side.Covers.within {side : Side} {start length address : UInt64} (h : side.Covers start length)
    (hfits : side.pointer.toNat + side.layout.size.toNat ≤ 2 ^ 64) (hwithin : Within start length address) :
    Within side.pointer side.layout.size.toUInt64 address := by
  obtain ⟨hstart, hstop⟩ := h
  have haddress := address.toNat_lt
  rw [Within, UInt64.lt_iff_toNat_lt, UInt64.toNat_sub] at hwithin
  rw [Within, UInt64.lt_iff_toNat_lt, UInt64.toNat_sub, UInt32.toNat_toUInt64]
  omega

theorem Access.Inside.within {access : Access} {address : UInt64} (h : access.Inside source target)
    (hapart : Apart source target)
    (hfits : FieldsFit target extent)
    (htouches : access.Touches target extent address) :
    Within target.pointer target.layout.size.toUInt64 address := by
  cases access with
  | copied dest start length => exact h.1.within hapart.targetFits htouches
  | zeroed dest length => exact Side.Covers.within h hapart.targetFits htouches
  | converted field =>
    have hfield := hfits field h.1 h.2
    have htarget := hapart.targetFits
    have hoffset := UInt32.lt_iff_toNat_lt.mp h.2
    have haddress : (target.pointer + field.offset.toUInt64).toNat = target.pointer.toNat + field.offset.toNat := by
      rw [UInt64.toNat_add, UInt32.toNat_toUInt64, Nat.mod_eq_of_lt (by omega)]
    have hcovers : target.Covers (target.pointer + field.offset.toUInt64) (extent field) := by
      rw [Side.Covers, haddress]
      exact ⟨by omega, by omega⟩
    exact hcovers.within htarget htouches

end Specs

/-- A plan touches only what it may, whatever it is and however it ends, and one that ends well does what
its operations mean, in order. -/
theorem map_touches_only_what_it_may {σ : Type} {capacity : Nat} (plan : MapPlan capacity) (source target : Side)
    (converter : Option (Converter σ)) (extent : Field → UInt64) (s : σ × Memory) (hapart : Apart source target)
    (hfits : FieldsFit target extent)
    (hconfined : ∀ convert ∈ converter, Confined target extent convert) :
    ∃ status s' trace, plan.apply source target converter s = ⟨.done (status, s'), trace⟩ ∧
      (∀ access ∈ trace, access.Inside source target ∧ ∃ op ∈ plan.operations.items, access.Names target op) ∧
      (∀ address, Within source.pointer source.layout.size.toUInt64 address → s'.2 address = s.2 address) ∧
      (∀ address, (∀ access ∈ trace, ¬ access.Touches target extent address) → s'.2 address = s.2 address) ∧
      (status = .ok → s' = plan.operations.items.foldl (Operation.effect source target converter) s) := by
  obtain ⟨status, s', trace, heq, hleaves, hmeaning⟩ := apply_runs plan hapart hconfined s
  refine ⟨status, s', trace, heq, fun access h => ⟨hleaves.inside access h, hleaves.named access h⟩,
    fun address hsource => ?_, hleaves.frame, hmeaning⟩
  apply hleaves.frame
  intro access hmem htouches
  exact hapart.disjoint address hsource ((hleaves.inside access hmem).within hapart hfits htouches)

def eightBytesAt (pointer : UInt64) : Side :=
  ⟨⟨8, 8, Hash128.zero⟩, Counted.ofList [⟨4⟩, ⟨0⟩] (by decide), pointer⟩

def copyAndConvert : MapPlan 64 :=
  ⟨Counted.ofList [⟨.copyField, 0, 0, 4⟩, ⟨.callConverter, 0, 1, 0⟩] (by decide)⟩

def clear : Converter Unit := fun _ target _ s => (true, s.1, s.2.zero target 4)

theorem map_touches_only_what_it_may_fields :
    ∃ s' trace, copyAndConvert.apply (eightBytesAt 16) (eightBytesAt 32) (some clear) ((), fun a => a.toUInt8) =
        ⟨.done (.ok, s'), trace⟩ ∧
      (∀ access ∈ trace, access.Inside (eightBytesAt 16) (eightBytesAt 32) ∧
        ∃ op ∈ copyAndConvert.operations.items, access.Names (eightBytesAt 32) op) ∧
      (∀ address, Within 16 8 address → s'.2 address = address.toUInt8) ∧
      (∀ address, (∀ access ∈ trace, ¬ access.Touches (eightBytesAt 32) (fun _ => 4) address) →
        s'.2 address = address.toUInt8) ∧
      s' = copyAndConvert.operations.items.foldl
        (Operation.effect (eightBytesAt 16) (eightBytesAt 32) (some clear)) ((), fun a => a.toUInt8) := by
  have hruns : ∃ s' trace, copyAndConvert.apply (eightBytesAt 16) (eightBytesAt 32) (some clear)
      ((), fun a => a.toUInt8) = ⟨.done (.ok, s'), trace⟩ := ⟨_, _, rfl⟩
  obtain ⟨s', trace, hok⟩ := hruns
  have hall := map_touches_only_what_it_may copyAndConvert (eightBytesAt 16) (eightBytesAt 32) (some clear) (fun _ => 4)
    ((), fun a => a.toUInt8) ⟨by decide, by decide, fun address => ?_⟩ (fun field hfield _ => ?_) fun convert hconvert => ?_
  · obtain ⟨status, s'', trace', heq, htouched, hsource, hframe, hmeaning⟩ := hall
    obtain ⟨hdone, rfl⟩ := Traced.mk.inj (hok.symm.trans heq)
    obtain ⟨rfl, rfl⟩ := Prod.mk.inj (Outcome.done.inj hdone)
    exact ⟨s', trace, hok, htouched, hsource, hframe, hmeaning rfl⟩
  · show address - 16 < 8 → ¬ address - 32 < 8
    lia
  · revert field
    decide
  · obtain rfl := Option.some.inj hconvert
    exact fun field _ _ source auxiliary s address houtside => if_neg houtside

end Abix.Model

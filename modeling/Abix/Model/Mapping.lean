import Abix.Model.Map

/-! What a plan makes of a value. Where the ranges that its operations write are apart, each field of the
target is what its operation says of the source, and the order of the operations makes no difference. -/
namespace Abix.Model
open Abix.Trace Abix.Trace.Traced

namespace Operation

def copies (op : Operation) : Bool := op.opcode = .copyField ∨ op.opcode = .renameField

def defaults (op : Operation) : Bool := op.opcode = .defaultField ∨ op.opcode = .addDefault

def converts (op : Operation) : Bool :=
  op.opcode = .convertInt ∨ op.opcode = .convertFloat ∨ op.opcode = .callConverter

/-- The bytes that the operation writes. How long a field is that is converted, its type says. -/
def Writes (target : Side) (extent : Field → UInt64) (op : Operation) (address : UInt64) : Prop :=
  match op.opcode with
  | .copyField | .renameField | .defaultField | .addDefault =>
    Within (target.address op.targetFieldIndex) op.auxiliary address
  | .convertInt | .convertFloat | .callConverter =>
    Within (target.address op.targetFieldIndex) (extent (target.fieldAt op.targetFieldIndex)) address
  | .skipField | .other _ => False

def Separate (target : Side) (extent : Field → UInt64) (op op' : Operation) : Prop :=
  ∀ address, op.Writes target extent address → ¬ op'.Writes target extent address

/-- The checks of an operation, before a converter is asked. -/
def valid (source target : Side) (converts : Bool) (op : Operation) : Bool :=
  match op.opcode with
  | .copyField | .renameField =>
    source.validRange op.sourceFieldIndex op.auxiliary ∧ target.validRange op.targetFieldIndex op.auxiliary ∧
      op.auxiliary ≠ 0
  | .defaultField | .addDefault => target.validRange op.targetFieldIndex op.auxiliary ∧ op.auxiliary ≠ 0
  | .skipField => source.validField op.sourceFieldIndex
  | .convertInt | .convertFloat | .callConverter =>
    converts ∧ source.validField op.sourceFieldIndex ∧ target.validField op.targetFieldIndex
  | .other _ => false

end Operation

section Performs
variable {σ : Type} {source target : Side} {converter : Option (Converter σ)} {extent : Field → UInt64}
  {op : Operation} {ops : List Operation} {s s₁ s' : σ × Memory}

structure Performs (source target : Side) (converter : Option (Converter σ)) (extent : Field → UInt64) (op : Operation)
    (s s₁ : σ × Memory) : Prop where
  copies : op.copies = true → ∀ k < op.auxiliary,
    Within source.pointer source.layout.size.toUInt64 (source.address op.sourceFieldIndex + k) ∧
      s₁.2 (target.address op.targetFieldIndex + k) = s.2 (source.address op.sourceFieldIndex + k)
  defaults : op.defaults = true → ∀ k < op.auxiliary, s₁.2 (target.address op.targetFieldIndex + k) = 0
  converts : op.converts = true → ∃ convert ∈ converter,
    convert (source.address op.sourceFieldIndex) (target.address op.targetFieldIndex) op.auxiliary s = (true, s₁)
  inside : ∀ address, op.Writes target extent address → Within target.pointer target.layout.size.toUInt64 address
  frame : ∀ address, ¬ op.Writes target extent address → s₁.2 address = s.2 address
  context : op.converts = false → s₁.1 = s.1

theorem within_add_iff (start length k : UInt64) : Within start length (start + k) ↔ k < length := by
  rw [Within, UInt64.add_comm, UInt64.add_sub_cancel]

/-- A range that is checked is inside the value. -/
theorem Side.within_of_validRange {side : Side} {index : UInt32} {bytes address : UInt64}
    (hfits : side.pointer.toNat + side.layout.size.toNat ≤ 2 ^ 64) (h : side.validRange index bytes = true)
    (hwithin : Within (side.address index) bytes address) : Within side.pointer side.layout.size.toUInt64 address :=
  (Side.covers_of_validRange hfits h).within hfits hwithin

theorem copyField_ok (h : (copyField source target op s).outcome = .done (.ok, s₁)) :
    source.validRange op.sourceFieldIndex op.auxiliary = true ∧
      target.validRange op.targetFieldIndex op.auxiliary = true ∧ op.auxiliary ≠ 0 ∧ s₁ = (s.1,
        s.2.copy (target.address op.targetFieldIndex) (source.address op.sourceFieldIndex) op.auxiliary) := by
  unfold copyField at h
  split at h
  · cases h
  · rename_i hchecks
    cases h
    obtain ⟨hsource, htarget, haux⟩ := not_or.mp hchecks |>.imp_right not_or.mp
    exact ⟨not_not.mp hsource, not_not.mp htarget, haux, rfl⟩

theorem defaultField_ok (h : (defaultField target op s).outcome = .done (.ok, s₁)) :
    target.validRange op.targetFieldIndex op.auxiliary = true ∧ op.auxiliary ≠ 0 ∧
      s₁ = (s.1, s.2.zero (target.address op.targetFieldIndex) op.auxiliary) := by
  unfold defaultField at h
  split at h
  · cases h
  · rename_i hchecks
    cases h
    obtain ⟨htarget, haux⟩ := not_or.mp hchecks
    exact ⟨not_not.mp htarget, haux, rfl⟩

theorem skipField_ok (h : (skipField source op s).outcome = .done (.ok, s₁)) :
    source.validField op.sourceFieldIndex = true ∧ s₁ = s := by
  unfold skipField at h
  split at h
  · cases h
  · rename_i hchecks
    cases h
    exact ⟨not_not.mp hchecks, rfl⟩

private theorem convertField_ok (h : (convertField source target converter op s).outcome = .done (.ok, s₁)) :
    ∃ convert ∈ converter, source.validField op.sourceFieldIndex = true ∧
      target.validField op.targetFieldIndex = true ∧
      convert (source.address op.sourceFieldIndex) (target.address op.targetFieldIndex) op.auxiliary s =
        (true, s₁) := by
  cases converter with
  | none => cases h
  | some convert =>
    simp only [convertField] at h
    split at h
    · cases h
    · rename_i hchecks
      obtain ⟨hsource, htarget⟩ := not_or.mp hchecks
      refine ⟨convert, rfl, not_not.mp hsource, not_not.mp htarget, ?_⟩
      generalize convert (source.address op.sourceFieldIndex)
        (target.address op.targetFieldIndex) op.auxiliary s = r at h
      obtain ⟨converted, s₂⟩ := r
      cases converted with
      | true =>
        cases h
        rfl
      | false => cases h

private theorem execute_performs (hapart : Apart source target) (hfits : FieldsFit target extent)
    (hconfined : ∀ convert ∈ converter, Confined target extent convert)
    (h : (execute source target converter op s).outcome = .done (.ok, s₁)) :
    Performs source target converter extent op s s₁ := by
  obtain ⟨opcode, i, j, bytes⟩ := op
  cases opcode with
  | copyField | renameField =>
    obtain ⟨hsource, htarget, -, rfl⟩ := copyField_ok h
    refine ⟨fun _ k hk => ⟨?_, ?_⟩, nofun, nofun, fun address => Side.within_of_validRange hapart.targetFits htarget,
      fun address hout => if_neg hout, fun _ => rfl⟩
    · exact Side.within_of_validRange hapart.sourceFits hsource ((within_add_iff ..).mpr hk)
    · have hin : Within (target.address j) bytes (target.address j + k) := (within_add_iff ..).mpr hk
      simp only [Memory.copy, if_pos hin]
      rw [UInt64.add_comm (target.address j), UInt64.add_sub_cancel]
  | defaultField | addDefault =>
    obtain ⟨htarget, -, rfl⟩ := defaultField_ok h
    refine ⟨nofun, fun _ k hk => ?_, nofun, fun address => Side.within_of_validRange hapart.targetFits htarget,
      fun address hout => if_neg hout, fun _ => rfl⟩
    exact if_pos ((within_add_iff ..).mpr hk)
  | skipField =>
    obtain ⟨-, rfl⟩ := skipField_ok h
    exact ⟨nofun, nofun, nofun, fun _ hin => hin.elim, fun _ _ => rfl, fun _ => rfl⟩
  | convertInt | convertFloat | callConverter =>
    obtain ⟨convert, hconvert, -, htarget, hdone⟩ := convertField_ok h
    obtain ⟨hdata, hindex, hoffset⟩ := Side.validField_iff.mp htarget
    have hmem := Side.fieldAt_mem hdata hindex
    refine ⟨nofun, nofun, fun _ => ⟨convert, hconvert, hdone⟩, fun address hin => ?_, fun address hout => ?_, nofun⟩
    · have hinside : (Access.converted (target.fieldAt j)).Inside source target := ⟨hmem, hoffset⟩
      exact hinside.within hapart hfits hin
    · have hframe := hconfined convert hconvert _ hmem hoffset (source.address i) bytes s address hout
      exact (congrArg (fun r => r.2.2 address) hdone).symm.trans hframe
  | other => cases h

structure Maps (source target : Side) (converter : Option (Converter σ)) (extent : Field → UInt64)
    (ops : List Operation) (s s' : σ × Memory) : Prop where
  copies : ∀ op ∈ ops, op.copies = true → ∀ k < op.auxiliary,
    Within source.pointer source.layout.size.toUInt64 (source.address op.sourceFieldIndex + k) ∧
      s'.2 (target.address op.targetFieldIndex + k) = s.2 (source.address op.sourceFieldIndex + k)
  defaults : ∀ op ∈ ops, op.defaults = true → ∀ k < op.auxiliary, s'.2 (target.address op.targetFieldIndex + k) = 0
  converts : ∀ op ∈ ops, op.converts = true → ∃ convert ∈ converter, ∃ s₀ s₁,
    (∀ address, Within source.pointer source.layout.size.toUInt64 address → s₀.2 address = s.2 address) ∧
      convert (source.address op.sourceFieldIndex) (target.address op.targetFieldIndex) op.auxiliary s₀ = (true, s₁) ∧
      ∀ address, op.Writes target extent address → s'.2 address = s₁.2 address
  frame : ∀ address, (∀ op ∈ ops, ¬ op.Writes target extent address) → s'.2 address = s.2 address
  context : (∀ op ∈ ops, op.converts = false) → s'.1 = s.1

theorem executeAll_cons (h : (executeAll source target converter (op :: ops) s).outcome = .done (.ok, s')) :
    ∃ s₁, (execute source target converter op s).outcome = .done (.ok, s₁) ∧
      (executeAll source target converter ops s₁).outcome = .done (.ok, s') := by
  obtain ⟨⟨status, s₁⟩, hop, hrest⟩ := bind_done h
  dsimp only at hrest
  split at hrest
  · rename_i hok
    subst hok
    exact ⟨s₁, hop, hrest⟩
  · rename_i hbad
    cases hrest
    exact absurd rfl hbad

/-- What an operation copies or zeroes it writes. -/
theorem Operation.writes_of_copies (h : op.copies = true ∨ op.defaults = true) {k : UInt64} (hk : k < op.auxiliary) :
    op.Writes target extent (target.address op.targetFieldIndex + k) := by
  obtain ⟨opcode, i, j, bytes⟩ := op
  cases opcode with
  | copyField | renameField | defaultField | addDefault => exact (within_add_iff ..).mpr hk
  | _ => simp [copies, defaults] at h

/-- One operation after another: the later ones leave what the earlier one has written, and find the
source as it was. -/
theorem executeAll_maps (hapart : Apart source target) (hfits : FieldsFit target extent)
    (hconfined : ∀ convert ∈ converter, Confined target extent convert)
    (hseparate : ops.Pairwise (Operation.Separate target extent))
    (h : (executeAll source target converter ops s).outcome = .done (.ok, s')) :
    Maps source target converter extent ops s s' := by
  induction ops generalizing s with
  | nil =>
    cases h
    exact ⟨fun _ h => absurd h List.not_mem_nil, fun _ h => absurd h List.not_mem_nil,
      fun _ h => absurd h List.not_mem_nil, fun _ _ => rfl, fun _ => rfl⟩
  | cons op ops ih =>
    obtain ⟨hop, hops⟩ := List.pairwise_cons.mp hseparate
    obtain ⟨s₁, hfirst, hrest⟩ := executeAll_cons h
    have hp := execute_performs hapart hfits hconfined hfirst
    have hmaps := ih hops hrest
    have hsource (address : UInt64) (hin : Within source.pointer source.layout.size.toUInt64 address) :
        s₁.2 address = s.2 address :=
      hp.frame address fun hw => hapart.disjoint address hin (hp.inside address hw)
    have hlater (address : UInt64) (hw : op.Writes target extent address) : s'.2 address = s₁.2 address :=
      hmaps.frame address fun op' hop' => hop op' hop' address hw
    refine ⟨fun op' hop' hcopies k hk => ?_, fun op' hop' hdefaults k hk => ?_, fun op' hop' hconverts => ?_,
      fun address hout => ?_, fun hplain => ?_⟩
    · rcases List.mem_cons.mp hop' with rfl | hmem
      · rw [hlater _ (Operation.writes_of_copies (.inl hcopies) hk)]
        exact hp.copies hcopies k hk
      · obtain ⟨hin, hbyte⟩ := hmaps.copies op' hmem hcopies k hk
        exact ⟨hin, hbyte.trans (hsource _ hin)⟩
    · rcases List.mem_cons.mp hop' with rfl | hmem
      · rw [hlater _ (Operation.writes_of_copies (.inr hdefaults) hk)]
        exact hp.defaults hdefaults k hk
      · exact hmaps.defaults op' hmem hdefaults k hk
    · rcases List.mem_cons.mp hop' with rfl | hmem
      · obtain ⟨convert, hconvert, hdone⟩ := hp.converts hconverts
        exact ⟨convert, hconvert, s, s₁, fun _ _ => rfl, hdone, hlater⟩
      · obtain ⟨convert, hconvert, s₂, s₃, hsame, hdone, hkept⟩ := hmaps.converts op' hmem hconverts
        exact ⟨convert, hconvert, s₂, s₃, fun address hin => (hsame address hin).trans (hsource address hin),
          hdone, hkept⟩
    · rw [hmaps.frame address fun op' hop' => hout op' (List.mem_cons_of_mem op hop')]
      exact hp.frame address (hout op List.mem_cons_self)
    · rw [hmaps.context fun op' hop' => hplain op' (List.mem_cons_of_mem op hop')]
      exact hp.context (hplain op List.mem_cons_self)

/-- A plan that ends well has run its operations. -/
theorem apply_ok {capacity : Nat} {plan : MapPlan capacity}
    (h : (plan.apply source target converter s).outcome = .done (.ok, s')) :
    (executeAll source target converter plan.operations.items s).outcome = .done (.ok, s') := by
  unfold MapPlan.apply at h
  split at h
  · cases h
  · split at h
    · cases h
    · exact h

end Performs

/-- A plan whose operations write apart from each other maps the value: when it ends well, each copied or
renamed field of the target has the bytes of its field in the source, each defaulted or added one is
zero, each converted one is what the converter left when it was given the source as it was, and no other
byte has changed. -/
theorem plan_maps_fields {σ : Type} {capacity : Nat} (plan : MapPlan capacity) (source target : Side)
    (converter : Option (Converter σ)) (extent : Field → UInt64) (s s' : σ × Memory) (hapart : Apart source target)
    (hfits : FieldsFit target extent) (hconfined : ∀ convert ∈ converter, Confined target extent convert)
    (hseparate : plan.operations.items.Pairwise (Operation.Separate target extent))
    (hok : (plan.apply source target converter s).outcome = .done (.ok, s')) :
    (∀ op ∈ plan.operations.items, op.copies = true → ∀ k < op.auxiliary,
      s'.2 (target.address op.targetFieldIndex + k) = s.2 (source.address op.sourceFieldIndex + k)) ∧
    (∀ op ∈ plan.operations.items, op.defaults = true → ∀ k < op.auxiliary,
      s'.2 (target.address op.targetFieldIndex + k) = 0) ∧
    (∀ op ∈ plan.operations.items, op.converts = true → ∃ convert ∈ converter, ∃ s₀ s₁,
      (∀ address, Within source.pointer source.layout.size.toUInt64 address → s₀.2 address = s.2 address) ∧
        convert (source.address op.sourceFieldIndex) (target.address op.targetFieldIndex) op.auxiliary s₀ = (true, s₁) ∧
        ∀ address, op.Writes target extent address → s'.2 address = s₁.2 address) ∧
    ∀ address, (∀ op ∈ plan.operations.items, ¬ op.Writes target extent address) → s'.2 address = s.2 address := by
  have hmaps := executeAll_maps hapart hfits hconfined hseparate (apply_ok hok)
  exact ⟨fun op hop hcopies k hk => (hmaps.copies op hop hcopies k hk).2, hmaps.defaults, hmaps.converts, hmaps.frame⟩

theorem apart_eightBytes : Apart (eightBytesAt 16) (eightBytesAt 32) := by
  refine ⟨by decide, by decide, fun address => ?_⟩
  show address - 16 < 8 → ¬ address - 32 < 8
  lia

private theorem fieldsFit_eightBytes : FieldsFit (eightBytesAt 32) fun _ => 4 := by
  intro field hfield _
  revert field
  decide

private theorem confined_clear : ∀ convert ∈ some clear, Confined (eightBytesAt 32) (fun _ => 4) convert := by
  rintro convert hconvert field - - source auxiliary s address houtside
  obtain rfl := Option.some.inj hconvert
  exact if_neg houtside

/-- The third byte of the copied field. -/
theorem plan_maps_fields_copied : ∃ s' : Unit × Memory,
    (copyAndConvert.apply (eightBytesAt 16) (eightBytesAt 32) (some clear) ((), fun a => a.toUInt8)).outcome =
      .done (.ok, s') ∧ s'.2 38 = 22 := by
  have hseparate : copyAndConvert.operations.items.Pairwise (Operation.Separate (eightBytesAt 32) fun _ => 4) := by
    refine .cons (fun op hop address => ?_) (.cons (fun _ h => absurd h List.not_mem_nil) .nil)
    obtain rfl := List.mem_singleton.mp hop
    show address - 36 < 4 → ¬ address - 32 < 4
    lia
  have hmaps := plan_maps_fields copyAndConvert (eightBytesAt 16) (eightBytesAt 32) (some clear) (fun _ => 4)
    ((), fun a => a.toUInt8) _ apart_eightBytes fieldsFit_eightBytes confined_clear hseparate rfl
  exact ⟨_, rfl, hmaps.1 _ List.mem_cons_self rfl 2 (by decide)⟩

section Order
variable {σ : Type} {source target : Side} {converter : Option (Converter σ)} {op : Operation}
  {ops ops' : List Operation} {s s' s₁ : σ × Memory}

private theorem execute_ok_iff (hplain : op.converts = false) :
    (∃ s₁, (execute source target converter op s).outcome = .done (.ok, s₁)) ↔ op.valid source target false = true := by
  obtain ⟨opcode, i, j, bytes⟩ := op
  cases opcode with
  | copyField | renameField =>
    refine ⟨fun ⟨s₁, h⟩ => ?_, fun h => ?_⟩
    · obtain ⟨hsource, htarget, haux, -⟩ := copyField_ok h
      exact decide_eq_true ⟨hsource, htarget, haux⟩
    · obtain ⟨hsource, htarget, haux⟩ := of_decide_eq_true h
      refine ⟨_, congrArg Traced.outcome (if_neg ?_)⟩
      rintro (h | h | h)
      · exact h hsource
      · exact h htarget
      · exact haux h
  | defaultField | addDefault =>
    refine ⟨fun ⟨s₁, h⟩ => ?_, fun h => ?_⟩
    · obtain ⟨htarget, haux, -⟩ := defaultField_ok h
      exact decide_eq_true ⟨htarget, haux⟩
    · obtain ⟨htarget, haux⟩ := of_decide_eq_true h
      refine ⟨_, congrArg Traced.outcome (if_neg ?_)⟩
      rintro (h | h)
      · exact h htarget
      · exact haux h
  | skipField =>
    refine ⟨fun ⟨s₁, h⟩ => (skipField_ok h).1, fun h => ⟨s, ?_⟩⟩
    have h : source.validField i = true := h
    simp [execute, skipField, h, pure]
  | convertInt | convertFloat | callConverter => cases hplain
  | other =>
    constructor
    · rintro ⟨s₁, h⟩
      cases h
    · exact fun h => absurd h Bool.false_ne_true

/-- Without conversions a list of operations goes well when all of them pass their checks. -/
theorem executeAll_ok_iff (hplain : ∀ op ∈ ops, op.converts = false) :
    (∃ s', (executeAll source target converter ops s).outcome = .done (.ok, s')) ↔
      ∀ op ∈ ops, op.valid source target false = true := by
  induction ops generalizing s with
  | nil => exact ⟨fun _ _ h => absurd h List.not_mem_nil, fun _ => ⟨s, rfl⟩⟩
  | cons op ops ih =>
    have hop : (∃ s₁, (execute source target converter op s).outcome = .done (.ok, s₁)) ↔
        op.valid source target false = true := execute_ok_iff (hplain op List.mem_cons_self)
    have ih (s : σ × Memory) := ih (s := s) fun op' hop' => hplain op' (List.mem_cons_of_mem op hop')
    rw [List.forall_mem_cons]
    constructor
    · rintro ⟨s', h⟩
      obtain ⟨s₁, hfirst, hrest⟩ := executeAll_cons h
      exact ⟨hop.mp ⟨s₁, hfirst⟩, (ih s₁).mp ⟨s', hrest⟩⟩
    · rintro ⟨hvalid, hvalids⟩
      obtain ⟨s₁, hfirst⟩ := hop.mpr hvalid
      obtain ⟨s', hrest⟩ := (ih s₁).mpr hvalids
      refine ⟨s', (bind_outcome hfirst).trans ?_⟩
      dsimp only
      rw [if_pos rfl]
      exact hrest

private theorem execute_plain (hplain : op.converts = false) :
    execute source target converter op s = execute source target none op s := by
  obtain ⟨opcode, i, j, bytes⟩ := op
  cases opcode with
  | convertInt | convertFloat | callConverter => cases hplain
  | _ => rfl

/-- Without conversions the converter is not asked. -/
theorem executeAll_plain (hplain : ∀ op ∈ ops, op.converts = false) :
    executeAll source target converter ops s = executeAll source target none ops s := by
  induction ops generalizing s with
  | nil => rfl
  | cons op ops ih =>
    have ih (s : σ × Memory) := ih (s := s) fun op' hop' => hplain op' (List.mem_cons_of_mem op hop')
    simp only [executeAll, execute_plain (hplain op List.mem_cons_self), ih]

/-- What is written without a conversion is copied or zeroed. -/
theorem Operation.within_of_writes {extent : Field → UInt64} {address : UInt64} (hplain : op.converts = false)
    (h : op.Writes target extent address) :
    (op.copies = true ∨ op.defaults = true) ∧ Within (target.address op.targetFieldIndex) op.auxiliary address := by
  obtain ⟨opcode, i, j, bytes⟩ := op
  cases opcode with
  | copyField | renameField => exact ⟨.inl rfl, h⟩
  | defaultField | addDefault => exact ⟨.inr rfl, h⟩
  | convertInt | convertFloat | callConverter => cases hplain
  | skipField | other => exact h.elim

/-- What operations without conversions make of the target does not depend on their order. -/
theorem Maps.unique {extent : Field → UInt64} (h : Maps source target converter extent ops s s')
    (h' : Maps source target converter extent ops' s s₁) (hperm : ops.Perm ops')
    (hplain : ∀ op ∈ ops, op.converts = false) : s' = s₁ := by
  refine Prod.ext ?_ (funext fun address => ?_)
  · exact (h.context hplain).trans (h'.context fun op hop => hplain op (hperm.mem_iff.mpr hop)).symm
  by_cases hout : ∀ op ∈ ops, ¬ op.Writes target extent address
  · exact (h.frame address hout).trans (h'.frame address fun op hop => hout op (hperm.mem_iff.mpr hop)).symm
  obtain ⟨op, hop, hwrites⟩ : ∃ op ∈ ops, op.Writes target extent address := by simpa using hout
  have hop' := hperm.mem_iff.mp hop
  obtain ⟨hkind, hwithin⟩ := Operation.within_of_writes (hplain op hop) hwrites
  have hthere : target.address op.targetFieldIndex + (address - target.address op.targetFieldIndex) = address := by
    rw [UInt64.add_comm, UInt64.sub_add_cancel]
  rw [← hthere]
  rcases hkind with hcopies | hdefaults
  · exact (h.copies op hop hcopies _ hwithin).2.trans (h'.copies op hop' hcopies _ hwithin).2.symm
  · exact (h.defaults op hop hdefaults _ hwithin).trans (h'.defaults op hop' hdefaults _ hwithin).symm

theorem Operation.Separate.symm {extent : Field → UInt64} {op op' : Operation} (h : op.Separate target extent op') :
    op'.Separate target extent op := fun address hw' hw => h address hw hw'

/-- A plan that is there ends well exactly when it is small enough, both layouts are valid and its
operations go well. -/
theorem apply_ok_iff {capacity : Nat} {plan : MapPlan capacity} :
    (plan.apply source target converter s).outcome = .done (.ok, s') ↔
      (plan.operations.data.isSome = true ∧ plan.operations.count.toNat ≤ capacity ∧ target.pointer ≠ 0 ∧
        source.pointer ≠ 0 ∧ source.validLayout = true ∧ target.validLayout = true) ∧
      (executeAll source target converter plan.operations.items s).outcome = .done (.ok, s') := by
  unfold MapPlan.apply
  split
  · rename_i hbad
    constructor
    · exact fun h => by cases h
    · rintro ⟨⟨hdata, hcount, htarget, hsource, -, -⟩, -⟩
      simp [htarget, hsource, Nat.not_lt.mpr hcount, Option.isSome_iff_ne_none.mp hdata] at hbad
  · rename_i hgood
    simp only [not_or, Option.isNone_iff_eq_none, Nat.not_lt] at hgood
    obtain ⟨hdata, hcount, htarget, hsource⟩ := hgood
    split
    · rename_i hlayouts
      constructor
      · exact fun h => by cases h
      · rintro ⟨⟨-, -, -, -, hs, ht⟩, -⟩
        exact absurd hlayouts (by simp [hs, ht])
    · rename_i hlayouts
      obtain ⟨hs, ht⟩ := not_or.mp hlayouts
      exact ⟨fun h => ⟨⟨Option.isSome_iff_ne_none.mpr hdata, hcount, htarget, hsource, not_not.mp hs,
        not_not.mp ht⟩, h⟩, And.right⟩

/-- Lists of the same operations end well together, at one memory. -/
theorem executeAll_perm (hapart : Apart source target) (hperm : ops.Perm ops')
    (hplain : ∀ op ∈ ops, op.converts = false) (hseparate : ops.Pairwise (Operation.Separate target fun _ => 0))
    (h : (executeAll source target converter ops s).outcome = .done (.ok, s')) :
    (executeAll source target converter ops' s).outcome = .done (.ok, s') := by
  have hfits : FieldsFit target fun _ => 0 := fun field _ hoffset => Nat.le_of_lt (UInt32.lt_iff_toNat_lt.mp hoffset)
  have hnone : ∀ convert ∈ (none : Option (Converter σ)), Confined target (fun _ => 0) convert := nofun
  have hplain' : ∀ op ∈ ops', op.converts = false := fun op hop => hplain op (hperm.mem_iff.mpr hop)
  have hseparate' := (hperm.pairwise_iff fun {_ _} => Operation.Separate.symm).mp hseparate
  rw [executeAll_plain hplain] at h
  rw [executeAll_plain hplain']
  have hvalid := (executeAll_ok_iff hplain).mp ⟨s', h⟩
  obtain ⟨s₁, h'⟩ : ∃ s', (executeAll source target (none : Option (Converter σ)) ops' s).outcome = .done (.ok, s') :=
    (executeAll_ok_iff hplain').mpr fun op hop => hvalid op (hperm.mem_iff.mpr hop)
  have hsame := (executeAll_maps hapart hfits hnone hseparate h).unique
    (executeAll_maps hapart hfits hnone hseparate' h') hperm hplain
  rw [hsame]
  exact h'

end Order

/-- Where no operation converts and they write apart from each other, two plans of the same operations in
different orders end well together, and then leave the same memory. -/
theorem order_of_operations_is_irrelevant {σ : Type} {capacity : Nat} (plan plan' : MapPlan capacity)
    (source target : Side) (converter : Option (Converter σ)) (s s' : σ × Memory) (hapart : Apart source target)
    (hperm : plan.operations.items.Perm plan'.operations.items)
    (hdata : plan.operations.data.isSome = plan'.operations.data.isSome)
    (hplain : ∀ op ∈ plan.operations.items, op.converts = false)
    (hseparate : plan.operations.items.Pairwise (Operation.Separate target fun _ => 0)) :
    (plan.apply source target converter s).outcome = .done (.ok, s') ↔
      (plan'.apply source target converter s).outcome = .done (.ok, s') := by
  have hplain' : ∀ op ∈ plan'.operations.items, op.converts = false := fun op hop => hplain op (hperm.mem_iff.mpr hop)
  have hseparate' := (hperm.pairwise_iff fun {_ _} => Operation.Separate.symm).mp hseparate
  have hlength (plan : MapPlan capacity) (h : plan.operations.data.isSome = true) :
      plan.operations.items.length = plan.operations.count.toNat := by
    apply plan.operations.items_length
    simp [Counted.isDangling, Option.isSome_iff_ne_none.mp h]
  have hcount (h : plan.operations.data.isSome = true) :
      plan.operations.count.toNat = plan'.operations.count.toNat := by
    rw [← hlength plan h, ← hlength plan' (hdata ▸ h), hperm.length_eq]
  rw [apply_ok_iff, apply_ok_iff]
  constructor
  · rintro ⟨⟨hsome, hfits, hrest⟩, h⟩
    exact ⟨⟨hdata ▸ hsome, hcount hsome ▸ hfits, hrest⟩, executeAll_perm hapart hperm hplain hseparate h⟩
  · rintro ⟨⟨hsome, hfits, hrest⟩, h⟩
    have hsome : plan.operations.data.isSome = true := hdata.trans hsome
    exact ⟨⟨hsome, (hcount hsome).symm ▸ hfits, hrest⟩, executeAll_perm hapart hperm.symm hplain' hseparate' h⟩

def copyAndDefault : MapPlan 64 :=
  ⟨Counted.ofList [⟨.copyField, 0, 0, 4⟩, ⟨.defaultField, 0, 1, 4⟩] (by decide)⟩

def defaultAndCopy : MapPlan 64 :=
  ⟨Counted.ofList [⟨.defaultField, 0, 1, 4⟩, ⟨.copyField, 0, 0, 4⟩] (by decide)⟩

theorem order_of_operations_is_irrelevant_swapped : ∃ s' : Unit × Memory,
    (copyAndDefault.apply (eightBytesAt 16) (eightBytesAt 32) none ((), fun a => a.toUInt8)).outcome =
      .done (.ok, s') ∧
    (defaultAndCopy.apply (eightBytesAt 16) (eightBytesAt 32) none ((), fun a => a.toUInt8)).outcome =
      .done (.ok, s') := by
  have hplain : ∀ op ∈ copyAndDefault.operations.items, op.converts = false := by decide
  have hseparate : copyAndDefault.operations.items.Pairwise (Operation.Separate (eightBytesAt 32) fun _ => 0) := by
    refine .cons (fun op hop address => ?_) (.cons (fun _ h => absurd h List.not_mem_nil) .nil)
    obtain rfl := List.mem_singleton.mp hop
    show address - 36 < 4 → ¬ address - 32 < 4
    lia
  exact ⟨_, rfl, (order_of_operations_is_irrelevant copyAndDefault defaultAndCopy _ _ none _ _ apart_eightBytes
    (.swap _ _ _) rfl hplain hseparate).mp rfl⟩

end Abix.Model

import Abix.Interface.Ref

/-! What a successful binding says about the slots that the contract checks. -/
namespace Abix.Interface
open Abix.Blocks Abix.Model
variable {Obj : Type}

/-- The first method at each checked slot is there and has the expected signature. -/
def FirstAgrees (methods : List InterfaceMethod) (expected : List InterfaceMethodHash) : Prop :=
  ∀ slot e, expected[slot]? = some e → e ≠ .zero →
    ∃ first, firstAt InterfaceMethod.cell methods slot = some first ∧ first.entry ≠ 0 ∧ first.signature = e

/-- The last method at each checked slot is there, and its entry is that of a method at the slot
with the expected signature. -/
def LastAgrees (methods : List InterfaceMethod) (expected : List InterfaceMethodHash) : Prop :=
  ∀ slot e, expected[slot]? = some e → e ≠ .zero →
    ∃ last, lastAt InterfaceMethod.cell methods slot = some last ∧ last.entry ≠ 0 ∧
      ∃ m ∈ methods, m.cell = slot ∧ m.signature = e ∧ m.entry = last.entry

def Fits (maxMethods : Nat) (methods : List InterfaceMethod) : Prop := ∀ m ∈ methods, m.cell < maxMethods

theorem highestSlot_isSome (maxMethods : Nat) (methods : List InterfaceMethod) (highest : UInt32) :
    (highestSlot maxMethods methods highest).isSome ↔ Fits maxMethods methods := by
  induction methods generalizing highest with
  | nil => simp [highestSlot, Fits]
  | cons m methods ih =>
    rw [highestSlot]
    split
    · rename_i hm
      simp [Fits, Nat.not_lt.mpr hm]
    · rename_i hm
      rw [ih]
      simp [Fits, Nat.lt_of_not_le hm]

theorem slotStatus_eq_none {methods : List InterfaceMethod} {e : InterfaceMethodHash} {slot : Nat} :
    slotStatus methods e slot = none ↔ e ≠ .zero →
      ∃ first, firstAt InterfaceMethod.cell methods slot = some first ∧ first.entry ≠ 0 ∧ first.signature = e := by
  rw [slotStatus]
  by_cases he : e = .zero
  · simp [he]
  · cases hfirst : firstAt InterfaceMethod.cell methods slot with
    | none => simp [he]
    | some first => by_cases hentry : first.entry = 0 <;> simp [he, hentry]

theorem checks_eq_none {methods : List InterfaceMethod} {expected : List InterfaceMethodHash} :
    (expected.zipIdx.findSome? fun (e, slot) => slotStatus methods e slot) = none ↔ FirstAgrees methods expected := by
  rw [List.findSome?_eq_none_iff]
  constructor
  · intro h slot e he
    exact slotStatus_eq_none.mp (h (e, slot) (List.mk_mem_zipIdx_iff_getElem?.mpr he))
  · rintro h ⟨e, slot⟩ he
    exact slotStatus_eq_none.mpr (h slot e (List.mk_mem_zipIdx_iff_getElem?.mp he))

/-- A table is accepted when it fits and its first methods agree. The last methods fill the cells. -/
theorem fillSlotEntries_eq_ok {maxMethods : Nat} {methods : List InterfaceMethod} {contract : Signatures maxMethods}
    {start entries : Nat → UInt64} {highest : UInt32}
    (h : fillSlotEntries maxMethods start methods contract = .ok (entries, highest)) :
    Fits maxMethods methods ∧ FirstAgrees methods contract.expected ∧
      entries = writeAll InterfaceMethod.cell InterfaceMethod.entry methods start := by
  simp only [fillSlotEntries] at h
  split at h
  · cases h
  · rename_i hhighest
    split at h
    · cases h
    · rename_i hchecks
      obtain ⟨rfl, -⟩ := Prod.mk.inj (Except.ok.inj h)
      exact ⟨(highestSlot_isSome _ _ _).mp (Option.isSome_of_eq_some hhighest), checks_eq_none.mp hchecks, rfl⟩

theorem exists_fillSlotEntries {maxMethods : Nat} {methods : List InterfaceMethod} {contract : Signatures maxMethods}
    (start : Nat → UInt64) (hfits : Fits maxMethods methods) (hfirst : FirstAgrees methods contract.expected) :
    ∃ r, fillSlotEntries maxMethods start methods contract = .ok r := by
  obtain ⟨highest, hhighest⟩ := Option.isSome_iff_exists.mp ((highestSlot_isSome maxMethods methods 0).mpr hfits)
  simp only [fillSlotEntries, hhighest, checks_eq_none.mpr hfirst]
  exact ⟨_, rfl⟩

/-- A finding about a checked slot is one of two. -/
theorem slotStatus_cases {methods : List InterfaceMethod} {e : InterfaceMethodHash} {slot : Nat}
    {status : InterfaceStatus} (h : slotStatus methods e slot = some status) :
    status = .methodNotFound ∨ status = .signatureMismatch := by
  simp only [slotStatus] at h
  split at h
  · cases h
  · split at h
    · exact .inl (Option.some.inj h).symm
    · split at h
      · exact .inl (Option.some.inj h).symm
      · split at h
        · exact .inr (Option.some.inj h).symm
        · cases h

/-- A refused table is refused for a slot without a cell, or for a finding about a checked slot. -/
theorem fillSlotEntries_error_cases {maxMethods : Nat} {methods : List InterfaceMethod}
    {contract : Signatures maxMethods} {start : Nat → UInt64} {status : InterfaceStatus}
    (h : fillSlotEntries maxMethods start methods contract = .error status) :
    status = .methodCapacityExceeded ∨ status = .methodNotFound ∨ status = .signatureMismatch := by
  simp only [fillSlotEntries] at h
  split at h
  · exact .inl (Except.error.inj h).symm
  · split at h
    · rename_i hchecks
      obtain ⟨⟨e, slot⟩, -, hslot⟩ := List.exists_of_findSome?_eq_some hchecks
      obtain rfl := Except.error.inj h
      exact .inr (slotStatus_cases hslot)
    · cases h

theorem fillSlotEntries_ne_error_ok {maxMethods : Nat} {methods : List InterfaceMethod}
    {contract : Signatures maxMethods} {start : Nat → UInt64} :
    fillSlotEntries maxMethods start methods contract ≠ .error .ok := by
  intro h
  rcases fillSlotEntries_error_cases h with hstatus | hstatus | hstatus <;> cases hstatus

/-- A table that repeats no slot has its first methods last. -/
theorem FirstAgrees.lastAgrees {methods : List InterfaceMethod} {expected : List InterfaceMethodHash}
    (hnodup : (methods.map InterfaceMethod.cell).Nodup) (h : FirstAgrees methods expected) :
    LastAgrees methods expected := by
  intro slot e he hne
  obtain ⟨first, hfirst, hentry, hsignature⟩ := h slot e he hne
  obtain ⟨hmem, hcell⟩ := of_firstAt hfirst
  exact ⟨first, (lastAt_eq_firstAt hnodup).trans hfirst, hentry, first, hmem, hcell, hsignature, rfl⟩

/-- A method table that is to be bound, by one of the four ways that check it against a contract. -/
inductive Request (Obj : Type) where
  | bind (traits : Traits) (proxy : UniqueInterfaceProxy Obj) (registry : InterfaceRegistry) (object : Option Obj)
      (concreteType : TypeId) (version : UInt32)
  | bindMethods (traits : Traits) (proxy : UniqueInterfaceProxy Obj) (interfaceId : InterfaceId) (version : UInt32)
      (methods : Counted InterfaceMethod) (object : Option Obj)
  | resolveMethods (maxMethods : Nat) (contract : Signatures maxMethods) (cache : InterfaceSlotCache Obj)
      (methods : Counted InterfaceMethod) (object : Option Obj)
  | build (maxMethods : Nat) (contract : Signatures maxMethods) (table : InterfaceSlotTable)
      (methods : Counted InterfaceMethod)

/-- What a caller sees of a binding: the status, and of each slot the entry and whether it is bound. -/
structure Binding where
  status : InterfaceStatus
  method : UInt32 → UInt64
  bound : UInt32 → Bool

namespace Request

def run : Request Obj → Binding
  | .bind traits proxy registry object concreteType version =>
    let r := proxy.bind traits registry object concreteType version
    ⟨r.2, r.1.method traits, r.1.ref.bound traits.slotCapacity⟩
  | .bindMethods traits proxy interfaceId version methods object =>
    let r := proxy.bindMethods traits interfaceId version methods object
    ⟨r.2, r.1.method traits, r.1.ref.bound traits.slotCapacity⟩
  | .resolveMethods maxMethods contract cache methods object =>
    let r := cache.resolveMethods maxMethods methods object contract
    ⟨r.2, r.1.method maxMethods, r.1.bound maxMethods⟩
  | .build maxMethods contract table methods =>
    let r := table.build maxMethods methods contract
    ⟨r.2, r.1.method maxMethods, r.1.bound maxMethods⟩

def capacity : Request Obj → Nat
  | .bind traits .. => traits.slotCapacity
  | .bindMethods traits .. => traits.slotCapacity
  | .resolveMethods maxMethods .. => maxMethods
  | .build maxMethods .. => maxMethods

def contract : (r : Request Obj) → Signatures r.capacity
  | .bind traits .. => traits.contract
  | .bindMethods traits .. => traits.contract
  | .resolveMethods _ contract .. => contract
  | .build _ contract .. => contract

def provided : Request Obj → Option (Counted InterfaceMethod)
  | .bind traits _ registry _ concreteType version =>
    (registry.find concreteType traits.id version).map InterfaceImplementation.methods
  | .bindMethods _ _ _ _ methods _ => some methods
  | .resolveMethods _ _ _ methods _ => some methods
  | .build _ _ _ methods => some methods

def methods (r : Request Obj) : List InterfaceMethod := (r.provided.map Counted.items).getD []

/-- There is an object where one is needed, and identity and version are those of the contract. -/
def wellAddressed : Request Obj → Prop
  | .bind _ _ _ object _ _ => object ≠ none
  | .bindMethods traits _ interfaceId version _ object =>
    interfaceId = traits.id ∧ version = traits.version ∧ object ≠ none
  | .resolveMethods _ _ _ _ object => object ≠ none
  | .build .. => True

def Admitted (r : Request Obj) : Prop := r.wellAddressed ∧ ∃ t, r.provided = some t ∧ t.isDangling = false

/-- Every checked slot is bound to a provided method with the expected signature; without success
no slot is bound. -/
def Checked (r : Request Obj) : Prop :=
  (r.run.status = .ok → ∀ slot e, r.contract.expected[slot.toNat]? = some e → e ≠ .zero →
    r.run.method slot ≠ 0 ∧
      ∃ m ∈ r.methods, m.slot = slot ∧ m.signature = e ∧ m.entry = r.run.method slot) ∧
  (r.run.status ≠ .ok → ∀ slot, r.run.bound slot = false)

/-- Whenever the table is admitted, fits, and is what the contract expects as far as the first
method at each checked slot goes, it is so as far as the last one goes. -/
def Agreed (r : Request Obj) : Prop :=
  r.Admitted → Fits r.capacity r.methods → FirstAgrees r.methods r.contract.expected →
    LastAgrees r.methods r.contract.expected

end Request

/-- What `resolve_methods` leaves: the filled cells of a readable table, or nothing. -/
theorem InterfaceSlotCache.resolveMethods_cases (maxMethods : Nat) (cache : InterfaceSlotCache Obj)
    (methods : Counted InterfaceMethod) (object : Option Obj) (contract : Signatures maxMethods) :
    (object ≠ none ∧ methods.isDangling = false ∧ ∃ entries highest,
      fillSlotEntries maxMethods (fun _ => 0) methods.items contract = .ok (entries, highest) ∧
        cache.resolveMethods maxMethods methods object contract = ({ object, methodCount := highest, entries }, .ok)) ∨
    ∃ status, status ≠ .ok ∧ cache.resolveMethods maxMethods methods object contract = ({}, status) ∧
      (object ≠ none → methods.isDangling = false →
        ∃ e, fillSlotEntries maxMethods (fun _ => 0) methods.items contract = .error e) := by
  simp only [resolveMethods, reset]
  split
  · rename_i hrefused
    refine .inr ⟨.invalidTable, nofun, rfl, fun hobject htable => ?_⟩
    rcases hrefused with hnone | hdangling
    · exact absurd hnone hobject
    · exact absurd hdangling (by simp [htable])
  · rename_i haccepted
    obtain ⟨hobject, htable⟩ := not_or.mp haccepted
    cases hfill : fillSlotEntries maxMethods (fun _ => 0) methods.items contract with
    | error status =>
      refine .inr ⟨status, fun hok => ?_, rfl, fun _ _ => ⟨status, rfl⟩⟩
      exact fillSlotEntries_ne_error_ok (hok ▸ hfill)
    | ok r => exact .inl ⟨hobject, by simpa using htable, r.1, r.2, rfl, rfl⟩

private theorem InterfaceSlotTable.build_cases (maxMethods : Nat) (table : InterfaceSlotTable)
    (methods : Counted InterfaceMethod) (contract : Signatures maxMethods) :
    (methods.isDangling = false ∧ ∃ entries highest,
      fillSlotEntries maxMethods (fun _ => 0) methods.items contract = .ok (entries, highest) ∧
        table.build maxMethods methods contract = ({ entries, methodCount := highest, ready := true }, .ok)) ∨
    ∃ status, status ≠ .ok ∧ table.build maxMethods methods contract = ({}, status) ∧
      (methods.isDangling = false →
        ∃ e, fillSlotEntries maxMethods (fun _ => 0) methods.items contract = .error e) := by
  simp only [build, reset]
  split
  · rename_i hdangling
    exact .inr ⟨.invalidTable, nofun, rfl, fun htable => absurd hdangling (by simp [htable])⟩
  · rename_i htable
    cases hfill : fillSlotEntries maxMethods (fun _ => 0) methods.items contract with
    | error status =>
      refine .inr ⟨status, fun hok => ?_, rfl, fun _ => ⟨status, rfl⟩⟩
      exact fillSlotEntries_ne_error_ok (hok ▸ hfill)
    | ok r => exact .inl ⟨by simpa using htable, r.1, r.2, rfl, rfl⟩

namespace Request

def read (capacity : Nat) (entries : Nat → UInt64) (slot : UInt32) : UInt64 :=
  if capacity ≤ slot.toNat ∨ entries slot.toNat = 0 then 0 else entries slot.toNat

/-- A request succeeds when its table is admitted and accepted, and what is read afterwards are the
cells that were filled. Otherwise nothing is bound. -/
def Settled (r : Request Obj) : Prop :=
  (r.Admitted ∧ r.run.status = .ok ∧ ∃ entries highest,
    fillSlotEntries r.capacity (fun _ => 0) r.methods r.contract = .ok (entries, highest) ∧
      r.run.method = read r.capacity entries) ∨
  (r.run.status ≠ .ok ∧ (∀ slot, r.run.bound slot = false) ∧
    (r.Admitted → ∃ e, fillSlotEntries r.capacity (fun _ => 0) r.methods r.contract = .error e))

private theorem settled_resolveMethods (maxMethods : Nat) (contract : Signatures maxMethods)
    (cache : InterfaceSlotCache Obj) (methods : Counted InterfaceMethod) (object : Option Obj) :
    (Request.resolveMethods maxMethods contract cache methods object).Settled := by
  rcases cache.resolveMethods_cases maxMethods methods object contract with
    ⟨hobject, htable, entries, highest, hfill, hrun⟩ | ⟨status, hstatus, hrun, hrefused⟩
  · refine .inl ⟨⟨hobject, methods, rfl, htable⟩, ?_, entries, highest, hfill, ?_⟩
    · simp only [run, hrun]
    · simp only [run, hrun]
      rfl
  · refine .inr ⟨?_, fun slot => ?_, ?_⟩
    · simpa only [run, hrun] using hstatus
    · simp [run, hrun, InterfaceSlotCache.bound]
    · rintro ⟨hobject, t, ht, htable⟩
      cases ht
      exact hrefused hobject htable

private theorem settled_build (maxMethods : Nat) (contract : Signatures maxMethods) (table : InterfaceSlotTable)
    (methods : Counted InterfaceMethod) : (Request.build maxMethods contract table methods : Request Obj).Settled := by
  rcases table.build_cases maxMethods methods contract with
    ⟨htable, entries, highest, hfill, hrun⟩ | ⟨status, hstatus, hrun, hrefused⟩
  · refine .inl ⟨⟨trivial, methods, rfl, htable⟩, ?_, entries, highest, hfill, ?_⟩
    · simp only [run, hrun]
    · simp only [run, hrun]
      rfl
  · refine .inr ⟨?_, fun slot => ?_, ?_⟩
    · simpa only [run, hrun] using hstatus
    · simp [run, hrun, InterfaceSlotTable.bound]
    · rintro ⟨-, t, ht, htable⟩
      cases ht
      exact hrefused htable

private theorem settled_of_refused {r : Request Obj} (status : InterfaceStatus) (hrun : r.run.status = status)
    (hbound : r.run.bound = fun _ => false) (hstatus : status ≠ .ok) (hnot : ¬ r.Admitted) : r.Settled :=
  .inr ⟨hrun ▸ hstatus, fun _ => by rw [hbound], fun h => absurd h hnot⟩

theorem bound_reset (maxMethods : Nat) (cache : InterfaceSlotCache Obj) :
    cache.reset.bound maxMethods = fun _ => false := by
  funext slot
  simp [InterfaceSlotCache.reset, InterfaceSlotCache.bound]

/-- A binding of the right identity and version is a binding of the table. -/
private theorem settled_bindMethods (traits : Traits) (proxy : UniqueInterfaceProxy Obj) (interfaceId : InterfaceId)
    (version : UInt32) (methods : Counted InterfaceMethod) (object : Option Obj) :
    (Request.bindMethods traits proxy interfaceId version methods object).Settled := by
  by_cases hid : interfaceId = traits.id
  · by_cases hversion : version = traits.version
    · subst hid hversion
      have hrun : (Request.bindMethods traits proxy traits.id traits.version methods object).run =
          (Request.resolveMethods traits.slotCapacity traits.contract proxy.ref methods object).run := by
        simp only [run, UniqueInterfaceProxy.bindMethods, ne_eq, not_true_eq_false, if_false]
        rfl
      rcases settled_resolveMethods traits.slotCapacity traits.contract proxy.ref methods object with
        ⟨⟨hobject, htable⟩, hstatus, hfill⟩ | ⟨hstatus, hbound, hrefused⟩
      · exact .inl ⟨⟨⟨rfl, rfl, hobject⟩, htable⟩, hrun ▸ hstatus, hrun ▸ hfill⟩
      · exact .inr ⟨hrun ▸ hstatus, hrun ▸ hbound, fun h => hrefused ⟨h.1.2.2, h.2⟩⟩
    · refine settled_of_refused .versionMismatch ?_ ?_ nofun fun h => hversion h.1.2.1
      · simp [run, UniqueInterfaceProxy.bindMethods, hid, hversion]
      · simp [run, UniqueInterfaceProxy.bindMethods, hid, hversion, bound_reset]
  · refine settled_of_refused .interfaceNotFound ?_ ?_ nofun fun h => hid h.1.1
    · simp [run, UniqueInterfaceProxy.bindMethods, hid]
    · simp [run, UniqueInterfaceProxy.bindMethods, hid, bound_reset]

/-- A binding through a registry is a binding of the table that the registry finds. -/
private theorem settled_bind (traits : Traits) (proxy : UniqueInterfaceProxy Obj) (registry : InterfaceRegistry)
    (object : Option Obj) (concreteType : TypeId) (version : UInt32) :
    (Request.bind traits proxy registry object concreteType version).Settled := by
  cases object with
  | none =>
    refine settled_of_refused .invalidTable ?_ ?_ nofun fun h => h.1 rfl
    · simp [run, UniqueInterfaceProxy.bind, InterfaceSlotCache.resolve]
    · simp [run, UniqueInterfaceProxy.bind, InterfaceSlotCache.resolve, bound_reset]
  | some o =>
    cases hfind : registry.find concreteType traits.id version with
    | none =>
      have hnot : ¬ (Request.bind traits proxy registry (some o) concreteType version).Admitted := by
        rintro ⟨-, t, ht, -⟩
        simp [provided, hfind] at ht
      by_cases havailable : (registry.available concreteType traits.id).isSome
      · refine settled_of_refused .versionMismatch ?_ ?_ nofun hnot
        · simp [run, UniqueInterfaceProxy.bind, InterfaceSlotCache.resolve, hfind, havailable]
        · simp [run, UniqueInterfaceProxy.bind, InterfaceSlotCache.resolve, hfind, havailable, bound_reset]
      · refine settled_of_refused .interfaceNotFound ?_ ?_ nofun hnot
        · simp [run, UniqueInterfaceProxy.bind, InterfaceSlotCache.resolve, hfind, havailable]
        · simp [run, UniqueInterfaceProxy.bind, InterfaceSlotCache.resolve, hfind, havailable, bound_reset]
    | some impl =>
      have hrun : (Request.bind traits proxy registry (some o) concreteType version).run =
          (Request.resolveMethods traits.slotCapacity traits.contract proxy.ref impl.methods (some o)).run := by
        simp only [run, UniqueInterfaceProxy.bind, InterfaceSlotCache.resolve, hfind, reduceCtorEq, if_false]
        rfl
      have hprovided : (Request.bind traits proxy registry (some o) concreteType version).provided =
          some impl.methods := by
        simp [provided, hfind]
      have hmethods : (Request.bind traits proxy registry (some o) concreteType version).methods =
          impl.methods.items := by
        simp [methods, hprovided]
      rcases settled_resolveMethods traits.slotCapacity traits.contract proxy.ref impl.methods (some o) with
        ⟨⟨hsome, htable⟩, hstatus, hfill⟩ | ⟨hstatus, hbound, hrefused⟩
      · exact .inl ⟨⟨hsome, by rwa [hprovided]⟩, hrun ▸ hstatus, by rw [hmethods, hrun]; exact hfill⟩
      · refine .inr ⟨hrun ▸ hstatus, hrun ▸ hbound, ?_⟩
        rintro ⟨hsome, t, ht, htable⟩
        rw [hmethods]
        exact hrefused ⟨hsome, t, hprovided.symm.trans ht, htable⟩

private theorem settled (r : Request Obj) : r.Settled := by
  cases r with
  | bind => exact settled_bind ..
  | bindMethods => exact settled_bindMethods ..
  | resolveMethods => exact settled_resolveMethods ..
  | build => exact settled_build ..

/-- A filled cell reads as the entry of its last method. -/
theorem read_writeAll {capacity : Nat} {methods : List InterfaceMethod} {slot : UInt32} {last : InterfaceMethod}
    (hfits : Fits capacity methods) (hlast : lastAt InterfaceMethod.cell methods slot.toNat = some last) :
    read capacity (writeAll InterfaceMethod.cell InterfaceMethod.entry methods fun _ => 0) slot = last.entry := by
  obtain ⟨hmem, hcell⟩ := of_lastAt hlast
  have hlt : slot.toNat < capacity := hcell ▸ hfits last hmem
  rw [read, writeAll_apply, hlast]
  by_cases hentry : last.entry = 0 <;> simp [hentry, Nat.not_le.mpr hlt]

/-- A binding has checked what it bound exactly for the tables on which the first and the last
method at a checked slot agree. -/
theorem checked_iff_agreed (r : Request Obj) : r.Checked ↔ r.Agreed := by
  rcases r.settled with ⟨hadmitted, hok, entries, highest, hfill, hmethod⟩ | ⟨hnot, hbound, hrefused⟩
  · obtain ⟨hfits, hfirst, rfl⟩ := fillSlotEntries_eq_ok hfill
    constructor
    · intro h _ _ _ slot e he hne
      obtain ⟨first, hat, -, -⟩ := hfirst slot e he hne
      obtain ⟨last, hlast⟩ := exists_lastAt hat
      obtain ⟨-, rfl⟩ := of_firstAt hat
      obtain ⟨hentry, m, hm, hslot, hsignature, hm_entry⟩ := h.1 hok first.slot e he hne
      have hread : read r.capacity _ first.slot = last.entry := read_writeAll hfits hlast
      rw [hmethod, hread] at hentry hm_entry
      exact ⟨last, hlast, hentry, m, hm, congrArg UInt32.toNat hslot, hsignature, hm_entry⟩
    · intro h
      refine ⟨fun _ slot e he hne => ?_, fun hnot => absurd hok hnot⟩
      obtain ⟨last, hlast, hentry, m, hm, hcell, hsignature, hm_entry⟩ :=
        h hadmitted hfits hfirst slot.toNat e he hne
      have hread := read_writeAll hfits hlast
      rw [hmethod, hread]
      exact ⟨hentry, m, hm, UInt32.toNat_inj.mp hcell, hsignature, hm_entry⟩
  · refine ⟨fun _ hadmitted hfits hfirst => ?_, fun _ => ⟨fun hok => absurd hok hnot, fun _ => hbound⟩⟩
    obtain ⟨e, herror⟩ := hrefused hadmitted
    obtain ⟨filled, hfilled⟩ := exists_fillSlotEntries (fun _ => 0) hfits hfirst
    rw [hfilled] at herror
    cases herror

/-- A registered table with two methods at slot 0. The first has the signature that the contract
expects, the second does not. -/
def repeatedSlot : Request Unit :=
  .bind ⟨⟨1, 1⟩, 1, [⟨3, 3⟩]⟩ {}
    (InterfaceRegistry.add 64 []
      ⟨⟨1, 1⟩, ⟨2, 2⟩, .ofList [⟨⟨3, 3⟩, 16, 0⟩, ⟨⟨4, 4⟩, 32, 0⟩] (by decide), 1⟩).1
    (some ()) ⟨2, 2⟩ 1

/-- The binding succeeds, and a call through slot 0 runs the second method. -/
theorem repeatedSlot_not_checked :
    repeatedSlot.run.status = .ok ∧ repeatedSlot.run.method 0 = 32 ∧ ¬ repeatedSlot.Checked := by
  have hok : repeatedSlot.run.status = .ok := by decide
  refine ⟨hok, by decide, fun h => ?_⟩
  obtain ⟨-, m, hm, -, hsignature, hentry⟩ := h.1 hok 0 ⟨3, 3⟩ rfl (by decide)
  have hnone : ∀ m ∈ repeatedSlot.methods, m.signature = ⟨3, 3⟩ → m.entry ≠ repeatedSlot.run.method 0 := by decide
  exact hnone m hm hsignature hentry

/-- The tables of an accepted manifest repeat no slot, so what they bind has been checked. -/
theorem checked_of_validateManifest {manifest : ModuleManifest} {entry : InterfaceManifestEntry}
    (hvalid : validateManifest (some manifest) = .ok) (hentry : entry ∈ manifest.interfaces.items) {r : Request Obj}
    (hr : r.methods = entry.methods.items) : r.Checked := by
  refine r.checked_iff_agreed.mpr fun _ _ hfirst => hfirst.lastAgrees ?_
  have hslots := slots_nodup_of_validateManifest hvalid hentry
  rw [hr, show InterfaceMethod.cell = UInt32.toNat ∘ InterfaceMethod.slot from rfl, ← List.map_map]
  exact hslots.map fun _ _ => UInt32.toNat_inj.mp

end Request

end Abix.Interface

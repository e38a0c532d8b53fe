import Abix.Interface.BoundSlots

/-! The two proxy classes: entries of their own beside the object, or an object and a table that
proxies share. -/
namespace Abix.Interface
open Abix.Blocks Abix.Model
variable {Obj Addr : Type}

/-- `call_checked` runs an adapter on the object handle and answers ok, or it answers why not. -/
inductive CheckedCall (Obj : Type) where
  | invoked (entry : UInt64) (object : Option Obj)
  | refused (status : InterfaceStatus)
  deriving DecidableEq

namespace UniqueInterfaceProxy

def valid (proxy : UniqueInterfaceProxy Obj) : Bool := proxy.status = .ok ∧ proxy.ref.valid

def callChecked (traits : Traits) (proxy : UniqueInterfaceProxy Obj) (slot : UInt32) : CheckedCall Obj :=
  let fn := proxy.method traits slot
  if fn = 0 then .refused .methodNotFound else .invoked fn proxy.ref.object

end UniqueInterfaceProxy

def makeSharedSlotTable (traits : Traits) (table : InterfaceSlotTable) (registry : InterfaceRegistry)
    (concreteType : TypeId) (version : UInt32) : InterfaceSlotTable × InterfaceStatus :=
  match registry.find concreteType traits.id version with
  | none =>
    if (registry.available concreteType traits.id).isSome then (table.clear, .versionMismatch)
    else (table.clear, .interfaceNotFound)
  | some impl => table.build traits.slotCapacity impl.methods traits.contract

abbrev SlotTables (Addr : Type) := Addr → InterfaceSlotTable

structure SharedInterfaceProxy (Obj Addr : Type) where
  object : Option Obj := none
  table : Option Addr := none
  status : InterfaceStatus := .interfaceNotFound

namespace SharedInterfaceProxy

/-- `bind` to a table as it is. Object and table are kept whatever the status. -/
def bindTable (tables : SlotTables Addr) (_proxy : SharedInterfaceProxy Obj Addr) (table : Addr)
    (object : Option Obj) : SharedInterfaceProxy Obj Addr × InterfaceStatus :=
  let status := if object ≠ none ∧ (tables table).valid then InterfaceStatus.ok else .invalidTable
  ({ object, table := some table, status }, status)

/-- `bind` through the registry, which fills the table first. -/
def bind [DecidableEq Addr] (traits : Traits) (tables : SlotTables Addr) (proxy : SharedInterfaceProxy Obj Addr)
    (registry : InterfaceRegistry) (object : Option Obj) (concreteType : TypeId) (table : Addr) (version : UInt32) :
    SlotTables Addr × SharedInterfaceProxy Obj Addr × InterfaceStatus :=
  let made := makeSharedSlotTable traits (tables table) registry concreteType version
  let tables := Function.update tables table made.1
  let cleared : SharedInterfaceProxy Obj Addr := { proxy with object := none, table := none, status := made.2 }
  if made.2 ≠ .ok then (tables, cleared, made.2) else (tables, cleared.bindTable tables table object)

def valid (tables : SlotTables Addr) (proxy : SharedInterfaceProxy Obj Addr) : Bool :=
  proxy.status = .ok ∧ proxy.object.isSome ∧ proxy.table.any fun table => (tables table).valid

def verify (traits : Traits) (tables : SlotTables Addr) (proxy : SharedInterfaceProxy Obj Addr) (slot : UInt32) :
    InterfaceStatus :=
  if proxy.table.any fun table => (tables table).bound traits.slotCapacity slot then .ok else .methodNotFound

def method (traits : Traits) (tables : SlotTables Addr) (proxy : SharedInterfaceProxy Obj Addr) (slot : UInt32) :
    UInt64 :=
  match proxy.table with
  | none => 0
  | some table => (tables table).method traits.slotCapacity slot

def callChecked (traits : Traits) (tables : SlotTables Addr) (proxy : SharedInterfaceProxy Obj Addr)
    (slot : UInt32) : CheckedCall Obj :=
  let fn := proxy.method traits tables slot
  if fn = 0 then .refused .methodNotFound else .invoked fn proxy.object

end SharedInterfaceProxy

/-- A caller cannot tell the proxies apart, and neither runs an adapter without an object or after a
binding that failed. -/
structure ProxiesAgree (traits : Traits) (unique : UniqueInterfaceProxy Obj) (tables : SlotTables Addr)
    (shared : SharedInterfaceProxy Obj Addr) : Prop where
  status : unique.status = shared.status
  valid : unique.valid = shared.valid tables
  verify : ∀ slot, unique.verify traits slot = shared.verify traits tables slot
  call : ∀ slot, unique.callChecked traits slot = shared.callChecked traits tables slot
  guarded : ∀ slot entry object, unique.callChecked traits slot = .invoked entry object →
    object ≠ none ∧ unique.status = .ok
  sharedGuarded : ∀ slot entry object, shared.callChecked traits tables slot = .invoked entry object →
    object ≠ none ∧ shared.status = .ok

def Provides (traits : Traits) (registry : InterfaceRegistry) (concreteType : TypeId) (version : UInt32)
    (methods : Counted InterfaceMethod) : Prop :=
  ∃ impl, registry.find concreteType traits.id version = some impl ∧ impl.methods = methods

theorem Provides.unique {traits : Traits} {registry : InterfaceRegistry} {concreteType : TypeId} {version : UInt32}
    {methods methods' : Counted InterfaceMethod} (h : Provides traits registry concreteType version methods)
    (h' : Provides traits registry concreteType version methods') : methods = methods' := by
  obtain ⟨impl, hfind, rfl⟩ := h
  obtain ⟨other, hother, rfl⟩ := h'
  cases hfind.symm.trans hother
  rfl

/-- The table passes the checks of a binding, and yet no slot is bound: the last method at each is
a zero entry. -/
def BindsNothing (traits : Traits) (methods : Counted InterfaceMethod) : Prop :=
  Fits traits.slotCapacity methods.items ∧ FirstAgrees methods.items traits.signatures ∧
    ∀ slot last, lastAt InterfaceMethod.cell methods.items slot = some last → last.entry = 0

/-- Where the registry finds nothing, both bindings fail, and not because of the table. -/
theorem bind_of_none {traits : Traits} {registry : InterfaceRegistry} {concreteType : TypeId} {version : UInt32}
    (hfind : registry.find concreteType traits.id version = none) (unique : UniqueInterfaceProxy Obj)
    (table : InterfaceSlotTable) :
    ∃ status, status ≠ .ok ∧ status ≠ .invalidTable ∧
      makeSharedSlotTable traits table registry concreteType version = ({}, status) ∧
      ∀ o, unique.bind traits registry (some o) concreteType version = ({ ref := {}, status }, status) := by
  by_cases havailable : (registry.available concreteType traits.id).isSome
  · refine ⟨.versionMismatch, by decide, by decide, ?_, fun o => ?_⟩
    · simp [makeSharedSlotTable, hfind, havailable, InterfaceSlotTable.clear, InterfaceSlotTable.reset]
    · simp [UniqueInterfaceProxy.bind, InterfaceSlotCache.resolve, hfind, havailable, InterfaceSlotCache.reset]
  · refine ⟨.interfaceNotFound, by decide, by decide, ?_, fun o => ?_⟩
    · simp [makeSharedSlotTable, hfind, havailable, InterfaceSlotTable.clear, InterfaceSlotTable.reset]
    · simp [UniqueInterfaceProxy.bind, InterfaceSlotCache.resolve, hfind, havailable, InterfaceSlotCache.reset]

/-- Both bindings read the same table, so one fills its cells when the other does. -/
theorem bind_cases (traits : Traits) (unique : UniqueInterfaceProxy Obj)
    (table : InterfaceSlotTable) (registry : InterfaceRegistry) (concreteType : TypeId) (version : UInt32) :
    (∃ methods entries highest, Provides traits registry concreteType version methods ∧
      methods.isDangling = false ∧
      fillSlotEntries traits.slotCapacity (fun _ => 0) methods.items traits.contract = .ok (entries, highest) ∧
      makeSharedSlotTable traits table registry concreteType version =
        ({ entries, methodCount := highest, ready := true }, .ok) ∧
      ∀ o, unique.bind traits registry (some o) concreteType version =
        ({ ref := { object := some o, methodCount := highest, entries }, status := .ok }, .ok)) ∨
    ∃ status, status ≠ .ok ∧ makeSharedSlotTable traits table registry concreteType version = ({}, status) ∧
      (status = .invalidTable ↔
        ∃ methods, Provides traits registry concreteType version methods ∧ methods.isDangling = true) ∧
      (∀ methods, Provides traits registry concreteType version methods → methods.isDangling = false →
        ∃ e, fillSlotEntries traits.slotCapacity (fun _ => 0) methods.items traits.contract = .error e) ∧
      ∀ o, unique.bind traits registry (some o) concreteType version = ({ ref := {}, status }, status) := by
  cases hfind : registry.find concreteType traits.id version with
  | none =>
    have hno : ∀ methods, ¬ Provides traits registry concreteType version methods := by
      rintro methods ⟨impl, himpl, -⟩
      rw [hfind] at himpl
      cases himpl
    obtain ⟨status, hok, hother, hmake, hbind⟩ := bind_of_none hfind unique table
    exact .inr ⟨status, hok, hmake, iff_of_false hother fun ⟨_, h, _⟩ => hno _ h, fun _ h => absurd h (hno _),
      hbind⟩
  | some impl =>
    have hprovides : Provides traits registry concreteType version impl.methods := ⟨impl, hfind, rfl⟩
    have hmake : makeSharedSlotTable traits table registry concreteType version =
        table.build traits.slotCapacity impl.methods traits.contract := by
      simp [makeSharedSlotTable, hfind]
    have hbind : ∀ o, unique.bind traits registry (some o) concreteType version =
        let r := unique.ref.resolveMethods traits.slotCapacity impl.methods (some o) traits.contract
        ({ ref := r.1, status := r.2 }, r.2) := fun o => by
      simp [UniqueInterfaceProxy.bind, InterfaceSlotCache.resolve, hfind]
    by_cases hdangling : impl.methods.isDangling
    · refine .inr ⟨.invalidTable, by decide, ?_, ⟨fun _ => ⟨_, hprovides, hdangling⟩, fun _ => rfl⟩, ?_, fun o => ?_⟩
      · simp [hmake, InterfaceSlotTable.build, hdangling, InterfaceSlotTable.reset]
      · intro methods h hreadable
        cases hprovides.unique h
        cases hdangling.symm.trans hreadable
      · simp [hbind, InterfaceSlotCache.resolveMethods, hdangling, InterfaceSlotCache.reset]
    · cases hfill : fillSlotEntries traits.slotCapacity (fun _ => 0) impl.methods.items traits.contract with
      | ok filled =>
        refine .inl ⟨impl.methods, filled.1, filled.2, hprovides, by simpa using hdangling, hfill, ?_, fun o => ?_⟩
        · simp [hmake, InterfaceSlotTable.build, hdangling, InterfaceSlotTable.reset, hfill]
        · simp [hbind, InterfaceSlotCache.resolveMethods, hdangling, InterfaceSlotCache.reset, hfill]
      | error status =>
        refine .inr ⟨status, fun hok => fillSlotEntries_ne_error_ok (hok ▸ hfill), ?_, ⟨fun h => ?_, ?_⟩, ?_,
          fun o => ?_⟩
        · simp [hmake, InterfaceSlotTable.build, hdangling, InterfaceSlotTable.reset, hfill]
        · rcases fillSlotEntries_error_cases hfill with hstatus | hstatus | hstatus <;> cases h.symm.trans hstatus
        · rintro ⟨methods, h, hmethods⟩
          cases hprovides.unique h
          exact absurd hmethods hdangling
        · intro methods h _
          cases hprovides.unique h
          exact ⟨status, hfill⟩
        · simp [hbind, InterfaceSlotCache.resolveMethods, hdangling, InterfaceSlotCache.reset, hfill]

/-- Without an object the exclusive proxy refuses before it looks anything up. -/
theorem UniqueInterfaceProxy.bind_null (traits : Traits) (unique : UniqueInterfaceProxy Obj)
    (registry : InterfaceRegistry) (concreteType : TypeId) (version : UInt32) :
    unique.bind traits registry none concreteType version =
      ({ ref := {}, status := .invalidTable }, .invalidTable) := by
  simp [UniqueInterfaceProxy.bind, InterfaceSlotCache.resolve, InterfaceSlotCache.reset]

section Bound
variable {traits : Traits} {tables : SlotTables Addr} {unique : UniqueInterfaceProxy Obj}
  {shared : SharedInterfaceProxy Obj Addr} {registry : InterfaceRegistry} {object : Option Obj} {concreteType : TypeId}
  {table : Addr} {version : UInt32} {slot : UInt32} {entry : UInt64} {entries : Nat → UInt64} {highest : UInt32}

theorem UniqueInterfaceProxy.of_invoked (h : unique.callChecked traits slot = .invoked entry object) :
    unique.method traits slot ≠ 0 ∧ unique.ref.object = object := by
  simp only [callChecked] at h
  split at h
  · cases h
  · rename_i hmethod
    exact ⟨hmethod, (CheckedCall.invoked.inj h).2⟩

theorem SharedInterfaceProxy.of_invoked (h : shared.callChecked traits tables slot = .invoked entry object) :
    shared.method traits tables slot ≠ 0 ∧ shared.object = object := by
  simp only [callChecked] at h
  split at h
  · cases h
  · rename_i hmethod
    exact ⟨hmethod, (CheckedCall.invoked.inj h).2⟩

private theorem SharedInterfaceProxy.bind_of_refused [DecidableEq Addr] {made : InterfaceSlotTable} {status : InterfaceStatus}
    (hmake : makeSharedSlotTable traits (tables table) registry concreteType version = (made, status))
    (hstatus : status ≠ .ok) :
    shared.bind traits tables registry object concreteType table version =
      (Function.update tables table made, { object := none, table := none, status }, status) := by
  simp [SharedInterfaceProxy.bind, hmake, hstatus]

private theorem SharedInterfaceProxy.bind_of_made [DecidableEq Addr] {made : InterfaceSlotTable}
    (hmake : makeSharedSlotTable traits (tables table) registry concreteType version = (made, .ok))
    (hready : made.ready = true) :
    shared.bind traits tables registry object concreteType table version =
      (Function.update tables table made,
        { object, table := some table, status := if object = none then .invalidTable else .ok },
        if object = none then .invalidTable else .ok) := by
  by_cases hobject : object = none <;>
    simp [SharedInterfaceProxy.bind, hmake, SharedInterfaceProxy.bindTable, InterfaceSlotTable.valid, hready, hobject]

/-- Proxies with one status and nothing to run agree. -/
theorem proxiesAgree_of_unbound {status : InterfaceStatus} (hobject : shared.object = none)
    (hshared : shared.status = status) (hbound : ∀ slot, shared.verify traits tables slot = .methodNotFound)
    (hmethod : ∀ slot, shared.method traits tables slot = 0) :
    ProxiesAgree traits { ref := {}, status } tables shared where
  status := hshared.symm
  valid := by simp [UniqueInterfaceProxy.valid, SharedInterfaceProxy.valid, InterfaceSlotCache.valid, hobject]
  verify slot := by
    rw [hbound]
    simp [UniqueInterfaceProxy.verify, InterfaceSlotCache.bound]
  call slot := by
    simp [UniqueInterfaceProxy.callChecked, UniqueInterfaceProxy.method, InterfaceSlotCache.method,
      SharedInterfaceProxy.callChecked, hmethod]
  guarded slot entry object h := by
    simp [UniqueInterfaceProxy.callChecked, UniqueInterfaceProxy.method, InterfaceSlotCache.method] at h
  sharedGuarded slot entry object h := absurd (hmethod slot) (SharedInterfaceProxy.of_invoked h).1

/-- Proxies over the same filled cells agree when they have an object. -/
theorem proxiesAgree_of_made (o : Obj) (htable : tables table = { entries, methodCount := highest, ready := true }) :
    ProxiesAgree traits { ref := { object := some o, methodCount := highest, entries }, status := .ok } tables
      { object := some o, table := some table, status := .ok } where
  status := rfl
  valid := by
    simp [UniqueInterfaceProxy.valid, SharedInterfaceProxy.valid, InterfaceSlotCache.valid, InterfaceSlotTable.valid,
      htable]
  verify slot := by
    by_cases hcell : slot.toNat < traits.slotCapacity
    · simp [UniqueInterfaceProxy.verify, SharedInterfaceProxy.verify, InterfaceSlotCache.bound,
        InterfaceSlotTable.bound, htable, hcell, Nat.not_le.mpr hcell]
    · simp [UniqueInterfaceProxy.verify, SharedInterfaceProxy.verify, InterfaceSlotTable.bound, hcell,
        Nat.not_lt.mp hcell]
  call slot := by
    simp [UniqueInterfaceProxy.callChecked, UniqueInterfaceProxy.method, InterfaceSlotCache.method,
      SharedInterfaceProxy.callChecked, SharedInterfaceProxy.method, InterfaceSlotTable.method, htable]
  guarded slot entry object h := by
    obtain ⟨-, rfl⟩ := UniqueInterfaceProxy.of_invoked h
    exact ⟨Option.some_ne_none o, rfl⟩
  sharedGuarded slot entry object h := by
    obtain ⟨-, rfl⟩ := SharedInterfaceProxy.of_invoked h
    exact ⟨Option.some_ne_none o, rfl⟩

/-- The cells that a table fills are all zero when the last method at every slot is a zero entry. -/
theorem entries_eq_zero {methods : List InterfaceMethod} :
    (∀ k, writeAll InterfaceMethod.cell InterfaceMethod.entry methods (fun _ => 0) k = 0) ↔
      ∀ k last, lastAt InterfaceMethod.cell methods k = some last → last.entry = 0 := by
  refine forall_congr' fun k => ?_
  rw [writeAll_apply]
  cases lastAt InterfaceMethod.cell methods k <;> simp

/-- The proxies agree exactly when there is an object, or the registered table cannot be read, or
it would bind nothing. -/
theorem shared_proxy_agrees_iff [DecidableEq Addr] (traits : Traits) (unique : UniqueInterfaceProxy Obj)
    (tables : SlotTables Addr) (shared : SharedInterfaceProxy Obj Addr) (registry : InterfaceRegistry)
    (object : Option Obj) (concreteType : TypeId) (table : Addr) (version : UInt32) :
    ProxiesAgree traits (unique.bind traits registry object concreteType version).1
        (shared.bind traits tables registry object concreteType table version).1
        (shared.bind traits tables registry object concreteType table version).2.1 ↔
      object ≠ none ∨ ∃ methods, Provides traits registry concreteType version methods ∧
        (methods.isDangling = true ∨ BindsNothing traits methods) := by
  rcases bind_cases traits unique (tables table) registry concreteType version with
    ⟨methods, entries, highest, hprovides, hreadable, hfill, hmake, hunique⟩ |
    ⟨status, hstatus, hmake, hinvalid, hrefused, hunique⟩
  · rw [SharedInterfaceProxy.bind_of_made hmake rfl]
    cases object with
    | some o =>
      rw [hunique o]
      exact iff_of_true (proxiesAgree_of_made o (Function.update_self ..)) (.inl nofun)
    | none =>
      obtain ⟨hfits, hfirst, rfl⟩ := fillSlotEntries_eq_ok hfill
      rw [unique.bind_null]
      constructor
      · intro h
        refine .inr ⟨methods, hprovides, .inr ⟨hfits, hfirst, fun k last hlast => ?_⟩⟩
        obtain ⟨hmem, rfl⟩ := of_lastAt hlast
        -- The exclusive proxy refuses the slot, so the shared table must hold zero there.
        have hrefused := (h.call last.slot).symm
        by_contra hentry
        have hfilled :
            writeAll InterfaceMethod.cell InterfaceMethod.entry methods.items (fun _ => 0) last.slot.toNat ≠ 0 := by
          rw [writeAll_apply, show last.slot.toNat = last.cell from rfl, hlast]
          exact hentry
        have hcell : last.slot.toNat < traits.slotCapacity := hfits last hmem
        simp [SharedInterfaceProxy.callChecked, SharedInterfaceProxy.method, InterfaceSlotTable.method,
          UniqueInterfaceProxy.callChecked, UniqueInterfaceProxy.method, InterfaceSlotCache.method, hfilled,
          Nat.not_le.mpr hcell] at hrefused
      · rintro (hobject | ⟨other, hother, hdangling | ⟨-, -, hzero⟩⟩)
        · exact absurd rfl hobject
        · cases hprovides.unique hother
          cases hdangling.symm.trans hreadable
        · cases hprovides.unique hother
          have hcells := entries_eq_zero.mpr hzero
          refine proxiesAgree_of_unbound rfl rfl (fun slot => ?_) fun slot => ?_
          · simp [SharedInterfaceProxy.verify, InterfaceSlotTable.bound, hcells]
          · simp [SharedInterfaceProxy.method, InterfaceSlotTable.method, hcells]
  · rw [SharedInterfaceProxy.bind_of_refused hmake hstatus]
    cases object with
    | some o =>
      rw [hunique o]
      exact iff_of_true (proxiesAgree_of_unbound rfl rfl (fun _ => rfl) fun _ => rfl) (.inl nofun)
    | none =>
      rw [unique.bind_null]
      constructor
      · intro h
        obtain ⟨methods, hprovides, hdangling⟩ := hinvalid.mp h.status.symm
        exact .inr ⟨methods, hprovides, .inl hdangling⟩
      · rintro (hobject | ⟨methods, hprovides, h⟩)
        · exact absurd rfl hobject
        · have hdangling : methods.isDangling = true := by
            rcases h with hdangling | ⟨hfits, hfirst, -⟩
            · exact hdangling
            · by_contra hreadable
              obtain ⟨e, herror⟩ := hrefused methods hprovides (by simpa using hreadable)
              have hexpected : FirstAgrees methods.items traits.contract.expected := hfirst
              obtain ⟨filled, hfilled⟩ := exists_fillSlotEntries (fun _ => 0) hfits hexpected
              cases hfilled.symm.trans herror
          obtain rfl := hinvalid.mpr ⟨methods, hprovides, hdangling⟩
          exact proxiesAgree_of_unbound rfl rfl (fun _ => rfl) fun _ => rfl

end Bound

def oneSlot : Traits := ⟨⟨1, 1⟩, 1, [⟨3, 3⟩]⟩

def oneMethod : InterfaceRegistry :=
  (InterfaceRegistry.add 64 [] ⟨⟨1, 1⟩, ⟨2, 2⟩, .ofList [⟨⟨3, 3⟩, 16, 0⟩] (by decide), 1⟩).1

def nullShared : SlotTables Unit × SharedInterfaceProxy Unit Unit × InterfaceStatus :=
  SharedInterfaceProxy.bind oneSlot (fun _ => {}) {} oneMethod none ⟨2, 2⟩ () 1

def nullUnique : UniqueInterfaceProxy Unit × InterfaceStatus :=
  UniqueInterfaceProxy.bind oneSlot {} oneMethod none ⟨2, 2⟩ 1

/-- Both bindings fail, and only the shared proxy goes on to run the adapter, on a null object. -/
theorem null_object_is_invoked :
    nullShared.2.2 = .invalidTable ∧ nullUnique.2 = .invalidTable ∧
      nullUnique.1.callChecked oneSlot 0 = .refused .methodNotFound ∧
      nullShared.2.1.callChecked oneSlot nullShared.1 0 = .invoked 16 none ∧
      ¬ ProxiesAgree oneSlot nullUnique.1 nullShared.1 nullShared.2.1 := by
  have hinvoked : nullShared.2.1.callChecked oneSlot nullShared.1 0 = .invoked 16 none := by decide
  refine ⟨by decide, by decide, by decide, hinvoked, fun h => ?_⟩
  exact (h.sharedGuarded 0 16 none hinvoked).1 rfl

end Abix.Interface

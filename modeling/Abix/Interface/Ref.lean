import Abix.Blocks.Keyed
import Abix.Interface.Registry

/-! Binding: a provider's method table is checked against the contract, and the entries of its
methods go to the cells of their slots. The signatures are not kept. -/
namespace Abix.Interface
open Abix.Blocks Abix.Model
variable {Obj : Type}

/-- The signature that a contract expects at each slot, zero for no check. The array is no longer
than the cells, which the template asserts. -/
structure Signatures (maxMethods : Nat) where
  expected : List InterfaceMethodHash
  length_le : expected.length ≤ maxMethods

def InterfaceMethod.cell (m : InterfaceMethod) : Nat := m.slot.toNat

/-- The first loop of `fill_slot_entries`: one more than the highest slot, if all slots have a cell. -/
def highestSlot (maxMethods : Nat) : List InterfaceMethod → UInt32 → Option UInt32
  | [], highest => some highest
  | m :: methods, highest =>
    if maxMethods ≤ m.cell then none
    else highestSlot maxMethods methods (if highest < m.slot + 1 then m.slot + 1 else highest)

/-- One turn of the second loop: what is wrong with the first method at a slot, if anything. -/
def slotStatus (methods : List InterfaceMethod) (expected : InterfaceMethodHash) (slot : Nat) :
    Option InterfaceStatus :=
  if expected = .zero then none
  else
    match firstAt InterfaceMethod.cell methods slot with
    | none => some .methodNotFound
    | some found =>
      if found.entry = 0 then some .methodNotFound
      else if found.signature ≠ expected then some .signatureMismatch
      else none

/-- `fill_slot_entries`: the entries and one more than the highest slot, or why there are none. -/
def fillSlotEntries (maxMethods : Nat) (entries : Nat → UInt64) (methods : List InterfaceMethod)
    (contract : Signatures maxMethods) : Except InterfaceStatus ((Nat → UInt64) × UInt32) :=
  match highestSlot maxMethods methods 0 with
  | none => .error .methodCapacityExceeded
  | some highest =>
    match contract.expected.zipIdx.findSome? fun (e, slot) => slotStatus methods e slot with
    | some status => .error status
    | none => .ok (writeAll InterfaceMethod.cell InterfaceMethod.entry methods entries, highest)

/-- A null object is `none`. -/
structure InterfaceSlotCache (Obj : Type) where
  object : Option Obj := none
  methodCount : UInt32 := 0
  entries : Nat → UInt64 := fun _ => 0

namespace InterfaceSlotCache

def reset (_cache : InterfaceSlotCache Obj) : InterfaceSlotCache Obj := {}

def resolveMethods (maxMethods : Nat) (cache : InterfaceSlotCache Obj) (methods : Counted InterfaceMethod)
    (object : Option Obj) (contract : Signatures maxMethods) : InterfaceSlotCache Obj × InterfaceStatus :=
  if object = none ∨ methods.isDangling then (cache.reset, .invalidTable)
  else
    match fillSlotEntries maxMethods cache.reset.entries methods.items contract with
    | .error status => (cache.reset, status)
    | .ok (entries, highest) => ({ object, methodCount := highest, entries }, .ok)

def resolve (maxMethods : Nat) (cache : InterfaceSlotCache Obj) (registry : InterfaceRegistry) (object : Option Obj)
    (concreteType : TypeId) (interfaceId : InterfaceId) (version : UInt32) (contract : Signatures maxMethods) :
    InterfaceSlotCache Obj × InterfaceStatus :=
  if object = none then (cache.reset, .invalidTable)
  else
    match registry.find concreteType interfaceId version with
    | none =>
      if (registry.available concreteType interfaceId).isSome then (cache.reset, .versionMismatch)
      else (cache.reset, .interfaceNotFound)
    | some impl => cache.resolveMethods maxMethods impl.methods object contract

/-- The entry that a call through the slot runs, zero for none. -/
def method (maxMethods : Nat) (cache : InterfaceSlotCache Obj) (slot : UInt32) : UInt64 :=
  if maxMethods ≤ slot.toNat ∨ cache.entries slot.toNat = 0 then 0 else cache.entries slot.toNat

def bound (maxMethods : Nat) (cache : InterfaceSlotCache Obj) (slot : UInt32) : Bool :=
  slot.toNat < maxMethods ∧ cache.entries slot.toNat ≠ 0

def valid (cache : InterfaceSlotCache Obj) : Bool := cache.object.isSome

end InterfaceSlotCache

structure InterfaceSlotTable where
  entries : Nat → UInt64 := fun _ => 0
  methodCount : UInt32 := 0
  ready : Bool := false

namespace InterfaceSlotTable

def reset (_table : InterfaceSlotTable) : InterfaceSlotTable := {}

def build (maxMethods : Nat) (table : InterfaceSlotTable) (methods : Counted InterfaceMethod)
    (contract : Signatures maxMethods) : InterfaceSlotTable × InterfaceStatus :=
  if methods.isDangling then (table.reset, .invalidTable)
  else
    match fillSlotEntries maxMethods table.reset.entries methods.items contract with
    | .error status => (table.reset, status)
    | .ok (entries, highest) => ({ entries, methodCount := highest, ready := true }, .ok)

def method (maxMethods : Nat) (table : InterfaceSlotTable) (slot : UInt32) : UInt64 :=
  if maxMethods ≤ slot.toNat ∨ table.entries slot.toNat = 0 then 0 else table.entries slot.toNat

def bound (maxMethods : Nat) (table : InterfaceSlotTable) (slot : UInt32) : Bool :=
  table.ready ∧ slot.toNat < maxMethods ∧ table.entries slot.toNat ≠ 0

def valid (table : InterfaceSlotTable) : Bool := table.ready

def clear (table : InterfaceSlotTable) : InterfaceSlotTable := table.reset

end InterfaceSlotTable

/-- What a proxy class says about its interface. Every slot has a signature. -/
structure Traits where
  id : InterfaceId
  version : UInt32
  signatures : List InterfaceMethodHash

def Traits.slotCapacity (traits : Traits) : Nat := traits.signatures.length

def Traits.contract (traits : Traits) : Signatures traits.slotCapacity := ⟨traits.signatures, Nat.le_refl _⟩

structure UniqueInterfaceProxy (Obj : Type) where
  ref : InterfaceSlotCache Obj := {}
  status : InterfaceStatus := .interfaceNotFound

namespace UniqueInterfaceProxy

def bind (traits : Traits) (proxy : UniqueInterfaceProxy Obj) (registry : InterfaceRegistry) (object : Option Obj)
    (concreteType : TypeId) (version : UInt32) : UniqueInterfaceProxy Obj × InterfaceStatus :=
  let r := proxy.ref.resolve traits.slotCapacity registry object concreteType traits.id version traits.contract
  ({ ref := r.1, status := r.2 }, r.2)

def bindMethods (traits : Traits) (proxy : UniqueInterfaceProxy Obj) (interfaceId : InterfaceId) (version : UInt32)
    (methods : Counted InterfaceMethod) (object : Option Obj) : UniqueInterfaceProxy Obj × InterfaceStatus :=
  if interfaceId ≠ traits.id then ({ ref := proxy.ref.reset, status := .interfaceNotFound }, .interfaceNotFound)
  else if version ≠ traits.version then ({ ref := proxy.ref.reset, status := .versionMismatch }, .versionMismatch)
  else
    let r := proxy.ref.resolveMethods traits.slotCapacity methods object traits.contract
    ({ ref := r.1, status := r.2 }, r.2)

def method (traits : Traits) (proxy : UniqueInterfaceProxy Obj) (slot : UInt32) : UInt64 :=
  proxy.ref.method traits.slotCapacity slot

def verify (traits : Traits) (proxy : UniqueInterfaceProxy Obj) (slot : UInt32) : InterfaceStatus :=
  if traits.slotCapacity ≤ slot.toNat ∨ ¬ proxy.ref.bound traits.slotCapacity slot then .methodNotFound else .ok

end UniqueInterfaceProxy

end Abix.Interface

import Abix.Metadata.Descriptor
import Abix.Metadata.Registry

/-! The runtime registry of types: one entry for a type and a version, beside the compact registry
that keeps one layout for each type. A module is checked as a whole before anything changes. -/
namespace Abix.Runtime
open Abix.Model Abix.Metadata

namespace Registry

inductive RegisterStatus where
  | ok
  | invalidModule
  | duplicateType
  | capacityExceeded
  | unknownTypeReference
  | layoutConflict
  deriving DecidableEq, Repr

structure RegistryEntry where
  descriptor : TypeDescriptor
  canonical : TypeDesc
  layout : TypeLayout
  version : UInt32

end Registry

/-- The first `_count` cells of `_entries`, and the canonical registry. -/
structure Registry where
  entries : List Registry.RegistryEntry := []
  canonical : Metadata.Registry := []

namespace Registry

def findType (r : Registry) (id : TypeId) (version : UInt32) : Option RegistryEntry :=
  r.entries.find? fun e => e.descriptor.typeId = id ∧ e.version = version

def newer (id : TypeId) (best : Option RegistryEntry) (e : RegistryEntry) : Option RegistryEntry :=
  if e.descriptor.typeId ≠ id then best
  else
    match best with
    | none => some e
    | some b => if b.version ≤ e.version then some e else some b

def findById (r : Registry) (id : TypeId) : Option RegistryEntry := r.entries.foldl (newer id) none

def validLayout (type : TypeDescriptor) : Bool := isPow2 type.align ∧ type.align ≠ 0

def knownType (r : Registry) (module : ModuleDescriptor) (id : TypeId) : Bool :=
  (∃ row ∈ module.rows, row.type.typeId = id) ∨ (r.findById id).isSome

/-- The first loop of `check_module`, which counts the types that are new; `earlier` are the types
in front. -/
def checkTypes (r : Registry) (version : UInt32) : List TypeId → List TypeRow → Except RegisterStatus Nat
  | _, [] => .ok 0
  | earlier, row :: rows =>
    if row.type.typeId ∈ earlier then .error .duplicateType
    else if ¬ validLayout row.type then .error .invalidModule
    else
      match r.findType row.type.typeId version with
      | some existing =>
        if sameLayout (some existing.layout) (some row.canonicalLayout) then
          checkTypes r version (row.type.typeId :: earlier) rows
        else .error .layoutConflict
      | none => (checkTypes r version (row.type.typeId :: earlier) rows).map (· + 1)

def checkModule (capacity : Nat) (r : Registry) (module : ModuleDescriptor) (version : UInt32) : RegisterStatus :=
  if ¬ valid module then .invalidModule
  else
    match r.checkTypes version [] module.rows with
    | .error status => status
    | .ok newTypes =>
      if capacity - r.entries.length < newTypes then .capacityExceeded
      else if ¬ ∀ row ∈ module.rows, ∀ field ∈ row.type.fields.items, r.knownType module field.typeId then
        .unknownTypeReference
      else if ¬ ∀ function ∈ module.functions.items, r.knownType module function.returnType ∧
          ∀ parameter ∈ function.parameters.items, r.knownType module parameter.typeId then
        .unknownTypeReference
      else .ok

def entryOf (version : UInt32) (row : TypeRow) : RegistryEntry :=
  ⟨row.type, row.canonicalType, row.canonicalLayout, version⟩

/-- `if (_count == Capacity) return capacity_exceeded; _entries[_count++] = ...`: the new state, or
the status that the loop returns. -/
def append (capacity : Nat) (version : UInt32) (row : TypeRow) (r : Registry) : Registry × Option RegisterStatus :=
  if r.entries.length = capacity then (r, some .capacityExceeded)
  else ({ r with entries := r.entries ++ [entryOf version row] }, none)

def registerTurn (capacity : Nat) (version : UInt32) (r : Registry) (row : TypeRow) : Registry × Option RegisterStatus :=
  if (r.findType row.type.typeId version).isSome then (r, none)
  else if (r.canonical.findById row.type.typeId).isNone then
    let reg := r.canonical.registerType capacity (some row.canonicalType) (some row.canonicalLayout) 0
    if reg.2 = .layoutConflict then (r, some .layoutConflict)
    else if reg.2 ≠ .ok ∧ reg.2 ≠ .alreadyRegistered then (r, some .invalidModule)
    else if reg.2 = .alreadyRegistered then (r, none)
    else append capacity version row { r with canonical := reg.1 }
  else append capacity version row r

def registerTypes (capacity : Nat) (version : UInt32) (r : Registry) : List TypeRow → Registry × RegisterStatus
  | [] => (r, .ok)
  | row :: rows =>
    match registerTurn capacity version r row with
    | (r', some status) => (r', status)
    | (r', none) => registerTypes capacity version r' rows

def registerModule (capacity : Nat) (r : Registry) (module : ModuleDescriptor) (version : UInt32) :
    Registry × RegisterStatus :=
  if r.checkModule capacity module version ≠ .ok then (r, r.checkModule capacity module version)
  else r.registerTypes capacity version module.rows

def entryStatus (r : Registry) (e : RegistryEntry) : Option RegisterStatus :=
  if (r.canonical.findById e.descriptor.typeId).isNone then some .invalidModule
  else if e.canonical.id ≠ e.descriptor.typeId then some .invalidModule
  else if e.descriptor.layoutHash ≠ e.layout.layoutHash ∨ e.descriptor.size ≠ e.layout.size ∨
      e.descriptor.align ≠ e.layout.align then
    some .layoutConflict
  else none

def validate (r : Registry) : RegisterStatus := (r.entries.findSome? r.entryStatus).getD .ok

end Registry

end Abix.Runtime

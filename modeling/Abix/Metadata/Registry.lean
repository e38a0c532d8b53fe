import Abix.Model.ABI

/-! The compact registry of canonical types: one layout for each type. -/
namespace Abix.Metadata
open Abix.Model

inductive RegisterStatus where
  | ok
  | invalidDescriptor
  | duplicateType
  | capacityExceeded
  | alreadyRegistered
  | layoutConflict
  deriving DecidableEq, Repr

structure RegistryEntry where
  desc : TypeDesc
  layout : TypeLayout
  bootstrapHash : UInt64
  deriving DecidableEq, Repr

/-- The first `_count` cells of `_entries`. -/
abbrev Registry := List RegistryEntry

/-- A power of two, as `(align & (align - 1)) == 0` tests it. -/
def isPow2 (align : UInt32) : Bool := align &&& (align - 1) = 0

/-- A null pointer is `none`. -/
def validDescriptor (desc : Option TypeDesc) (layout : Option TypeLayout) : Bool :=
  match desc, layout with
  | some desc, some layout =>
    if desc.id = .zero then false
    else if layout.size = 0 ∨ layout.align = 0 then false
    else isPow2 layout.align
  | _, _ => false

def sameLayout (lhs rhs : Option TypeLayout) : Bool :=
  match lhs, rhs with
  | some lhs, some rhs => lhs.size = rhs.size ∧ lhs.align = rhs.align ∧ lhs.layoutHash = rhs.layoutHash
  | _, _ => false

namespace Registry

def findById (registry : Registry) (id : TypeId) : Option RegistryEntry := registry.find? fun e => e.desc.id = id

def registerType (capacity : Nat) (registry : Registry) (desc : Option TypeDesc) (layout : Option TypeLayout)
    (bootstrapHash : UInt64) : Registry × RegisterStatus :=
  match desc, layout with
  | some d, some l =>
    if ¬ validDescriptor desc layout then (registry, .invalidDescriptor)
    else
      match registry.findById d.id with
      | some existing =>
        (registry, if sameLayout (some existing.layout) layout then .alreadyRegistered else .layoutConflict)
      | none =>
        if registry.length = capacity then (registry, .capacityExceeded)
        else (registry ++ [⟨d, l, bootstrapHash⟩], .ok)
  | _, _ => (registry, .invalidDescriptor)

end Registry

end Abix.Metadata

import Abix.Interface.Contract

/-! The registry of interface implementations, which serves bindings within one process. -/
namespace Abix.Interface
open Abix.Model

/-- The first `_count` cells of `_entries`. -/
abbrev InterfaceRegistry := List InterfaceImplementation

namespace InterfaceRegistry

def findExact (registry : InterfaceRegistry) (concreteType : TypeId) (interfaceId : InterfaceId) (version : UInt32) :
    Option InterfaceImplementation :=
  registry.find? fun e => e.concreteType = concreteType ∧ e.interfaceId = interfaceId ∧ e.version = version

def newer (concreteType : TypeId) (interfaceId : InterfaceId) (best : Option InterfaceImplementation)
    (entry : InterfaceImplementation) : Option InterfaceImplementation :=
  if entry.concreteType ≠ concreteType ∨ entry.interfaceId ≠ interfaceId then best
  else
    match best with
    | none => some entry
    | some b => if b.version ≤ entry.version then some entry else some b

def findNewest (registry : InterfaceRegistry) (concreteType : TypeId) (interfaceId : InterfaceId) :
    Option InterfaceImplementation :=
  registry.foldl (newer concreteType interfaceId) none

/-- Version zero is any version. -/
def find (registry : InterfaceRegistry) (concreteType : TypeId) (interfaceId : InterfaceId) (version : UInt32) :
    Option InterfaceImplementation :=
  if version = 0 then registry.findNewest concreteType interfaceId
  else registry.findExact concreteType interfaceId version

def available (registry : InterfaceRegistry) (concreteType : TypeId) (interfaceId : InterfaceId) : Option UInt32 :=
  (registry.findNewest concreteType interfaceId).map InterfaceImplementation.version

/-- A table that repeats a slot is taken as it is. -/
def add (capacity : Nat) (registry : InterfaceRegistry) (impl : InterfaceImplementation) :
    InterfaceRegistry × InterfaceStatus :=
  if impl.interfaceId = .zero ∨ impl.concreteType = .zero ∨ impl.methods.isDangling then (registry, .invalidTable)
  else if (registry.findExact impl.concreteType impl.interfaceId impl.version).isSome then
    (registry, .duplicateImplementation)
  else if registry.length = capacity then (registry, .capacityExceeded)
  else (registry ++ [impl], .ok)

end InterfaceRegistry

end Abix.Interface

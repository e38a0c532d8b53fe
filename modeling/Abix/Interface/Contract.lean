import Abix.Model.ABI

/-! What a provider hands over: its method tables and its manifest. -/
namespace Abix.Interface
open Abix.Model

abbrev InterfaceId := Hash128

abbrev InterfaceMethodHash := SignatureHash

/-- A zero `entry` means that the slot is unbound. -/
structure InterfaceMethod where
  signature : InterfaceMethodHash
  entry : UInt64
  slot : UInt32
  deriving DecidableEq, Repr

/-- The methods of one interface as one concrete type provides them. -/
structure InterfaceImplementation where
  interfaceId : InterfaceId
  concreteType : TypeId
  methods : Counted InterfaceMethod
  version : UInt32

inductive InterfaceStatus where
  | ok
  | invalidTable
  | duplicateImplementation
  | capacityExceeded
  | interfaceNotFound
  | versionMismatch
  | methodNotFound
  | methodCapacityExceeded
  | signatureMismatch
  deriving DecidableEq, Repr

structure InterfaceManifestEntry where
  interfaceId : InterfaceId
  interfaceVersion : UInt32
  methods : Counted InterfaceMethod

structure ModuleManifest where
  manifestVersion : UInt32
  interfaces : Counted InterfaceManifestEntry

def abixManifestVersion : UInt32 := 1

def abixMaxManifestInterfaces : UInt32 := 4096

def abixMaxManifestMethods : UInt32 := 65536

inductive ManifestStatus where
  | ok
  | nullManifest
  | unsupportedVersion
  | invalidInterface
  | invalidBinding
  | tooManyInterfaces
  | tooManyMethods
  deriving DecidableEq, Repr

/-- What is wrong with an entry, if anything: the first check that fails. -/
def entryStatus (entry : InterfaceManifestEntry) : Option ManifestStatus :=
  if entry.interfaceId = Hash128.zero then some .invalidInterface
  else if abixMaxManifestMethods < entry.methods.count then some .tooManyMethods
  else if entry.methods.isDangling then some .invalidInterface
  else if ¬ (entry.methods.items.map InterfaceMethod.slot).Nodup then some .invalidBinding
  else none

def validateManifest (manifest : Option ModuleManifest) : ManifestStatus :=
  match manifest with
  | none => .nullManifest
  | some m =>
    if m.manifestVersion ≠ abixManifestVersion then .unsupportedVersion
    else if abixMaxManifestInterfaces < m.interfaces.count then .tooManyInterfaces
    else if m.interfaces.isDangling then .invalidInterface
    else (m.interfaces.items.findSome? entryStatus).getD .ok

/-- An accepted manifest has no dangling table and is within the bound. -/
theorem of_validateManifest {m : ModuleManifest} (h : validateManifest (some m) = .ok) :
    m.interfaces.isDangling = false ∧ m.interfaces.count ≤ abixMaxManifestInterfaces := by
  simp only [validateManifest] at h
  split at h
  · cases h
  · split at h
    · cases h
    · rename_i hcount
      split at h
      · cases h
      · rename_i hdata
        exact ⟨by simpa using hdata, UInt32.not_lt.mp hcount⟩

private theorem entryStatus_ne_ok (entry : InterfaceManifestEntry) : entryStatus entry ≠ some .ok := by
  simp only [entryStatus]
  split
  · nofun
  · split
    · nofun
    · split
      · nofun
      · split <;> nofun

/-- Nothing is wrong with an entry of an accepted manifest. -/
theorem entryStatus_of_validateManifest {m : ModuleManifest} {entry : InterfaceManifestEntry}
    (h : validateManifest (some m) = .ok) (hentry : entry ∈ m.interfaces.items) : entryStatus entry = none := by
  simp only [validateManifest] at h
  split at h
  · cases h
  · split at h
    · cases h
    · split at h
      · cases h
      · cases hfound : m.interfaces.items.findSome? entryStatus with
        | none => exact List.findSome?_eq_none_iff.mp hfound entry hentry
        | some status =>
          rw [hfound] at h
          obtain ⟨other, -, hother⟩ := List.exists_of_findSome?_eq_some hfound
          exact absurd (h ▸ hother) (entryStatus_ne_ok other)

/-- No table of an accepted manifest repeats a slot. -/
theorem slots_nodup_of_validateManifest {m : ModuleManifest} {entry : InterfaceManifestEntry}
    (h : validateManifest (some m) = .ok) (hentry : entry ∈ m.interfaces.items) :
    (entry.methods.items.map InterfaceMethod.slot).Nodup := by
  have hnone := entryStatus_of_validateManifest h hentry
  simp only [entryStatus] at hnone
  split at hnone
  · cases hnone
  · split at hnone
    · cases hnone
    · split at hnone
      · cases hnone
      · split at hnone
        · cases hnone
        · rename_i hnodup
          exact not_not.mp hnodup

end Abix.Interface

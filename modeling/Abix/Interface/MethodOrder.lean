import Abix.Interface.Identity
import Abix.Sorting.Insertion

/-! The identity of an interface whose methods are written in any order: they are sorted by slot
before they are hashed. -/
namespace Abix.Interface
open Abix.Blocks Abix.Model Abix.Runtime Abix.Sorting

structure InterfaceMethodKey where
  signature : InterfaceMethodHash
  slot : UInt32
  deriving DecidableEq

/-- Slots are compared as numbers. -/
def InterfaceMethodKey.number (method : InterfaceMethodKey) : Nat := method.slot.toNat

/-- The overload of `interface_id` for methods in any order. -/
def interfaceIdOfMethods (name : Option CString) (version : UInt32) (methods : List InterfaceMethodKey) :
    InterfaceId :=
  let sorted := store (fun _ => ⟨.zero, 0⟩) 0 methods
  let sorted := insertionSort InterfaceMethodKey.number methods.length sorted
  interfaceId name version ((contents sorted methods.length).map InterfaceMethodKey.signature)

variable {methods methods' ordered : List InterfaceMethodKey}

/-- What the loops leave in the array, read to its end. -/
theorem interfaceIdOfMethods_eq (name : Option CString) (version : UInt32) (methods : List InterfaceMethodKey) :
    ∃ ordered, StableSort InterfaceMethodKey.number methods ordered ∧
      interfaceIdOfMethods name version methods =
        interfaceId name version (ordered.map InterfaceMethodKey.signature) := by
  have hcopied := contents_store (fun _ => (⟨.zero, 0⟩ : InterfaceMethodKey)) 0 methods
  rw [Nat.zero_add] at hcopied
  refine ⟨_, ?_, rfl⟩
  have hsorted := stableSort_insertionSort InterfaceMethodKey.number methods.length
    (store (fun _ => ⟨.zero, 0⟩) 0 methods)
  rw [hcopied] at hsorted
  exact hsorted

theorem interfaceIdOfMethods_of_stableSort (name : Option CString) (version : UInt32)
    (h : StableSort InterfaceMethodKey.number methods ordered) :
    interfaceIdOfMethods name version methods =
      interfaceId name version (ordered.map InterfaceMethodKey.signature) := by
  obtain ⟨sorted, hsorted, hid⟩ := interfaceIdOfMethods_eq name version methods
  rw [hid, hsorted.unique h]

theorem nodup_numbers (h : (methods.map InterfaceMethodKey.slot).Nodup) :
    (methods.map InterfaceMethodKey.number).Nodup := by
  have hnumbers := h.map fun _ _ hslot => UInt32.toNat_inj.mp hslot
  rwa [List.map_map] at hnumbers

/-- With distinct slots the identity is that of the signatures by increasing slot, in whatever order the
methods are written; with repeated slots the signatures of one slot stay in the order written. -/
theorem method_order_is_irrelevant (name : Option CString) (version : UInt32) (methods : List InterfaceMethodKey) :
    ((methods.map InterfaceMethodKey.slot).Nodup →
      (∀ ordered : List InterfaceMethodKey, ordered.Perm methods → (ordered.Pairwise fun m m' => m.slot < m'.slot) →
        interfaceIdOfMethods name version methods =
          interfaceId name version (ordered.map InterfaceMethodKey.signature)) ∧
      ∀ methods' : List InterfaceMethodKey, methods'.Perm methods →
        interfaceIdOfMethods name version methods' = interfaceIdOfMethods name version methods) ∧
    ∃ ordered : List InterfaceMethodKey, ordered.Perm methods ∧ (ordered.Pairwise fun m m' => m.slot ≤ m'.slot) ∧
      (∀ slot, ordered.filter (fun m => m.slot = slot) = methods.filter fun m => m.slot = slot) ∧
      interfaceIdOfMethods name version methods =
        interfaceId name version (ordered.map InterfaceMethodKey.signature) := by
  obtain ⟨sorted, hsorted, hid⟩ := interfaceIdOfMethods_eq name version methods
  refine ⟨fun hdistinct => ⟨fun ordered hperm hstrict => ?_, fun methods' hperm => ?_⟩, sorted, hsorted.perm,
    hsorted.sorted, fun slot => ?_, hid⟩
  · refine interfaceIdOfMethods_of_stableSort name version (.of_perm (nodup_numbers hdistinct) hperm ?_)
    exact hstrict.imp fun hlt => Nat.le_of_lt hlt
  · obtain ⟨sorted', hsorted', hid'⟩ := interfaceIdOfMethods_eq name version methods'
    rw [hid', interfaceIdOfMethods_of_stableSort name version (hsorted'.congr (nodup_numbers hdistinct) hperm)]
  · have hstable := hsorted.stable slot.toNat
    simpa only [InterfaceMethodKey.number, UInt32.toNat_inj] using hstable

theorem method_order_is_irrelevant_swapped :
    interfaceIdOfMethods (some [102]) 1 [⟨⟨2, 3⟩, 1⟩, ⟨⟨4, 5⟩, 0⟩] = interfaceId (some [102]) 1 [⟨4, 5⟩, ⟨2, 3⟩] :=
  ((method_order_is_irrelevant (some [102]) 1 [⟨⟨2, 3⟩, 1⟩, ⟨⟨4, 5⟩, 0⟩]).1 (by decide)).1 [⟨⟨4, 5⟩, 0⟩, ⟨⟨2, 3⟩, 1⟩]
    (.swap _ _ _) (by decide)

end Abix.Interface

import Abix.Blocks.Packed
import Abix.Interface.Contract
import Abix.Interface.Lease

/-! The registry of the interfaces of loaded modules: a table of module slots, each with a range
in one packed array of interfaces. -/
namespace Abix.Interface.ModuleRegistry
open Abix.Blocks Abix.Model
variable {Ctl : Type} [DecidableEq Ctl]

inductive ModuleStatus where
  | ok
  | alreadyRegistered
  | invalidManifest
  | invalidState
  | capacityExceeded
  | interfaceCapacityExceeded
  | duplicateInterface
  | notRegistered
  | busy
  deriving DecidableEq, Repr

/-- `ModuleControl`, as far as the registry uses it. Ids come from a 64-bit counter that grows by
one for each module, so they are naturals; zero is no id. -/
structure ModuleControl where
  id : Nat := 0
  state : ModuleState := .loading
  leases : UInt32 := 0

/-- A null control is `none`. -/
structure ModuleInterface (Ctl : Type) where
  module : Nat := 0
  interfaceId : InterfaceId := .zero
  version : UInt32 := 0
  methods : Counted InterfaceMethod := ⟨0, none, nofun⟩
  control : Option Ctl := none

structure ModuleSlot (Ctl : Type) where
  control : Option Ctl := none
  begin : UInt32 := 0
  count : UInt32 := 0
  used : Bool := false

/-- The registry, the controls it has been handed, and the counter of instance ids. -/
structure World (Ctl : Type) where
  modules : Nat → ModuleSlot Ctl := fun _ => {}
  interfaces : Nat → ModuleInterface Ctl := fun _ => {}
  moduleCount : Nat := 0
  interfaceCount : Nat := 0
  controls : Ctl → ModuleControl := fun _ => {}
  counter : Nat := 0

structure Capacity where
  modules : Nat := 16
  interfaces : Nat := 128

/-- The length of `_modules`, which is never an empty array. -/
def Capacity.slots (cap : Capacity) : Nat := if cap.modules = 0 then 1 else cap.modules

def activateModule (control : ModuleControl) : Option ModuleControl :=
  if control.state = .loading then some { control with state := .active } else none

def beginUnload (control : ModuleControl) : ModuleControl :=
  if control.state = .active then { control with state := .draining } else control

/-- What `wait_for_idle` answers when the count of leases stays as it is. -/
def waitForIdle (control : ModuleControl) : Bool := control.leases = 0

def markUnloaded (control : ModuleControl) : ModuleControl := { control with state := .unloaded }

/-- `while (slot_index < ModuleCapacity && _modules[slot_index].used) ++slot_index;` -/
def freeSlot (modules : Nat → ModuleSlot Ctl) : Nat → Nat → Nat
  | 0, i => i
  | left + 1, i => if (modules i).used then freeSlot modules left (i + 1) else i

/-- The checks of `register_module` before it changes anything, in their order. -/
def refusal (cap : Capacity) (w : World Ctl) (control : Ctl) (manifest : ModuleManifest) : Option ModuleStatus :=
  if validateManifest (some manifest) ≠ .ok then some .invalidManifest
  else if ∃ i < cap.slots, (w.modules i).used ∧ (w.modules i).control = some control then some .alreadyRegistered
  else if ¬ (manifest.interfaces.items.map fun e => (e.interfaceId, e.interfaceVersion)).Nodup then
    some .duplicateInterface
  else if w.moduleCount = cap.modules then some .capacityExceeded
  else if cap.interfaces < w.interfaceCount + manifest.interfaces.count.toNat then some .interfaceCapacityExceeded
  else if freeSlot w.modules cap.modules 0 = cap.modules then some .capacityExceeded
  else if activateModule (w.controls control) = none then some .invalidState
  else none

def binding (control : Ctl) (id : Nat) (entry : InterfaceManifestEntry) : ModuleInterface Ctl where
  module := id
  interfaceId := entry.interfaceId
  version := entry.interfaceVersion
  methods := entry.methods
  control := some control

def nextModuleInstanceId (w : World Ctl) : Nat := w.counter + 1

def registerModule (cap : Capacity) (w : World Ctl) (control : Ctl) (manifest : ModuleManifest) :
    World Ctl × ModuleStatus :=
  match refusal cap w control manifest with
  | some status => (w, status)
  | none =>
    let id := nextModuleInstanceId w
    let slotIndex := freeSlot w.modules cap.modules 0
    ({ modules := Function.update w.modules slotIndex
        { control := some control, begin := UInt32.ofNat w.interfaceCount, count := manifest.interfaces.count, used := true }
       interfaces := store w.interfaces w.interfaceCount (manifest.interfaces.items.map (binding control id))
       moduleCount := w.moduleCount + 1
       interfaceCount := w.interfaceCount + manifest.interfaces.count.toNat
       controls := Function.update w.controls control { w.controls control with id, state := .active }
       counter := id }, .ok)

def slotId (w : World Ctl) (slot : ModuleSlot Ctl) : Option Nat := slot.control.map fun c => (w.controls c).id

def findSlot (cap : Capacity) (w : World Ctl) (id : Nat) : Option Nat :=
  if id = 0 then none
  else (List.range cap.slots).find? fun i => (w.modules i).used ∧ slotId w (w.modules i) = some id

/-- A slot behind the removed block moves down by its length. -/
def rebase (begin count : UInt32) (other : ModuleSlot Ctl) : ModuleSlot Ctl :=
  if other.used ∧ begin < other.begin then { other with begin := other.begin - count } else other

def unregisterModule (cap : Capacity) (w : World Ctl) (id : Nat) : World Ctl × ModuleStatus :=
  match findSlot cap w id with
  | none => (w, .notRegistered)
  | some i =>
    match (w.modules i).control with
    | none => (w, .notRegistered)
    | some control =>
      let draining := beginUnload (w.controls control)
      if waitForIdle draining then
        let begin := (w.modules i).begin
        let count := (w.modules i).count
        ({ w with
            modules := Function.update (fun j => rebase begin count (w.modules j)) i {}
            interfaces := compact count.toNat w.interfaceCount (w.interfaceCount - begin.toNat) begin.toNat w.interfaces
            moduleCount := w.moduleCount - 1
            interfaceCount := w.interfaceCount - count.toNat
            controls := Function.update w.controls control (markUnloaded draining) }, .ok)
      else ({ w with controls := Function.update w.controls control draining }, .busy)

/-- Whether a stored interface answers a query; version zero is any. -/
def matching (id : InterfaceId) (version : UInt32) (binding : ModuleInterface Ctl) : Bool :=
  binding.interfaceId = id ∧ (version = 0 ∨ binding.version = version)

/-- The loop of `find_interface`, from cell `i` on with room for `max` more. The answer is a list
of cells. -/
def findInterfaceFrom (w : World Ctl) (id : InterfaceId) (version : UInt32) : Nat → Nat → Nat → List Nat
  | 0, _, _ => []
  | _ + 1, _, 0 => []
  | left + 1, i, max + 1 =>
    if matching id version (w.interfaces i) then i :: findInterfaceFrom w id version left (i + 1) max
    else findInterfaceFrom w id version left (i + 1) (max + 1)

def findInterface (w : World Ctl) (id : InterfaceId) (version : UInt32) (max : Nat) : List Nat :=
  findInterfaceFrom w id version w.interfaceCount 0 max

def better (w : World Ctl) (id : InterfaceId) (version : UInt32) (best : Option Nat) (i : Nat) : Option Nat :=
  if matching id version (w.interfaces i) then
    match best with
    | none => some i
    | some b => if (w.interfaces b).version ≤ (w.interfaces i).version then some i else some b
  else best

def findFirst (w : World Ctl) (id : InterfaceId) (version : UInt32) : Option Nat :=
  (List.range w.interfaceCount).foldl (better w id version) none

/-- A call to the registry, or what happens around it: leases come and go and the loader moves the
state of a control, and other registries draw from the counter. -/
inductive Op (Ctl : Type) where
  | registerModule (control : Ctl) (manifest : ModuleManifest)
  | unregisterModule (id : Nat)
  | control (control : Ctl) (state : ModuleState) (leases : UInt32)
  | draw

def step (cap : Capacity) (w : World Ctl) : Op Ctl → World Ctl × Option ModuleStatus
  | .registerModule control manifest =>
    let r := registerModule cap w control manifest
    (r.1, some r.2)
  | .unregisterModule id =>
    let r := unregisterModule cap w id
    (r.1, some r.2)
  | .control control state leases =>
    ({ w with controls := Function.update w.controls control { w.controls control with state, leases } }, none)
  | .draw => ({ w with counter := nextModuleInstanceId w }, none)

end Abix.Interface.ModuleRegistry

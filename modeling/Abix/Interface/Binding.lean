import Abix.Interface.ModuleRegistry
import Abix.Interface.Resolve

/-! Bound interfaces: threads copy entries of the module registry, bind them to objects and let the
bindings go, while modules are registered and unregistered. One thread at a time is in the registry;
the two words of a control are free to all. -/
namespace Abix.Interface.Binding
open Abix.Concurrency Abix.Blocks Abix.Interface.ModuleRegistry
variable {Tid E B Ctl Obj : Type}

structure BoundInterface (Ctl Obj : Type) where
  ref : InterfaceRef Obj := {}
  lease : Option Ctl := none

def BoundInterface.valid (value : BoundInterface Ctl Obj) : Bool := value.ref.valid && value.lease.isSome

/-- What a move leaves behind: the ref is copied, the lease is taken. -/
def BoundInterface.movedFrom (value : BoundInterface Ctl Obj) : BoundInterface Ctl Obj := { value with lease := none }

private theorem length_eq_of_null : ∀ xs ∈ (none : Option (List InterfaceMethod)), xs.length = (0 : UInt32).toNat :=
  fun xs h => absurd h (Option.not_mem_none xs)

def noInterface : ModuleInterface Ctl := { methods := ⟨0, none, length_eq_of_null⟩ }

/-- A variable is no object, or it is one; a bare lease is one whose ref was never resolved. The copies
of registry entries are the caller's own. -/
structure Shared (E B Ctl Obj : Type) where
  modules : World Ctl := { interfaces := fun _ => noInterface }
  entered : Bool := false
  entries : E → ModuleInterface Ctl := fun _ => noInterface
  bound : B → Option (BoundInterface Ctl Obj) := fun _ => none

/-- What a thread is inside of while it is at work on the words of a control. -/
inductive Call (B Ctl Obj : Type) where
  | acquire (b : B)
  | bind (b : B) (entry : ModuleInterface Ctl) (object : Option Obj)
  | release
  | loader
  | unregister (slot : Nat)

/-- Between calls a thread has what its last call to the registry answered. -/
inductive Local (B Ctl Obj : Type) where
  | idle (status : Option ModuleStatus)
  | inside (call : Call B Ctl Obj) (control : Ctl) (pc : Lease.Pc)

/-- A call that starts, or the next access of the running one. A copy is taken of what a lookup
pointed to; `draw` is another registry's draw from the counter of ids. -/
inductive Action (E B Ctl Obj : Type) where
  | registerModule (control : Ctl) (manifest : ModuleManifest)
  | unregisterModule (id : Nat)
  | draw
  | copy (e : E) (k : Nat)
  | acquireLease (b : B) (control : Ctl)
  | bindInterface (b : B) (e : E) (object : Option Obj)
  | moveConstruct (b other : B)
  | moveAssign (b other : B)
  | destroy (b : B)
  | beginUnload (control : Ctl)
  | waitForIdle (control : Ctl)
  | run (spurious : Bool)

/-- The hooks that the loader set, and the template parameters. -/
structure Setting (Ctl : Type) where
  capacity : Capacity := {}
  maxMethods : Nat := 32
  pin : Ctl → Bool := fun _ => false
  unpin : Ctl → Bool := fun _ => false

variable [DecidableEq E] [DecidableEq B] [DecidableEq Ctl] (setting : Setting Ctl)

namespace Shared

/-- The words of a control, as the accesses of a lease see them. The history is not kept. -/
def words (sh : Shared E B Ctl Obj) (control : Ctl) : Lease.Shared where
  state := (sh.modules.controls control).state
  leases := (sh.modules.controls control).leases
  pin := setting.pin control
  unpin := setting.unpin control
  held := 0
  pins := 0
  unpins := 0
  unregistered := false

def setWords (sh : Shared E B Ctl Obj) (control : Ctl) (words : Lease.Shared) : Shared E B Ctl Obj :=
  let word := { sh.modules.controls control with state := words.state, leases := words.leases }
  { sh with modules.controls := Function.update sh.modules.controls control word }

def put (sh : Shared E B Ctl Obj) (b : B) (value : Option (BoundInterface Ctl Obj)) : Shared E B Ctl Obj :=
  { sh with bound := Function.update sh.bound b value }

def move (sh : Shared E B Ctl Obj) (b other : B) (value : BoundInterface Ctl Obj) : Shared E B Ctl Obj :=
  (sh.put b (some value)).put other (some value.movedFrom)

end Shared

/-- The end of `unregister_module`: the block is closed and the module marked unloaded. -/
def remove (w : World Ctl) (slot : Nat) (control : Ctl) : World Ctl :=
  let begin := (w.modules slot).begin
  let count := (w.modules slot).count
  { w with
    modules := Function.update (fun j => rebase begin count (w.modules j)) slot {}
    interfaces := compact count.toNat w.interfaceCount (w.interfaceCount - begin.toNat) begin.toNat w.interfaces
    moduleCount := w.moduleCount - 1
    interfaceCount := w.interfaceCount - count.toNat
    controls := Function.update w.controls control (markUnloaded (w.controls control)) }

/-- What `bind_interface` returns once it holds a lease. -/
def resolved (entry : ModuleInterface Ctl) (object : Option Obj) : InterfaceRef Obj :=
  (({} : InterfaceRef Obj).resolveMethods setting.maxMethods entry.interfaceId entry.version entry.methods object).1

/-- What a call does after its last access of the words, whose answer it has. A new object needs a
variable that is none. -/
def finish (sh : Shared E B Ctl Obj) (control : Ctl) (answer : Option Bool) :
    Call B Ctl Obj → Option (Shared E B Ctl Obj × Option ModuleStatus)
  | .acquire b =>
    if (sh.bound b).isSome then none
    else some (sh.put b (some (if answer = some true then { lease := some control } else {})), none)
  | .bind b entry object =>
    if (sh.bound b).isSome then none
    else some (sh.put b (some (if answer = some true then ⟨resolved setting entry object, some control⟩ else {})), none)
  | .release | .loader => some (sh, none)
  | .unregister _ => some ({ sh with entered := false }, some (if answer = some true then .ok else .busy))

/-- The next access of the running call. The writes of `unregister_module` to the registry go with the
access that they surround. -/
def run (spurious : Bool) (sh : Shared E B Ctl Obj) : Local B Ctl Obj → Option (Shared E B Ctl Obj × Local B Ctl Obj)
  | .idle _ => none
  | .inside call control (.idle answer) => (finish setting sh control answer call).map fun r => (r.1, .idle r.2)
  | .inside (.unregister slot) control .markUnloaded =>
    some ({ sh with modules := remove sh.modules slot control }, .inside (.unregister slot) control (.idle (some true)))
  | .inside call control pc =>
    (Lease.run spurious (sh.words setting control) pc).map fun r => (sh.setWords control r.1, .inside call control r.2)

def drop : Option Ctl → Local B Ctl Obj
  | none => .idle none
  | some control => .inside .release control .releaseSub

/-- A call that its thread starts. A variable is its thread's own during a call, so the writes to it go
with the start. -/
def start (sh : Shared E B Ctl Obj) : Action E B Ctl Obj → Option (Shared E B Ctl Obj × Local B Ctl Obj)
  | .registerModule control manifest =>
    if sh.entered then none
    else
      let r := registerModule setting.capacity sh.modules control manifest
      some ({ sh with modules := r.1 }, .idle (some r.2))
  | .unregisterModule id =>
    if sh.entered then none
    else
      match findSlot setting.capacity sh.modules id with
      | none => some (sh, .idle (some .notRegistered))
      | some slot =>
        (sh.modules.modules slot).control.map fun control =>
          ({ sh with entered := true }, .inside (.unregister slot) control (.unloadLoad true))
  | .draw => some ({ sh with modules.counter := nextModuleInstanceId sh.modules }, .idle none)
  | .copy e k =>
    if sh.entered = false ∧ k < sh.modules.interfaceCount then
      some ({ sh with entries := Function.update sh.entries e (sh.modules.interfaces k) }, .idle none)
    else none
  | .acquireLease b control => some (sh, .inside (.acquire b) control .acquireCheck)
  | .bindInterface b e object =>
    match (sh.entries e).control with
    | none => if (sh.bound b).isSome then none else some (sh.put b (some {}), .idle none)
    | some control => some (sh, .inside (.bind b (sh.entries e) object) control .acquireCheck)
  | .moveConstruct b other =>
    match sh.bound b, sh.bound other with
    | none, some value => some (sh.move b other value, .idle none)
    | _, _ => none
  | .moveAssign b other =>
    match sh.bound b, sh.bound other with
    | some old, some value =>
      if b = other then some (sh, .idle none) else some (sh.move b other value, drop old.lease)
    | _, _ => none
  | .destroy b => (sh.bound b).map fun value => (sh.put b none, drop value.lease)
  | .beginUnload control => some (sh, .inside .loader control (.unloadLoad false))
  | .waitForIdle control => some (sh, .inside .loader control (.idlePoll false 0))
  | .run _ => none

def step (sh : Shared E B Ctl Obj) : Local B Ctl Obj → Action E B Ctl Obj →
    Option (Shared E B Ctl Obj × Local B Ctl Obj)
  | .idle _, a => start setting sh a
  | l, .run spurious => run setting spurious sh l
  | .inside .., _ => none

def bindings (Tid E B Obj : Type) [DecidableEq E] [DecidableEq B] :
    Program Tid (Shared E B Ctl Obj) (Local B Ctl Obj) (Action E B Ctl Obj) where
  step _ sh l a := step setting sh l a

def initial (Tid E B Ctl Obj : Type) : Config Tid (Shared E B Ctl Obj) (Local B Ctl Obj) := ⟨{}, fun _ => .idle none⟩

end Abix.Interface.Binding

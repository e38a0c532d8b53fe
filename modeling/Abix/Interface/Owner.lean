import Abix.Interface.ModuleRegistry

/-! Owner handles: an object with the creator's entry that destroys it, and the lease that keeps that
entry loaded. -/
namespace Abix.Interface.Owner
open Abix.Concurrency Abix.Interface.ModuleRegistry

inductive Mode where
  | borrowed
  | owned
  | copied
  deriving DecidableEq, Repr

def Mode.value : Mode → UInt32
  | .borrowed => 0
  | .owned => 1
  | .copied => 2

/-- A null object is `none`, and a null destroy entry is zero. -/
structure Handle (Obj : Type) where
  object : Option Obj := none
  mode : UInt32 := 0
  flags : UInt32 := 0
  destroy : UInt64 := 0
  moduleInstance : UInt64 := 0
  deriving DecidableEq

namespace Handle
variable {Obj : Type}

def valid (value : Handle Obj) : Bool := value.object.isSome

def owns (value : Handle Obj) : Bool := value.mode = Mode.owned.value ∨ value.mode = Mode.copied.value

def makeBorrowed (object : Option Obj) : Handle Obj := { object, mode := Mode.borrowed.value }

def makeOwned (object : Option Obj) (destroy moduleInstance : UInt64) : Handle Obj :=
  { object, mode := Mode.owned.value, destroy, moduleInstance }

def makeCopied (object : Option Obj) (destroy moduleInstance : UInt64) : Handle Obj :=
  { object, mode := Mode.copied.value, destroy, moduleInstance }

def releases (value : Handle Obj) : Bool := value.valid ∧ value.owns ∧ value.destroy ≠ 0

end Handle

variable {R Ctl Obj : Type}

/-- `ref`. Which adoption its handle comes from is history. -/
structure Ref (Ctl Obj : Type) where
  handle : Handle Obj := {}
  lease : Option Ctl := none
  adoption : Option Nat := none
  deriving DecidableEq

inductive After (R : Type) where
  | released
  | destructed
  | assigned (other : R)
  deriving DecidableEq

/-- A variable is no `ref`, or it is one, with the releases that wait for their destroy entries. -/
inductive RefState (R Ctl Obj : Type) where
  | dead
  | alive (ref : Ref Ctl Obj) (pending : List (After R))
  deriving DecidableEq

/-- The variables and the modules. What has been adopted under which control, which destroy entries
have been called on which objects for each adoption, and how many of these calls have returned, is
history. -/
structure World (R Ctl Obj : Type) where
  modules : ModuleRegistry.World Ctl := {}
  refs : R → RefState R Ctl Obj := fun _ => .dead
  adoptions : List (Handle Obj × Option Ctl) := []
  calls : Nat → List (UInt64 × Option Obj) := fun _ => []
  returned : Nat → Nat := fun _ => 0

/-- An operation on variables, a destroy entry that returns, or a step of the modules' life. -/
inductive Op (R Ctl Obj : Type) where
  | default (r : R)
  | adopt (r : R) (value : Handle Obj) (control : Option Ctl)
  | borrow (r : R) (object : Option Obj) (control : Option Ctl)
  | moveConstruct (r other : R)
  | moveAssign (r other : R)
  | release (r : R)
  | destruct (r : R)
  | returns (r : R)
  | beginUnload (control : Ctl)
  | registerModule (control : Ctl) (manifest : ModuleManifest)
  | unregisterModule (id : Nat)

section Lease
variable [DecidableEq Ctl]

def setLeases (m : ModuleRegistry.World Ctl) (control : Ctl) (leases : UInt32) : ModuleRegistry.World Ctl :=
  { m with controls := Function.update m.controls control { m.controls control with leases } }

/-- `acquire_lease`, with nobody else at work on the control. -/
def acquireLease (m : ModuleRegistry.World Ctl) (control : Ctl) : ModuleRegistry.World Ctl × Option Ctl :=
  if (m.controls control).state = .active then
    (setLeases m control ((m.controls control).leases + 1), some control)
  else (m, none)

def releaseLease (m : ModuleRegistry.World Ctl) : Option Ctl → ModuleRegistry.World Ctl
  | none => m
  | some control => setLeases m control ((m.controls control).leases - 1)

end Lease

namespace World

def put [DecidableEq R] (w : World R Ctl Obj) (r : R) (s : RefState R Ctl Obj) : World R Ctl Obj :=
  { w with refs := Function.update w.refs r s }

variable [DecidableEq R] [DecidableEq Ctl]

def adopt (w : World R Ctl Obj) (r : R) (value : Handle Obj) (control : Option Ctl) : World R Ctl Obj :=
  let leased := match control with
    | none => (w.modules, none)
    | some c => acquireLease w.modules c
  { w with
    modules := leased.1
    refs := Function.update w.refs r
      (.alive { handle := value, lease := leased.2, adoption := some w.adoptions.length } [])
    adoptions := w.adoptions ++ [(value, control)] }

/-- Handle and lease go from `other` to `r`, and `other` is left empty. -/
def transfer (w : World R Ctl Obj) (r other : R) (pending : List (After R)) : Option (World R Ctl Obj) :=
  match w.refs other with
  | .dead => none
  | .alive ref pending' => some ((w.put r (.alive ref pending)).put other (.alive {} pending'))

/-- The rest of `release`: the lease is dropped and the handle is cleared. -/
def clear (w : World R Ctl Obj) (r : R) (ref : Ref Ctl Obj) (pending : List (After R)) : World R Ctl Obj :=
  { w with
    modules := releaseLease w.modules ref.lease
    refs := Function.update w.refs r (.alive {} pending) }

def finish (w : World R Ctl Obj) (r : R) (pending : List (After R)) : After R → Option (World R Ctl Obj)
  | .released => some w
  | .destructed => some (w.put r .dead)
  | .assigned other => w.transfer r other pending

/-- `release`, up to the call of the destroy entry if there is one. -/
def beginRelease (w : World R Ctl Obj) (r : R) (ref : Ref Ctl Obj) (pending : List (After R)) (after : After R) :
    Option (World R Ctl Obj) :=
  if ref.handle.releases then
    some { w with
      refs := Function.update w.refs r (.alive ref (after :: pending))
      calls := match ref.adoption with
        | none => w.calls
        | some n => Function.update w.calls n (w.calls n ++ [(ref.handle.destroy, ref.handle.object)]) }
  else (w.clear r ref pending).finish r pending after

/-- `release`, from the return of its destroy entry on. -/
def endRelease (w : World R Ctl Obj) (r : R) (ref : Ref Ctl Obj) (pending : List (After R)) (after : After R) :
    Option (World R Ctl Obj) :=
  let w := { w with
    returned := match ref.adoption with
      | none => w.returned
      | some n => Function.update w.returned n (w.returned n + 1) }
  (w.clear r ref pending).finish r pending after

/-- An operation that its variables do not allow is no step. -/
def step (cap : Capacity) (w : World R Ctl Obj) : Op R Ctl Obj → Option (World R Ctl Obj)
  | .default r =>
    match w.refs r with
    | .dead => some (w.put r (.alive {} []))
    | .alive .. => none
  | .adopt r value control =>
    match w.refs r with
    | .dead => some (w.adopt r value control)
    | .alive .. => none
  | .borrow r object control =>
    match w.refs r with
    | .dead => some (w.adopt r (.makeBorrowed object) control)
    | .alive .. => none
  | .moveConstruct r other =>
    match w.refs r with
    | .dead => w.transfer r other []
    | .alive .. => none
  | .moveAssign r other =>
    match w.refs r with
    | .dead => none
    | .alive ref pending => if r = other then some w else w.beginRelease r ref pending (.assigned other)
  | .release r =>
    match w.refs r with
    | .dead => none
    | .alive ref pending => w.beginRelease r ref pending .released
  | .destruct r =>
    match w.refs r with
    | .dead => none
    | .alive ref pending => w.beginRelease r ref pending .destructed
  | .returns r =>
    match w.refs r with
    | .dead => none
    | .alive _ [] => none
    | .alive ref (after :: pending) => w.endRelease r ref pending after
  | .beginUnload control =>
    some { w with
      modules.controls := Function.update w.modules.controls control (beginUnload (w.modules.controls control)) }
  | .registerModule control manifest => some { w with modules := (registerModule cap w.modules control manifest).1 }
  | .unregisterModule id => some { w with modules := (unregisterModule cap w.modules id).1 }

end World

/-- The operations come in some order; what a destroy entry does comes before it returns. -/
def owners (R Ctl Obj : Type) [DecidableEq R] [DecidableEq Ctl] (cap : Capacity) :
    Program Unit (World R Ctl Obj) Unit (Op R Ctl Obj) where
  step _ w _ op := (w.step cap op).map fun w' => (w', ())

def initial (R Ctl Obj : Type) : Config Unit (World R Ctl Obj) Unit := ⟨{}, fun _ => ()⟩

end Abix.Interface.Owner

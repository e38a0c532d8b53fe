import Abix.Concurrency.Program

/-! The lease counter of one loaded module and the threads that take, return and drain
its leases. Every access of the two atomic words is a step of its own. -/
namespace Abix.Interface
open Abix.Concurrency

inductive ModuleState where
  | loading
  | active
  | draining
  | unloaded
  deriving DecidableEq, Repr

namespace Lease

/-- `ModuleControl`: the two atomics and whether the hooks are set. The other fields are
history that no step reads: leases handed out and not given back, completed `pin` calls,
started `unpin` calls, and whether an `unregister_module` has returned ok. -/
structure Shared where
  state : ModuleState
  leases : UInt32
  pin : Bool
  unpin : Bool
  held : Nat
  pins : Nat
  unpins : Nat
  unregistered : Bool
  deriving DecidableEq, Repr

def registered (pin unpin : Bool) : Shared :=
  { state := .active, leases := 0, pin, unpin, held := 0, pins := 0, unpins := 0, unregistered := false }

/-- Where a thread stands between two atomic accesses. `un` marks the calls that
`unregister_module` makes itself. -/
inductive Pc where
  | idle (result : Option Bool)
  | acquireCheck
  | acquireAdd
  | acquireRecheck (before : UInt32)
  | acquireUndo
  | acquirePin
  | releaseSub
  | releaseUnpin
  | unloadLoad (un : Bool)
  | unloadLoop (un : Bool) (observed : ModuleState)
  | idlePoll (un : Bool) (spin : Nat)
  | idleLast (un : Bool)
  | markUnloaded
  deriving DecidableEq, Repr

/-- A call that starts, or the next access of the running one. `spurious` is the
failure that `compare_exchange_weak` may report without reason. -/
inductive Action where
  | tryAcquireLease
  | releaseLease
  | beginUnload
  | waitForIdle
  | unregisterModule
  | run (spurious : Bool)
  deriving DecidableEq, Repr

def maxSpins : Nat := 1000000

def tryAcquireLease (sh : Shared) : Pc → Option (Shared × Pc)
  | .acquireCheck => some (sh, if sh.state = .active then .acquireAdd else .idle (some false))
  | .acquireAdd => some ({ sh with leases := sh.leases + 1 }, .acquireRecheck sh.leases)
  | .acquireRecheck before =>
    if sh.state ≠ .active then some (sh, .acquireUndo)
    else if before = 0 ∧ sh.pin = true then some (sh, .acquirePin)
    else some ({ sh with held := sh.held + 1 }, .idle (some true))
  | .acquireUndo => some ({ sh with leases := sh.leases - 1 }, .idle (some false))
  | .acquirePin => some ({ sh with pins := sh.pins + 1, held := sh.held + 1 }, .idle (some true))
  | .idle _ | .releaseSub | .releaseUnpin | .unloadLoad _ | .unloadLoop _ _ | .idlePoll _ _ | .idleLast _
  | .markUnloaded => none

def releaseLease (sh : Shared) : Pc → Option (Shared × Pc)
  | .releaseSub => some ({ sh with leases := sh.leases - 1 },
      if sh.leases = 1 ∧ sh.unpin = true then .releaseUnpin else .idle none)
  | .releaseUnpin => some ({ sh with unpins := sh.unpins + 1 }, .idle none)
  | _ => none

/-- What follows `begin_unload`: `unregister_module` drops its result and waits. -/
def unloadBegun (un result : Bool) : Pc := if un then .idlePoll true 0 else .idle (some result)

def beginUnload (spurious : Bool) (sh : Shared) : Pc → Option (Shared × Pc)
  | .unloadLoad un => some (sh, .unloadLoop un sh.state)
  | .unloadLoop un observed =>
    if observed = .draining ∨ observed = .unloaded then some (sh, unloadBegun un true)
    else if observed ≠ .active then some (sh, unloadBegun un false)
    else if sh.state = .active ∧ spurious = false then some ({ sh with state := .draining }, unloadBegun un true)
    else some (sh, .unloadLoop un sh.state)
  | _ => none

/-- What follows `wait_for_idle`: `unregister_module` reports busy or goes on. -/
def idleAnswer (un answer : Bool) : Pc := if un && answer then .markUnloaded else .idle (some answer)

def waitForIdle (sh : Shared) : Pc → Option (Shared × Pc)
  | .idlePoll un spin => some (sh,
      if sh.leases = 0 then idleAnswer un true
      else if spin + 1 < maxSpins then .idlePoll un (spin + 1) else .idleLast un)
  | .idleLast un => some (sh, idleAnswer un (decide (sh.leases = 0)))
  | _ => none

def markUnloaded (sh : Shared) : Pc → Option (Shared × Pc)
  | .markUnloaded => some ({ sh with state := .unloaded, unregistered := true }, .idle (some true))
  | _ => none

def run (spurious : Bool) (sh : Shared) (pc : Pc) : Option (Shared × Pc) :=
  match pc with
  | .idle _ => none
  | .acquireCheck | .acquireAdd | .acquireRecheck _ | .acquireUndo | .acquirePin => tryAcquireLease sh pc
  | .releaseSub | .releaseUnpin => releaseLease sh pc
  | .unloadLoad _ | .unloadLoop _ _ => beginUnload spurious sh pc
  | .idlePoll _ _ | .idleLast _ => waitForIdle sh pc
  | .markUnloaded => markUnloaded sh pc

/-- A lease may be given back by any thread, since a `ModuleLease` can be moved, but no
more often than it was handed out. Once a call to `unregister_module` has returned ok the
slot is gone and a further call answers `not_registered`. -/
def step (sh : Shared) (pc : Pc) : Action → Option (Shared × Pc)
  | .run spurious => run spurious sh pc
  | call =>
    match pc, call with
    | .idle _, .tryAcquireLease => some (sh, .acquireCheck)
    | .idle _, .releaseLease =>
      if 0 < sh.held then some ({ sh with held := sh.held - 1 }, .releaseSub) else none
    | .idle _, .beginUnload => some (sh, .unloadLoad false)
    | .idle _, .waitForIdle => some (sh, .idlePoll false 0)
    | .idle _, .unregisterModule =>
      some (sh, if sh.unregistered then .idle (some false) else .unloadLoad true)
    | _, _ => none

def program (Tid : Type) : Program Tid Shared Pc Action where
  step _ sh pc a := step sh pc a

def start (Tid : Type) (pin unpin : Bool) : Config Tid Shared Pc :=
  ⟨registered pin unpin, fun _ => .idle none⟩

end Lease
end Abix.Interface

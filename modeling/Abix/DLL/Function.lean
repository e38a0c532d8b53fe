import Abix.DLL.Object
import Abix.Runtime.Search
import Mathlib.Data.Fintype.Basic

/-! One handle, called by any number of threads while other threads replace the image of its
Object. A step is one access to a shared word; the tests on the entries of an image that the
thread holds in its read section go with the access before them. -/
namespace Abix.DLL.Function
open Abix.Concurrency Abix.Runtime

/-- An image as a call sees it. A module without a table getter has no table. -/
structure Image where
  exportTable : Option Table
  deriving DecidableEq

/-- The members of a `FunctionCC` that no call writes. An index that a table has was resolved
together with a name, so `name` is not null where it is compared. `control` says that `_control`
is not null. -/
structure Handle where
  control : Bool
  name : CString
  nameHash : UInt32
  index : UInt32
  sig : UInt64

/-- The entry at the handle's index, when the table has one. -/
def Handle.entry (h : Handle) (t : Table) : Option Entry :=
  if h.index < t.count then t.entries[h.index.toNat]? else none

def Handle.Fast (h : Handle) (e : Entry) : Prop := e.nameHash = h.nameHash ∧ e.sig = h.sig ∧ e.fnptr ≠ 0

def Handle.Slow (h : Handle) (e : Entry) : Prop := e.nameHash = h.nameHash ∧ e.sig = h.sig ∧ e.name = h.name

instance (h : Handle) (e : Entry) : Decidable (h.Fast e) := instDecidableAnd

instance (h : Handle) (e : Entry) : Decidable (h.Slow e) := instDecidableAnd

/-- The shared words: the images that are alive, the Control's `image` and `state`, the handle's
`_verified_image`, and which threads are in a read section. `held` and `seen` are history: the
image that a thread loaded in its section, and the images that were current during it. -/
structure Shared (Tid Addr : Type) where
  heap : Addr → Option Image := fun _ => none
  image : Option Addr := none
  state : State := .zombie
  verifiedImage : Option Addr := none
  reading : Tid → Bool := fun _ => false
  held : Tid → Option Addr := fun _ => none
  seen : Tid → List Addr := fun _ => []

/-- Who called `enter_read`: the slow path, with the image it loaded before, or the user of an
Object. -/
inductive Reader (Addr : Type) where
  | slowPath (validatedAgainst : Option Addr)
  | user
  deriving DecidableEq, Repr

/-- What a thread last returned from: `operator()`, or `enter_read` with its table. -/
inductive Done where
  | none
  | call
  | table (t : Option Table)
  deriving DecidableEq

inductive Pc (Addr : Type) where
  | idle (done : Done)
  | fastEnter
  | fastLoad
  | fastCompare (image : Option Addr)
  | fastCall (image : Addr) (fn : UInt64)
  | fastReturn
  | fastExit
  | slowState
  | slowImage
  | readEnter (r : Reader Addr)
  | readLoad (r : Reader Addr)
  | readBail (r : Reader Addr)
  | slowCheck (validatedAgainst : Option Addr) (found : Option (Addr × Table))
  | slowFail (error : CallError)
  | slowStore (validatedAgainst : Option Addr) (image : Addr) (fn : UInt64)
  | slowCall (image : Addr) (fn : UInt64)
  | slowReturn
  deriving DecidableEq

inductive Path where
  | fast
  | slow
  deriving DecidableEq, Repr

def Path.return : Path → Pc Addr
  | .fast => .fastReturn
  | .slow => .slowReturn

/-- The thread runs the code of a user: outside the calls, or as the callee of one. -/
def Pc.user : Pc Addr → Option (Option Path)
  | .idle _ => some none
  | .fastReturn => some (some .fast)
  | .slowReturn => some (some .slow)
  | _ => none

inductive Found where
  | nothing
  | tableless
  | table
  deriving DecidableEq, Repr

/-- `frames` are the calls whose callees made the running one. The rest but `lastError` is history
of the running call: whether it began outside any section and its callee called nothing here,
whether it wrote `last_error()`, the pointers it invoked, and what its `enter_read` found. -/
structure Local (Addr : Type) where
  pc : Pc Addr := .idle .none
  frames : List Path := []
  lastError : CallError := .none
  undisturbed : Bool := false
  reported : Bool := false
  invoked : List UInt64 := []
  found : Option Found := none

/-- A call of `operator()` or of `Object::enter_read`, the matching `exit_read`, the next access
of the running call, the return to the callee that made it, or a step of the threads that replace
the image: an image is allocated at an address that is free, exchanged into the Control, and freed
after another exchange. -/
inductive Action (Addr : Type) where
  | call
  | enterRead
  | exitRead
  | run
  | resume
  | allocate (a : Addr) (img : Image)
  | exchange (new : Option Addr)
  | setState (s : State)
  | free (a : Addr)

variable {Tid Addr : Type} [DecidableEq Tid] [DecidableEq Addr]

namespace Shared

/-- `Domain::enter`. The epoch of a section around this one is overwritten. -/
def enter (sh : Shared Tid Addr) (t : Tid) : Shared Tid Addr where
  heap := sh.heap
  image := sh.image
  state := sh.state
  verifiedImage := sh.verifiedImage
  reading := Function.update sh.reading t true
  held := Function.update sh.held t none
  seen := Function.update sh.seen t sh.image.toList

def exit (sh : Shared Tid Addr) (t : Tid) : Shared Tid Addr :=
  { sh with reading := Function.update sh.reading t false, held := Function.update sh.held t none }

def hold (sh : Shared Tid Addr) (t : Tid) (a : Option Addr) : Shared Tid Addr :=
  { sh with held := Function.update sh.held t a }

end Shared

def Local.report (l : Local Addr) (error : CallError) : Local Addr := { l with lastError := error, reported := true }

def Local.invoke (l : Local Addr) (fn : UInt64) : Local Addr := { l.report .none with invoked := fn :: l.invoked }

/-- The fast path once it has loaded an image; `none` where the image is not alive. -/
def fastPath (h : Handle) (sh : Shared Tid Addr) (image : Option Addr) : Option (Pc Addr) :=
  match image with
  | none => some .fastExit
  | some a =>
    if sh.verifiedImage ≠ some a then some .fastExit
    else (sh.heap a).map fun img =>
      match img.exportTable.bind h.entry with
      | some e => if h.Fast e then .fastCall a e.fnptr else .fastExit
      | none => .fastExit

/-- The slow path once `enter_read` has returned a table. -/
def slowPath (h : Handle) (validatedAgainst : Option Addr) (a : Addr) (t : Table) : Pc Addr :=
  match h.entry t with
  | none => .slowFail .tableChanged
  | some e =>
    if ¬ h.Slow e then .slowFail .tableChanged
    else if e.fnptr = 0 then .slowFail .invalid
    else .slowStore validatedAgainst a e.fnptr

def Reader.return (r : Reader Addr) (found : Option (Addr × Table)) : Pc Addr :=
  match r with
  | .slowPath v => .slowCheck v found
  | .user => .idle (.table (found.map Prod.snd))

def readImage (t : Tid) (sh : Shared Tid Addr) (l : Local Addr) (r : Reader Addr) (image : Option Addr) :
    Option (Shared Tid Addr × Local Addr) :=
  match image with
  | none => some (sh, { l with pc := .readBail r, found := some .nothing })
  | some a => (sh.heap a).map fun img => (sh.hold t (some a),
      match img.exportTable with
      | none => { l with pc := r.return none, found := some .tableless }
      | some tbl => { l with pc := r.return (some (a, tbl)), found := some .table })

def run (h : Handle) (t : Tid) (sh : Shared Tid Addr) (l : Local Addr) : Option (Shared Tid Addr × Local Addr) :=
  match l.pc with
  | .idle _ => none
  | .fastEnter => some (sh.enter t, { l with pc := .fastLoad })
  | .fastLoad => some (sh.hold t sh.image, { l with pc := .fastCompare sh.image })
  | .fastCompare image => (fastPath h sh image).map fun pc => (sh, { l with pc })
  | .fastCall _ fn => some (sh, { l.invoke fn with pc := .fastReturn })
  | .fastReturn => some (sh.exit t, { l with pc := .idle .call })
  | .fastExit => some (sh.exit t, { l with pc := .slowState })
  | .slowState =>
    some (sh, if sh.state ≠ .active then { l.report .notLoaded with pc := .idle .call } else { l with pc := .slowImage })
  | .slowImage => some (sh, { l with pc := .readEnter (.slowPath sh.image) })
  | .readEnter r => some (sh.enter t, { l with pc := .readLoad r })
  | .readLoad r => readImage t sh l r (if h.control then sh.image else none)
  | .readBail (.slowPath v) => some (sh.exit t, { l with pc := .slowCheck v none })
  | .readBail .user => some (sh.exit t, { l.report .unloading with pc := .idle (.table none) })
  | .slowCheck _ none => some (sh, { l with pc := .idle .call })
  | .slowCheck v (some (a, tbl)) => some (sh, { l with pc := slowPath h v a tbl })
  | .slowFail error => some (sh.exit t, { l.report error with pc := .idle .call })
  | .slowStore v a fn => some ({ sh with verifiedImage := v }, { l with pc := .slowCall a fn })
  | .slowCall _ fn => some (sh, { l.invoke fn with pc := .slowReturn })
  | .slowReturn => some (sh.exit t, { l with pc := .idle .call })

def Local.push (l : Local Addr) (reading : Bool) (caller : Option Path) : Local Addr where
  pc := l.pc
  frames := caller.toList ++ l.frames
  lastError := l.lastError
  undisturbed := !reading

def begin (h : Handle) (l : Local Addr) : Local Addr :=
  if h.control then { l with pc := .fastEnter } else { l.report .notLoaded with pc := .idle .call }

def step (h : Handle) (t : Tid) (sh : Shared Tid Addr) (l : Local Addr) :
    Action Addr → Option (Shared Tid Addr × Local Addr)
  | .call => l.pc.user.map fun caller => (sh, begin h (l.push (sh.reading t) caller))
  | .enterRead => l.pc.user.map fun caller => (sh, { l.push (sh.reading t) caller with pc := .readEnter .user })
  | .exitRead =>
    match l.pc with
    | .idle _ => some (sh.exit t, { l with pc := .idle .none })
    | _ => none
  | .run => run h t sh l
  | .resume =>
    match l.pc, l.frames with
    | .idle _, path :: frames => some (sh, { l with pc := path.return, frames, undisturbed := false })
    | _, _ => none
  | .allocate a img =>
    if (sh.heap a).isNone then some ({ sh with heap := Function.update sh.heap a (some img) }, l) else none
  | .exchange new =>
    if ∀ a ∈ new, (sh.heap a).isSome then
      some ({ sh with image := new, seen := fun u => new.toList ++ sh.seen u }, l)
    else none
  | .setState s => some ({ sh with state := s }, l)
  | .free a =>
    -- `force_unload` frees what it took out of the Control at once, whoever reads it
    if sh.image ≠ some a then some ({ sh with heap := Function.update sh.heap a none }, l) else none

/-- No open section holds the image that the step frees. `retire_image` waits for this, and the caller of
`force_unload` must see to it. -/
def Spares (sh : Shared Tid Addr) : Action Addr → Prop
  | .free a => ∀ u, sh.held u ≠ some a
  | _ => True

instance [Fintype Tid] (sh : Shared Tid Addr) : (a : Action Addr) → Decidable (Spares sh a)
  | .free _ => inferInstanceAs (Decidable (∀ _, _))
  | .call | .enterRead | .exitRead | .run | .resume | .allocate _ _ | .exchange _ | .setState _ => .isTrue trivial

/-- The calls among replacements of any kind. -/
def forcedCalls (Tid Addr : Type) [DecidableEq Tid] [DecidableEq Addr] (h : Handle) :
    Program Tid (Shared Tid Addr) (Local Addr) (Action Addr) where
  step := step h

/-- The calls among replacements that spare the images in use. -/
def calls (Tid Addr : Type) [DecidableEq Tid] [DecidableEq Addr] [Fintype Tid] (h : Handle) :
    Program Tid (Shared Tid Addr) (Local Addr) (Action Addr) where
  step t sh l a := if Spares sh a then step h t sh l a else none

def start (Tid Addr : Type) : Config Tid (Shared Tid Addr) (Local Addr) := ⟨{}, fun _ => {}⟩

end Abix.DLL.Function

import Abix.RCU.Custody

/-! Objects, their shared Controls and the images they publish, over the reclamation domain.
A thread is inside at most one call of an Object; that call makes calls of the domain, and
the accesses of all threads interleave. -/
namespace Abix.DLL
open Abix.Concurrency Abix.RCU

inductive CallError where
  | none
  | notLoaded
  | notFound
  | sigMismatch
  | versionMismatch
  | staleHandle
  | tableChanged
  | invalid
  | loadFailed
  | unloading
  | lockTimeout
  deriving DecidableEq, Repr

inductive State where
  | active
  | retiring
  | zombie
  deriving DecidableEq, Repr

inductive ReclaimOutcome where
  | notAttempted
  | reclaimed
  | deferredBatched
  | deferredTimeout
  deriving DecidableEq, Repr

/-- Images are named by the order in which `load_image` allocated them. -/
structure Control where
  image : Option Nat := none
  state : State := .zombie
  writerLock : Bool := false
  reclaimTimeoutMs : Nat := 0
  lastReclaim : ReclaimOutcome := .notAttempted
  deriving DecidableEq, Repr

/-- An `Object` and what keeps its Control alive. `control` is `none` where `_c` is null and
after `delete c`. `owned` says that the member `_c` still holds its reference, `handles`
counts the other ones, and `calls` the member calls in progress. -/
structure Object where
  control : Option Control
  path : String := ""
  alive : Bool := true
  owned : Bool := true
  handles : Nat := 0
  calls : Nat := 0
  deriving DecidableEq, Repr

def Object.useCount (x : Object) : Nat := (if x.owned then 1 else 0) + x.handles

/-- What the domain is asked to reclaim: an image's index, an image, or anything else. -/
inductive Resource (Ext : Type) where
  | index (image : Nat)
  | image (image : Nat)
  | other (x : Ext)
  deriving DecidableEq, Repr

inductive Reclaim where
  | reclaimIndex
  | reclaimImage
  | other
  deriving DecidableEq, Repr

/-- What `load`, `reload` and `unload` return, with the error they report. -/
structure Returned where
  ok : Bool
  error : CallError
  deriving DecidableEq, Repr

inductive Swap where
  | publish (path : String) (image : Nat)
  | unload
  | destroy
  | force
  deriving DecidableEq, Repr

def Swap.image : Swap → Option Nat
  | .publish _ i => some i
  | _ => none

def Swap.state : Swap → State
  | .publish _ _ => .active
  | _ => .zombie

def Swap.bounded : Swap → Bool
  | .publish _ _ | .unload => true
  | .destroy | .force => false

inductive Stage where
  | index
  | sync
  | image
  | wait
  | check (token : Nat)
  | outcome (proven : Bool)
  deriving DecidableEq, Repr

inductive Next where
  | setPath (path : String)
  | unloaded
  | destroyed
  | deleted
  deriving DecidableEq, Repr

def Swap.next : Swap → Option Next
  | .publish path _ => some (.setPath path)
  | .unload => some .unloaded
  | .destroy => some .destroyed
  | .force => none

/-- Where a thread stands in the code of `Object`, between two calls of the domain. -/
inductive Frame (Obj : Type) where
  | idle (result : Option Returned)
  | loadImage (o : Obj) (path : String)
  | useCount (o : Obj) (s : Swap)
  | lock (o : Obj) (s : Swap) (limited : Bool) (polls : Nat)
  | exchange (o : Obj) (s : Swap)
  | storeState (o : Obj) (s : Swap) (previous : Option Nat)
  | unlock (o : Obj) (s : Swap) (previous : Option Nat)
  | retire (o : Obj) (image : Nat) (bounded : Bool) (stage : Stage) (next : Next)
  | setPath (o : Obj) (path : String)
  | discard (o : Obj) (image : Nat)
  | forceFree (o : Obj) (image : Nat)
  | dropObject (o : Obj)
  | deleteControl (o : Obj)
  deriving DecidableEq, Repr

/-- The domain, the Objects, and four lists of history that no step reads: the images that
were exchanged into a Control, thrown away unpublished, given to `retire_image` or freed by
`force_unload`, and the outcomes that were recorded. -/
structure Shared (Tid Obj Ext : Type) where
  dom : RCU.Shared Tid (Resource Ext) Reclaim := {}
  objects : Obj → Object
  nextImage : Nat := 0
  published : List Nat := []
  discarded : List Nat := []
  disposed : List Nat := []
  outcomes : List (Nat × ReclaimOutcome) := []

/-- `changed` is history: a step of the running call changed an image, a state or a path. -/
structure Local (Tid Obj Ext : Type) where
  dom : RCU.Local Tid (Resource Ext) Reclaim := {}
  frame : Frame Obj := .idle none
  changed : Bool := false

/-- A call of an Object, of a handle, of the domain itself, or the next access of the
running call. `answer` is the environment's: the module loaded, the allocation succeeded,
the deadline has passed. -/
inductive Action (Obj Ext : Type) where
  | load (o : Obj) (path : String)
  | reload (o : Obj) (path : String)
  | unload (o : Obj)
  | forceUnload (o : Obj)
  | destroy (o : Obj)
  | setReclaimTimeoutMs (o : Obj) (ms : Nat)
  | makeHandle (o : Obj)
  | dropHandle (o : Obj)
  | domain (a : RCU.Action (Resource Ext) Reclaim)
  | run (answer : Bool)
  deriving DecidableEq, Repr

variable {Tid Obj Ext : Type} [DecidableEq Tid] [DecidableEq Obj]

/-- `retire_image`: the call of the domain at a stage, given what the previous one returned. -/
def retireImage (image : Nat) (bounded : Bool) (r : Result) :
    Stage → Option (RCU.Action (Resource Ext) Reclaim × Stage)
  | .index => some (.retireEager (some (.index image)) (some .reclaimIndex), if bounded then .image else .sync)
  | .sync => some (.synchronizeEager, .image)
  | .image => some (.retireToken (some (.image image)) (some .reclaimImage), .wait)
  | .wait => some (if bounded then .synchronizeUntil true else .synchronize,
      .check (match r with | .token k => k | _ => 0))
  | .check token => some (.reclaimedThrough token .batched, .outcome (decide (r = .answer true)))
  | .outcome _ => none

def reclaimOutcome (bounded proven done : Bool) : ReclaimOutcome :=
  if done then .reclaimed else if bounded && !proven then .deferredTimeout else .deferredBatched

/-- Direct users of the domain retire their own objects. -/
def direct : RCU.Action (Resource Ext) Reclaim → Bool
  | .run _ => false
  | .retire object _ | .retireEager object _ | .retireToken object _ =>
    match object with
    | some (.index _) | some (.image _) => false
    | _ => true
  | _ => true

/-- The access of the domain that a step makes, and the place it leads to. -/
def domainAccess (l : Local Tid Obj Ext) :
    Action Obj Ext → Option (RCU.Action (Resource Ext) Reclaim × Frame Obj)
  | .domain a =>
    match l.dom.pc, l.frame with
    | .idle _, .idle _ => if direct a then some (a, l.frame) else none
    | _, _ => none
  | .run answer =>
    match l.dom.pc, l.frame with
    | .idle r, .retire o i bounded stage next =>
      (retireImage i bounded r stage).map fun b => (b.1, .retire o i bounded b.2 next)
    | .idle _, _ => none
    | _, frame => some (.run answer, frame)
  | _ => none

namespace Shared

def setObject (sh : Shared Tid Obj Ext) (o : Obj) (x : Object) : Shared Tid Obj Ext :=
  { sh with objects := Function.update sh.objects o x }

def setControl (sh : Shared Tid Obj Ext) (o : Obj) (c : Control) : Shared Tid Obj Ext :=
  sh.setObject o { sh.objects o with control := some c }

def returned (sh : Shared Tid Obj Ext) (o : Obj) (r : Option Returned) : Shared Tid Obj Ext × Frame Obj :=
  (sh.setObject o { sh.objects o with calls := (sh.objects o).calls - 1 }, .idle r)

/-- `lock_writer` up to its first compare-and-swap. -/
def lockWriter (c : Control) (o : Obj) (s : Swap) : Frame Obj :=
  .lock o s (s.bounded && decide (c.reclaimTimeoutMs ≠ 0)) 0

def retire (sh : Shared Tid Obj Ext) (c : Control) (o : Obj) (i : Nat) (next : Next) :
    Shared Tid Obj Ext × Frame Obj :=
  ({ sh with disposed := i :: sh.disposed }, .retire o i (decide (c.reclaimTimeoutMs ≠ 0)) .index next)

/-- `destroy_control`, once the last reference is gone. -/
def destroyControl (sh : Shared Tid Obj Ext) (o : Obj) (c : Control) : Shared Tid Obj Ext × Frame Obj :=
  match c.image with
  | some i => sh.retire c o i .deleted
  | none => (sh, .deleteControl o)

def timedOut (sh : Shared Tid Obj Ext) (o : Obj) : Swap → Shared Tid Obj Ext × Frame Obj
  | .publish _ i => (sh, .discard o i)
  | _ => sh.returned o (some ⟨false, .lockTimeout⟩)

/-- What follows `retire_image`, or an exchange that found no image to retire. -/
def retired (sh : Shared Tid Obj Ext) (o : Obj) : Next → Shared Tid Obj Ext × Frame Obj
  | .setPath path => (sh, .setPath o path)
  | .unloaded => sh.returned o (some ⟨true, .none⟩)
  | .destroyed => (sh, .dropObject o)
  | .deleted => (sh, .deleteControl o)

/-- What follows the release of the writer lock: `force_unload` frees the previous image
itself, the others retire it. -/
def swapped (sh : Shared Tid Obj Ext) (c : Control) (o : Obj) (s : Swap) (previous : Option Nat) :
    Shared Tid Obj Ext × Frame Obj :=
  match s.next, previous with
  | some next, some i => sh.retire c o i next
  | some next, none => sh.retired o next
  | none, some i => (sh, .forceFree o i)
  | none, none => sh.returned o none

end Shared

/-- An access that the code of `Object` makes itself, on the Control `c` of `o`. `r` is what
the last call of the domain returned. -/
def objectStep (sh : Shared Tid Obj Ext) (r : Result) (answer : Bool) (c : Control) :
    Frame Obj → Option (Shared Tid Obj Ext × Frame Obj)
  | .idle _ => none
  | .loadImage o path =>
    if answer then
      some ({ sh with nextImage := sh.nextImage + 1 }, Shared.lockWriter c o (.publish path sh.nextImage))
    else some (sh.returned o (some ⟨false, .loadFailed⟩))
  | .useCount o s =>
    if 1 < (sh.objects o).useCount then
      some (if s = .destroy then (sh, .dropObject o) else sh.returned o (some ⟨false, .staleHandle⟩))
    else some (sh, Shared.lockWriter c o s)
  | .lock o s limited polls =>
    if c.writerLock = false then some (sh.setControl o { c with writerLock := true }, .exchange o s)
    else if limited = true ∧ (polls + 1) % 256 = 0 ∧ answer = true then some (sh.timedOut o s)
    else some (sh, .lock o s limited (polls + 1))
  | .exchange o s =>
    some ({ sh.setControl o { c with image := s.image } with published := s.image.toList ++ sh.published },
      .storeState o s c.image)
  | .storeState o s previous => some (sh.setControl o { c with state := s.state }, .unlock o s previous)
  | .unlock o s previous => some ((sh.setControl o { c with writerLock := false }).swapped c o s previous)
  | .retire o i bounded stage next =>
    match stage with
    | .outcome proven =>
      let outcome := reclaimOutcome bounded proven (decide (r = .answer true))
      some (({ sh.setControl o { c with lastReclaim := outcome } with outcomes := (i, outcome) :: sh.outcomes }).retired o next)
    | _ => none
  | .setPath o path => some ((sh.setObject o { sh.objects o with path := path }).returned o (some ⟨true, .none⟩))
  | .discard o i => some ({ sh with discarded := i :: sh.discarded }.returned o (some ⟨false, .lockTimeout⟩))
  | .forceFree o i => some ({ sh with disposed := i :: sh.disposed }.returned o none)
  | .dropObject o =>
    let sh' := sh.setObject o { sh.objects o with owned := false }
    some (if (sh.objects o).handles = 0 then sh'.destroyControl o c else (sh', .idle none))
  | .deleteControl o => some (sh.setObject o { sh.objects o with control := none }, .idle none)

def Frame.object : Frame Obj → Option Obj
  | .idle _ => none
  | .loadImage o _ | .useCount o _ | .lock o _ _ _ | .exchange o _ | .storeState o _ _ | .unlock o _ _
  | .retire o _ _ _ _ | .setPath o _ | .discard o _ | .forceFree o _ | .dropObject o | .deleteControl o => some o

/-- The start of a member call: without a Control it returns at once. -/
def callObject (sh : Shared Tid Obj Ext) (o : Obj) (frame : Frame Obj) (refused : Option Returned) :
    Option (Shared Tid Obj Ext × Frame Obj) :=
  let x := sh.objects o
  if x.alive = false then none
  else if x.control = none then some (sh, .idle refused)
  else some (sh.setObject o { x with calls := x.calls + 1 }, frame)

/-- The calls. An Object is destroyed when none of its members is running, and its handles
copy the reference while it is alive. -/
def call (sh : Shared Tid Obj Ext) : Action Obj Ext → Option (Shared Tid Obj Ext × Frame Obj)
  | .load o path => callObject sh o (.loadImage o path) (some ⟨false, .loadFailed⟩)
  | .reload o path => callObject sh o (.loadImage o path) (some ⟨false, .loadFailed⟩)
  | .unload o => callObject sh o (.useCount o .unload) (some ⟨false, .none⟩)
  | .forceUnload o =>
    callObject sh o (Shared.lockWriter (((sh.objects o).control).getD {}) o .force) none
  | .destroy o =>
    let x := sh.objects o
    if x.alive = true ∧ x.calls = 0 then
      some (sh.setObject o { x with alive := false },
        if x.control = none then .idle none else .useCount o .destroy)
    else none
  | .setReclaimTimeoutMs o ms =>
    match (sh.objects o).alive, (sh.objects o).control with
    | true, some c => some (sh.setControl o { c with reclaimTimeoutMs := ms }, .idle none)
    | true, none => some (sh, .idle none)
    | false, _ => none
  | .makeHandle o =>
    let x := sh.objects o
    if x.alive = true ∧ x.control ≠ none then some (sh.setObject o { x with handles := x.handles + 1 }, .idle none)
    else none
  | .dropHandle o =>
    let x := sh.objects o
    match x.handles, x.control with
    | k + 1, some c =>
      let sh' := sh.setObject o { x with handles := k }
      some (if k = 0 ∧ x.owned = false then sh'.destroyControl o c else (sh', .idle none))
    | _, _ => none
  | .domain _ | .run _ => none

def differs (x y : Object) : Bool :=
  decide (x.control.map Control.image ≠ y.control.map Control.image ∨
    x.control.map Control.state ≠ y.control.map Control.state ∨ x.path ≠ y.path)

def step (t : Tid) (sh : Shared Tid Obj Ext) (l : Local Tid Obj Ext) (a : Action Obj Ext) :
    Option (Shared Tid Obj Ext × Local Tid Obj Ext) :=
  match domainAccess l a with
  | some (b, frame) =>
    (RCU.step t sh.dom l.dom b).map fun d => ({ sh with dom := d.1 }, { l with dom := d.2, frame })
  | none =>
    match l.dom.pc, l.frame, a with
    | .idle _, .idle _, a => (call sh a).map fun r => (r.1, { l with frame := r.2, changed := false })
    | .idle r, frame, .run answer =>
      match frame.object with
      | some o =>
        match (sh.objects o).control with
        | some c => (objectStep sh r answer c frame).map fun s =>
            (s.1, { l with frame := s.2, changed := l.changed || differs (sh.objects o) (s.1.objects o) })
        | none => none
      | none => none
    | _, _, _ => none

def system (Tid Obj Ext : Type) [DecidableEq Tid] [DecidableEq Obj] :
    Program Tid (Shared Tid Obj Ext) (Local Tid Obj Ext) (Action Obj Ext) where
  step := step

/-- Every Object is just constructed; `made` says where `make_control` got its memory. -/
def start (Tid Ext : Type) {Obj : Type} (made : Obj → Bool) :
    Config Tid (Shared Tid Obj Ext) (Local Tid Obj Ext) :=
  ⟨{ objects := fun o => { control := if made o then some {} else none } }, fun _ => {}⟩

end Abix.DLL

import Abix.Concurrency.Ledger
import Abix.Concurrency.Program

/-! The counting pointers under one thread: `SharedPtr` with `WeakPtr`, and `RefPtr` with `ViewPtr`,
which are the same code over other names. A destroy callback is a stretch of further operations in
the middle of a reset. -/
namespace Abix.DLL.Pointers
open Abix.Concurrency

inductive Kind where
  | sharedPtr
  | weakPtr
  | refPtr
  | viewPtr
  deriving DecidableEq, Repr

def Kind.owns : Kind → Bool
  | .sharedPtr | .refPtr => true
  | .weakPtr | .viewPtr => false

def Kind.observer : Kind → Kind
  | .sharedPtr | .weakPtr => .weakPtr
  | .refPtr | .viewPtr => .viewPtr

def Kind.owner : Kind → Kind
  | .sharedPtr | .weakPtr => .sharedPtr
  | .refPtr | .viewPtr => .refPtr

/-- A handle that lives, with its `_cb`. `leaving` records that its reset has given up the share it
had in the block and still runs. -/
structure Handle where
  kind : Kind
  cb : Option Nat := none
  leaving : Bool := false
  deriving DecidableEq, Repr

/-- A control block. The fields from `managed` on record what has happened to it: it came with a
callback, `release` handed its object on, how often the callback was called and the block freed. -/
structure Block (Obj : Type) where
  ptr : Option Obj := none
  destroy : Bool := false
  strongs : UInt32 := 0
  weaks : UInt32 := 0
  managed : Bool := false
  released : Bool := false
  destroyed : Nat := 0
  freed : Nat := 0

variable {H Obj : Type} [DecidableEq H]

/-- What an operation does with its handle behind the reset: nothing, end its life, or take over
the block of a source, by copy or by move. -/
inductive After (H : Type) where
  | nothing
  | dead
  | assigned (o : H)
  | moved (o : H)
  deriving DecidableEq, Repr

def After.source : After H → Option H
  | .nothing | .dead => none
  | .assigned o | .moved o => some o

structure Frame (H : Type) where
  handle : H
  kind : Kind
  after : After H
  deriving DecidableEq, Repr

/-- The storage of all handles, the blocks allocated so far, and the resets that wait, the innermost
first. `fault` records that a freed block or a dead handle was accessed, or a null pointer. -/
structure World (H Obj : Type) where
  handles : H → Option Handle := fun _ => none
  blocks : Nat → Block Obj := fun _ => {}
  next : Nat := 0
  frames : List (Frame H) := []
  fault : Bool := false

inductive Op (H Obj : Type) where
  | construct (h : H) (kind : Kind) (p : Option Obj) (d allocated : Bool)
  | copy (h : H) (kind : Kind) (o : H)
  | move (h o : H)
  | assign (h o : H)
  | moveAssign (h o : H)
  | reset (h : H)
  | release (h : H)
  | lock (h o : H)
  | read (h : H)
  | destroy (h : H)
  | returns
  deriving DecidableEq, Repr

def Block.count (kind : Kind) (blk : Block Obj) : UInt32 := if kind.owns then blk.strongs else blk.weaks

def Block.increment (kind : Kind) (blk : Block Obj) : Block Obj :=
  if kind.owns then { blk with strongs := blk.strongs + 1 } else { blk with weaks := blk.weaks + 1 }

namespace World

def cb (w : World H Obj) (h : H) : Option Nat := (w.handles h).bind Handle.cb

def put (w : World H Obj) (h : H) (hd : Option Handle) : World H Obj :=
  { w with handles := Function.update w.handles h hd }

def set (w : World H Obj) (b : Nat) (blk : Block Obj) : World H Obj :=
  { w with blocks := Function.update w.blocks b blk }

def access (w : World H Obj) (b : Nat) (f : Block Obj → Block Obj) : World H Obj :=
  { w.set b (f (w.blocks b)) with fault := w.fault || 0 < (w.blocks b).freed }

def dealloc (w : World H Obj) (b : Nat) : World H Obj := w.set b { w.blocks b with freed := (w.blocks b).freed + 1 }

def attach (w : World H Obj) (h : H) (kind : Kind) : Option Nat → World H Obj
  | none => w.put h (some { kind })
  | some b => (w.put h (some { kind, cb := some b })).access b (Block.increment kind)

def transfer (w : World H Obj) (h o : H) (src : Handle) : World H Obj :=
  (w.put h (some { kind := src.kind, cb := src.cb })).put o (some { src with cb := none })

def finish (w : World H Obj) (h : H) (kind : Kind) : After H → World H Obj
  | .nothing => w
  | .dead => w.put h none
  | .assigned o =>
    match w.handles o with
    | none => { w with fault := true }
    | some src => w.attach h kind src.cb
  | .moved o =>
    match w.handles o with
    | none => { w with fault := true }
    | some src => w.transfer h o src

/-- `reset` behind the callback. The handle's `_cb` is read again there. -/
def endReset (w : World H Obj) (h : H) (kind : Kind) : World H Obj :=
  match w.cb h with
  | none => { w with fault := true }
  | some b =>
    let cleared := w.access b fun blk => { blk with ptr := none }
    let freed := if (cleared.blocks b).weaks = 0 then cleared.dealloc b else cleared
    freed.put h (some { kind })

/-- `reset` of an owning handle on block `b`, up to the callback if it comes to that. -/
def reset (w : World H Obj) (h : H) (kind : Kind) (b : Nat) (after : After H) : World H Obj :=
  let less := w.access b fun blk => { blk with strongs := blk.strongs - 1 }
  if (less.blocks b).strongs = 0 then
    let leaving := less.put h (some { kind, cb := some b, leaving := true })
    if (leaving.blocks b).destroy then
      { leaving.access b fun blk => { blk with destroyed := blk.destroyed + 1 } with
          frames := { handle := h, kind, after } :: w.frames }
    else (leaving.endReset h kind).finish h kind after
  else (less.put h (some { kind })).finish h kind after

def releaseWeak (w : World H Obj) (h : H) (kind : Kind) (b : Nat) : World H Obj :=
  let less := w.access b fun blk => { blk with weaks := blk.weaks - 1 }
  let freed := if (less.blocks b).weaks = 0 ∧ (less.blocks b).strongs = 0 then less.dealloc b else less
  freed.put h (some { kind })

/-- A handle gives up what it has, and goes on with what comes behind that. -/
def drop (w : World H Obj) (h : H) (hd : Handle) (after : After H) : World H Obj :=
  match hd.cb with
  | none => w.finish h hd.kind after
  | some b =>
    if hd.kind.owns then w.reset h hd.kind b after
    else (w.releaseWeak h hd.kind b).finish h hd.kind after

/-- `SharedPtr(p, d)`; the other classes have the constructor of a handle on nothing. -/
def construct (w : World H Obj) (h : H) (kind : Kind) (p : Option Obj) (d allocated : Bool) : World H Obj :=
  if p.isSome ∧ allocated then
    { (w.put h (some { kind, cb := some w.next })).set w.next { ptr := p, destroy := d, strongs := 1, managed := d } with
        next := w.next + 1 }
  else w.put h (some { kind })

/-- `SharedPtr::release`: the only owner hands the object on. -/
def release (w : World H Obj) (h : H) (hd : Handle) : World H Obj :=
  match hd.cb with
  | none => w
  | some b =>
    let read := w.access b id
    if (w.blocks b).strongs ≠ 1 then read
    else (read.access b fun blk => { blk with ptr := none, destroy := false, released := true }).reset h hd.kind b .nothing

/-- `WeakPtr::lock`: a new owner, if there is one already. -/
def lock (w : World H Obj) (h : H) (src : Handle) : World H Obj :=
  match src.cb with
  | none => w.attach h src.kind.owner none
  | some b =>
    let read := w.access b id
    if (w.blocks b).strongs = 0 then read.attach h src.kind.owner none else read.attach h src.kind.owner (some b)

/-- An operation from its start to its end, or to the call of a callback. Only storage without a
handle gets a new one, and only handles that live take part. -/
def step (w : World H Obj) : Op H Obj → Option (World H Obj)
  | .construct h kind p d allocated =>
    if w.handles h = none ∧ (p.isSome → kind.owns) then some (w.construct h kind p d allocated) else none
  | .copy h kind o =>
    match w.handles h, w.handles o with
    | none, some src => if kind = src.kind ∨ kind = src.kind.observer then some (w.attach h kind src.cb) else none
    | _, _ => none
  | .move h o =>
    match w.handles h, w.handles o with
    | none, some src => some (w.transfer h o src)
    | _, _ => none
  | .assign h o =>
    match w.handles h, w.handles o with
    | some hd, some src =>
      if hd.kind = src.kind ∨ hd.kind = src.kind.observer then
        if h = o then some w else some (w.drop h hd (.assigned o))
      else none
    | _, _ => none
  | .moveAssign h o =>
    match w.handles h, w.handles o with
    | some hd, some src =>
      if hd.kind = src.kind then if h = o then some w else some (w.drop h hd (.moved o)) else none
    | _, _ => none
  | .reset h => (w.handles h).map fun hd => w.drop h hd .nothing
  | .release h => (w.handles h).bind fun hd => if hd.kind.owns then some (w.release h hd) else none
  | .lock h o =>
    match w.handles h, w.handles o with
    | none, some src => if src.kind.owns then none else some (w.lock h src)
    | _, _ => none
  | .read h => (w.handles h).map fun hd => hd.cb.elim w fun b => w.access b id
  | .destroy h => (w.handles h).map fun hd => w.drop h hd .dead
  | .returns =>
    match w.frames with
    | [] => none
    | f :: frames => some (({ w with frames }.endReset f.handle f.kind).finish f.handle f.kind f.after)

end World

def sequential (H Obj : Type) [DecidableEq H] : Program Unit (World H Obj) Unit (Op H Obj) where
  step _ w _ op := (w.step op).map fun w' => (w', ())

def initial (H Obj : Type) : Config Unit (World H Obj) Unit := ⟨{}, fun _ => ()⟩

end Abix.DLL.Pointers

import Abix.DLL.RightFunction
import Abix.DLL.Readers

/-! The calls of a handle among the operations on its Object. A call enters and leaves its read section
through the domain, access by access, and loads the image that the Objects publish; what it finds there
is gone once the domain has called the image back. Seen from the handle this is the program of
`Function`, whose images are freed by threads that respect every section. -/
namespace Abix.DLL.Process
open Abix.Concurrency Abix.RCU
variable {Tid Obj Ext Addr : Type}

/-- What the loads bring in, in their order: where an image is allocated, and what its module exports. -/
structure Modules (Addr : Type) where
  address : Nat → Addr
  image : Nat → Function.Image

/-- The Objects with their readers, the handle's `_verified_image`, and the history of its calls. -/
structure Shared (Tid Obj Ext Addr : Type) where
  readers : Readers.Shared Tid Obj Ext
  verifiedImage : Option Addr := none
  reading : Tid → Bool := fun _ => false
  held : Tid → Option Addr := fun _ => none
  seen : Tid → List Addr := fun _ => []

/-- `crossing` says that a call of `enter` or `exit` which the code of the handle made is under way. -/
structure Local (Tid Obj Ext Addr : Type) where
  object : DLL.Local Tid Obj Ext := {}
  call : Function.Local Addr := {}
  crossing : Bool := false

/-- What user code does with the Objects and the domain, and the calls of the handle and their accesses. -/
inductive Action (Obj Ext Addr : Type) where
  | user (a : DLL.Action Obj Ext)
  | handle (b : Function.Action Addr) (answer : Bool)

def replaces : Function.Action Addr → Bool
  | .allocate _ _ | .exchange _ | .setState _ | .free _ => true
  | _ => false

/-- Sections are entered and left by the code of the handle and of `enter_read`. -/
def crosses : DLL.Action Obj Ext → Bool
  | .domain .enter | .domain .exit => true
  | _ => false

/-- The call of the domain that an access of the handle is part of. -/
def crossing : Function.Action Addr → Function.Pc Addr → Option (RCU.Action (Resource Ext) Reclaim)
  | .run, .fastEnter | .run, .readEnter _ => some .enter
  | .run, .fastReturn | .run, .fastExit | .run, .readBail _ | .run, .slowFail _ | .run, .slowReturn => some .exit
  | .exitRead, .idle _ => some .exit
  | _, _ => none

def loads (h : Function.Handle) : Function.Action Addr → Function.Pc Addr → Bool
  | .run, .fastLoad => true
  | .run, .readLoad _ => h.control
  | _, _ => false

/-- `unload_module` has not been called on the image. -/
def Mapped (base : DLL.Shared Tid Obj Ext) (i : Nat) : Prop :=
  i < base.nextImage ∧ i ∉ base.discarded ∧
    ∀ n ∈ base.dom.reclaimed, n.reclaim = some .reclaimImage → imageOf n.object ≠ some i

instance (base : DLL.Shared Tid Obj Ext) (i : Nat) : Decidable (Mapped base i) :=
  inferInstanceAs (Decidable (_ ∧ _ ∧ ∀ n ∈ base.dom.reclaimed, _))

def Modules.imageAt [DecidableEq Addr] (ms : Modules Addr) (base : DLL.Shared Tid Obj Ext) (x : Addr) : Option Nat :=
  (List.range base.nextImage).find? fun i => Mapped base i ∧ ms.address i = x

/-- What the handle of `o` sees: the images that are mapped, with what their modules export, and the words
of the Control. -/
def view [DecidableEq Addr] (ms : Modules Addr) (o : Obj) (sh : Shared Tid Obj Ext Addr) :
    Function.Shared Tid Addr where
  heap x := (ms.imageAt sh.readers.base x).map ms.image
  image := (sh.readers.base.objects o).shown.map ms.address
  state := (sh.readers.base.objects o).control.elim .zombie Control.state
  verifiedImage := sh.verifiedImage
  reading := sh.reading
  held := sh.held
  seen := sh.seen

namespace Shared

/-- The Objects have moved on; an image that comes to be current is noted in every section. -/
def movedTo [DecidableEq Addr] (ms : Modules Addr) (o : Obj) (sh : Shared Tid Obj Ext Addr)
    (readers : Readers.Shared Tid Obj Ext) : Shared Tid Obj Ext Addr where
  readers
  verifiedImage := sh.verifiedImage
  reading := sh.reading
  held := sh.held
  seen u :=
    if (readers.base.objects o).shown.map ms.address = (sh.readers.base.objects o).shown.map ms.address then sh.seen u
    else ((readers.base.objects o).shown.map ms.address).toList ++ sh.seen u

def taking (sh : Shared Tid Obj Ext Addr) (f : Function.Shared Tid Addr) : Shared Tid Obj Ext Addr where
  readers := sh.readers
  verifiedImage := f.verifiedImage
  reading := f.reading
  held := f.held
  seen := f.seen

end Shared

variable [DecidableEq Tid] [DecidableEq Obj] [DecidableEq Addr]

def access (ms : Modules Addr) (h : Function.Handle) (o : Obj) (t : Tid) (sh : Shared Tid Obj Ext Addr)
    (object : DLL.Local Tid Obj Ext) (call : Function.Local Addr) (b : Function.Action Addr) :
    Option (Shared Tid Obj Ext Addr × Local Tid Obj Ext Addr) :=
  (Function.step h t (view ms o sh) call b).map fun f => (sh.taking f.1, ⟨object, f.2, false⟩)

/-- User code runs outside the calls, or as the callee of one. -/
def step (ms : Modules Addr) (h : Function.Handle) (o : Obj) (t : Tid) (sh : Shared Tid Obj Ext Addr)
    (l : Local Tid Obj Ext Addr) : Action Obj Ext Addr → Option (Shared Tid Obj Ext Addr × Local Tid Obj Ext Addr)
  | .user a =>
    if l.crossing = false ∧ l.call.pc.user ≠ none ∧ crosses a = false then
      (Readers.step t sh.readers l.object (.object a)).map fun r => (sh.movedTo ms o r.1, { l with object := r.2 })
    else none
  | .handle b answer =>
    if replaces b then none
    else
      match crossing b l.call.pc with
      | some d =>
        (Readers.step t sh.readers l.object (.object (if l.crossing then .run answer else .domain d))).bind fun r =>
          match r.2.dom.pc with
          | .idle _ => access ms h o t (sh.movedTo ms o r.1) r.2 l.call b
          | _ => some (sh.movedTo ms o r.1, ⟨r.2, l.call, true⟩)
      | none =>
        match l.crossing, l.object.dom.pc, l.object.frame with
        | false, .idle _, .idle _ =>
          if loads h b l.call.pc then
            (Readers.step t sh.readers l.object (.read o)).bind fun r =>
              access ms h o t (sh.movedTo ms o r.1) r.2 l.call b
          else access ms h o t sh l.object l.call b
        | _, _, _ => none

def process (Tid Obj Ext : Type) [DecidableEq Tid] [DecidableEq Obj] (ms : Modules Addr)
    (h : Function.Handle) (o : Obj) :
    Program Tid (Shared Tid Obj Ext Addr) (Local Tid Obj Ext Addr) (Action Obj Ext Addr) where
  step := step ms h o

def start (Tid Ext Addr : Type) {Obj : Type} (made : Obj → Bool) :
    Config Tid (Shared Tid Obj Ext Addr) (Local Tid Obj Ext Addr) :=
  ⟨{ readers := (Readers.start Tid Ext made).shared }, fun _ => {}⟩

def readersOf (c : Config Tid (Shared Tid Obj Ext Addr) (Local Tid Obj Ext Addr)) :
    Config Tid (Readers.Shared Tid Obj Ext) (DLL.Local Tid Obj Ext) := ⟨c.shared.readers, fun t => (c.locals t).object⟩

def Action.inner (l : Local Tid Obj Ext Addr) : Action Obj Ext Addr → Option (DLL.Action Obj Ext)
  | .user a => some a
  | .handle b answer => (crossing b l.call.pc).map fun d => if l.crossing then .run answer else .domain d

def Action.own : Action Obj Ext Addr → Bool
  | .user _ => false
  | .handle _ _ => true

def Vacant (ms : Modules Addr) (t : Tid) (sh : Readers.Shared Tid Obj Ext) (l : DLL.Local Tid Obj Ext)
    (a : DLL.Action Obj Ext) : Prop :=
  ∀ r ∈ Readers.step t sh l (.object a), r.1.base.nextImage = sh.base.nextImage ∨
    ms.imageAt sh.base (ms.address sh.base.nextImage) = none

instance (ms : Modules Addr) (t : Tid) (sh : Readers.Shared Tid Obj Ext) (l : DLL.Local Tid Obj Ext)
    (a : DLL.Action Obj Ext) : Decidable (Vacant ms t sh l a) :=
  inferInstanceAs (Decidable (∀ r ∈ Readers.step t sh l (.object a), _ ∨ _))

/-- Sections are balanced and not nested, nothing is unloaded by force, images are allocated in free
memory, and a handle that is called holds its reference. -/
def Orderly (ms : Modules Addr) (o : Obj) (c : Config Tid (Shared Tid Obj Ext Addr) (Local Tid Obj Ext Addr)) (t : Tid)
    (b : Action Obj Ext Addr) : Prop :=
  (∀ a ∈ b.inner (c.locals t), Readers.Flat (readersOf c) t (.object a) ∧
    Vacant ms t c.shared.readers (c.locals t).object a) ∧
    (b.own = true → 0 < (c.shared.readers.base.objects o).handles)

instance (ms : Modules Addr) (o : Obj) (c : Config Tid (Shared Tid Obj Ext Addr) (Local Tid Obj Ext Addr)) (t : Tid)
    (b : Action Obj Ext Addr) : Decidable (Orderly ms o c t b) :=
  inferInstanceAs (Decidable ((∀ a ∈ b.inner (c.locals t), _ ∧ _) ∧ (_ → _)))

variable {ms : Modules Addr} {h : Function.Handle} {o : Obj} {t u : Tid} {i : Nat} {made : Obj → Bool}
  {sh sh' : Shared Tid Obj Ext Addr} {l l' : Local Tid Obj Ext Addr}
  {c c' : Config Tid (Shared Tid Obj Ext Addr) (Local Tid Obj Ext Addr)}

inductive Moves (ms : Modules Addr) (h : Function.Handle) (o : Obj) (t : Tid) (sh : Shared Tid Obj Ext Addr)
    (l : Local Tid Obj Ext Addr) : Action Obj Ext Addr → Shared Tid Obj Ext Addr → Local Tid Obj Ext Addr → Prop
  | uses {a rs ol} : l.crossing = false → crosses a = false →
      Readers.step t sh.readers l.object (.object a) = some (rs, ol) →
      Moves ms h o t sh l (.user a) (sh.movedTo ms o rs) { l with object := ol }
  | crosses {b answer a rs ol} : (Action.handle b answer).inner l = some a →
      Readers.step t sh.readers l.object (.object a) = some (rs, ol) → (∀ r, ol.dom.pc ≠ .idle r) →
      Moves ms h o t sh l (.handle b answer) (sh.movedTo ms o rs) ⟨ol, l.call, true⟩
  | crossed {b answer a d r rs ol f fl} : replaces b = false → crossing b l.call.pc = some d →
      (Action.handle b answer).inner l = some a → Readers.step t sh.readers l.object (.object a) = some (rs, ol) →
      ol.dom.pc = .idle r → Function.step h t (view ms o (sh.movedTo ms o rs)) l.call b = some (f, fl) →
      Moves ms h o t sh l (.handle b answer) ((sh.movedTo ms o rs).taking f) ⟨ol, fl, false⟩
  | loads {b answer r rs ol f fl} : l.object.dom.pc = .idle r → replaces b = false → loads h b l.call.pc = true →
      (Action.handle b answer : Action Obj Ext Addr).inner l = none →
        Readers.step t sh.readers l.object (.read o) = some (rs, ol) →
      Function.step h t (view ms o (sh.movedTo ms o rs)) l.call b = some (f, fl) →
      Moves ms h o t sh l (.handle b answer) ((sh.movedTo ms o rs).taking f) ⟨ol, fl, false⟩
  | accesses {b answer r f fl} : l.object.dom.pc = .idle r → replaces b = false → loads h b l.call.pc = false →
      (crossing b l.call.pc : Option (RCU.Action (Resource Ext) Reclaim)) = none →
        Function.step h t (view ms o sh) l.call b = some (f, fl) →
      Moves ms h o t sh l (.handle b answer) (sh.taking f) ⟨l.object, fl, false⟩

theorem moves_of_step {b : Action Obj Ext Addr} (hs : step ms h o t sh l b = some (sh', l')) :
    Moves ms h o t sh l b sh' l' := by
  cases b with
  | user a =>
    simp only [step] at hs
    split at hs
    · rename_i hguard
      obtain ⟨⟨rs, ol⟩, hr, he⟩ := Option.map_eq_some_iff.mp hs
      cases he
      exact .uses hguard.1 hguard.2.2 hr
    · cases hs
  | handle b answer =>
    simp only [step] at hs
    split at hs
    · cases hs
    · rename_i hown
      have hown : replaces b = false := by simpa using hown
      split at hs
      · rename_i d hd
        have hinner : (Action.handle b answer : Action Obj Ext Addr).inner l =
            some (if l.crossing then .run answer else .domain d) := by rw [Action.inner, hd, Option.map_some]
        obtain ⟨⟨rs, ol⟩, hr, hs⟩ := Option.bind_eq_some_iff.mp hs
        split at hs
        · obtain ⟨⟨f, fl⟩, hf, he⟩ := Option.map_eq_some_iff.mp hs
          cases he
          exact .crossed hown hd hinner hr ‹_› hf
        · rename_i hbusy
          cases hs
          exact .crosses hinner hr fun r hr => hbusy r hr
      · rename_i hd
        have hinner : (Action.handle b answer : Action Obj Ext Addr).inner l = none := by
          rw [Action.inner, hd, Option.map_none]
        split at hs
        · rename_i hpc _
          split at hs
          · rename_i hload
            obtain ⟨⟨rs, ol⟩, hr, hs⟩ := Option.bind_eq_some_iff.mp hs
            obtain ⟨⟨f, fl⟩, hf, he⟩ := Option.map_eq_some_iff.mp hs
            cases he
            exact .loads hpc hown hload hinner hr hf
          · rename_i hload
            obtain ⟨⟨f, fl⟩, hf, he⟩ := Option.map_eq_some_iff.mp hs
            cases he
            exact .accesses hpc hown (by simpa using hload) hd hf
        · cases hs

omit [DecidableEq Tid] [DecidableEq Obj] [DecidableEq Addr] in
theorem objects_update [DecidableEq Tid] (c : Config Tid (Shared Tid Obj Ext Addr) (Local Tid Obj Ext Addr)) (t : Tid)
    (l : Local Tid Obj Ext Addr) : (fun u => (Function.update c.locals t l u).object) =
      Function.update (fun u => (c.locals u).object) t l.object := by
  funext u
  by_cases hu : u = t
  · subst hu
    simp
  · simp [Function.update_of_ne hu]

/-- The Objects and their readers, on their own. -/
theorem readersOf_reachable (hc : (process Tid Obj Ext ms h o).Reachable (Orderly ms o) (start Tid Ext Addr made) c) :
    (Readers.system Tid Obj Ext).Reachable Readers.Flat (Readers.start Tid Ext made) (readersOf c) := by
  refine hc.project readersOf ?_
  intro c t b c' hok hn
  obtain ⟨sh, l, hs, rfl⟩ := Program.next_eq_some_iff.mp hn
  have hm : Moves ms h o t c.shared (c.locals t) b sh l := moves_of_step hs
  have hstep {a : Readers.Action Obj Ext} {rs : Readers.Shared Tid Obj Ext}
      (hflat : Readers.Flat (readersOf c) t a)
      (hr : Readers.step t c.shared.readers (c.locals t).object a = some (rs, l.object))
      (hrs : sh.readers = rs) : ∃ u b, Readers.Flat (readersOf c) u b ∧
        (Readers.system Tid Obj Ext).next (readersOf c) u b = some (readersOf ⟨sh, Function.update c.locals t l⟩) := by
    refine ⟨t, a, hflat, Program.next_eq_some_iff.mpr ⟨_, _, hr, ?_⟩⟩
    simp only [readersOf, objects_update, hrs]
  cases hm with
  | uses _ _ hr => exact .inr (hstep (hok.1 _ rfl).1 hr rfl)
  | crosses hinner hr | crossed _ _ hinner hr => exact .inr (hstep (hok.1 _ hinner).1 hr rfl)
  | loads _ _ _ _ hr => exact .inr (hstep (fun a ha => by cases ha) hr rfl)
  | accesses =>
    left
    simp only [readersOf, objects_update, Shared.taking, Function.update_eq_self]

end Abix.DLL.Process

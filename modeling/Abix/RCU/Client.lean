import Abix.RCU.Custody

/-! Clients of the domain: readers that load shared pointers inside their read sections, and
writers that swap an object out before they retire it. -/
namespace Abix.RCU.Client
open Abix.Concurrency

/-- An open read section: the epoch its `enter` stored and the objects loaded in it. -/
structure Section (Obj : Type) where
  epoch : Nat
  loaded : List Obj
  deriving DecidableEq, Repr

/-- The domain, the shared pointers, the open sections of every thread (innermost first),
and the objects handed to a retire call so far. -/
structure Shared (Tid Obj Fn : Type) where
  dom : RCU.Shared Tid Obj Fn := {}
  ptrs : List (Option Obj)
  sections : Tid → List (Section Obj) := fun _ => []
  handed : List Obj := []

inductive Action (Obj Fn : Type) where
  | domain (a : RCU.Action Obj Fn)
  | load (i : Nat)
  | swap (i : Nat) (new : Option Obj)

variable {Tid Obj Fn : Type} [DecidableEq Tid] [DecidableEq Obj]

def handedBy : RCU.Action Obj Fn → List Obj
  | .retire o _ | .retireEager o _ | .retireToken o _ => o.toList
  | _ => []

/-- A call that would close a section that is not open, or leave one open, is refused. -/
def balanced (inside : List (Section Obj)) : RCU.Action Obj Fn → Bool
  | .exit => !inside.isEmpty
  | .threadExit => inside.isEmpty
  | _ => true

/-- What the domain asks of its callers: sections are balanced, and an object is out of
every shared pointer before it is retired. -/
def Contract (t : Tid) (sh : Shared Tid Obj Fn) (a : RCU.Action Obj Fn) : Prop :=
  balanced (sh.sections t) a = true ∧ ∀ o ∈ handedBy a, some o ∉ sh.ptrs

instance (t : Tid) (sh : Shared Tid Obj Fn) (a : RCU.Action Obj Fn) : Decidable (Contract t sh a) :=
  instDecidableAnd

/-- A section opens with the store of `enter` and closes with the store of `exit`. -/
def sectionsAfter (inside : List (Section Obj)) : Pc Tid Obj Fn → List (Section Obj)
  | .enterStore epoch => ⟨epoch, []⟩ :: inside
  | .exitStore => inside.tail
  | _ => inside

/-- A thread loads only inside a section, and nobody shares an object again once it has
been handed to a retire call. -/
def step (t : Tid) (sh : Shared Tid Obj Fn) (l : Local Tid Obj Fn) :
    Action Obj Fn → Option (Shared Tid Obj Fn × Local Tid Obj Fn)
  | .domain a =>
    if Contract t sh a then
      (RCU.step t sh.dom l a).map fun r =>
        ({ sh with
            dom := r.1
            sections := Function.update sh.sections t (sectionsAfter (sh.sections t) l.pc)
            handed := handedBy a ++ sh.handed }, r.2)
    else none
  | .load i =>
    match l.pc, sh.sections t, sh.ptrs[i]? with
    | .idle _, s :: outer, some (some o) =>
      some ({ sh with sections := Function.update sh.sections t ({ s with loaded := o :: s.loaded } :: outer) }, l)
    | _, _, _ => none
  | .swap i new =>
    match l.pc with
    | .idle _ => if ∀ o ∈ new, o ∉ sh.handed then some ({ sh with ptrs := sh.ptrs.set i new }, l) else none
    | _ => none

def client (Tid Obj Fn : Type) [DecidableEq Tid] [DecidableEq Obj] :
    Program Tid (Shared Tid Obj Fn) (Local Tid Obj Fn) (Action Obj Fn) where
  step := step

def start (Tid Fn : Type) {Obj : Type} (ptrs : List (Option Obj)) :
    Config Tid (Shared Tid Obj Fn) (Local Tid Obj Fn) := ⟨{ ptrs }, fun _ => {}⟩

/-- The call opens a section inside another one. -/
def nests (inside : List (Section Obj)) : Action Obj Fn → Bool
  | .domain .enter => !inside.isEmpty
  | _ => false

def FlatFor (r : Tid) (c : Config Tid (Shared Tid Obj Fn) (Local Tid Obj Fn)) (t : Tid) (a : Action Obj Fn) : Prop :=
  t = r → nests (c.shared.sections t) a = false

instance (r : Tid) (c : Config Tid (Shared Tid Obj Fn) (Local Tid Obj Fn)) (t : Tid) (a : Action Obj Fn) :
    Decidable (FlatFor r c t a) := inferInstanceAs (Decidable (_ → _))

/-- No thread nests its sections. -/
def Flat (c : Config Tid (Shared Tid Obj Fn) (Local Tid Obj Fn)) (t : Tid) (a : Action Obj Fn) : Prop :=
  nests (c.shared.sections t) a = false

instance (c : Config Tid (Shared Tid Obj Fn) (Local Tid Obj Fn)) (t : Tid) (a : Action Obj Fn) :
    Decidable (Flat c t a) := inferInstanceAs (Decidable (_ = false))

/-- The thread has loaded the object in a section that is still open. -/
def Holds (sh : Shared Tid Obj Fn) (t : Tid) (o : Obj) : Prop := ∃ s ∈ sh.sections t, o ∈ s.loaded

/-- The step from `sh` to `sh'` runs the callback `f` on the object. -/
def RunsCallback (sh sh' : RCU.Shared Tid Obj Fn) (f : Fn) (o : Obj) : Prop :=
  ∃ n, sh'.reclaimed = n :: sh.reclaimed ∧ n.reclaim = some f ∧ n.object = some o

inductive Moves (t : Tid) (sh : Shared Tid Obj Fn) :
    Action Obj Fn → Local Tid Obj Fn → Shared Tid Obj Fn → Local Tid Obj Fn → Prop
  | domain {a l d l'} : Contract t sh a → RCU.Moves t sh.dom a l d l' → Moves t sh (.domain a) l
      { sh with
        dom := d
        sections := Function.update sh.sections t (sectionsAfter (sh.sections t) l.pc)
        handed := handedBy a ++ sh.handed } l'
  | loads {i r batch s outer o} : sh.sections t = s :: outer → some o ∈ sh.ptrs → Moves t sh (.load i) ⟨.idle r, batch⟩
      { sh with sections := Function.update sh.sections t ({ s with loaded := o :: s.loaded } :: outer) } ⟨.idle r, batch⟩
  | swaps {i new r batch} : (∀ o ∈ new, o ∉ sh.handed) →
      Moves t sh (.swap i new) ⟨.idle r, batch⟩ { sh with ptrs := sh.ptrs.set i new } ⟨.idle r, batch⟩

theorem moves_of_step {t : Tid} {a : Action Obj Fn} {sh sh' : Shared Tid Obj Fn} {l l' : Local Tid Obj Fn}
    (h : step t sh l a = some (sh', l')) : Moves t sh a l sh' l' := by
  obtain ⟨pc, batch⟩ := l
  cases a with
  | domain a =>
    simp only [step] at h
    split at h
    · obtain ⟨⟨d, l₁⟩, hs, he⟩ := Option.map_eq_some_iff.mp h
      cases he
      exact .domain ‹_› (RCU.moves_of_step hs)
    · cases h
  | load i =>
    simp only [step] at h
    split at h
    · rename_i hsec hptr
      cases h
      exact .loads hsec (List.mem_of_getElem? hptr)
    · cases h
  | swap i new =>
    simp only [step] at h
    split at h
    · split at h
      · cases h
        exact .swaps ‹_›
      · cases h
    · cases h

/-- Seen through the domain, a client is one more run of the domain. -/
theorem domain_reachable {ok : Config Tid (Shared Tid Obj Fn) (Local Tid Obj Fn) → Tid → Action Obj Fn → Prop}
    {ptrs : List (Option Obj)} {c : Config Tid (Shared Tid Obj Fn) (Local Tid Obj Fn)}
    (h : (client Tid Obj Fn).Reachable ok (start Tid Fn ptrs) c) :
    (domain Tid Obj Fn).Reachable Program.anyStep (initial Tid Obj Fn) ⟨c.shared.dom, c.locals⟩ := by
  refine h.project (fun c => ⟨c.shared.dom, c.locals⟩) ?_
  intro c t a c' _ hn
  obtain ⟨sh, l, hs, rfl⟩ := Program.next_eq_some_iff.mp hn
  change step t c.shared (c.locals t) a = some (sh, l) at hs
  cases a with
  | domain a =>
    simp only [step] at hs
    split at hs
    · obtain ⟨r, hr, he⟩ := Option.map_eq_some_iff.mp hs
      cases he
      exact .inr ⟨t, a, trivial, Program.next_eq_some_iff.mpr ⟨_, _, hr, rfl⟩⟩
    · cases hs
  | load i | swap i new =>
    left
    generalize hl : c.locals t = l₀ at hs
    cases moves_of_step hs with
    | _ => simp [← hl]

end Abix.RCU.Client

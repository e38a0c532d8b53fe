import Abix.DLL.Object
import Abix.Heap.Exclusive

/-! `runtime::Function`: a handle of a closure on the heap. Over any sequence of its operations it is
the value of its callable: copies are independent, nothing is freed twice and nothing is lost. -/
namespace Abix.Runtime.Closure
open Abix.Heap
variable {V F Args R : Type}

def closureMagic : UInt64 := 0xF2A0B1C2D3E4F5A6

/-- `ClosureImpl`. Its three entries are those of the callable's type. -/
structure ClosureImpl (F : Type) where
  fn : F
  magic : UInt64 := closureMagic
  deriving DecidableEq

/-- What calling the callable does to it and returns, and what `default_ret` returns. -/
structure Callable (F Args R : Type) where
  invoke : F → Args → F × R
  defaultRet : R

/-- Variables are no object or have a handle `_h`. The error is the thread's last one. -/
structure World (V F : Type) where
  heap : UInt64 → Option (ClosureImpl F) := fun _ => none
  handles : V → Option UInt64 := fun _ => none
  lastError : DLL.CallError := .none

/-- The special members and the call; an assignment is a parameter that is made, a swap with it, and
its destruction. The address is what the allocator answers, if the operation allocates. -/
inductive Op (V F Args : Type) where
  | default (v : V)
  | construct (v : V) (fn : F) (mem : Option UInt64)
  | copy (v other : V) (mem : Option UInt64)
  | move (v other : V)
  | swap (v other : V)
  | destroy (v : V)
  | call (v : V) (args : Args)

namespace Op

def makes : Op V F Args → Option V
  | .default v | .construct v _ _ | .copy v _ _ | .move v _ => some v
  | .swap _ _ | .destroy _ | .call _ _ => none

def uses : Op V F Args → List V
  | .default _ | .construct _ _ _ => []
  | .copy _ other _ | .move _ other => [other]
  | .swap v other => [v, other]
  | .destroy v | .call v _ => [v]

def mem : Op V F Args → Option UInt64
  | .construct _ _ mem | .copy _ _ mem => mem
  | .default _ | .move _ _ | .swap _ _ | .destroy _ | .call _ _ => none

end Op

variable [DecidableEq V]

namespace World

def put (w : World V F) (v : V) (h : Option UInt64) : World V F := { w with handles := Function.update w.handles v h }

def store (w : World V F) (h : UInt64) (c : Option (ClosureImpl F)) : World V F :=
  { w with heap := Function.update w.heap h c }

/-- A new closure at the address, or an empty function where there is none. -/
def place (w : World V F) (v : V) (c : ClosureImpl F) : Option UInt64 → World V F
  | none => w.put v (some 0)
  | some mem => (w.store mem (some c)).put v (some mem)

/-- What a call returns is recorded with the error that it leaves. Using a variable that is no object, or
a handle where no closure lives, is no step. -/
def step (b : Callable F Args R) (w : World V F) : Op V F Args → Option (World V F × Option R)
  | .default v =>
    match w.handles v with
    | none => some (w.put v (some 0), none)
    | some _ => none
  | .construct v fn mem =>
    match w.handles v with
    | none => some (w.place v { fn } mem, none)
    | some _ => none
  | .copy v other mem =>
    match w.handles v, w.handles other with
    | none, some h =>
      if h = 0 then some (w.put v (some 0), none)
      else (w.heap h).map fun c => (w.place v c mem, none)
    | _, _ => none
  | .move v other =>
    match w.handles v, w.handles other with
    | none, some h => some ((w.put v (some h)).put other (some 0), none)
    | _, _ => none
  | .swap v other =>
    match w.handles v, w.handles other with
    | some h, some k => some ((w.put v (some k)).put other (some h), none)
    | _, _ => none
  | .destroy v =>
    match w.handles v with
    | none => none
    | some h => if h = 0 then some (w.put v none, none) else (w.heap h).map fun _ => ((w.store h none).put v none, none)
  | .call v args =>
    match w.handles v with
    | none => none
    | some h =>
      if h = 0 then some ({ w with lastError := .invalid }, some b.defaultRet)
      else (w.heap h).map fun c =>
        if c.magic ≠ closureMagic then ({ w with lastError := .invalid }, some b.defaultRet)
        else
          let r := b.invoke c.fn args
          ({ w.store h (some { c with fn := r.1 }) with lastError := .none }, some r.2)

def run (b : Callable F Args R) (w : World V F) :
    List (Op V F Args) → Option (World V F × List (Option R × DLL.CallError))
  | [] => some (w, [])
  | op :: ops => (w.step b op).bind fun r => (r.1.run b ops).map fun s => (s.1, (r.2, r.1.lastError) :: s.2)

/-- What an operation may assume: its variables are objects, or are none where it makes one, and the
allocator hands out free memory. -/
def Admits (w : World V F) (op : Op V F Args) : Prop :=
  (∀ v ∈ op.makes, w.handles v = none) ∧ (∀ v ∈ op.uses, (w.handles v).isSome) ∧
    ∀ a ∈ op.mem, a ≠ 0 ∧ (w.heap a).isNone

def AdmitsAll (b : Callable F Args R) (w : World V F) : List (Op V F Args) → Prop
  | [] => True
  | op :: ops => w.Admits op ∧ ∀ r ∈ w.step b op, r.1.AdmitsAll b ops

-- The addresses are those of the answer: searching all of them would not end.
instance (w : World V F) (op : Op V F Args) : Decidable (w.Admits op) :=
  @instDecidableAnd _ _ (Option.decidableForallMem op.makes)
    (@instDecidableAnd _ _ (List.decidableBAll _ op.uses) (Option.decidableForallMem op.mem))

instance decidableAdmitsAll (b : Callable F Args R) : (w : World V F) → (ops : List (Op V F Args)) →
    Decidable (w.AdmitsAll b ops)
  | _, [] => isTrue trivial
  | w, op :: ops =>
    have (r : World V F × Option R) : Decidable (r.1.AdmitsAll b ops) := decidableAdmitsAll b r.1 ops
    inferInstanceAs (Decidable (w.Admits op ∧ ∀ r ∈ w.step b op, r.1.AdmitsAll b ops))

end World

/-- The functions as values: no object, an empty function, or its callable. -/
structure Values (V F : Type) where
  value : V → Option (Option F) := fun _ => none
  lastError : DLL.CallError := .none

namespace Values

def put (s : Values V F) (v : V) (x : Option (Option F)) : Values V F := { s with value := Function.update s.value v x }

/-- The same operations on values. A failed allocation leaves an empty function. -/
def step (b : Callable F Args R) (s : Values V F) : Op V F Args → Values V F × Option R
  | .default v => (s.put v (some none), none)
  | .construct v fn mem => (s.put v (some (mem.map fun _ => fn)), none)
  | .copy v other mem => (s.put v (some ((s.value other).join.bind fun fn => mem.map fun _ => fn)), none)
  | .move v other => ((s.put v (s.value other)).put other (some none), none)
  | .swap v other => ((s.put v (s.value other)).put other (s.value v), none)
  | .destroy v => (s.put v none, none)
  | .call v args =>
    match (s.value v).join with
    | none => ({ s with lastError := .invalid }, some b.defaultRet)
    | some fn => ({ s.put v (some (some (b.invoke fn args).1)) with lastError := .none }, some (b.invoke fn args).2)

def run (b : Callable F Args R) (s : Values V F) : List (Op V F Args) → Values V F × List (Option R × DLL.CallError)
  | [] => (s, [])
  | op :: ops =>
    let r := s.step b op
    let t := r.1.run b ops
    (t.1, (r.2, r.1.lastError) :: t.2)

end Values

section Refinement
variable {w : World V F} {s : Values V F} {v other : V} {h k : UInt64} {b : Callable F Args R}

def address (h : UInt64) : Option UInt64 := if h = 0 then none else some h

def World.owner (w : World V F) (v : V) : Option UInt64 := (w.handles v).bind address

def Values.closure (s : Values V F) (v : V) : Option (ClosureImpl F) := (s.value v).join.map fun fn => { fn }

/-- Every closure on the heap has one function, which has the closure of its value. -/
structure Represents (w : World V F) (s : Values V F) : Prop where
  exclusive : Exclusive w.heap w.owner
  objects : ∀ v, (w.handles v).isSome = (s.value v).isSome
  contents : content w.heap w.owner = s.closure
  lastError : w.lastError = s.lastError

theorem owner_put (w : World V F) (v : V) (h : Option UInt64) :
    (w.put v h).owner = Function.update w.owner v (h.bind address) := by
  funext u
  by_cases hu : u = v
  · simp [World.owner, World.put, hu]
  · simp [World.owner, World.put, Function.update_of_ne hu]

theorem closure_put (s : Values V F) (v : V) (x : Option (Option F)) :
    (s.put v x).closure = Function.update s.closure v (x.join.map fun fn => { fn }) := by
  funext u
  by_cases hu : u = v
  · simp [Values.closure, Values.put, hu]
  · simp [Values.closure, Values.put, Function.update_of_ne hu]

theorem objects_put (hobjects : ∀ v, (w.handles v).isSome = (s.value v).isSome) {h : Option UInt64}
    {x : Option (Option F)}
    (hx : h.isSome = x.isSome) (u : V) : ((w.put v h).handles u).isSome = ((s.put v x).value u).isSome := by
  by_cases hu : u = v
  · simp [World.put, Values.put, hu, hx]
  · simp [World.put, Values.put, Function.update_of_ne hu, hobjects]

omit [DecidableEq V] in
theorem owner_of_handle (hv : w.handles v = some h) (hh : h ≠ 0) : w.owner v = some h := by
  rw [World.owner, hv, Option.bind_some, address, if_neg hh]

omit [DecidableEq V] in
theorem Represents.exists_closure (hr : Represents w s) (hv : w.handles v = some h) (hh : h ≠ 0) :
    ∃ fn, w.heap h = some { fn } ∧ s.value v = some (some fn) := by
  have howner := owner_of_handle hv hh
  obtain ⟨c, hc⟩ := hr.exclusive.exists_cell howner
  have he : s.closure v = some c := by
    rw [← hr.contents, content, howner, Option.bind_some, hc]
  obtain ⟨fn, hfn, rfl⟩ := Option.map_eq_some_iff.mp he
  exact ⟨fn, hc, Option.join_eq_some_iff.mp hfn⟩

omit [DecidableEq V] in
theorem Represents.value_of_null (hr : Represents w s) (hv : w.handles v = some 0) : s.value v = some none := by
  have hsome := hr.objects v
  have hnone : s.closure v = none := by
    rw [← hr.contents]
    simp [content, World.owner, hv, address]
  rw [hv] at hsome
  obtain ⟨x, hx⟩ := Option.isSome_iff_exists.mp hsome.symm
  cases x with
  | none => exact hx
  | some fn => simp [Values.closure, hx] at hnone

omit [DecidableEq V] in
theorem Represents.value_of_dead (hr : Represents w s) (hv : w.handles v = none) : s.value v = none := by
  have hsome := hr.objects v
  rw [hv] at hsome
  exact Option.not_isSome_iff_eq_none.mp fun h => Bool.false_ne_true (hsome.trans h)

/-- A variable without a closure becomes an empty function, or none. -/
theorem Represents.put_empty (hr : Represents w s) (howner : w.owner v = none) {h : Option UInt64}
    {x : Option (Option F)}
    (haddress : h.bind address = none) (hx : x.join = none) (hsome : h.isSome = x.isSome) :
    Represents (w.put v h) (s.put v x) := by
  have hsame : (w.put v h).owner = w.owner := by
    rw [owner_put, haddress, ← howner, Function.update_eq_self]
  refine ⟨hsame ▸ hr.exclusive, objects_put hr.objects hsome, ?_, hr.lastError⟩
  have hnone : s.closure v = none := by
    rw [← hr.contents, content, howner, Option.bind_none]
  rw [closure_put, hx, Option.map_none, ← hnone, Function.update_eq_self, hsame]
  exact hr.contents

/-- A new function, for which the allocator found memory or not. -/
theorem Represents.place (hr : Represents w s) (hv : w.handles v = none) {mem : Option UInt64}
    (hmem : ∀ a ∈ mem, a ≠ 0 ∧ (w.heap a).isNone) (fn : F) :
    Represents (w.place v { fn } mem) (s.put v (some (mem.map fun _ => fn))) := by
  have howner : w.owner v = none := by rw [World.owner, hv, Option.bind_none]
  cases mem with
  | none => exact hr.put_empty howner rfl rfl rfl
  | some a =>
    obtain ⟨hne, hfree⟩ := hmem a rfl
    have hnone := Option.isNone_iff_eq_none.mp hfree
    have haddress : (some a : Option UInt64).bind address = some a := if_neg hne
    have howner' : (w.place v { fn } (some a)).owner = Function.update w.owner v (some a) := by
      rw [World.place, owner_put, haddress]
      rfl
    refine ⟨?_, objects_put hr.objects rfl, ?_, hr.lastError⟩
    · rw [howner']
      exact hr.exclusive.fill howner hnone _
    · rw [howner', closure_put, ← hr.contents]
      exact hr.exclusive.content_fill hnone _

/-- Two functions, one of which may be no object, exchange what they are. -/
theorem Represents.exchange (hr : Represents w s) {x y : Option UInt64} {p q : Option (Option F)}
    (hv : x.bind address = w.owner v) (hother : y.bind address = w.owner other)
    (hp : p.join = (s.value v).join) (hq : q.join = (s.value other).join) (hx : x.isSome = p.isSome)
    (hy : y.isSome = q.isSome) :
    Represents ((w.put v y).put other x) ((s.put v q).put other p) := by
  have howner : ((w.put v y).put other x).owner = w.owner ∘ Equiv.swap other v := by
    rw [owner_put, owner_put, hv, hother, Equiv.comp_swap_eq_update]
  have hclosure : ((s.put v q).put other p).closure = s.closure ∘ Equiv.swap other v := by
    rw [closure_put, closure_put, hp, hq, Equiv.comp_swap_eq_update]
    rfl
  refine ⟨howner ▸ hr.exclusive.comp (Equiv.swap other v), objects_put (objects_put hr.objects hy) hx, ?_, hr.lastError⟩
  rw [howner, hclosure, ← hr.contents]
  rfl

/-- The closure of a function is destroyed with it. -/
theorem Represents.destroy (hr : Represents w s) (hv : w.handles v = some h) (hh : h ≠ 0) :
    Represents ((w.store h none).put v none) (s.put v none) := by
  have howner := owner_of_handle hv hh
  have howner' : ((w.store h none).put v none).owner = Function.update w.owner v none := by
    rw [owner_put]
    rfl
  refine ⟨?_, objects_put hr.objects rfl, ?_, hr.lastError⟩
  · rw [howner']
    exact hr.exclusive.release howner
  · rw [howner', closure_put, ← hr.contents]
    exact hr.exclusive.content_release howner

theorem Represents.call (hr : Represents w s) (hv : w.handles v = some h) (hh : h ≠ 0) (fn : F) (e : DLL.CallError) :
    Represents { w.store h (some { fn }) with lastError := e } { s.put v (some (some fn)) with lastError := e } := by
  have howner := owner_of_handle hv hh
  refine ⟨hr.exclusive.write howner _, fun u => ?_, ?_, rfl⟩
  · by_cases hu : u = v
    · simp [World.store, Values.put, hu, hv]
    · simp [World.store, Values.put, Function.update_of_ne hu, hr.objects]
  · have hc := hr.exclusive.content_write howner ({ fn } : ClosureImpl F)
    rw [hr.contents] at hc
    exact hc.trans (closure_put s v (some (some fn))).symm

/-- An admitted operation goes through, and does to the values what it says. -/
theorem Represents.step (hr : Represents w s) {op : Op V F Args} (hop : w.Admits op) :
    ∃ r, w.step b op = some r ∧ r.2 = (s.step b op).2 ∧ Represents r.1 (s.step b op).1 := by
  obtain ⟨hmakes, huses, hmem⟩ := hop
  cases op with
  | default v =>
    have hv := hmakes v rfl
    have howner : w.owner v = none := by rw [World.owner, hv, Option.bind_none]
    exact ⟨(w.put v (some 0), none), by simp [World.step, hv], rfl, hr.put_empty howner rfl rfl rfl⟩
  | construct v fn mem =>
    have hv := hmakes v rfl
    exact ⟨(w.place v { fn } mem, none), by simp [World.step, hv], rfl, hr.place hv hmem fn⟩
  | copy v other mem =>
    have hv := hmakes v rfl
    obtain ⟨h, hh⟩ := Option.isSome_iff_exists.mp (huses other List.mem_cons_self)
    by_cases hz : h = 0
    · subst hz
      have howner : w.owner v = none := by rw [World.owner, hv, Option.bind_none]
      refine ⟨(w.put v (some 0), none), by simp [World.step, hv, hh], rfl, ?_⟩
      simp only [Values.step, hr.value_of_null hh]
      exact hr.put_empty howner rfl rfl rfl
    · obtain ⟨fn, hc, hvalue⟩ := hr.exists_closure hh hz
      refine ⟨(w.place v { fn } mem, none), by simp [World.step, hv, hh, hz, hc], rfl, ?_⟩
      simp only [Values.step, hvalue]
      exact hr.place hv hmem fn
  | move v other =>
    have hv := hmakes v rfl
    obtain ⟨h, hh⟩ := Option.isSome_iff_exists.mp (huses other List.mem_cons_self)
    refine ⟨((w.put v (some h)).put other (some 0), none), by simp [World.step, hv, hh], rfl, ?_⟩
    have hsome := hr.objects other
    rw [hh] at hsome
    refine hr.exchange ?_ ?_ ?_ rfl rfl hsome
    · rw [World.owner, hv]
      rfl
    · rw [World.owner, hh]
    · rw [hr.value_of_dead hv]
      rfl
  | swap v other =>
    obtain ⟨h, hh⟩ := Option.isSome_iff_exists.mp (huses v List.mem_cons_self)
    obtain ⟨k, hk⟩ := Option.isSome_iff_exists.mp (huses other (List.mem_cons_of_mem _ List.mem_cons_self))
    refine ⟨((w.put v (some k)).put other (some h), none), by simp [World.step, hh, hk], rfl, ?_⟩
    have hsome := hr.objects v
    have hsome' := hr.objects other
    rw [hh] at hsome
    rw [hk] at hsome'
    exact hr.exchange (by rw [World.owner, hh]) (by rw [World.owner, hk]) rfl rfl hsome hsome'
  | destroy v =>
    obtain ⟨h, hh⟩ := Option.isSome_iff_exists.mp (huses v List.mem_cons_self)
    by_cases hz : h = 0
    · subst hz
      have howner : w.owner v = none := by
        rw [World.owner, hh]
        rfl
      exact ⟨(w.put v none, none), by simp [World.step, hh], rfl, hr.put_empty howner rfl rfl rfl⟩
    · obtain ⟨fn, hc, -⟩ := hr.exists_closure hh hz
      exact ⟨((w.store h none).put v none, none), by simp [World.step, hh, hz, hc], rfl, hr.destroy hh hz⟩
  | call v args =>
    obtain ⟨h, hh⟩ := Option.isSome_iff_exists.mp (huses v List.mem_cons_self)
    by_cases hz : h = 0
    · subst hz
      refine ⟨({ w with lastError := .invalid }, some b.defaultRet), by simp [World.step, hh], ?_, ?_⟩
      · simp [Values.step, hr.value_of_null hh]
      · simp only [Values.step, hr.value_of_null hh]
        exact ⟨hr.exclusive, hr.objects, hr.contents, rfl⟩
    · obtain ⟨fn, hc, hvalue⟩ := hr.exists_closure hh hz
      refine ⟨({ w.store h (some { fn := (b.invoke fn args).1 }) with lastError := .none }, some (b.invoke fn args).2),
        by simp [World.step, hh, hz, hc], ?_, ?_⟩
      · simp [Values.step, hvalue]
      · simp only [Values.step, hvalue]
        exact hr.call hh hz _ _

theorem Represents.run (hr : Represents w s) {ops : List (Op V F Args)} (hops : w.AdmitsAll b ops) :
    ∃ w', w.run b ops = some (w', (s.run b ops).2) ∧ Represents w' (s.run b ops).1 := by
  induction ops generalizing w s with
  | nil => exact ⟨w, rfl, hr⟩
  | cons op ops ih =>
    obtain ⟨r, hstep, hresult, hr'⟩ := hr.step (b := b) hops.1
    obtain ⟨w', hrun, hend⟩ := ih hr' (hops.2 r hstep)
    refine ⟨w', ?_, hend⟩
    rw [World.run, hstep, Option.bind_some, hrun, hresult, hr'.lastError]
    rfl

omit [DecidableEq V] in
theorem handle_of_owner (h' : w.owner v = some h) : w.handles v = some h ∧ h ≠ 0 := by
  obtain ⟨k, hk, ha⟩ := Option.bind_eq_some_iff.mp h'
  unfold address at ha
  split at ha
  · cases ha
  · cases ha
    exact ⟨hk, ‹_›⟩

omit [DecidableEq V] in
private theorem represents_empty : Represents ({} : World V F) {} := by
  refine ⟨.empty, fun _ => rfl, rfl, rfl⟩

/-- A copy assignment: the parameter is made, the contents are exchanged, and it is destroyed. The target
has the copy and nothing else changes, also where it is the source. -/
theorem Values.assign (s : Values V F) {v other rhs : V} (hrhs : s.value rhs = none) (hne : rhs ≠ v)
    (mem : Option UInt64) :
    (s.run b [.copy rhs other mem, .swap v rhs, .destroy rhs]).1 =
      s.put v (some ((s.value other).join.bind fun fn => mem.map fun _ => fn)) := by
  simp only [Values.run, Values.step, Values.put, Function.update_self, Function.update_of_ne hne.symm,
    Values.mk.injEq, and_true]
  funext u
  by_cases hu : u = rhs
  · subst hu
    simp [Function.update_of_ne hne, hrhs]
  · by_cases hv : u = v <;> simp [hv, hne.symm, hu]

/-- Over any operations that are used on objects, with an allocator that hands out free memory or
nothing: no operation touches a closure that is not there, each returns what it does on values, the
functions are their values, and each closure is that of exactly one function. A callable operates on no
function while it runs. -/
theorem functions_are_values {ops : List (Op V F Args)} (hops : ({} : World V F).AdmitsAll b ops) :
    ∃ w, ({} : World V F).run b ops = some (w, (({} : Values V F).run b ops).2) ∧
      (∀ v, (({} : Values V F).run b ops).1.value v = (w.handles v).map fun h => (w.heap h).map (·.fn)) ∧
      ∀ h c, w.heap h = some c → h ≠ 0 ∧ c.magic = closureMagic ∧ ∃! v, w.handles v = some h := by
  obtain ⟨w, hrun, hr⟩ := represents_empty.run hops
  have howned (h : UInt64) (c : ClosureImpl F) (hc : w.heap h = some c) : ∃ v, w.owner v = some h :=
    hr.exclusive.owned h (by rw [hc]; rfl)
  refine ⟨w, hrun, fun v => ?_, fun h c hc => ?_⟩
  · cases hv : w.handles v with
    | none => exact hr.value_of_dead hv
    | some h =>
      rw [Option.map_some]
      by_cases hz : h = 0
      · subst hz
        rw [hr.value_of_null hv]
        cases hc : w.heap 0 with
        | none => rfl
        | some c =>
          obtain ⟨u, hu⟩ := howned 0 c hc
          exact absurd rfl (handle_of_owner hu).2
      · obtain ⟨fn, hc, hvalue⟩ := hr.exists_closure hv hz
        rw [hc, hvalue]
        rfl
  · obtain ⟨v, hv⟩ := howned h c hc
    obtain ⟨hhandle, hne⟩ := handle_of_owner hv
    obtain ⟨fn, hc', -⟩ := hr.exists_closure hhandle hne
    rw [hc] at hc'
    exact ⟨hne, congrArg ClosureImpl.magic (Option.some.inj hc'), v, hhandle, fun u hu =>
      hr.exclusive.unique u v h (owner_of_handle hu hne) hv⟩

end Refinement

def counter : Callable Nat Nat Nat := ⟨fun n k => (n + k, n + k), 0⟩

/-- A copy is made and assigned to its source, and one of the two is called; an allocation fails. -/
def copies : List (Op (Fin 3) Nat Nat) :=
  [.construct 0 5 (some 16), .copy 1 0 (some 32), .call 1 2, .copy 2 1 (some 48), .swap 0 2, .destroy 2, .call 0 1,
    .call 1 0, .copy 2 0 none, .call 2 3]

theorem functions_are_values_copied : ∃ w : World (Fin 3) Nat,
    (({} : World (Fin 3) Nat).run counter copies).map (·.2.map Prod.fst) =
        some [none, none, some 7, none, none, none, some 8, some 7, none, some 0] ∧
      ((w.handles 0).map fun h => (w.heap h).map (·.fn)) = some (some 8) ∧
      ∀ h c, w.heap h = some c → ∃! v, w.handles v = some h := by
  obtain ⟨w, hrun, hvalues, howned⟩ := @functions_are_values (Fin 3) Nat Nat Nat _ counter copies (by decide +kernel)
  refine ⟨w, ?_, (hvalues 0).symm.trans (by decide), fun h c hc => (howned h c hc).2.2⟩
  have hresults : (Values.run counter {} copies).2.map Prod.fst =
      [none, none, some 7, none, none, none, some 8, some 7, none, some 0] := by decide
  rw [hrun]
  exact congrArg some hresults

end Abix.Runtime.Closure

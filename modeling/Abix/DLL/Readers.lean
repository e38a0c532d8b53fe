import Abix.DLL.Draining
import Abix.RCU.ReadSafety
import Mathlib.Data.Fintype.Prod

/-! Readers of the images. A read section that loads the image of a Control keeps the module and its
index from being reclaimed, whatever the Objects do meanwhile. Seen through the pointers that are
still owned, the Objects are one more client of the domain: the code of `Object` takes an image out of
every pointer before it retires it, and publishes no image twice. -/
namespace Abix.DLL
open Abix.Concurrency Abix.RCU

instance : Fintype Part := ⟨{.index, .image}, fun k => by cases k <;> decide⟩

def Part.resource {Ext : Type} (i : Nat) : Part → Resource Ext
  | .index => .index i
  | .image => .image i

def Object.shown (x : Object) : Option Nat := if 0 < x.useCount then x.control.bind Control.image else none

namespace Readers

/-- The Objects, and the open read sections of every thread with what was loaded in them. -/
structure Shared (Tid Obj Ext : Type) where
  base : DLL.Shared Tid Obj Ext
  sections : Tid → List (Client.Section (Resource Ext)) := fun _ => []

/-- An action of the Objects and the domain, or a load of an Object's image. -/
inductive Action (Obj Ext : Type) where
  | object (a : DLL.Action Obj Ext)
  | read (o : Obj)
  deriving DecidableEq, Repr

variable {Tid Obj Ext : Type}

/-- What a section notes of a load: an image is read together with the index inside it. -/
def noting (s : Client.Section (Resource Ext)) : Option Nat → Client.Section (Resource Ext)
  | some i => { s with loaded := .image i :: .index i :: s.loaded }
  | none => s

variable [DecidableEq Tid] [DecidableEq Obj]

/-- `image_acquire` inside a section. Whoever loads keeps the Control alive. -/
def step (t : Tid) (sh : Shared Tid Obj Ext) (l : Local Tid Obj Ext) :
    Action Obj Ext → Option (Shared Tid Obj Ext × Local Tid Obj Ext)
  | .object a =>
    let sections := if (domainAccess l a).isSome then
      Function.update sh.sections t (Client.sectionsAfter (sh.sections t) l.dom.pc) else sh.sections
    (DLL.step t sh.base l a).map fun r => (⟨r.1, sections⟩, r.2)
  | .read o =>
    match l.dom.pc, l.frame, sh.sections t with
    | .idle _, .idle _, s :: outer =>
      if 0 < (sh.base.objects o).useCount then
        some (⟨sh.base, Function.update sh.sections t (noting s (sh.base.objects o).shown :: outer)⟩, l)
      else none
    | _, _, _ => none

def system (Tid Obj Ext : Type) [DecidableEq Tid] [DecidableEq Obj] :
    Program Tid (Shared Tid Obj Ext) (Local Tid Obj Ext) (Action Obj Ext) where
  step := step

def start (Tid Ext : Type) {Obj : Type} (made : Obj → Bool) :
    Config Tid (Shared Tid Obj Ext) (Local Tid Obj Ext) :=
  ⟨{ base := (DLL.start Tid Ext made).shared }, (DLL.start Tid Ext made).locals⟩

def Action.inner : Action Obj Ext → Option (DLL.Action Obj Ext)
  | .object a => some a
  | .read _ => none

/-- Sections are closed by whoever opened them, no section is opened inside another, and nothing is
unloaded by force. -/
def Flat (c : Config Tid (Shared Tid Obj Ext) (Local Tid Obj Ext)) (t : Tid) (b : Action Obj Ext) : Prop :=
  ∀ a ∈ b.inner, a.forces = false ∧ ∀ b ∈ domainAccess (c.locals t) a,
    Client.balanced (c.shared.sections t) b.1 = true ∧ Client.nests (c.shared.sections t) (.domain b.1) = false

omit [DecidableEq Tid] [DecidableEq Obj] in
instance (c : Config Tid (Shared Tid Obj Ext) (Local Tid Obj Ext)) (t : Tid) (b : Action Obj Ext) :
    Decidable (Flat c t b) :=
  inferInstanceAs (Decidable (∀ a ∈ b.inner, _ ∧ ∀ b ∈ domainAccess (c.locals t) a, _))

def Holds (sh : Shared Tid Obj Ext) (t : Tid) (x : Resource Ext) : Prop := ∃ s ∈ sh.sections t, x ∈ s.loaded

variable {t u : Tid} {o : Obj} {a : DLL.Action Obj Ext} {x : Resource Ext} {i : Nat} {k : Part}
  {sh sh' : Shared Tid Obj Ext} {l l' : Local Tid Obj Ext} {c c' : Config Tid (Shared Tid Obj Ext) (Local Tid Obj Ext)}
  {made : Obj → Bool}

/-- Without the sections, a run of the readers is one of the Objects. -/
def objectsOf (c : Config Tid (Shared Tid Obj Ext) (Local Tid Obj Ext)) :
    Config Tid (DLL.Shared Tid Obj Ext) (Local Tid Obj Ext) := ⟨c.shared.base, c.locals⟩

/-- What a step of the readers is to the Objects, and to the sections. -/
inductive Moves (t : Tid) (sh : Shared Tid Obj Ext) (l : Local Tid Obj Ext) :
    Action Obj Ext → Shared Tid Obj Ext → Local Tid Obj Ext → Prop
  | accesses {a b d l'} : domainAccess l a = some (b, l'.frame) → RCU.Moves t sh.base.dom b l.dom d l'.dom →
      RCU.step t sh.base.dom l.dom b = some (d, l'.dom) → Moves t sh l (.object a)
        ⟨{ sh.base with dom := d }, Function.update sh.sections t (Client.sectionsAfter (sh.sections t) l.dom.pc)⟩ l'
  | moves {a r o base l'} : DLL.Moves sh.base r o l.frame (base, l'.frame) → l.dom.pc = .idle r → l'.dom = l.dom →
      Moves t sh l (.object a) ⟨base, sh.sections⟩ l'
  | reads {o r s outer} : l.dom.pc = .idle r → sh.sections t = s :: outer → Moves t sh l (.read o)
      ⟨sh.base, Function.update sh.sections t (noting s (sh.base.objects o).shown :: outer)⟩ l

theorem moves_of_step {b : Action Obj Ext} (h : step t sh l b = some (sh', l')) : Moves t sh l b sh' l' := by
  cases b with
  | object a =>
    obtain ⟨⟨base, l₁⟩, hs, he⟩ := Option.map_eq_some_iff.mp h
    obtain ⟨rfl, rfl⟩ := Prod.mk.inj he
    rcases step_cases hs with ⟨b, d, hb, hd, rfl, -⟩ | ⟨r, o, hnone, hpc, hdom, hm, -⟩
    · simp only [hb, Option.isSome_some, if_true]
      exact .accesses hb (RCU.moves_of_step hd) hd
    · simp only [hnone, Option.isSome_none, Bool.false_eq_true, if_false]
      exact .moves hm hpc hdom
  | read o =>
    simp only [step] at h
    split at h
    · rename_i hpc _ hs
      split at h
      · cases h
        exact .reads hpc hs
      · cases h
    · cases h

theorem objectsOf_reachable {ok : Config Tid (Shared Tid Obj Ext) (Local Tid Obj Ext) → Tid → Action Obj Ext → Prop}
    (h : (system Tid Obj Ext).Reachable ok (start Tid Ext made) c) :
    (DLL.system Tid Obj Ext).Reachable Program.anyStep (DLL.start Tid Ext made) (objectsOf c) := by
  refine h.project objectsOf ?_
  intro c t b c' _ hn
  obtain ⟨sh, l, hs, rfl⟩ := Program.next_eq_some_iff.mp hn
  cases b with
  | object a =>
    obtain ⟨⟨base, l₁⟩, hbase, he⟩ := Option.map_eq_some_iff.mp hs
    cases he
    exact .inr ⟨t, a, trivial, Program.next_eq_some_iff.mpr ⟨_, _, hbase, rfl⟩⟩
  | read o =>
    left
    have hm : Moves t c.shared (c.locals t) (.read o) sh l := moves_of_step hs
    generalize hl : c.locals t = l₀ at hm
    cases hm with
    | reads => simp [objectsOf, ← hl]

section Pointers
variable [Fintype Obj] {objects objects' : Obj → Object}

/-- The pointers to what an Object shows: one to its image and one to the index. -/
def pointer (objects : Obj → Object) (p : Obj × Part) : Option (Resource Ext) :=
  (objects p.1).shown.map fun i => p.2.resource i

noncomputable def places (Obj : Type) [Fintype Obj] : List (Obj × Part) := Finset.univ.toList

noncomputable def place (p : Obj × Part) : Nat := @List.idxOf _ instBEqOfDecidableEq p (places Obj)

noncomputable def pointers (objects : Obj → Object) : List (Option (Resource Ext)) :=
  (places Obj).map (pointer objects)

omit [DecidableEq Obj] in
theorem mem_places (p : Obj × Part) : p ∈ places Obj := Finset.mem_toList.mpr (Finset.mem_univ p)

omit [DecidableEq Obj] in
private theorem shown_of_mem_pointers (h : some x ∈ pointers objects) :
    ∃ (o : Obj) (k : Part) (i : Nat), (objects o).shown = some i ∧ x = k.resource i := by
  obtain ⟨⟨o, k⟩, -, hp⟩ := List.mem_map.mp h
  obtain ⟨i, hi, rfl⟩ := Option.map_eq_some_iff.mp hp
  exact ⟨o, k, i, hi, rfl⟩

private theorem pointers_place (p : Obj × Part) :
    (pointers objects : List (Option (Resource Ext)))[place p]? = some (pointer objects p) := by
  have hplace : (places Obj)[place p]? = some p :=
    @List.getElem?_idxOf _ instBEqOfDecidableEq inferInstance p (places Obj) (mem_places p)
  rw [pointers, List.getElem?_map, hplace, Option.map_some]

/-- What changes with one Object are its two pointers. -/
theorem pointers_set (hne : ∀ u, u ≠ o → objects' u = objects u) :
    (pointers objects' : List (Option (Resource Ext))) =
      ((pointers objects).set (place (o, .index)) (pointer objects' (o, .index))).set
        (place (o, .image)) (pointer objects' (o, .image)) := by
  have hnodup : (places Obj).Nodup := Finset.nodup_toList _
  have hpointer : (pointer objects' : Obj × Part → Option (Resource Ext)) =
      Function.update (Function.update (pointer objects) (o, .index) (pointer objects' (o, .index)))
        (o, .image) (pointer objects' (o, .image)) := by
    funext ⟨u, k⟩
    by_cases hu : u = o
    · subst hu
      cases k <;> simp [Function.update]
    · simp [Function.update, hu, pointer, hne u hu]
  have hmap := congrArg (places Obj).map hpointer
  rw [hnodup.map_update, if_pos (mem_places _), hnodup.map_update, if_pos (mem_places _)] at hmap
  exact hmap

end Pointers

section Simulation
variable [DecidableEq Ext]
  {d : Config Tid (Client.Shared Tid (Resource Ext) Reclaim) (RCU.Local Tid (Resource Ext) Reclaim)}
  {s₀ : Config Tid (Client.Shared Tid (Resource Ext) Reclaim) (RCU.Local Tid (Resource Ext) Reclaim)} {r : Result}

/-- A client that is between two calls may put something into a pointer that was never retired. -/
theorem reachable_swap (hd : (Client.client Tid (Resource Ext) Reclaim).Reachable Client.Flat s₀ d)
    (hpc : (d.locals t).pc = .idle r) (n : Nat) {new : Option (Resource Ext)} (hnew : ∀ x ∈ new, x ∉ d.shared.handed) :
    (Client.client Tid (Resource Ext) Reclaim).Reachable Client.Flat s₀
      ⟨{ d.shared with ptrs := d.shared.ptrs.set n new }, d.locals⟩ := by
  have hs : Client.step t d.shared (d.locals t) (.swap n new) =
      some ({ d.shared with ptrs := d.shared.ptrs.set n new }, d.locals t) := by
    simp only [Client.step, hpc]
    rw [if_pos hnew]
  refine hd.step (t := t) (a := .swap n new) rfl (Program.next_eq_some_iff.mpr ⟨_, _, hs, ?_⟩)
  rw [Function.update_eq_self]

theorem reachable_load (hd : (Client.client Tid (Resource Ext) Reclaim).Reachable Client.Flat s₀ d)
    (hpc : (d.locals t).pc = .idle r) {n : Nat} {s : Client.Section (Resource Ext)}
    {outer : List (Client.Section (Resource Ext))}
    (hs : d.shared.sections t = s :: outer) (hx : d.shared.ptrs[n]? = some (some x)) :
    (Client.client Tid (Resource Ext) Reclaim).Reachable Client.Flat s₀
      ⟨{ d.shared with sections := Function.update d.shared.sections t ({ s with loaded := x :: s.loaded } :: outer) },
        d.locals⟩ := by
  have hstep : Client.step t d.shared (d.locals t) (.load n) = some ({ d.shared with
      sections := Function.update d.shared.sections t ({ s with loaded := x :: s.loaded } :: outer) }, d.locals t) := by
    simp only [Client.step, hpc, hs, hx]
  refine hd.step (t := t) (a := .load n) rfl (Program.next_eq_some_iff.mpr ⟨_, _, hstep, ?_⟩)
  rw [Function.update_eq_self]

variable [Fintype Obj]

/-- The readers and the Objects as one client of the domain, which has been handed some resources so far. -/
noncomputable def asClient (c : Config Tid (Shared Tid Obj Ext) (Local Tid Obj Ext)) (handed : List (Resource Ext)) :
    Config Tid (Client.Shared Tid (Resource Ext) Reclaim) (RCU.Local Tid (Resource Ext) Reclaim) :=
  ⟨⟨c.shared.base.dom, pointers c.shared.base.objects, c.shared.sections, handed⟩, fun t => (c.locals t).dom⟩

omit [DecidableEq Obj] [DecidableEq Ext] [Fintype Obj] in
theorem doms_update (c : Config Tid (Shared Tid Obj Ext) (Local Tid Obj Ext)) (t : Tid) (l : Local Tid Obj Ext) :
    (fun u => (Function.update c.locals t l u).dom) = Function.update (fun u => (c.locals u).dom) t l.dom :=
  domainOf_update (c := objectsOf c) l

omit [DecidableEq Ext] in
/-- What an Object shows has not been disposed of. -/
theorem shown_not_disposed
    (h : (DLL.system Tid Obj Ext).Reachable Program.anyStep (DLL.start Tid Ext made) (objectsOf c))
    [Fintype Tid] (hi : (c.shared.base.objects o).shown = some i) : i ∉ c.shared.base.disposed := by
  intro hdisposed
  unfold Object.shown at hi
  split at hi
  · obtain ⟨d, hd, himage⟩ := Option.bind_eq_some_iff.mp hi
    exact (image_life_cycle h).not_current i hdisposed o d hd ‹_› himage
  · cases hi

omit [DecidableEq Tid] [DecidableEq Obj] [DecidableEq Ext] [Fintype Obj] in
/-- The code of `Object` retires an image only when it is disposed of; direct users retire none. -/
theorem disposed_of_handed [Fintype Tid] {base : Config Tid (DLL.Shared Tid Obj Ext) (Local Tid Obj Ext)}
    (h : DLL.Retiring base) {b : RCU.Action (Resource Ext) Reclaim} {g : Frame Obj}
    (hb : domainAccess (base.locals t) a = some (b, g)) (hx : k.resource i ∈ Client.handedBy b) :
    i ∈ base.shared.disposed := by
  rcases domainAccess_cases hb with ⟨_, -, -, hdirect⟩ | ⟨_, rfl, -⟩ |
    ⟨r, o, j, bounded, stage, stage', next, hpc, hold, -,
    hcall⟩
  · cases b with
    | retire object | retireEager object | retireToken object =>
      obtain rfl : object = some (k.resource i) := Option.mem_toList.mp hx
      cases k <;> cases hdirect
    | _ => cases hx
  · cases hx
  · have hcarried : i = j ∧ (stage = .index ∨ stage = .image) := by
      cases stage with
      | wait => cases bounded <;> cases hcall <;> cases hx
      | outcome => cases hcall
      | index | image =>
        cases hcall
        cases k <;> cases List.mem_singleton.mp hx
        simp
      | _ =>
        cases hcall
        cases hx
    obtain ⟨rfl, hstage⟩ := hcarried
    have hmem : i ∈ carrying (base.locals t) := by
      rw [carrying, hold, hpc]
      rcases hstage with rfl | rfl <;> exact Multiset.mem_singleton_self i
    exact Multiset.mem_coe.mp (Multiset.mem_of_le h.disposed (Multiset.mem_add.mpr (.inr
      (Multiset.mem_of_le (held_le_total carrying _ t) hmem))))

/-- Some client of the domain does what the readers and the Objects do, and is handed nothing of an image
that was not disposed of. -/
def Simulated (made : Obj → Bool) (c : Config Tid (Shared Tid Obj Ext) (Local Tid Obj Ext)) : Prop :=
  ∃ handed, (Client.client Tid (Resource Ext) Reclaim).Reachable Client.Flat
      (Client.start Tid Reclaim (pointers (DLL.start Tid Ext made).shared.objects)) (asClient c handed) ∧
    ∀ (k : Part) (i : Nat), k.resource i ∈ handed → i ∈ c.shared.base.disposed

variable [Fintype Tid]

/-- An access of the domain is one of the client. -/
theorem client_access (h : (DLL.system Tid Obj Ext).Reachable Program.anyStep (DLL.start Tid Ext made) (objectsOf c))
    {b : RCU.Action (Resource Ext) Reclaim} {e : RCU.Shared Tid (Resource Ext) Reclaim} (hok : Flat c t (.object a))
    (hb : domainAccess (c.locals t) a = some (b, l.frame))
    (hd : RCU.step t c.shared.base.dom (c.locals t).dom b = some (e, l.dom)) (handed : List (Resource Ext)) :
    (Client.client Tid (Resource Ext) Reclaim).next (asClient c handed) t (.domain b) =
      some (asClient ⟨⟨{ c.shared.base with dom := e }, Function.update c.shared.sections t
        (Client.sectionsAfter (c.shared.sections t) (c.locals t).dom.pc)⟩, Function.update c.locals t l⟩
          (Client.handedBy b ++ handed)) := by
  have hcontract : Client.Contract t (asClient c handed).shared b := by
    refine ⟨((hok a rfl).2 _ hb).1, fun x hx hmem => ?_⟩
    obtain ⟨o, k, i, hshown, rfl⟩ := shown_of_mem_pointers hmem
    exact shown_not_disposed h hshown (disposed_of_handed (retiring_of_reachable h) hb hx)
  have hs : Client.step t (asClient c handed).shared ((asClient c handed).locals t) (.domain b) =
      some (⟨e, pointers c.shared.base.objects, Function.update c.shared.sections t
        (Client.sectionsAfter (c.shared.sections t) (c.locals t).dom.pc), Client.handedBy b ++ handed⟩, l.dom) := by
    simp only [Client.step, if_pos hcontract]
    simp only [asClient, hd, Option.map_some]
  refine Program.next_eq_some_iff.mpr ⟨_, _, hs, ?_⟩
  simp only [asClient, doms_update]

private theorem simulated_next (h : (DLL.system Tid Obj Ext).Reachable Program.anyStep (DLL.start Tid Ext made) (objectsOf c))
    {b : Action Obj Ext} (hok : Flat c t b) (hc : Simulated made c) (hn : (system Tid Obj Ext).next c t b = some c')
    (h' : (DLL.system Tid Obj Ext).Reachable Program.anyStep (DLL.start Tid Ext made) (objectsOf c')) :
    Simulated made c' := by
  obtain ⟨handed, hr, hdisposed⟩ := hc
  obtain ⟨sh, l, hs, rfl⟩ := Program.next_eq_some_iff.mp hn
  have hm : Moves t c.shared (c.locals t) b sh l := moves_of_step hs
  cases hm with
  | @accesses a b d _ hb _ hd =>
    refine ⟨Client.handedBy b ++ handed, hr.step ((hok a rfl).2 _ hb).2 (client_access h hok hb hd handed),
      fun k i hx => ?_⟩
    rcases List.mem_append.mp hx with hx | hx
    · exact disposed_of_handed (retiring_of_reachable h) hb hx
    · exact hdisposed k i hx
  | @moves a r o base _ hm hpc hdom =>
    have hgrows : ∀ i ∈ c.shared.base.disposed, i ∈ base.disposed := by
      rcases hm.hands.disposed with ⟨_, _, _, _, -, hd⟩ | ⟨-, hd⟩
      · exact fun i hi => hd ▸ List.mem_cons_of_mem _ hi
      · exact fun i hi => Multiset.mem_coe.mp (Multiset.mem_of_le hd (Multiset.mem_coe.mpr hi))
    have hfresh (p : Obj × Part) (x : Resource Ext) (hx : x ∈ pointer base.objects p) : x ∉ handed := by
      obtain ⟨i, hi, rfl⟩ := Option.map_eq_some_iff.mp hx
      exact fun hmem => shown_not_disposed h' hi (hgrows i (hdisposed p.2 i hmem))
    have hpc' : ((asClient c handed).locals t).pc = .idle r := hpc
    refine ⟨handed, ?_, fun k i hx => hgrows i (hdisposed k i hx)⟩
    have hboth := reachable_swap (reachable_swap hr hpc' (place (o, .index)) (hfresh (o, .index))) hpc'
      (place (o, .image)) (hfresh (o, .image))
    have hsame : asClient ⟨⟨base, c.shared.sections⟩, Function.update c.locals t l⟩ handed =
        ⟨{ (asClient c handed).shared with ptrs := pointers base.objects }, (asClient c handed).locals⟩ := by
      simp only [asClient, doms_update, hdom, Function.update_eq_self,
        show base.dom = c.shared.base.dom from hm.hands.dom]
    rw [hsame, pointers_set hm.at.1]
    exact hboth
  | @reads o r s outer hpc hsec =>
    have hlocals : Function.update c.locals t (c.locals t) = c.locals := Function.update_eq_self _ _
    refine ⟨handed, ?_, hdisposed⟩
    cases hi : (c.shared.base.objects o).shown with
    | none =>
      simp only [noting, ← hsec, Function.update_eq_self]
      exact hr
    | some i =>
      have hpointer (k : Part) : (asClient c handed).shared.ptrs[place (o, k)]? = some (some (k.resource i)) := by
        rw [asClient, pointers_place, pointer, hi]
        rfl
      have hindex := reachable_load hr hpc hsec (hpointer .index)
      have himage := reachable_load hindex hpc (Function.update_self ..) (hpointer .image)
      rw [Function.update_idem] at himage
      rw [hlocals]
      exact himage

theorem simulated_of_reachable (h : (system Tid Obj Ext).Reachable Flat (start Tid Ext made) c) : Simulated made c := by
  induction h with
  | init => exact ⟨[], .init, fun _ _ => nofun⟩
  | step hr hok hn ih => exact simulated_next (objectsOf_reachable hr) hok ih hn (objectsOf_reachable (hr.step hok hn))

private theorem callback_spares_holders (h : (system Tid Obj Ext).Reachable Flat (start Tid Ext made) c) {b : Action Obj Ext}
    (hok : Flat c t b) (hn : (system Tid Obj Ext).next c t b = some c') {f : Reclaim}
    (hf : Client.RunsCallback c.shared.base.dom c'.shared.base.dom f x) : ¬ Holds c.shared u x := by
  obtain ⟨handed, hr, -⟩ := simulated_of_reachable h
  obtain ⟨sh, l, hs, rfl⟩ := Program.next_eq_some_iff.mp hn
  have hm : Moves t c.shared (c.locals t) b sh l := moves_of_step hs
  cases hm with
  | accesses hb _ hd =>
    exact Client.callback_spares_readers hr (client_access (objectsOf_reachable h) hok hb hd handed) hf u
  | moves hm =>
    obtain ⟨n, hnew, -⟩ := hf
    have hd : _ = c.shared.base.dom := hm.hands.dom
    exact absurd (hd ▸ hnew) (List.cons_ne_self _ _).symm
  | reads =>
    obtain ⟨n, hnew, -⟩ := hf
    exact absurd hnew (List.cons_ne_self _ _).symm

/-- A callback that has run on an image or its index found it disposed of. -/
theorem disposed_of_reclaimed (h : (system Tid Obj Ext).Reachable Flat (start Tid Ext made) c) (t : Tid)
    {n : RetiredNode (Resource Ext) Reclaim} (hn : n ∈ c.shared.base.dom.reclaimed)
    (ho : n.object = some (k.resource i)) : i ∈ c.shared.base.disposed := by
  obtain ⟨handed, hr, hdisposed⟩ := simulated_of_reachable h
  have hguarded := (Client.guarded_of_reachable (r := t) (hr.mono fun _ _ _ hflat _ => hflat)).1
  have htagged := tagged_of_reclaimed (Client.domain_reachable hr) n hn
  exact hdisposed k i (hguarded.tagged_handed n htagged _ ho)

end Simulation

section Alive

/-- The image was published and not thrown away, and no callback has run on it or on its index. -/
structure Alive (sh : DLL.Shared Tid Obj Ext) (i : Nat) : Prop where
  published : i ∈ sh.published
  kept : i ∉ sh.discarded
  spared : ∀ n ∈ sh.dom.reclaimed, ∀ f, n.reclaim = some f → ∀ k : Part, n.object ≠ some (k.resource i)

variable {base : DLL.Shared Tid Obj Ext} {r : Result} {f : Frame Obj} {p : DLL.Shared Tid Obj Ext × Frame Obj}

/-- A step loads an image, discards one or publishes some, or leaves the images as they are. -/
def Imaging (base : DLL.Shared Tid Obj Ext) (p : DLL.Shared Tid Obj Ext × Frame Obj) : Prop :=
  ∃ n thrown shown, p.1.nextImage = base.nextImage + n ∧ p.1.discarded = thrown ++ base.discarded ∧
    p.1.published = shown ++ base.published ∧ n + thrown.length ≤ 1

omit [DecidableEq Tid] [DecidableEq Obj] in
theorem imaging_of_same (hn : p.1.nextImage = base.nextImage) (hd : p.1.discarded = base.discarded)
    (hp : p.1.published = base.published) : Imaging base p := ⟨0, [], [], hn, hd, hp, Nat.zero_le _⟩

omit [DecidableEq Tid] in
theorem imaging_retired (next : Next) : Imaging base (base.retired o next) := by
  cases next <;> exact imaging_of_same rfl rfl rfl

omit [DecidableEq Tid] [DecidableEq Obj] in
private theorem imaging_destroyControl (d : Control) : Imaging base (base.destroyControl o d) := by
  unfold Shared.destroyControl
  split <;> exact imaging_of_same rfl rfl rfl

omit [DecidableEq Tid] in
private theorem imaging_swapped (d : Control) (s : Swap) (previous : Option Nat) :
    Imaging base (base.swapped d o s previous) := by
  unfold Shared.swapped
  split
  · exact imaging_of_same rfl rfl rfl
  · exact imaging_retired _
  · exact imaging_of_same rfl rfl rfl
  · exact imaging_of_same rfl rfl rfl

omit [DecidableEq Tid] [DecidableEq Obj] in
theorem Imaging.before {base₁ : DLL.Shared Tid Obj Ext} (h : Imaging base₁ p) (hn : base₁.nextImage = base.nextImage)
    (hd : base₁.discarded = base.discarded) (hp : base₁.published = base.published) : Imaging base p := by
  rw [Imaging, ← hn, ← hd, ← hp]
  exact h

omit [DecidableEq Tid] in
theorem imaging_of_moves (hm : DLL.Moves base r o f p) : Imaging base p := by
  cases hm with
  | loads => exact ⟨1, [], [], rfl, rfl, rfl, Nat.le_refl _⟩
  | @discards i => exact ⟨0, [i], [], rfl, rfl, rfl, Nat.le_refl _⟩
  | @exchanges _ s => exact ⟨0, [], s.image.toList, rfl, rfl, rfl, Nat.zero_le _⟩
  | dropsLast | dropsOwnedLast => exact (imaging_destroyControl _).before rfl rfl rfl
  | unlocks => exact (imaging_swapped _ _ _).before rfl rfl rfl
  | records => exact (imaging_retired _).before rfl rfl rfl
  | @timesOut s => cases s <;> exact imaging_of_same rfl rfl rfl
  | _ => exact imaging_of_same rfl rfl rfl

variable [DecidableEq Ext] [Fintype Tid] [Fintype Obj]

theorem alive_of_shown (h : (system Tid Obj Ext).Reachable Flat (start Tid Ext made) c) (t : Tid)
    (hi : (c.shared.base.objects o).shown = some i) : Alive c.shared.base i := by
  have hlife := image_life_cycle (objectsOf_reachable h)
  have hcurrent : i ∈ (c.shared.base.objects o).current := by
    unfold Object.shown at hi
    unfold Object.current
    split at hi
    · rw [if_pos ‹_›, hi]
      exact Multiset.mem_singleton_self i
    · cases hi
  have hpublished : i ∈ c.shared.base.published := by
    have hle := held_le_total Object.current c.shared.base.objects o
    have hmem : i ∈ (c.shared.base.published : Multiset Nat) := by
      rw [show (c.shared.base.published : Multiset Nat) = _ from hlife.published]
      exact Multiset.mem_add.mpr (.inl (Multiset.mem_add.mpr (.inr (Multiset.mem_of_le hle hcurrent))))
    exact Multiset.mem_coe.mp hmem
  refine ⟨hpublished, fun hdiscarded => hlife.discarded_unpublished i hdiscarded hpublished, fun n hn f _ k ho => ?_⟩
  exact shown_not_disposed (objectsOf_reachable h) hi (disposed_of_reclaimed h t hn ho)

/-- A section holds nothing of an image, or both of its parts, and then the image is alive. -/
def Kept (sh : DLL.Shared Tid Obj Ext) (s : Client.Section (Resource Ext)) : Prop :=
  ∀ (k : Part) (i : Nat), k.resource i ∈ s.loaded → Alive sh i ∧ ∀ k' : Part, k'.resource i ∈ s.loaded

/-- What a section holds stays alive over a step. -/
theorem alive_next (h : (system Tid Obj Ext).Reachable Flat (start Tid Ext made) c) {b : Action Obj Ext}
    (hok : Flat c t b) (hn : (system Tid Obj Ext).next c t b = some c') {s : Client.Section (Resource Ext)}
    (hs : s ∈ c.shared.sections u) (hkept : Kept c.shared.base s) : Kept c'.shared.base s := by
  intro k i hi
  obtain ⟨halive, hboth⟩ := hkept k i hi
  have hlife := image_life_cycle (objectsOf_reachable (h.step hok hn))
  have hpublished : i ∈ c'.shared.base.published := by
    obtain ⟨sh, l, hs, rfl⟩ := Program.next_eq_some_iff.mp hn
    have hm : Moves t c.shared (c.locals t) b sh l := moves_of_step hs
    cases hm with
    | accesses | reads => exact halive.published
    | moves hm =>
      obtain ⟨_, _, shown, -, -, he, -⟩ := imaging_of_moves hm
      exact he ▸ List.mem_append_right shown halive.published
  refine ⟨⟨hpublished, fun hdiscarded => hlife.discarded_unpublished i hdiscarded hpublished, ?_⟩, hboth⟩
  intro n hmem f hf k' ho
  have hnew : c'.shared.base.dom.reclaimed = c.shared.base.dom.reclaimed ∨
      ∃ m, c'.shared.base.dom.reclaimed = m :: c.shared.base.dom.reclaimed := by
    obtain ⟨sh, l, hs, rfl⟩ := Program.next_eq_some_iff.mp hn
    have hm : Moves t c.shared (c.locals t) b sh l := moves_of_step hs
    cases hm with
    | accesses _ hm =>
      rcases hm.reclaimed with he | ⟨_, _, _, m, _, _, -, -, -, he, -⟩
      · exact .inl he
      · exact .inr ⟨m, he⟩
    | moves hm => exact .inl (congrArg RCU.Shared.reclaimed hm.hands.dom)
    | reads => exact .inl rfl
  rcases hnew with he | ⟨m, he⟩
  · exact halive.spared n (he ▸ hmem) f hf k' ho
  · rcases List.mem_cons.mp (he ▸ hmem) with rfl | hmem
    · exact callback_spares_holders h hok hn ⟨n, he, hf, ho⟩ ⟨s, hs, hboth k'⟩
    · exact halive.spared n hmem f hf k' ho

omit [DecidableEq Tid] [DecidableEq Obj] [DecidableEq Ext] [Fintype Tid] [Fintype Obj] in
private theorem kept_nil {s : Client.Section (Resource Ext)} (hs : s.loaded = []) : Kept base s := by
  intro k i hi
  rw [hs] at hi
  cases hi

omit [DecidableEq Tid] [DecidableEq Obj] [DecidableEq Ext] [Fintype Tid] [Fintype Obj] in
theorem Kept.noting {s : Client.Section (Resource Ext)} {shown : Option Nat} (h : Kept base s)
    (halive : ∀ i ∈ shown, Alive base i) : Kept base (noting s shown) := by
  cases shown with
  | none => exact h
  | some j =>
    intro k i hi
    have hall : ∀ k' : Part, k'.resource i ∈ s.loaded → k'.resource i ∈ (Readers.noting s (some j)).loaded :=
      fun _ hmem => List.mem_cons_of_mem _ (List.mem_cons_of_mem _ hmem)
    by_cases hij : i = j
    · subst hij
      exact ⟨halive i rfl, fun k' => by cases k' <;> simp [Readers.noting, Part.resource]⟩
    · have hold : k.resource i ∈ s.loaded := by
        cases k <;> simpa [Readers.noting, Part.resource, hij] using hi
      exact ⟨(h k i hold).1, fun k' => hall k' ((h k i hold).2 k')⟩

/-- Every section that is open keeps what it has loaded. -/
theorem kept_of_reachable (h : (system Tid Obj Ext).Reachable Flat (start Tid Ext made) c) :
    ∀ u, ∀ s ∈ c.shared.sections u, Kept c.shared.base s := by
  induction h with
  | init => exact fun _ _ => nofun
  | @step c c' t b hr hok hn ih =>
    have hold (u : Tid) (s : Client.Section (Resource Ext)) (hs : s ∈ c.shared.sections u) : Kept c'.shared.base s :=
      alive_next hr hok hn hs (ih u s hs)
    have hreach := hr.step hok hn
    obtain ⟨sh, l, hs, rfl⟩ := Program.next_eq_some_iff.mp hn
    have hm : Moves t c.shared (c.locals t) b sh l := moves_of_step hs
    intro u s hmem
    by_cases hu : u = t
    · subst hu
      cases hm with
      | accesses =>
        simp only [Function.update_self, Client.sectionsAfter] at hmem
        split at hmem
        · rcases List.mem_cons.mp hmem with rfl | hmem
          · exact kept_nil rfl
          · exact hold u s hmem
        · exact hold u s (List.mem_of_mem_tail hmem)
        · exact hold u s hmem
      | moves => exact hold u s hmem
      | @reads o _ s₀ outer _ hsec =>
        simp only [Function.update_self] at hmem
        rcases List.mem_cons.mp hmem with rfl | hmem
        · exact (hold u s₀ (hsec ▸ List.mem_cons_self)).noting fun i hi => alive_of_shown hreach u hi
        · exact hold u s (hsec ▸ List.mem_cons_of_mem _ hmem)
    · refine hold u s ?_
      cases hm with
      | accesses | reads => simpa [Function.update_of_ne hu] using hmem
      | moves => exact hmem

end Alive

/-- No module is unloaded, and no index destroyed, under a reader: in every run of Objects and readers
in which sections are balanced and not nested and nothing is unloaded by force, an image that a thread
has loaded in a section it is still in was published, was not discarded, and no callback has run on it
or on its index. -/
theorem images_outlive_their_readers [Fintype Tid] [Fintype Obj] [DecidableEq Ext]
    (h : (system Tid Obj Ext).Reachable Flat (start Tid Ext made) c) (hheld : Holds c.shared u (k.resource i)) :
    Alive c.shared.base i := by
  obtain ⟨s, hs, hi⟩ := hheld
  exact (kept_of_reachable h u s hs k i hi).1

/-- A reader holds image 0, which a reload has taken out, and the reload waits for the reader. -/
theorem images_outlive_their_readers_reloading :
    ∃ c : Config (Fin 2) (Shared (Fin 2) Unit Unit) (Local (Fin 2) Unit Unit),
      c.shared.base.disposed = [0] ∧ Holds c.shared 0 (.image 0) ∧ Alive c.shared.base 0 := by
  have hrun : ((system (Fin 2) Unit Unit).exec Flat (start (Fin 2) Unit fun _ => true)
      ((1, .object (.load () "")) :: List.replicate 6 (1, .object (.run true)) ++ (0, .object (.domain .enter)) ::
        List.replicate 3 (0, .object (.run true)) ++ [(0, .read ()), (1, .object (.reload () ""))] ++
        List.replicate 11 (1, .object (.run true)))).map
      (fun c => (c.shared.base.disposed, c.shared.sections 0)) = some ([0], [⟨1, [.image 0, .index 0]⟩]) := by
    decide
  obtain ⟨c, hc, he⟩ := Option.map_eq_some_iff.mp hrun
  obtain ⟨hdisposed, hs⟩ := Prod.mk.inj he
  have hheld : Holds c.shared 0 (.image 0) := ⟨_, hs ▸ List.mem_cons_self, List.mem_cons_self⟩
  exact ⟨c, hdisposed, hheld, images_outlive_their_readers (k := .image) (.of_exec .init hc) hheld⟩

end Readers
end Abix.DLL

import Abix.DLL.Completion
import Abix.RCU.Draining

/-! No image has to stay. An image that is disposed of has both of its nodes queued by the time its
operation returns, if no allocation fails, and what is queued can be called back. -/
namespace Abix.DLL
open Abix.Concurrency Abix.RCU
variable {Tid Obj Ext : Type} [DecidableEq Tid] [DecidableEq Obj] {t u : Tid} {o : Obj} {a : Action Obj Ext}
  {sh sh' : Shared Tid Obj Ext} {l l' : Local Tid Obj Ext} {f : Frame Obj} {r : Result}
  {p : Shared Tid Obj Ext × Frame Obj} {c c' : Config Tid (Shared Tid Obj Ext) (Local Tid Obj Ext)}
  {made : Obj → Bool}

inductive Part where
  | index
  | image
  deriving DecidableEq

def Part.of : Part → Option (Resource Ext) → Option Nat
  | .index => indexOf
  | .image => imageOf

def Part.among (k : Part) (nodes : List (RetiredNode (Resource Ext) Reclaim)) : Multiset Nat :=
  ↑(nodes.filterMap fun n => k.of n.object)

def Frame.owed (flying : Bool) : Part → Frame Obj → Multiset Nat
  | .index, .retire _ i _ .index _ | .image, .retire _ i _ .index _ | .image, .retire _ i _ .sync _
  | .image, .retire _ i _ .image _ => {i}
  | .index, .retire _ i _ .sync _ | .index, .retire _ i _ .image _ | .image, .retire _ i _ .wait _ =>
    if flying then {i} else 0
  | _, _ => 0

def owing (k : Part) (l : Local Tid Obj Ext) : Multiset Nat := l.frame.owed (inFlight l.dom.pc).isSome k

section Domain
variable {b : RCU.Action (Resource Ext) Reclaim} {d d' : RCU.Shared Tid (Resource Ext) Reclaim}
  {m m' : RCU.Local Tid (Resource Ext) Reclaim} {x : Bool}

private theorem inFlight_stays (hm : RCU.Moves t d (.run x) m d' m') (hx : Allocates (d, m) x) (he : d'.queued = d.queued) :
    (inFlight m'.pc).isSome = (inFlight m.pc).isSome := by
  cases hm with
  | called hs => cases hs
  | @registers _ entered => cases entered <;> rfl
  | queues | fills => exact absurd he (List.cons_ne_self _ _)
  | noMemory => exact absurd rfl (hx rfl _)
  | _ => rfl

omit [DecidableEq Obj] in
/-- A call of `retire_image` takes the node that it queues along. -/
theorem owed_call {i : Nat} {bounded : Bool} {stage stage' : Stage} {next : Next} (k : Part)
    (hcall : retireImage i bounded r stage = some (b, stage')) (hm : RCU.Moves t d b m d' m') :
    (Frame.retire o i bounded stage' next).owed (inFlight m'.pc).isSome k =
      (Frame.retire o i bounded stage next).owed false k := by
  cases stage with
  | index =>
    cases bounded <;> cases hcall <;> cases hm with
    | called hs =>
      cases hs
      cases k <;> rfl
  | wait =>
    cases bounded <;> cases hcall <;> cases hm with
    | called hs =>
      cases hs
      cases k <;> rfl
  | outcome => cases hcall
  | _ =>
    cases hcall
    cases hm with
    | called hs =>
      cases hs
      cases k <;> rfl

omit [DecidableEq Obj] in
theorem owed_queued {n : RetiredNode (Resource Ext) Reclaim} (k : Part)
    (h : FlightAt f (n.object, n.reclaim, n.cls)) :
    ↑(k.of n.object).toList + f.owed false k = f.owed true k := by
  unfold FlightAt at h
  split at h
  · cases k <;> simp [Part.of, Frame.owed, h.1, h.2]
  · cases k <;> simp [Part.of, Frame.owed, (Prod.mk.inj h).1, indexOf, imageOf]
  · cases k <;> simp [Part.of, Frame.owed, (Prod.mk.inj h).1, indexOf, imageOf]
  · cases k <;> simp [Part.of, Frame.owed, (Prod.mk.inj h).1, indexOf, imageOf]
  · exact h.elim

omit [DecidableEq Obj] in
private theorem Flight.pays (hl : Flight l) (k : Part) (hb : domainAccess l a = some (b, l'.frame))
    (hm : RCU.Moves t d b l.dom d' l'.dom) (hx : ∀ x, b = .run x → Allocates (d, l.dom) x) :
    k.among d'.queued + owing k l' = k.among d.queued + owing k l := by
  rcases hl.queued hb hm with he | ⟨n, he, hframe, hat, hflight, hpc⟩
  · rw [he]
    congr 1
    unfold owing
    rcases domainAccess_cases hb with ⟨v, hv, hg, -⟩ | ⟨x, rfl, hg⟩ | ⟨r, o, i, _, _, _, _, hidle, hold, hnew, hcall⟩
    · rw [hg, hv]
      cases k <;> rfl
    · rw [hg, inFlight_stays hm (hx x rfl) he]
    · rw [hold, hnew, hidle]
      exact owed_call k hcall hm
  · have hdone : inFlight l'.dom.pc = none := by rcases hpc with hpc | hpc <;> rw [hpc] <;> rfl
    have hsome : (inFlight l.dom.pc).isSome = true := Option.isSome_iff_ne_none.mpr hflight
    have hnew : k.among d'.queued = ↑(k.of n.object).toList + k.among d.queued := by
      rw [Part.among, Part.among, he]
      cases hi : k.of n.object <;> simp [hi]
    calc k.among d'.queued + owing k l'
        = k.among d.queued + (↑(k.of n.object).toList + l.frame.owed false k) := by
          rw [hnew, owing, hframe, hdone, Option.isSome_none]
          abel
      _ = k.among d.queued + owing k l := by rw [owed_queued k hat, owing, hsome]

end Domain

section Objects

def Frame.unforced : Frame Obj → Bool
  | .useCount _ s | .lock _ s _ _ | .exchange _ s | .storeState _ s _ | .unlock _ s _ => s ≠ .force
  | .forceFree _ _ => false
  | _ => true

def Disposing (sh : Shared Tid Obj Ext) (p : Shared Tid Obj Ext × Frame Obj) : Prop :=
  p.2.unforced = true ∧ ∀ k, p.2.owed false k + ↑sh.disposed = (p.1.disposed : Multiset Nat)

omit [DecidableEq Tid] [DecidableEq Obj] in
theorem disposing_none (hd : p.1.disposed = sh.disposed) (hf : p.2.unforced = true) (hp : p.2.retiring = false) :
    Disposing sh p := by
  refine ⟨hf, fun k => ?_⟩
  have hnone : p.2.owed false k = 0 := by
    generalize p.2 = f at hp
    cases f with
    | retire => cases hp
    | _ => cases k <;> rfl
  rw [hnone, hd, zero_add]

omit [DecidableEq Tid] [DecidableEq Obj] in
theorem disposing_retire (d : Control) (i : Nat) (next : Next) : Disposing sh (sh.retire d o i next) := by
  refine ⟨rfl, fun k => ?_⟩
  have hone : (sh.retire d o i next).2.owed false k = {i} := by cases k <;> rfl
  rw [hone, Shared.retire, ← Multiset.cons_coe, Multiset.singleton_add]

omit [DecidableEq Tid] in
theorem disposing_retired (next : Next) : Disposing sh (sh.retired o next) := by
  cases next <;> exact disposing_none rfl rfl rfl

omit [DecidableEq Tid] [DecidableEq Obj] in
private theorem disposing_destroyControl (d : Control) : Disposing sh (sh.destroyControl o d) := by
  unfold Shared.destroyControl
  split
  · exact disposing_retire _ _ _
  · exact disposing_none rfl rfl rfl

omit [DecidableEq Tid] [DecidableEq Obj] in
private theorem next_ne_none {s : Swap} (hs : s ≠ .force) : s.next ≠ none := by
  cases s with
  | force => exact absurd rfl hs
  | _ => exact nofun

omit [DecidableEq Tid] in
private theorem disposing_swapped (d : Control) {s : Swap} (hs : s ≠ .force) (previous : Option Nat) :
    Disposing sh (sh.swapped d o s previous) := by
  unfold Shared.swapped
  split
  · exact disposing_retire _ _ _
  · exact disposing_retired _
  · exact absurd ‹s.next = none› (next_ne_none hs)
  · exact disposing_none rfl rfl rfl

omit [DecidableEq Tid] [DecidableEq Obj] in
theorem Disposing.before {sh₁ : Shared Tid Obj Ext} (h : Disposing sh₁ p) (hd : sh₁.disposed = sh.disposed) :
    Disposing sh p := ⟨h.1, fun k => hd ▸ h.2 k⟩

omit [DecidableEq Tid] in
private theorem Moves.disposes (hm : Moves sh r o f p) (hf : f.unforced = true)
    (hentry : p.2 ≠ .lock o .force false 0 ∨ f.object ≠ none) : Disposing sh p := by
  cases hm with
  | enters _ _ hin =>
    rcases hin with ⟨path, rfl⟩ | rfl | rfl
    · exact disposing_none rfl rfl rfl
    · exact disposing_none rfl rfl rfl
    · exact absurd rfl (hentry.resolve_right fun hf => hf rfl)
  | dropsLast | dropsOwnedLast => exact (disposing_destroyControl _).before rfl
  | unlocks => exact (disposing_swapped _ (of_decide_eq_true hf) _).before rfl
  | records => exact (disposing_retired _).before rfl
  | @timesOut s => cases s <;> exact disposing_none rfl rfl rfl
  | frees => cases hf
  | sole | locks | spins | exchanges | stores => exact disposing_none rfl hf rfl
  | _ => exact disposing_none rfl rfl rfl

omit [DecidableEq Tid] in
private theorem Moves.owes_none (hm : Moves sh r o f p) (k : Part) : f.owed false k = 0 := by
  cases hm <;> cases k <;> rfl

def Action.answer : Action Obj Ext → Option Bool
  | .run x => some x
  | _ => none

def Action.forces : Action Obj Ext → Bool
  | .forceUnload _ => true
  | _ => false

omit [DecidableEq Tid] in
private theorem forces_of_call (h : call sh a = some p) (hp : p.2 = .lock o .force false 0) : a.forces = true := by
  cases a with
  | forceUnload => rfl
  | load | reload | unload =>
    simp only [call, callObject] at h
    split at h
    · cases h
    · split at h <;> cases h <;> cases hp
  | destroy u =>
    simp only [call] at h
    split at h
    · cases h
      split at hp <;> cases hp
    · cases h
  | setReclaimTimeoutMs | makeHandle =>
    simp only [call] at h
    split at h <;> cases h <;> cases hp
  | dropHandle u =>
    simp only [call] at h
    split at h
    · cases h
      split at hp
      · unfold Shared.destroyControl at hp
        split at hp <;> cases hp
      · cases hp
    · cases h
  | domain | run => cases h

private theorem forces_of_step (hs : step t sh l a = some (sh', l')) (hl : l.frame.object = none)
    (hl' : l'.frame = .lock o .force false 0) : a.forces = true := by
  simp only [step] at hs
  split at hs
  · rename_i b g hb
    obtain ⟨q, -, hq⟩ := Option.map_eq_some_iff.mp hs
    cases hq
    rcases domainAccess_frame hb with hg | ⟨_, _, _, _, _, _, -, hnew⟩
    · exact absurd (hl'.symm.trans hg) fun he => by simp [← he, Frame.object] at hl
    · cases hl'.symm.trans hnew
  · split at hs
    · obtain ⟨p, hp, hq⟩ := Option.map_eq_some_iff.mp hs
      cases hq
      exact forces_of_call hp hl'
    · split at hs
      · rename_i u hu
        cases hl.symm.trans hu
      · cases hs
    · cases hs

end Objects

section Runs

/-- Outside of sections, with nothing unloaded by force, every batch published before its thread exits, and
memory for every node. -/
def Tidy (c : Config Tid (Shared Tid Obj Ext) (Local Tid Obj Ext)) (t : Tid) (a : Action Obj Ext) : Prop :=
  Outside c t a ∧ (∀ b ∈ a.direct, RCU.Published (domainOf c) t b) ∧ a.forces = false ∧
    ∀ x ∈ a.answer, Allocates (c.shared.dom, (c.locals t).dom) x

omit [DecidableEq Tid] [DecidableEq Obj] in
instance [DecidableEq Ext] (c : Config Tid (Shared Tid Obj Ext) (Local Tid Obj Ext)) (t : Tid) (a : Action Obj Ext) :
    Decidable (Tidy c t a) :=
  inferInstanceAs (Decidable (_ ∧ (∀ b ∈ a.direct, _) ∧ _ ∧ ∀ x ∈ a.answer, _))

/-- Besides the calls under way, exits from sections, and waits outside of them. -/
def Frees (c : Config Tid (Shared Tid Obj Ext) (Local Tid Obj Ext)) (t : Tid) (a : Action Obj Ext) : Prop :=
  Continues c t a ∨ ((∃ bounded, a = .domain (.synchronizeUntil bounded)) ∧ c.shared.dom.readerEpoch t = 0)

omit [DecidableEq Tid] [DecidableEq Obj] in
theorem Continues.tidy (h : Continues c t a) : Tidy c t a := by
  refine ⟨h.outside, ?_⟩
  rcases h with ⟨x, rfl, hx⟩ | ⟨rfl, -⟩
  · refine ⟨nofun, rfl, fun y hy => ?_⟩
    cases hy
    exact hx
  · refine ⟨fun b hb => ?_, rfl, nofun⟩
    cases hb
    exact nofun

omit [DecidableEq Tid] [DecidableEq Obj] in
theorem Frees.tidy (h : Frees c t a) : Tidy c t a := by
  rcases h with h | ⟨⟨bounded, rfl⟩, hout⟩
  · exact h.tidy
  · refine ⟨⟨nofun, fun b hb => ?_⟩, fun b hb => ?_, rfl, nofun⟩
    · cases hb
      exact fun _ => hout
    · cases hb
      exact nofun

theorem reachable_frees (h : (system Tid Obj Ext).Reachable Tidy (start Tid Ext made) c)
    (hc : (system Tid Obj Ext).Reachable Frees c c') : (system Tid Obj Ext).Reachable Tidy (start Tid Ext made) c' :=
  h.trans (hc.mono fun _ _ _ => Frees.tidy)

omit [DecidableEq Tid] [DecidableEq Obj] in
theorem retireImage_ne_run {i : Nat} {bounded : Bool} {stage stage' : Stage} {b : RCU.Action (Resource Ext) Reclaim}
    (hcall : retireImage i bounded r stage = some (b, stage')) : (∀ x, b ≠ .run x) ∧ b ≠ .threadExit ∧ b ≠ .exit := by
  cases stage with
  | wait => cases bounded <;> cases hcall <;> exact ⟨nofun, nofun, nofun⟩
  | outcome => cases hcall
  | _ =>
    cases hcall
    exact ⟨nofun, nofun, nofun⟩

omit [DecidableEq Tid] [DecidableEq Obj] in
theorem Tidy.allocates {b : RCU.Action (Resource Ext) Reclaim} {x : Bool} {g : Frame Obj} (h : Tidy c t a)
    (hb : domainAccess (c.locals t) a = some (b, g)) (hx : b = .run x) :
    Allocates (c.shared.dom, (c.locals t).dom) x := by
  subst hx
  rcases domainAccess_origin hb with ⟨-, hdirect⟩ | ⟨y, rfl, hy⟩ | ⟨_, _, _, _, _, _, _, -, hcall⟩
  · cases hdirect
  · cases hy
    exact h.2.2.2 x rfl
  · exact absurd rfl ((retireImage_ne_run hcall).1 x)

omit [DecidableEq Tid] [DecidableEq Obj] in
theorem Tidy.published {b : RCU.Action (Resource Ext) Reclaim} {g : Frame Obj} (h : Tidy c t a)
    (hb : domainAccess (c.locals t) a = some (b, g)) : RCU.Published (domainOf c) t b := by
  rcases domainAccess_origin hb with ⟨rfl, -⟩ | ⟨x, -, rfl⟩ | ⟨_, _, _, _, _, _, _, -, hcall⟩
  · exact h.2.1 b rfl
  · exact nofun
  · exact fun hexit => absurd hexit (retireImage_ne_run hcall).2.1

private theorem careful_of_reachable (h : (system Tid Obj Ext).Reachable Tidy (start Tid Ext made) c) :
    (system Tid Obj Ext).Reachable (Disciplined Careful) (start Tid Ext made) c := by
  refine (h.assuming (K := fun c => ∀ t, Apart c.shared t (c.locals t)) fun _ h =>
    apart_of_reachable (h.mono fun _ _ _ => And.left)).mono ?_
  exact fun _ t _ ⟨hapart, hok⟩ b hb => ⟨hok.1.disciplined (hapart t) b hb, Tidy.published hok hb⟩

/-- Nothing is freed by force, and of each image disposed of both nodes are queued, or will be. -/
structure Handed [Fintype Tid] (c : Config Tid (Shared Tid Obj Ext) (Local Tid Obj Ext)) : Prop where
  unforced : ∀ t, (c.locals t).frame.unforced = true
  nodes : ∀ k : Part, (c.shared.disposed : Multiset Nat) = k.among c.shared.dom.queued + total (owing k) c.locals

private theorem handed_next [Fintype Tid] (h : Handed c) (hflight : Flight (c.locals t)) (hok : Tidy c t a)
    (hs : step t c.shared (c.locals t) a = some (sh, l)) : Handed ⟨sh, Function.update c.locals t l⟩ := by
  have hunforced (hl : l.frame.unforced = true) (u : Tid) : (Function.update c.locals t l u).frame.unforced = true :=
    Program.update_of_both (P := fun l : Local Tid Obj Ext => l.frame.unforced = true) hl (h.unforced u)
  rcases step_cases hs with ⟨b, d, hb, hd, rfl, -⟩ | ⟨r, o, -, hpc, hdom, hm, -⟩
  · refine ⟨hunforced ?_, fun k => ledger_update (h.nodes k) ?_⟩
    · rcases domainAccess_frame hb with hg | ⟨_, _, _, _, _, _, -, hnew⟩
      · rw [hg]
        exact h.unforced t
      · rw [hnew]
        rfl
    · exact congrArg (· + _) (hflight.pays k hb (RCU.moves_of_step hd) fun x hx => hok.allocates hb hx)
  · have hentry : l.frame ≠ .lock o .force false 0 ∨ (c.locals t).frame.object ≠ none := by
      by_contra hnot
      obtain ⟨hl, hold⟩ := not_or.mp hnot
      exact absurd (forces_of_step hs (not_not.mp hold) (not_not.mp hl)) (by simp [hok.2.2.1])
    obtain ⟨hl, hdisposed⟩ := hm.disposes (h.unforced t) hentry
    refine ⟨hunforced hl, fun k => ledger_update (h.nodes k) ?_⟩
    have hold : owing k (c.locals t) = 0 := by
      rw [owing, hpc]
      exact hm.owes_none k
    have hnew : owing k l = l.frame.owed false k := by
      rw [owing, hdom, hpc]
      rfl
    have hd : sh.dom = c.shared.dom := hm.hands.dom
    rw [hold, hnew, hd, add_zero, add_assoc]
    exact congrArg (_ + ·) (hdisposed k)

private theorem handed_of_reachable [Fintype Tid] (h : (system Tid Obj Ext).Reachable Tidy (start Tid Ext made) c) :
    Handed c := by
  refine (h.assuming fun _ => retiring_of_reachable).invariant (P := Handed) ⟨fun _ => rfl, fun k => ?_⟩ ?_
  · cases k <;> simp [start, Part.among, total, owing, Frame.owed]
  · rintro c t a c' hc ⟨hretiring, hok⟩ hn
    obtain ⟨sh, l, hs, rfl⟩ := Program.next_eq_some_iff.mp hn
    exact handed_next hc (hretiring.flight t) hok hs

/-- No step of such a continuation ends a thread. -/
theorem continuing_of_reachable (h : (system Tid Obj Ext).Reachable Continues c c')
    (ht : (c.locals t).dom.pc ≠ .exited) : (c'.locals t).dom.pc ≠ .exited := by
  refine h.invariant (P := fun c => (c.locals t).dom.pc ≠ .exited) ht ?_
  rintro c u a c' hc hok hn
  obtain ⟨sh, l, hs, rfl⟩ := Program.next_eq_some_iff.mp hn
  refine Program.update_of_both (P := fun l : Local Tid Obj Ext => l.dom.pc ≠ .exited) ?_ hc
  rcases step_cases hs with ⟨b, d, hb, hd, -, -⟩ | ⟨r, o, -, hpc, hdom, -, -⟩
  · refine (RCU.moves_of_step hd).stays ?_
    rcases domainAccess_origin hb with ⟨rfl, -⟩ | ⟨x, -, rfl⟩ | ⟨_, _, _, _, _, _, _, -, hcall⟩
    · rcases hok with ⟨x, hx, -⟩ | ⟨hx, -⟩ <;> cases hx
      exact nofun
    · exact nofun
    · exact (retireImage_ne_run hcall).2.1
  · rw [hdom, hpc]
    exact nofun

omit [DecidableEq Tid] [DecidableEq Obj] in
theorem idle_of_object_none (h : f.object = none) : ∃ v, f = .idle v := by
  cases f with
  | idle v => exact ⟨v, rfl⟩
  | _ => cases h

omit [DecidableEq Tid] [DecidableEq Obj] in
theorem total_of_idle [Fintype Tid] {held : Local Tid Obj Ext → Multiset Nat} {locals : Tid → Local Tid Obj Ext}
    (hidle : ∀ u, (locals u).frame.object = none) (hheld : ∀ l v, l.frame = .idle v → held l = 0) :
    total held locals = 0 :=
  Finset.sum_eq_zero fun u _ => by
    obtain ⟨v, hv⟩ := idle_of_object_none (hidle u)
    exact hheld _ v hv

omit [DecidableEq Tid] [DecidableEq Obj] in
/-- Between two calls a thread can make any direct call of the domain. -/
theorem domainAccess_of_direct {b : RCU.Action (Resource Ext) Reclaim} {res : Result} (hb : direct b = true)
    (hf : l.frame.object = none) (hpc : l.dom.pc = .idle res) : domainAccess l (.domain b) = some (b, l.frame) := by
  obtain ⟨v, hv⟩ := idle_of_object_none hf
  simp [domainAccess, hpc, hv, hb]

/-- The domain is drained between the calls of the Objects. -/
theorem frees_of_drains (hidle : ∀ t, (c.locals t).frame.object = none)
    {d : Config Tid (RCU.Shared Tid (Resource Ext) Reclaim) (RCU.Local Tid (Resource Ext) Reclaim)}
    (hd : (domain Tid (Resource Ext) Reclaim).Reachable Drains (domainOf c) d) :
    ∃ c', (system Tid Obj Ext).Reachable Frees c c' ∧ domainOf c' = d ∧ Leaves c c' := by
  refine lifted (fun c₁ _ hleaves t b p hok hs => ?_) hd
  have hframe : (c₁.locals t).frame.object = none := by rw [hleaves.frames t, hidle t]
  rcases hok with (⟨x, rfl, hx⟩ | ⟨rfl, hin⟩) | ⟨⟨bounded, rfl⟩, hout⟩
  · exact ⟨.run x, .inl (.inl ⟨x, rfl, hx⟩), domainAccess_of_run hs⟩
  · exact ⟨.domain .exit, .inl (.inr ⟨rfl, hin⟩), domainAccess_of_exit hs hframe⟩
  · refine ⟨.domain (.synchronizeUntil bounded), .inr ⟨⟨bounded, rfl⟩, hout⟩, ?_⟩
    obtain ⟨res, hpc⟩ : ∃ res, (c₁.locals t).dom.pc = .idle res := by
      generalize (c₁.locals t).dom = m at hs
      obtain ⟨pc, batch⟩ := m
      cases pc with
      | idle res => exact ⟨res, rfl⟩
      | _ => cases hs
    exact domainAccess_of_direct rfl hframe hpc

end Runs

/-- In every run with no forced unload in which no thread calls an Object or waits for readers inside a
section of its own, publishes its batch before it exits, and is denied no node, no image is lost: as long
as one thread is left, the run can go on until of each image that was disposed of both nodes have been
called back, each once. What was loaded is then discarded, the image of a Control that is still owned, or
called back. The teardown of a module makes no call of an Object or of the domain here. -/
theorem every_image_can_be_freed [Fintype Tid] [Fintype Obj]
    (h : (system Tid Obj Ext).Reachable Tidy (start Tid Ext made) c) (ht : (c.locals t).dom.pc ≠ .exited) :
    ∃ c', (system Tid Obj Ext).Reachable Frees c c' ∧
      (∀ u, (c'.locals u).dom.pc.Returned ∧ (c'.locals u).frame.object = none) ∧
      (∀ k : Part, k.among c'.shared.dom.reclaimed = (c'.shared.disposed : Multiset Nat)) ∧
      Multiset.range c'.shared.nextImage =
        ↑c'.shared.discarded + (↑c'.shared.disposed + total Object.current c'.shared.objects) := by
  obtain ⟨c₁, hr₁, hcalm, hdone, hvacated, hsync⟩ := finished_of_reachable (h.mono fun _ _ _ => And.left)
  have hr₁' : (system Tid Obj Ext).Reachable Frees c c₁ := hr₁.mono fun _ _ _ => .inl
  have hcareful := domainOf_reachable (careful_of_reachable (reachable_frees h hr₁'))
  have hcleared : Cleared (domainOf c₁) :=
    ⟨hcareful, hcalm.returned, hvacated.undisturbed hsync, hvacated.readers⟩
  obtain ⟨d, hd, hdrained, hbatch, hretired⟩ := hcleared.drained (continuing_of_reachable hr₁ ht)
  have hall := hdrained.reclaimed hbatch hretired
  obtain ⟨c', hr₂, rfl, hleaves⟩ := frees_of_drains hdone hd
  have hidle (u : Tid) : (c'.locals u).frame.object = none := by rw [hleaves.frames u, hdone u]
  have hr := hr₁'.trans hr₂
  have hreach := reachable_frees h hr
  refine ⟨c', hr, fun u => ⟨hdrained.returned u, hidle u⟩, fun k => ?_, ?_⟩
  · have howing : total (owing k) c'.locals = 0 := total_of_idle hidle fun l v hv => by
      rw [owing, hv]
      cases k <;> rfl
    rw [(handed_of_reachable hreach).nodes k, howing, add_zero]
    exact Multiset.coe_eq_coe.mpr ((Multiset.coe_eq_coe.mp hall).filterMap _)
  · obtain ⟨hloaded, hpublished, -⟩ := lifecycle_of_reachable hreach
    have hloader : total (fun l : Local Tid Obj Ext => l.frame.unpublished) c'.locals = 0 :=
      total_of_idle hidle fun _ _ hv => congrArg Frame.unpublished hv
    have hhand : total (fun l : Local Tid Obj Ext => l.frame.inHand) c'.locals = 0 :=
      total_of_idle hidle fun _ _ hv => congrArg Frame.inHand hv
    rw [hloaded, hpublished, hloader, hhand, add_zero, add_zero]

/-- A reader is inside, and the reload that took image 0 out has queued its index and waits. -/
theorem every_image_can_be_freed_waiting :
    ∃ c c' : Config (Fin 2) (Shared (Fin 2) Unit Unit) (Local (Fin 2) Unit Unit),
      (c.shared.disposed, c.shared.dom.queued.length, c.shared.dom.reclaimed.length) = ([0], 1, 0) ∧
        ∀ k : Part, k.among c'.shared.dom.reclaimed = (c'.shared.disposed : Multiset Nat) := by
  have hrun : ((system (Fin 2) Unit Unit).exec Tidy (start (Fin 2) Unit fun _ => true)
      ([(0, .domain .enter), (0, .run true), (0, .run true), (0, .run true), (1, .load () "")] ++
        List.replicate 6 (1, .run true) ++ (1, .reload () "") :: List.replicate 11 (1, .run true))).map
      (fun c => ((c.shared.disposed, c.shared.dom.queued.length, c.shared.dom.reclaimed.length), (c.locals 0).dom.pc)) =
        some (([0], 1, 0), .idle .unit) := by
    decide
  obtain ⟨c, hc, he⟩ := Option.map_eq_some_iff.mp hrun
  obtain ⟨hcount, hpc⟩ := Prod.mk.injEq _ _ _ _ ▸ he
  obtain ⟨c', -, -, hfreed, -⟩ := every_image_can_be_freed (t := 0) (.of_exec .init hc) (by rw [hpc]; nofun)
  exact ⟨c, c', hcount, hfreed⟩

end Abix.DLL

import Abix.DLL.Images
import Abix.RCU.Watermark

/-! The two nodes of an image: its index is retired before the image itself, once each, by
the thread the image was handed to. -/
namespace Abix.DLL
open Abix.Concurrency Abix.RCU
variable {Tid Obj Ext : Type} [DecidableEq Obj] {t : Tid} {sh : Shared Tid Obj Ext} {l l' : Local Tid Obj Ext}
  {c : Config Tid (Shared Tid Obj Ext) (Local Tid Obj Ext)}

section Code
variable {r : Result} {o : Obj} {f : Frame Obj} {p : Shared Tid Obj Ext × Frame Obj}

def Frame.retiring : Frame Obj → Bool
  | .retire _ _ _ _ _ => true
  | _ => false

/-- The code of `Object` leaves the domain alone. It enters `retire_image` at its start, with
an image that counts as disposed of from then on. -/
structure Hands (sh : Shared Tid Obj Ext) (p : Shared Tid Obj Ext × Frame Obj) : Prop where
  dom : p.1.dom = sh.dom
  disposed : (∃ o i bounded next, p.2 = .retire o i bounded .index next ∧ p.1.disposed = i :: sh.disposed) ∨
    p.2.retiring = false ∧ (sh.disposed : Multiset Nat) ≤ p.1.disposed

omit [DecidableEq Obj] in
theorem hands_none (hd : p.1.dom = sh.dom) (hs : p.1.disposed = sh.disposed) (hp : p.2.retiring = false) :
    Hands sh p :=
  ⟨hd, .inr ⟨hp, by rw [hs]⟩⟩

theorem hands_returned (v : Option Returned) : Hands sh (sh.returned o v) := hands_none rfl rfl rfl

theorem hands_retired (next : Next) : Hands sh (sh.retired o next) := by
  cases next with
  | unloaded => exact hands_returned _
  | _ => exact hands_none rfl rfl rfl

omit [DecidableEq Obj] in
theorem hands_retire (d : Control) (i : Nat) (next : Next) : Hands sh (sh.retire d o i next) :=
  ⟨rfl, .inl ⟨_, _, _, _, rfl, rfl⟩⟩

omit [DecidableEq Obj] in
theorem hands_destroyControl (d : Control) : Hands sh (sh.destroyControl o d) := by
  unfold Shared.destroyControl
  split
  · exact hands_retire _ _ _
  · exact hands_none rfl rfl rfl

theorem hands_swapped (d : Control) (s : Swap) (prev : Option Nat) : Hands sh (sh.swapped d o s prev) := by
  unfold Shared.swapped
  split
  · exact hands_retire _ _ _
  · exact hands_retired _
  · exact hands_none rfl rfl rfl
  · exact hands_returned _

theorem Moves.hands (hm : Moves sh r o f p) : Hands sh p := by
  cases hm with
  | enters _ _ hentry => rcases hentry with ⟨path, rfl⟩ | rfl | rfl <;> exact hands_none rfl rfl rfl
  | dropsLast | dropsOwnedLast => exact ⟨(hands_destroyControl _).dom, (hands_destroyControl _).disposed⟩
  | loadFails | stale => exact hands_returned _
  | @timesOut s => cases s <;> exact hands_none rfl rfl rfl
  | unlocks => exact ⟨(hands_swapped _ _ _).dom, (hands_swapped _ _ _).disposed⟩
  | records => exact ⟨(hands_retired _).dom, (hands_retired _).disposed⟩
  | frees => exact ⟨rfl, .inr ⟨rfl, Multiset.le_cons_self _ _⟩⟩
  | _ => exact hands_none rfl rfl rfl

end Code

variable [DecidableEq Tid]

def domainOf (c : Config Tid (Shared Tid Obj Ext) (Local Tid Obj Ext)) :
    Config Tid (RCU.Shared Tid (Resource Ext) Reclaim) (RCU.Local Tid (Resource Ext) Reclaim) :=
  ⟨c.shared.dom, fun t => (c.locals t).dom⟩

/-- A discipline of the domain, asked of the accesses that the system makes. -/
def Disciplined (ok : Config Tid (RCU.Shared Tid (Resource Ext) Reclaim) (RCU.Local Tid (Resource Ext) Reclaim) →
      Tid → RCU.Action (Resource Ext) Reclaim → Prop)
    (c : Config Tid (Shared Tid Obj Ext) (Local Tid Obj Ext)) (t : Tid) (a : Action Obj Ext) : Prop :=
  ∀ b ∈ domainAccess (c.locals t) a, ok (domainOf c) t b.1

omit [DecidableEq Obj] in
instance (ok : Config Tid (RCU.Shared Tid (Resource Ext) Reclaim) (RCU.Local Tid (Resource Ext) Reclaim) →
      Tid → RCU.Action (Resource Ext) Reclaim → Prop) [∀ c t a, Decidable (ok c t a)]
    (c : Config Tid (Shared Tid Obj Ext) (Local Tid Obj Ext)) (t : Tid) (a : Action Obj Ext) :
    Decidable (Disciplined ok c t a) := inferInstanceAs (Decidable (∀ b ∈ domainAccess (c.locals t) a, _))

omit [DecidableEq Obj] in
theorem domainOf_update (l : Local Tid Obj Ext) : (fun u => (Function.update c.locals t l u).dom) =
    Function.update (fun u => (c.locals u).dom) t l.dom := by
  funext u
  by_cases hu : u = t
  · subst hu
    simp
  · simp [Function.update_of_ne hu]

/-- Seen through the domain, a run of the system is a run of the domain. -/
theorem domainOf_reachable {ok} {made : Obj → Bool}
    (h : (system Tid Obj Ext).Reachable (Disciplined ok) (start Tid Ext made) c) :
    (domain Tid (Resource Ext) Reclaim).Reachable ok (initial Tid (Resource Ext) Reclaim) (domainOf c) := by
  refine h.project domainOf ?_
  intro c t a c' hok hn
  obtain ⟨sh, l, hs, rfl⟩ := Program.next_eq_some_iff.mp hn
  rcases step_cases hs with ⟨b, d, hb, hd, rfl, -⟩ | ⟨r, o, -, -, hdom, hm, -⟩
  · refine .inr ⟨t, b, hok _ hb, Program.next_eq_some_iff.mpr ⟨d, l.dom, hd, ?_⟩⟩
    simp only [domainOf, domainOf_update]
  · left
    have hd : sh.dom = c.shared.dom := hm.hands.dom
    simp only [domainOf, domainOf_update, hdom, Function.update_eq_self, hd]

/-- The node of a retire call on its way into the batch. -/
def inFlight : Pc Tid (Resource Ext) Reclaim → Option (Option (Resource Ext) × Option Reclaim × ReclaimClass)
  | .retireLoad object reclaim cls => some (object, reclaim, cls)
  | .retireQueue n => some (n.object, n.reclaim, n.cls)
  | _ => none

def imageOf : Option (Resource Ext) → Option Nat
  | some (.image i) => some i
  | _ => none

def indexOf : Option (Resource Ext) → Option Nat
  | some (.index i) => some i
  | _ => none

/-- Whose node is in flight at a place of the code of `Object`. -/
def FlightAt : Frame Obj → Option (Resource Ext) × Option Reclaim × ReclaimClass → Prop
  | .idle _, x => imageOf x.1 = none ∧ indexOf x.1 = none
  | .retire _ i _ .sync _, x | .retire _ i _ .image _, x => x = (some (.index i), some .reclaimIndex, .eager)
  | .retire _ i _ .wait _, x => x = (some (.image i), some .reclaimImage, .batched)
  | _, _ => False

def Flight (l : Local Tid Obj Ext) : Prop := ∀ x, inFlight l.dom.pc = some x → FlightAt l.frame x

/-- The image that a place is retiring, until its own node is queued: `flying` says that a
node is on its way. -/
def Frame.carried (flying : Bool) : Frame Obj → Multiset Nat
  | .retire _ i _ .index _ | .retire _ i _ .sync _ | .retire _ i _ .image _ => {i}
  | .retire _ i _ .wait _ => if flying then {i} else 0
  | _ => 0

def carrying (l : Local Tid Obj Ext) : Multiset Nat := l.frame.carried (inFlight l.dom.pc).isSome

def queuedImages (d : RCU.Shared Tid (Resource Ext) Reclaim) : Multiset Nat :=
  ↑(d.queued.filterMap fun n => imageOf n.object)

section Flight
variable {a : Action Obj Ext} {b : RCU.Action (Resource Ext) Reclaim} {g : Frame Obj}
  {d d' : RCU.Shared Tid (Resource Ext) Reclaim} {x : Option (Resource Ext) × Option Reclaim × ReclaimClass}

def retiredBy : RCU.Action (Resource Ext) Reclaim → Option (Option (Resource Ext) × Option Reclaim × ReclaimClass)
  | .retire object reclaim | .retireToken object reclaim => some (object, reclaim, .batched)
  | .retireEager object reclaim => some (object, reclaim, .eager)
  | _ => none

theorem inFlight_start {pc : Pc Tid (Resource Ext) Reclaim} (h : RCU.start t d b = some pc)
    (hx : inFlight pc = some x) : retiredBy b = some x := by
  cases b with
  | enter | exit =>
    cases h
    unfold getThread afterThread at hx
    split at hx
    · split at hx <;> cases hx
    · cases hx
  | retire | retireEager | retireToken =>
    cases h
    exact hx
  | _ => cases h <;> cases hx

theorem inFlight_run {y : Bool} {l l' : RCU.Local Tid (Resource Ext) Reclaim} (h : RCU.Moves t d (.run y) l d' l')
    (hx : inFlight l'.pc = some x) : inFlight l.pc = some x := by
  cases h with
  | tags hn =>
    rw [hn] at hx
    exact hx
  | called hs => cases hs
  | registers =>
    unfold afterThread at hx
    split at hx <;> cases hx
  | _ => cases hx

omit [DecidableEq Tid] in
private theorem inFlight_direct (h : direct b = true) (hx : retiredBy b = some x) :
    imageOf x.1 = none ∧ indexOf x.1 = none := by
  cases b with
  | retire object | retireEager object | retireToken object =>
    cases hx
    match object with
    | some (.index _) | some (.image _) => cases h
    | some (.other _) | none => exact ⟨rfl, rfl⟩
  | _ => cases hx

omit [DecidableEq Obj] in
private theorem flightAt_call {o : Obj} {i : Nat} {bounded : Bool} {r : Result} {stage stage' : Stage} {next : Next}
    (h : retireImage i bounded r stage = some (b, stage')) (hx : retiredBy b = some x) :
    FlightAt (.retire o i bounded stage' next) x := by
  cases stage with
  | index =>
    cases h
    cases hx
    cases bounded <;> exact rfl
  | image =>
    cases h
    cases hx
    exact rfl
  | sync | check =>
    cases h
    cases hx
  | wait =>
    cases h
    cases bounded <;> cases hx
  | outcome => cases h

omit [DecidableEq Obj] in
private theorem flight_next (hl : Flight l) (hb : domainAccess l a = some (b, l'.frame))
    (hm : RCU.Moves t d b l.dom d' l'.dom) : Flight l' := by
  intro x hx
  rcases domainAccess_cases hb with
    ⟨v, hframe, hg, hdir⟩ | ⟨y, rfl, hg⟩ | ⟨r, o, i, bounded, stage, stage', next, -, -, hg, hcall⟩
  · have hrun : ∀ y, b ≠ .run y := fun y hy => by rw [hy] at hdir; cases hdir
    rcases hm.of_call hrun with ⟨pc, hs, -, hl'⟩ | ⟨-, -, -, hl'⟩
    · rw [hl'] at hx
      rw [hg, hframe]
      exact inFlight_direct hdir (inFlight_start hs hx)
    · rw [hl'] at hx
      cases hx
  · rw [hg]
    exact hl x (inFlight_run hm hx)
  · have hrun : ∀ y, b ≠ .run y := by
      rintro y rfl
      cases stage <;> cases bounded <;> cases hcall
    rcases hm.of_call hrun with ⟨pc, hs, -, hl'⟩ | ⟨-, -, -, hl'⟩
    · rw [hl'] at hx
      rw [hg]
      exact flightAt_call hcall (inFlight_start hs hx)
    · rw [hl'] at hx
      cases hx

omit [DecidableEq Obj] in
/-- A node is queued by the retire call that the thread's place says. -/
theorem Flight.queued (hl : Flight l) (hb : domainAccess l a = some (b, l'.frame))
    (hm : RCU.Moves t d b l.dom d' l'.dom) : d'.queued = d.queued ∨ ∃ n, d'.queued = n :: d.queued ∧
      l'.frame = l.frame ∧ FlightAt l.frame (n.object, n.reclaim, n.cls) ∧ inFlight l.dom.pc ≠ none ∧
      (l'.dom.pc = .idle (.token n.epoch) ∨ l'.dom.pc = .retirePublish n.epoch) := by
  rcases hm.queued with he | ⟨n, hpc, rfl, he, hpc'⟩
  · exact .inl he
  · have hflight : inFlight l.dom.pc = some (n.object, n.reclaim, n.cls) := by rw [hpc, inFlight]
    refine .inr ⟨n, he, ?_, hl _ hflight, by rw [hflight]; exact Option.some_ne_none _, hpc'⟩
    rcases domainAccess_cases hb with ⟨-, -, -, hdir⟩ | ⟨-, -, hg⟩ | ⟨r, _, _, _, _, _, _, hidle, -, -, -⟩
    · cases hdir
    · exact hg
    · rw [hpc] at hidle
      cases hidle

omit [DecidableEq Obj] in
theorem Frame.carried_mono (f : Frame Obj) {x y : Bool} (h : x = true → y = true) : f.carried x ≤ f.carried y := by
  unfold Frame.carried
  split
  any_goals exact le_refl _
  split
  · rw [if_pos (h ‹_›)]
  · exact Multiset.zero_le _

omit [DecidableEq Obj] in
private theorem carried_call {r : Result} {o : Obj} {i : Nat} {bounded x : Bool} {stage stage' : Stage} {next : Next}
    (h : retireImage i bounded r stage = some (b, stage')) :
    (Frame.retire o i bounded stage' next).carried x ≤ (Frame.retire o i bounded stage next).carried false := by
  cases stage with
  | index =>
    cases h
    cases bounded <;> exact le_refl _
  | sync =>
    cases h
    exact le_refl _
  | image =>
    cases h
    exact (Frame.carried_mono _ fun _ => rfl : _ ≤ Frame.carried true (.retire o i bounded .wait next))
  | wait | check =>
    cases h
    exact Multiset.zero_le _
  | outcome => cases h

omit [DecidableEq Obj] in
/-- The node of an image is queued where the image is carried. -/
theorem carried_queue {f : Frame Obj} (h : FlightAt f x) :
    ↑(imageOf x.1).toList + f.carried false ≤ f.carried true := by
  unfold FlightAt at h
  split at h
  · rw [h.1]
    exact le_refl _
  · rw [h]
    exact le_refl _
  · rw [h]
    exact le_refl _
  · rw [h]
    exact le_refl _
  · exact h.elim

omit [DecidableEq Obj] in
/-- Queueing the node of an image ends its stay with the thread that carries it. -/
theorem Flight.carries (hl : Flight l) (hb : domainAccess l a = some (b, l'.frame))
    (hm : RCU.Moves t d b l.dom d' l'.dom) :
    queuedImages d' + carrying l' ≤ queuedImages d + carrying l := by
  rcases hl.queued hb hm with he | ⟨n, he, hframe, hat, hflight, hpc⟩
  · rw [queuedImages, queuedImages, he]
    apply add_le_add_right
    unfold carrying
    rcases domainAccess_cases hb with ⟨v, hv, hg, -⟩ | ⟨y, rfl, hg⟩ | ⟨r, o, i, _, _, _, _, hidle, hold, hnew, hcall⟩
    · rw [hg, hv]
      exact le_refl _
    · rw [hg]
      apply Frame.carried_mono
      intro hsome
      obtain ⟨z, hz⟩ := Option.isSome_iff_exists.mp hsome
      rw [inFlight_run hm hz]
      rfl
    · rw [hold, hnew, hidle]
      exact carried_call hcall
  · have hdone : inFlight l'.dom.pc = none := by rcases hpc with hpc | hpc <;> rw [hpc] <;> rfl
    have hsome : (inFlight l.dom.pc).isSome = true := Option.isSome_iff_ne_none.mpr hflight
    have hnew : queuedImages d' = ↑(imageOf n.object).toList + queuedImages d := by
      rw [queuedImages, queuedImages, he]
      cases hi : imageOf n.object <;> simp [hi]
    calc queuedImages d' + carrying l'
        = queuedImages d + (↑(imageOf n.object).toList + l.frame.carried false) := by
          rw [hnew, carrying, hframe, hdone, Option.isSome_none]
          abel
      _ ≤ queuedImages d + l.frame.carried true := add_le_add_right (carried_queue hat) _
      _ = queuedImages d + carrying l := by rw [carrying, hsome]

end Flight

omit [DecidableEq Obj] [DecidableEq Tid] in
theorem Hands.carries {p : Shared Tid Obj Ext × Frame Obj} (h : Hands sh p) (x : Multiset Nat) :
    p.2.carried false + ↑sh.disposed ≤ x + ↑p.1.disposed := by
  rcases h.disposed with ⟨o, i, bounded, next, hf, hd⟩ | ⟨hf, hd⟩
  · rw [hf, hd, ← Multiset.cons_coe, ← Multiset.singleton_add]
    exact Multiset.le_add_left _ _
  · have hnone : p.2.carried false = 0 := by
      generalize p.2 = f at hf
      cases f with
      | retire => cases hf
      | _ => rfl
    rw [hnone, zero_add]
    exact hd.trans (Multiset.le_add_left _ _)

/-- Every thread retires what its place says, and the images queued or about to be are among
those disposed of. -/
structure Retiring [Fintype Tid] (c : Config Tid (Shared Tid Obj Ext) (Local Tid Obj Ext)) : Prop where
  flight : ∀ t, Flight (c.locals t)
  disposed : queuedImages c.shared.dom + total carrying c.locals ≤ ↑c.shared.disposed

private theorem retiring_next [Fintype Tid] {a : Action Obj Ext} (h : Retiring c)
    (hs : step t c.shared (c.locals t) a = some (sh, l)) : Retiring ⟨sh, Function.update c.locals t l⟩ := by
  refine ⟨fun u => ?_, bound_update h.disposed ?_⟩
  · by_cases hu : u = t
    · subst hu
      simp only [Function.update_self]
      rcases step_cases hs with ⟨b, d, hb, hd, -, -⟩ | ⟨r, o, -, hpc, hdom, -, -⟩
      · exact flight_next (h.flight u) hb (RCU.moves_of_step hd)
      · intro x hx
        rw [hdom, hpc] at hx
        cases hx
    · simpa [Function.update_of_ne hu] using h.flight u
  · rcases step_cases hs with ⟨b, d, hb, hd, rfl, -⟩ | ⟨r, o, -, hpc, hdom, hm, -⟩
    · exact add_le_add_left ((h.flight t).carries hb (RCU.moves_of_step hd)) _
    · have hcarried : carrying l = l.frame.carried false := by
        rw [carrying, hdom, hpc]
        rfl
      rw [hcarried, hm.hands.dom, add_assoc, add_assoc]
      exact add_le_add_right (hm.hands.carries _) _

theorem retiring_of_reachable [Fintype Tid]
    {ok : Config Tid (Shared Tid Obj Ext) (Local Tid Obj Ext) → Tid → Action Obj Ext → Prop} {made : Obj → Bool}
    (h : (system Tid Obj Ext).Reachable ok (start Tid Ext made) c) : Retiring c := by
  have hstart (t : Tid) : Flight ((start Tid Ext made).locals t) := by
    intro x hx
    cases hx
  refine h.invariant (P := Retiring) ⟨hstart, ?_⟩ ?_
  · simp [start, queuedImages, total, carrying, Frame.carried]
  · rintro c t a c' hc - hn
    obtain ⟨sh, l, hs, rfl⟩ := Program.next_eq_some_iff.mp hn
    exact retiring_next hc hs

/-- The node of an image is queued once at most, and not while a thread still carries the image. -/
theorem queued_once [Fintype Tid] [Fintype Obj]
    {ok : Config Tid (Shared Tid Obj Ext) (Local Tid Obj Ext) → Tid → Action Obj Ext → Prop} {made : Obj → Bool}
    (h : (system Tid Obj Ext).Reachable ok (start Tid Ext made) c) :
    (queuedImages c.shared.dom + total carrying c.locals).Nodup := by
  have hd := (image_life_cycle (h.mono fun _ _ _ _ => trivial)).disposed_once
  exact Multiset.nodup_of_le (retiring_of_reachable h).disposed (Multiset.coe_nodup.mpr hd)

end Abix.DLL

import Abix.DLL.Outcome
import Abix.RCU.BoundedWait
import Abix.RCU.Sole

/-! One thread loads, reloads and unloads one Object, while the other threads enter and leave read
sections. Then the answer of `reclaimed_through` in `retire_image` is right both ways. -/
namespace Abix.DLL
open Abix.Concurrency Abix.RCU
variable {Tid Obj Ext : Type} [DecidableEq Tid] [DecidableEq Obj] {w t : Tid} {o : Obj} {sh sh' : Shared Tid Obj Ext}
  {l l' : Local Tid Obj Ext} {d d' : RCU.Shared Tid (Resource Ext) Reclaim} {a : Action Obj Ext}
  {b : RCU.Action (Resource Ext) Reclaim} {c : Config Tid (Shared Tid Obj Ext) (Local Tid Obj Ext)}

/-- The operations on `o` are made by `w`, and the other threads are readers. -/
def OneWriter (w : Tid) (o : Obj) (_c : Config Tid (Shared Tid Obj Ext) (Local Tid Obj Ext)) (t : Tid) :
    Action Obj Ext → Prop
  | .load u _ | .reload u _ | .unload u | .setReclaimTimeoutMs u _ => t = w ∧ u = o
  | .domain b => t ≠ w ∧ b.reads = true
  | .run _ => True
  | _ => False

instance (w : Tid) (o : Obj) (c : Config Tid (Shared Tid Obj Ext) (Local Tid Obj Ext)) (t : Tid) (a : Action Obj Ext) :
    Decidable (OneWriter w o c t a) :=
  match a with
  | .load u _ | .reload u _ | .unload u | .setReclaimTimeoutMs u _ => inferInstanceAs (Decidable (t = w ∧ u = o))
  | .domain b => inferInstanceAs (Decidable (t ≠ w ∧ b.reads = true))
  | .run _ => isTrue trivial
  | .forceUnload _ | .destroy _ | .makeHandle _ | .dropHandle _ => isFalse id

omit [DecidableEq Tid] [DecidableEq Obj] in
/-- Outside the operations, an access of the domain is the one that the action names. -/
theorem domainAccess_outside {v : Option Returned} {g : Frame Obj} (hf : l.frame = .idle v)
    (h : domainAccess l a = some (b, g)) : a = .domain b ∨ ∃ y, a = .run y ∧ b = .run y := by
  cases a with
  | domain b' =>
    simp only [domainAccess] at h
    split at h
    · split at h
      · obtain ⟨rfl, -⟩ := Prod.mk.inj (Option.some.inj h)
        exact .inl rfl
      · cases h
    · cases h
  | run y =>
    simp only [domainAccess, hf] at h
    split at h
    · rename_i hframe
      cases hframe
    · cases h
    · obtain ⟨rfl, -⟩ := Prod.mk.inj (Option.some.inj h)
      exact .inr ⟨y, rfl, rfl⟩
  | _ => cases h

/-- A reader makes accesses of the domain and nothing else. -/
theorem reader_step (hok : OneWriter w o c t a) (ht : t ≠ w) (hf : l.frame = .idle none)
    (hs : step t sh l a = some (sh', l')) : ∃ b d, domainAccess l a = some (b, l'.frame) ∧ b.reads = true ∧
      RCU.step t sh.dom l.dom b = some (d, l'.dom) ∧ sh' = { sh with dom := d } ∧ l'.frame = .idle none := by
  rcases step_cases hs with ⟨b, d, hb, hd, rfl, -⟩ | ⟨r, u, hnone, hpc, -, -, -⟩
  · refine ⟨b, d, hb, ?_, hd, rfl, ?_⟩
    · rcases domainAccess_outside hf hb with rfl | ⟨y, -, rfl⟩
      · exact hok.2
      · rfl
    · rcases domainAccess_frame hb with hg | ⟨_, _, _, _, _, _, hframe, -⟩
      · exact hg.trans hf
      · cases hf.symm.trans hframe
  · cases a with
    | domain b' => simp [step, hnone, hpc, hf, call] at hs
    | run y => simp [step, hnone, hpc, hf, call] at hs
    | load | reload | unload | setReclaimTimeoutMs => exact absurd hok.1 ht
    | forceUnload | destroy | makeHandle | dropHandle => exact hok.elim

theorem outside_of_reachable {made : Obj → Bool}
    (h : (system Tid Obj Ext).Reachable (OneWriter w o) (start Tid Ext made) c) :
    ∀ t, t ≠ w → (c.locals t).frame = .idle none := by
  refine h.invariant (P := fun c => ∀ t, t ≠ w → (c.locals t).frame = .idle none) (fun _ _ => rfl) ?_
  rintro c t a c' hout hok hn u hu
  obtain ⟨sh, l, hs, rfl⟩ := Program.next_eq_some_iff.mp hn
  by_cases hut : u = t
  · subst hut
    obtain ⟨_, _, -, -, -, -, hframe⟩ := reader_step hok hu (hout u hu) hs
    simpa using hframe
  · simpa [Function.update_of_ne hut] using hout u hu

/-- Seen from the domain, one thread retires and reclaims. -/
theorem sole_of_oneWriter (hout : ∀ t, t ≠ w → (c.locals t).frame = .idle none) (hok : OneWriter w o c t a)
    (hs : step t c.shared (c.locals t) a = some (sh, l)) : Disciplined (Sole w) c t a := by
  intro x hx
  obtain ⟨b, g⟩ := x
  refine ⟨fun ht hexit => ?_, fun ht => ?_⟩
  · have hexit : b = .threadExit := hexit
    subst hexit
    rcases domainAccess_cases hx with ⟨v, hf, -, -⟩ | ⟨y, hy, -⟩ | ⟨_, _, _, bounded, stage, _, _, -, -, -, hcall⟩
    · rcases domainAccess_outside hf hx with rfl | ⟨y, -, hy⟩
      · exact hok.1 ht
      · cases hy
    · cases hy
    · cases stage <;> cases bounded <;> cases hcall
  · obtain ⟨b', d, hb', hreads, -, -, -⟩ := reader_step hok ht (hout t ht) hs
    obtain ⟨rfl, -⟩ := Prod.mk.inj (Option.some.inj (hx.symm.trans hb'))
    exact hreads

section Run
variable {made : Obj → Bool}

theorem sole_of_reachable (h : (system Tid Obj Ext).Reachable (OneWriter w o) (start Tid Ext made) c) :
    (system Tid Obj Ext).Reachable (Disciplined (Sole w)) (start Tid Ext made) c := by
  induction h with
  | init => exact .init
  | step hr hok hn ih =>
    obtain ⟨sh, l, hs, -⟩ := Program.next_eq_some_iff.mp hn
    exact ih.step (sole_of_oneWriter (outside_of_reachable hr) hok hs) hn

theorem timely_of_oneWriter (h : (system Tid Obj Ext).Reachable (OneWriter w o) (start Tid Ext made) c) :
    (system Tid Obj Ext).Reachable (Disciplined Timely) (start Tid Ext made) c := by
  induction h with
  | init => exact .init
  | step hr hok hn ih =>
    obtain ⟨sh, l, hs, -⟩ := Program.next_eq_some_iff.mp hn
    have hdom := domainOf_reachable (sole_of_reachable hr)
    refine ih.step (fun x hx => ?_) hn
    rcases step_cases hs with ⟨b, d, hb, hd, -, -⟩ | ⟨_, _, hnone, -, -, -, -⟩
    · obtain rfl := Option.some.inj (hx.symm.trans hb)
      exact (alone_of_reachable hdom).timely (behind_of_reachable hdom).1
        (sole_of_oneWriter (outside_of_reachable hr) hok hs _ hb) (RCU.moves_of_step hd)
    · cases hx.symm.trans hnone

end Run

/-- The image's node has been queued at the token's epoch, if at all. -/
def OwnNode (d : RCU.Shared Tid (Resource Ext) Reclaim) (i token : Nat) : Prop :=
  ∀ e, imageNode i e ∈ d.queued → e = token ∧ token ≠ 0

/-- What the answer of `reclaimed_through` rests on, from the node's way into the batch on. -/
def Answering (d : RCU.Shared Tid (Resource Ext) Reclaim) : Frame Obj → Pc Tid (Resource Ext) Reclaim → Prop
  | .retire _ i _ .wait _, .retirePublish token | .retire _ i _ .wait _, .idle (.token token)
  | .retire _ i _ (.check token) _, _ => OwnNode d i token
  | .retire _ i _ (.outcome _) _, .idle (.answer yes) => yes = false → ∀ e, imageNode i e ∉ d.reclaimed
  | _, _ => True

omit [DecidableEq Tid] [DecidableEq Obj] in
theorem Answering.congr {f : Frame Obj} {pc : Pc Tid (Resource Ext) Reclaim} (h : Answering d f pc)
    (hq : d'.queued = d.queued) (hr : d'.reclaimed = d.reclaimed) : Answering d' f pc := by
  have hown {i token : Nat} (h : OwnNode d i token) : OwnNode d' i token := fun e he => h e (hq ▸ he)
  unfold Answering at h ⊢
  split
  · exact hown h
  · exact hown h
  · exact hown h
  · exact fun hyes e => hr ▸ h hyes e
  · trivial

omit [DecidableEq Obj] in
/-- An access of the running call of the domain. -/
theorem answering_run {y : Bool} {f : Frame Obj} {ld ld' : RCU.Local Tid (Resource Ext) Reclaim}
    (hm : RCU.Moves t d (.run y) ld d' ld') (hflight : ∀ x, inFlight ld.pc = some x → FlightAt f x)
    (hfresh : ∀ n, ld.pc = .retireQueue n → n.epoch ≠ 0 ∧ ∀ i e, i ∈ f.carried true → imageNode i e ∉ d.queued)
    (haw : Awaiting d f ld.pc) (h : Answering d f ld.pc) : Answering d' f ld'.pc := by
  cases f with
  | retire u i bounded stage next =>
    cases stage with
    | wait =>
      have hown {n : RetiredNode (Resource Ext) Reclaim} (hpc : ld.pc = .retireQueue n) {q}
          (hq : q = d.queued ∨ q = n :: d.queued) (e : Nat) (he : imageNode i e ∈ q) :
          e = n.epoch ∧ n.epoch ≠ 0 := by
        obtain ⟨hpos, hnone⟩ := hfresh n hpc
        have hold : imageNode i e ∉ d.queued := hnone i e (Multiset.mem_singleton_self i)
        rcases hq with rfl | rfl
        · exact absurd he hold
        · rcases List.mem_cons.mp he with rfl | he
          · exact ⟨rfl, hpos⟩
          · exact absurd he hold
      cases hm with
      | called hs => cases hs
      | tags => trivial
      | queues | fills => exact fun e he => hown rfl (.inr rfl) e he
      | @noMemory n => exact fun e he => absurd he ((hfresh n rfl).2 i e (Multiset.mem_singleton_self i))
      | publishes => exact h
      | _ => exact haw.elim
    | check token =>
      rcases hm.queued with hq | ⟨n, hpc, -, -, -⟩
      · exact fun e he => h e (hq ▸ he)
      · exact (hflight (n.object, n.reclaim, n.cls) (by rw [hpc, inFlight])).elim
    | outcome =>
      obtain ⟨yes, hpc, -⟩ := haw
      cases hm with
      | called hs => cases hs
      | _ => cases hpc
    | _ => trivial
  | _ => trivial

omit [DecidableEq Obj] in
private theorem answering_call {r : Result} {i : Nat} {bounded : Bool} {stage stage' : Stage} {next : Next}
    {ld ld' : RCU.Local Tid (Resource Ext) Reclaim} (hm : RCU.Moves t d b ld d' ld') (hidle : ld.pc = .idle r)
    (hcall : retireImage i bounded r stage = some (b, stage'))
    (hle : ∀ n ∈ d.reclaimed, n ∈ d.queued ∧ n.epoch ≤ d.epoch.completedOf n.cls)
    (haw : Awaiting d (.retire o i bounded stage next) ld.pc) (h : Answering d (.retire o i bounded stage next) ld.pc) :
    Answering d' (.retire o i bounded stage' next) ld'.pc := by
  cases stage with
  | index =>
    cases hcall
    cases bounded <;> trivial
  | sync =>
    cases hcall
    trivial
  | image =>
    cases hcall
    cases hm with
    | called hs =>
      cases hs
      trivial
  | wait =>
    cases hcall
    rw [hidle] at haw h
    cases r with
    | token k =>
      have hq : d'.queued = d.queued := by
        rcases hm.of_call (by cases bounded <;> nofun) with ⟨pc, -, rfl, -⟩ | ⟨hq, -⟩
        · rfl
        · exact hq
      exact fun e he => h e (hq ▸ he)
    | _ => exact haw.elim
  | check token =>
    cases hcall
    cases hm with
    | called hs =>
      cases hs
      intro hno e he
      obtain ⟨hqueued, hmark⟩ := hle _ he
      obtain ⟨rfl, hpos⟩ := h e hqueued
      have hyes : reclaimedThrough d e .batched = true := decide_eq_true ⟨hpos, hmark⟩
      exact nomatch hyes.symm.trans hno
  | outcome => cases hcall

section Answers
variable [Fintype Tid] [Fintype Obj] [DecidableEq Ext] {made : Obj → Bool}

omit [DecidableEq Tid] [DecidableEq Obj] [Fintype Obj] [DecidableEq Ext] in
/-- While the thread still carries the image, its node has not been queued. -/
theorem not_queued_of_carrying (h : (queuedImages c.shared.dom + total carrying c.locals).Nodup) {i : Nat}
    (hi : i ∈ carrying (c.locals w)) (e : Nat) : imageNode i e ∉ c.shared.dom.queued := by
  intro he
  have hqueued : i ∈ queuedImages c.shared.dom := Multiset.mem_coe.mpr (List.mem_filterMap.mpr ⟨_, he, rfl⟩)
  have hcarried : i ∈ total carrying c.locals := Multiset.mem_of_le (held_le_total carrying c.locals w) hi
  exact Multiset.disjoint_left.mp (Multiset.nodup_add.mp h).2.2 hqueued hcarried

private theorem answering_next (hr : (system Tid Obj Ext).Reachable (OneWriter w o) (start Tid Ext made) c)
    (h : Answering c.shared.dom (c.locals w).frame (c.locals w).dom.pc) (hok : OneWriter w o c t a)
    (hs : step t c.shared (c.locals t) a = some (sh, l)) :
    Answering sh.dom (Function.update c.locals t l w).frame (Function.update c.locals t l w).dom.pc := by
  have hdom := domainOf_reachable (sole_of_reachable hr)
  have halone := alone_of_reachable hdom
  by_cases ht : t = w
  · subst ht
    simp only [Function.update_self]
    rcases step_cases hs with ⟨b, d, hb, hd, rfl, -⟩ | ⟨r, u, -, -, -, hm, -⟩
    · have hm := RCU.moves_of_step hd
      have haw := (honest_of_reachable (timely_of_oneWriter hr)).awaiting t
      rcases domainAccess_cases hb with ⟨v, hv, hg, -⟩ | ⟨y, rfl, hg⟩ | ⟨r, u, i, _, _, _, _, hidle, hf, hg, hcall⟩
      · rw [hg, hv]
        trivial
      · rw [hg]
        refine answering_run hm ((retiring_of_reachable hr).flight t) (fun n hpc => ⟨?_, fun i e hi => ?_⟩) haw h
        · have hahead := (behind_of_reachable hdom).1 .batched
          rw [halone.tagged n hpc]
          omega
        · refine not_queued_of_carrying (w := t) (queued_once hr) ?_ e
          rwa [carrying, hpc]
      · rw [hg]
        rw [hf] at haw h
        refine answering_call hm hidle hcall (fun n hn => ⟨?_, reclaimed_le_of_reachable hdom hn⟩) haw h
        have hle := (accounted_of_reachable hdom).le_queued
        exact Multiset.mem_of_le hle (Multiset.mem_add.mpr (.inl hn))
    · rcases hm.hands.disposed with ⟨_, _, _, _, he, -⟩ | ⟨hnot, -⟩
      · rw [show l.frame = _ from he]
        trivial
      · have hnot : l.frame.retiring = false := hnot
        generalize l.frame = g at hnot
        cases g with
        | retire => cases hnot
        | _ => trivial
  · simp only [Function.update_of_ne (Ne.symm ht)]
    obtain ⟨b, d, -, hreads, hd, rfl, -⟩ := reader_step hok ht (outside_of_reachable hr t ht) hs
    obtain ⟨hpc, hbatch⟩ := halone.reading t ht
    obtain ⟨hleaves, -, -⟩ := (RCU.moves_of_step hd).reader hreads hpc hbatch
    exact h.congr hleaves.queued hleaves.reclaimed

theorem answering_of_reachable (h : (system Tid Obj Ext).Reachable (OneWriter w o) (start Tid Ext made) c) :
    Answering c.shared.dom (c.locals w).frame (c.locals w).dom.pc := by
  induction h with
  | init => trivial
  | step hr hok hn ih =>
    obtain ⟨sh, l, hs, rfl⟩ := Program.next_eq_some_iff.mp hn
    exact answering_next hr ih hok hs

end Answers

end Abix.DLL

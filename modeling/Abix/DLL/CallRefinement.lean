import Abix.DLL.IndexOrder
import Abix.DLL.Process

/-! The calls of a handle among the operations on its Object are calls of `Function`, whose images come and
go at addresses that are reused. -/
namespace Abix.DLL.Process
open Abix.Concurrency Abix.RCU
variable {Tid Obj Ext Addr : Type} [DecidableEq Tid] [DecidableEq Obj] [Fintype Tid] [DecidableEq Addr]
  {ms : Modules Addr} {h : Function.Handle} {o : Obj} {t u : Tid} {i j : Nat} {x y : Addr} {made : Obj → Bool}
  {sh sh' : Shared Tid Obj Ext Addr} {l l' : Local Tid Obj Ext Addr}
  {c c' : Config Tid (Shared Tid Obj Ext Addr) (Local Tid Obj Ext Addr)}

section Replacing
variable {f f' : Function.Shared Tid Addr} {locals : Tid → Function.Local Addr} {b : Function.Action Addr}
  {fl fl' : Function.Local Addr} {c₀ : Config Tid (Function.Shared Tid Addr) (Function.Local Addr)}

theorem calls_own (hs : Function.step h t f fl b = some (f', fl')) (hb : replaces b = false) :
    (Function.calls Tid Addr h).step t f fl b = some (f', fl') := by
  refine Function.calls_step_eq_some_iff.mpr ⟨?_, hs⟩
  cases b with
  | free => cases hb
  | _ => trivial

/-- A thread replaces the image, and stays where it is in its own call. -/
theorem reachable_replace (hc : (Function.calls Tid Addr h).Reachable Program.anyStep c₀ ⟨f, locals⟩) (t : Tid)
    (hs : (Function.calls Tid Addr h).step t f (locals t) b = some (f', locals t)) :
    (Function.calls Tid Addr h).Reachable Program.anyStep c₀ ⟨f', locals⟩ :=
  hc.step trivial (Program.next_eq_some_iff.mpr ⟨_, _, hs, by rw [Function.update_eq_self]⟩)

/-- The words of the handle's Object after a change of the images, the current one, and the state. -/
def replaced (f : Function.Shared Tid Addr) (heap : Addr → Option Function.Image) (image : Option Addr) (s : State) :
    Function.Shared Tid Addr :=
  { f with heap, image, state := s, seen := fun u => if image = f.image then f.seen u else image.toList ++ f.seen u }

/-- The image and the state change, to an image that is alive. -/
theorem reachable_exchange (hc : (Function.calls Tid Addr h).Reachable Program.anyStep c₀ ⟨f, locals⟩) (t : Tid)
    (s : State) {image : Option Addr} (himage : ∀ y ∈ image, (f.heap y).isSome = true) :
    (Function.calls Tid Addr h).Reachable Program.anyStep c₀ ⟨replaced f f.heap image s, locals⟩ := by
  unfold replaced
  by_cases hsame : image = f.image
  · subst hsame
    simp only [if_true]
    exact reachable_replace (b := .setState s) hc t rfl
  · simp only [if_neg hsame]
    have hexchanged : (Function.calls Tid Addr h).Reachable Program.anyStep c₀
        ⟨{ f with image, seen := fun u => image.toList ++ f.seen u }, locals⟩ :=
      reachable_replace (b := .exchange image) hc t
        (Function.calls_step_eq_some_iff.mpr ⟨trivial, by simp only [Function.step, if_pos himage]⟩)
    exact reachable_replace (b := .setState s) hexchanged t rfl

/-- The image and the state change, and at one address an image comes or goes, while what is current then
and what is held stay alive. -/
theorem reachable_replaced (hc : (Function.calls Tid Addr h).Reachable Program.anyStep c₀ ⟨f, locals⟩) (t : Tid)
    (s : State) {image : Option Addr} (heap : Addr → Option Function.Image)
    (hheap : ∀ y, y ≠ x → heap y = f.heap y) (hx : heap x = f.heap x ∨ f.heap x = none ∨ heap x = none)
    (himage : ∀ y ∈ image, (heap y).isSome = true) (hheld : ∀ u y, f.held u = some y → (heap y).isSome = true) :
    (Function.calls Tid Addr h).Reachable Program.anyStep c₀ ⟨replaced f heap image s, locals⟩ := by
  have hupdate : heap = Function.update f.heap x (heap x) := by
    funext y
    by_cases hy : y = x
    · rw [hy, Function.update_self]
    · rw [Function.update_of_ne hy, hheap y hy]
  have hsame (heq : heap x = f.heap x) :
      (Function.calls Tid Addr h).Reachable Program.anyStep c₀ ⟨replaced f heap image s, locals⟩ := by
    obtain rfl : heap = f.heap := by rw [hupdate, heq, Function.update_eq_self]
    exact reachable_exchange hc t s himage
  rcases hx with heq | hnone | hfreed
  · exact hsame heq
  · cases himg : heap x with
    | none => exact hsame (himg.trans hnone.symm)
    | some img =>
      have hallocated : (Function.calls Tid Addr h).Reachable Program.anyStep c₀ ⟨{ f with heap }, locals⟩ :=
        reachable_replace (b := .allocate x img) hc t (Function.calls_step_eq_some_iff.mpr ⟨trivial, by
          rw [hupdate, himg]
          simp [Function.step, hnone]⟩)
      exact reachable_exchange hallocated t s himage
  · have halive : ∀ y ∈ image, (f.heap y).isSome = true := by
      intro y hy
      have hne : y ≠ x := by
        rintro rfl
        simpa [hfreed] using himage y hy
      rw [← hheap y hne]
      exact himage y hy
    refine reachable_replace (b := .free x) (reachable_exchange hc t s halive) t ?_
    have hcurrent : image ≠ some x := fun he => by simpa [hfreed] using himage x he
    have hspares : ∀ u, f.held u ≠ some x := fun u he => by simpa [hfreed] using hheld u x he
    refine Function.calls_step_eq_some_iff.mpr ⟨hspares, ?_⟩
    rw [hupdate, hfreed]
    exact if_pos hcurrent

/-- A call changes neither the images nor the words of the Control. -/
theorem own_step (hs : Function.step h t f fl b = some (f', fl')) (hb : replaces b = false) :
    f'.heap = f.heap ∧ f'.image = f.image ∧ f'.state = f.state := by
  cases Function.moves_of_step (calls_own hs hb) with
  | replaces hr => cases hr <;> cases hb
  | _ => exact ⟨rfl, rfl, rfl⟩

/-- At the end of a call of `enter` or `exit` the section holds nothing. -/
theorem held_of_crossing {d : RCU.Action (Resource Ext) Reclaim} (hs : Function.step h t f fl b = some (f', fl'))
    (hd : crossing b fl.pc = some d) : f'.held t = none := by
  have hb : replaces b = false := by cases b <;> first | rfl | cases hd
  cases Function.moves_of_step (calls_own hs hb) with
  | replaces hr => cases hr <;> cases hd
  | begins | asks | resumes => cases hd
  | fastEnters | readEnters | leaves | fastReturns | fastExits | bails | bailsUser | fails | slowReturns =>
    exact Function.update_self ..
  | fastLoads hpc | fastMisses hpc | fastHits hpc | fastInvokes hpc | inactive hpc | active hpc | slowLoads hpc
  | findsNothing hpc | findsTableless hpc | findsTable hpc | giveUp hpc | refuses hpc | verifies hpc | stores hpc
  | slowInvokes hpc =>
    rw [hpc] at hd
    cases hd

omit [Fintype Tid] in
/-- Without a Control `enter_read` loads nothing. -/
theorem readLoad_of_uncontrolled {r : Function.Reader Addr} (hpc : fl.pc = .readLoad r) (hcontrol : h.control = false)
    (hs : Function.step h t f fl .run = some (f', fl')) : f' = f := by
  simp only [Function.step, Function.run, hpc, hcontrol, Bool.false_eq_true, if_false, Function.readImage] at hs
  cases hs
  rfl

/-- A section comes to hold the image that its access loads. -/
theorem held_of_step (hs : Function.step h t f fl b = some (f', fl')) (hb : replaces b = false)
    (hx : f'.held t = some x) : f.held t = some x ∨ loads h b fl.pc = true ∧ f.image = some x := by
  have hread {r : Function.Reader Addr} {y : Addr} (hpc : fl.pc = .readLoad r) (hy : f.image = some y)
      (hheld : f'.held t = some y) (hrun : Function.step h t f fl .run = some (f', fl')) :
      f.held t = some x ∨ loads h .run fl.pc = true ∧ f.image = some x := by
    cases hcontrol : h.control with
    | false => exact .inl (readLoad_of_uncontrolled hpc hcontrol hrun ▸ hx)
    | true =>
      obtain rfl : y = x := Option.some.inj (hheld.symm.trans hx)
      exact .inr ⟨by rw [hpc, loads, hcontrol], hy⟩
  cases Function.moves_of_step (calls_own hs hb) with
  | replaces hr => cases hr <;> cases hb
  | fastLoads hpc => exact .inr ⟨by rw [hpc, loads], by simpa [Function.Shared.hold] using hx⟩
  | findsTableless hpc hy | findsTable hpc hy => exact hread hpc hy (Function.update_self ..) hs
  | fastEnters | readEnters | leaves | fastReturns | fastExits | bails | bailsUser | fails | slowReturns =>
    exact absurd (hx.symm.trans (Function.update_self ..)) (Option.some_ne_none x)
  | _ => exact .inl hx

end Replacing

section Images
variable {rs rs' : Readers.Shared Tid Obj Ext} {ol ol' : DLL.Local Tid Obj Ext} {b : Readers.Action Obj Ext}
  {base base' : DLL.Shared Tid Obj Ext}

/-- What changes of the images that are mapped is the one, which is mapped when it has been loaded. -/
def Remaps (base base' : DLL.Shared Tid Obj Ext) (i : Nat) : Prop :=
  (∀ j, j ≠ i → (Mapped base' j ↔ Mapped base j)) ∧
    (Mapped base' i → Mapped base i ∨ i = base.nextImage ∧ base'.nextImage ≠ base.nextImage)

def Apart (ms : Modules Addr) (base : DLL.Shared Tid Obj Ext) : Prop :=
  ∀ i j, Mapped base i → Mapped base j → ms.address i = ms.address j → i = j

omit [DecidableEq Tid] [DecidableEq Obj] [Fintype Tid] in
/-- An access or a step of the Objects maps or unmaps one image at most, and maps it when it loads it. -/
theorem remaps_of_imaging {p : DLL.Shared Tid Obj Ext × Frame Obj} (hp : Readers.Imaging base p)
    (hd : p.1.dom = base.dom) : ∃ i, Remaps base p.1 i := by
  obtain ⟨n, thrown, shown, hn, hthrown, -, hle⟩ := hp
  unfold Remaps Mapped
  rw [hn, hthrown, hd]
  rcases n with - | n
  · rcases thrown with - | ⟨i, thrown⟩
    · exact ⟨0, fun j _ => by simp, fun hi => .inl (by simpa using hi)⟩
    · obtain rfl : thrown = [] := by simpa using hle
      exact ⟨i, fun j hj => by simp [hj], fun hi => absurd List.mem_cons_self hi.2.1⟩
  · obtain rfl : n = 0 := by omega
    obtain rfl : thrown = [] := List.length_eq_zero_iff.mp (by omega)
    refine ⟨base.nextImage, fun j hj => ?_, fun _ => .inr ⟨rfl, by omega⟩⟩
    have hlt : j < base.nextImage + 1 ↔ j < base.nextImage := by omega
    simp [hlt]

omit [Fintype Tid] in
theorem remaps_next (hm : Readers.Moves t rs ol b rs' ol') : ∃ i, Remaps rs.base rs'.base i := by
  cases hm with
  | accesses _ hm =>
    unfold Remaps Mapped
    rcases hm.reclaimed with he | ⟨_, _, _, n, _, _, -, -, -, he, -⟩
    · exact ⟨0, fun _ _ => by rw [he], fun hi => .inl (by simpa only [he] using hi)⟩
    · simp only [he]
      refine ⟨(imageOf n.object).getD 0, fun j hj => ?_, fun hi => .inl ⟨hi.1, hi.2.1, fun m hm => ?_⟩⟩
      · have hn : imageOf n.object ≠ some j := fun hn => hj (by rw [hn]; rfl)
        simp [hn]
      · exact hi.2.2 m (List.mem_cons_of_mem _ hm)
  | moves hm => exact remaps_of_imaging (Readers.imaging_of_moves hm) hm.hands.dom
  | reads => exact ⟨0, fun _ _ => Iff.rfl, .inl⟩

omit [DecidableEq Tid] [DecidableEq Obj] [Fintype Tid] in
theorem mapped_of_imageAt (hi : ms.imageAt base x = some i) : Mapped base i ∧ ms.address i = x := by
  simpa using List.find?_some hi

omit [DecidableEq Tid] [DecidableEq Obj] [Fintype Tid] in
theorem Apart.imageAt_eq_some (hap : Apart ms base) :
    ms.imageAt base x = some i ↔ Mapped base i ∧ ms.address i = x := by
  refine ⟨mapped_of_imageAt, ?_⟩
  rintro ⟨hi, rfl⟩
  cases he : ms.imageAt base (ms.address i) with
  | none => simpa [hi] using List.find?_eq_none.mp he i (List.mem_range.mpr hi.1)
  | some j =>
    obtain ⟨hj, hsame⟩ := mapped_of_imageAt he
    rw [hap j i hj hi hsame]

omit [DecidableEq Tid] [DecidableEq Obj] [Fintype Tid] in
theorem Apart.next (hap : Apart ms base) (hr : Remaps base base' i)
    (hvacant : base'.nextImage = base.nextImage ∨ ms.imageAt base (ms.address base.nextImage) = none) :
    Apart ms base' := by
  -- the image that the step may have loaded shares its address with none
  have hshared {j : Nat} (hne : j ≠ i) (hj : Mapped base' j) (hi : Mapped base' i) : ms.address j ≠ ms.address i := by
    intro hsame
    have hj := (hr.1 j hne).mp hj
    rcases hr.2 hi with hi | ⟨rfl, hloaded⟩
    · exact hne (hap j i hj hi hsame)
    · cases (hvacant.resolve_left hloaded).symm.trans (hap.imageAt_eq_some.mpr ⟨hj, hsame⟩)
  intro j k hj hk hsame
  by_cases hji : j = i
  · by_cases hki : k = i
    · rw [hji, hki]
    · subst hji
      exact absurd hsame.symm (hshared hki hk hj)
  · by_cases hki : k = i
    · subst hki
      exact absurd hsame (hshared hji hj hk)
    · exact hap j k ((hr.1 j hji).mp hj) ((hr.1 k hki).mp hk) hsame

omit [DecidableEq Tid] [DecidableEq Obj] [Fintype Tid] in
/-- At one address an image comes or goes, or nothing changes. -/
theorem heap_next (hap : Apart ms base) (hap' : Apart ms base') (hr : Remaps base base' i)
    (hvacant : base'.nextImage = base.nextImage ∨ ms.imageAt base (ms.address base.nextImage) = none) :
    (∀ y, y ≠ ms.address i → ms.imageAt base' y = ms.imageAt base y) ∧
      (ms.imageAt base' (ms.address i) = ms.imageAt base (ms.address i) ∨ ms.imageAt base (ms.address i) = none ∨
        ms.imageAt base' (ms.address i) = none) := by
  constructor
  · intro y hy
    refine Option.ext fun j => ?_
    rw [hap.imageAt_eq_some, hap'.imageAt_eq_some]
    refine and_congr_left fun hj => hr.1 j ?_
    rintro rfl
    exact hy hj.symm
  · by_cases hnew : Mapped base' i
    · rcases hr.2 hnew with hold | ⟨rfl, hloaded⟩
      · left
        rw [hap.imageAt_eq_some.mpr ⟨hold, rfl⟩, hap'.imageAt_eq_some.mpr ⟨hnew, rfl⟩]
      · exact .inr (.inl (hvacant.resolve_left hloaded))
    · by_cases hold : Mapped base i
      · refine .inr (.inr (Option.eq_none_iff_forall_ne_some.mpr fun j hj => ?_))
        obtain ⟨hmapped, hsame⟩ := mapped_of_imageAt hj
        have hne : j ≠ i := fun he => hnew (he ▸ hmapped)
        exact hne (hap j i ((hr.1 j hne).mp hmapped) hold hsame)
      · left
        refine Option.ext fun j => ?_
        rw [hap.imageAt_eq_some, hap'.imageAt_eq_some]
        refine and_congr_left fun _ => ?_
        by_cases hne : j = i
        · subst hne
          exact iff_of_false hnew hold
        · exact hr.1 j hne

omit [Fintype Tid] in
/-- What is held stays so, but for the section that is being left. -/
theorem holds_next (hm : Readers.Moves t rs ol b rs' ol') (hpc : u = t → ol.dom.pc ≠ .exitStore) {x : Resource Ext}
    (hx : Readers.Holds rs u x) : Readers.Holds rs' u x := by
  obtain ⟨s, hs, hload⟩ := hx
  by_cases hu : u = t
  · subst hu
    cases hm with
    | accesses =>
      refine ⟨s, ?_, hload⟩
      simp only [Function.update_self, Client.sectionsAfter]
      split
      · exact List.mem_cons_of_mem _ hs
      · exact absurd ‹_› (hpc rfl)
      · exact hs
    | moves => exact ⟨s, hs, hload⟩
    | @reads o _ s₀ outer _ hsec =>
      simp only [Readers.Holds, Function.update_self]
      rcases List.mem_cons.mp (hsec ▸ hs) with rfl | hs
      · refine ⟨_, List.mem_cons_self, ?_⟩
        unfold Readers.noting
        split
        · exact List.mem_cons_of_mem _ (List.mem_cons_of_mem _ hload)
        · exact hload
      · exact ⟨s, List.mem_cons_of_mem _ hs, hload⟩
  · refine ⟨s, ?_, hload⟩
    cases hm with
    | accesses | reads => simpa [Function.update_of_ne hu] using hs
    | moves => exact hs

def leaving : Pc Tid (Resource Ext) Reclaim → Bool
  | .registerThread entering => !entering
  | .exitStore => true
  | _ => false

omit [DecidableEq Obj] [Fintype Tid] in
private theorem leaving_next {d d' : RCU.Shared Tid (Resource Ext) Reclaim} {m m' : RCU.Local Tid (Resource Ext) Reclaim}
    {e : RCU.Action (Resource Ext) Reclaim} (hm : RCU.Moves t d e m d' m') (he : e ≠ .exit)
    (hl : leaving m.pc = false) : leaving m'.pc = false := by
  cases hm with
  | called hs =>
    cases e with
    | enter =>
      cases hs
      unfold getThread
      split <;> rfl
    | exit => exact absurd rfl he
    | _ => cases hs <;> rfl
  | @registers _ entered =>
    obtain rfl : entered = true := by simpa [leaving] using hl
    rfl
  | exits | _ => rfl

omit [DecidableEq Obj] [Fintype Tid] in
/-- User code does not start to leave a section. -/
theorem leaving_of_user {a : DLL.Action Obj Ext} [DecidableEq Obj] (hm : Readers.Moves t rs ol (.object a) rs' ol')
    (ha : crosses a = false) (hl : leaving ol.dom.pc = false) : leaving ol'.dom.pc = false := by
  cases hm with
  | accesses hb hm =>
    refine leaving_next hm ?_ hl
    rcases domainAccess_origin hb with ⟨rfl, -⟩ | ⟨x, -, rfl⟩ | ⟨_, _, _, _, _, _, _, -, hcall⟩
    · rintro rfl
      cases ha
    · exact nofun
    · exact (retireImage_ne_run hcall).2.2
  | moves _ _ hdom => rwa [hdom]

omit [Fintype Tid] in
/-- The access that leaves a section is the last one of its call. -/
theorem not_exitStore {a : DLL.Action Obj Ext} (hm : Readers.Moves t rs ol (.object a) rs' ol')
    (hbusy : ∀ r, ol'.dom.pc ≠ .idle r) : ol.dom.pc ≠ .exitStore := by
  intro hpc
  cases hm with
  | @accesses _ _ _ _ _ hm =>
    generalize ol.dom = m at hm hpc
    generalize ol'.dom = m' at hm hbusy
    cases hm with
    | leaves => exact hbusy _ rfl
    | _ => cases hpc
  | moves _ hidle => cases hpc.symm.trans hidle

omit [Fintype Tid] in
theorem read_changes (hs : Readers.step t rs ol (.read o) = some (rs', ol')) : rs'.base = rs.base ∧ ol' = ol := by
  cases Readers.moves_of_step hs with
  | reads => exact ⟨rfl, rfl⟩

omit [Fintype Tid] in
/-- A section holds the image that is loaded in it. -/
theorem holds_of_read (hm : Readers.Moves t rs ol (.read o) rs' ol') (hi : (rs'.base.objects o).shown = some i) :
    Readers.Holds rs' t (.image i) := by
  cases hm with
  | @reads _ _ s outer =>
    have hi : (rs.base.objects o).shown = some i := hi
    refine ⟨Readers.noting s (rs.base.objects o).shown, ?_, ?_⟩
    · simp
    · rw [hi]
      exact List.mem_cons_self

end Images

section Refinement

/-- A thread that the handle has not sent across the edge of a section is not on its way out of one; what
its call holds, its section holds. -/
def Tracked (ms : Modules Addr) (sh : Shared Tid Obj Ext Addr) (u : Tid) (l : Local Tid Obj Ext Addr) : Prop :=
  (l.crossing = false → leaving l.object.dom.pc = false) ∧
    ∀ x, sh.held u = some x → ∃ i, ms.address i = x ∧ Readers.Holds sh.readers u (.image i)

private theorem tracked_step {b : Action Obj Ext Addr} (hm : Moves ms h o t sh l b sh' l') (ht : Tracked ms sh t l) :
    Tracked ms sh' t l' := by
  obtain ⟨hout, hheld⟩ := ht
  cases hm with
  | @uses a _ _ hcrossing ha hr =>
    have hout := hout hcrossing
    refine ⟨fun _ => leaving_of_user (Readers.moves_of_step hr) ha hout, fun x hx => ?_⟩
    obtain ⟨i, hi, hholds⟩ := hheld x hx
    refine ⟨i, hi, holds_next (Readers.moves_of_step hr) (fun _ hpc => ?_) hholds⟩
    rw [hpc] at hout
    cases hout
  | crosses _ hr hbusy =>
    refine ⟨nofun, fun x hx => ?_⟩
    obtain ⟨i, hi, hholds⟩ := hheld x hx
    exact ⟨i, hi, holds_next (Readers.moves_of_step hr)
      (fun _ => not_exitStore (Readers.moves_of_step hr) hbusy) hholds⟩
  | crossed _ hd _ _ hidle hf =>
    refine ⟨fun _ => by simp only [hidle, leaving], fun x hx => ?_⟩
    cases (held_of_crossing hf hd).symm.trans hx
  | loads hidle hown _ _ hr hf =>
    have hread := Readers.moves_of_step hr
    refine ⟨fun _ => ?_, fun x hx => ?_⟩
    · simp only [(read_changes hr).2, hidle, leaving]
    · rcases held_of_step hf hown hx with hx | ⟨-, hx⟩
      · obtain ⟨i, hi, hholds⟩ := hheld x hx
        exact ⟨i, hi, holds_next hread (fun _ hpc => nomatch hidle.symm.trans hpc) hholds⟩
      · obtain ⟨i, hi, rfl⟩ := Option.map_eq_some_iff.mp hx
        exact ⟨i, rfl, holds_of_read hread hi⟩
  | accesses hidle hown hload _ hf =>
    refine ⟨fun _ => by simp only [hidle, leaving], fun x hx => ?_⟩
    rcases held_of_step hf hown hx with hx | ⟨hload', -⟩
    · exact hheld x hx
    · cases hload.symm.trans hload'

private theorem tracked_step_ne {b : Action Obj Ext Addr} (hm : Moves ms h o t sh l b sh' l') (hne : u ≠ t)
    {lu : Local Tid Obj Ext Addr} (ht : Tracked ms sh u lu) : Tracked ms sh' u lu := by
  refine ⟨ht.1, fun x hx => ?_⟩
  have hnext {rs : Readers.Shared Tid Obj Ext} {ol : DLL.Local Tid Obj Ext} {a : Readers.Action Obj Ext}
      (hr : Readers.step t sh.readers l.object a = some (rs, ol)) (hx : sh.held u = some x) :
      ∃ i, ms.address i = x ∧ Readers.Holds rs u (.image i) := by
    obtain ⟨i, hi, hholds⟩ := ht.2 x hx
    exact ⟨i, hi, holds_next (Readers.moves_of_step hr) (fun hu => absurd hu hne) hholds⟩
  cases hm with
  | uses _ _ hr | crosses _ hr => exact hnext hr hx
  | crossed hown _ _ hr _ hf | loads _ hown _ _ hr hf =>
    exact hnext hr (((Function.moves_of_step (calls_own hf hown)).held_ne hne).symm.trans hx)
  | accesses _ hown _ _ hf => exact ht.2 x (((Function.moves_of_step (calls_own hf hown)).held_ne hne).symm.trans hx)

theorem tracked_of_reachable
    {ok : Config Tid (Shared Tid Obj Ext Addr) (Local Tid Obj Ext Addr) → Tid → Action Obj Ext Addr → Prop}
    (hc : (process Tid Obj Ext ms h o).Reachable ok (start Tid Ext Addr made) c) (u : Tid) :
    Tracked ms c.shared u (c.locals u) := by
  have hstable : (process Tid Obj Ext ms h o).Stable ok (fun _ => True) (Tracked ms) := by
    constructor
    · intro c t b sh l _ _ hj hs
      exact ⟨trivial, tracked_step (moves_of_step hs) (hj t)⟩
    · intro c t b sh l _ _ hj hs u hne
      exact tracked_step_ne (moves_of_step hs) hne (hj u)
  have hstart (u : Tid) : Tracked ms (start Tid Ext Addr made).shared u ((start Tid Ext Addr made).locals u) :=
    ⟨fun _ => rfl, fun _ hx => nomatch hx⟩
  exact (hstable.reachable trivial hstart hc).2 u

variable [Fintype Obj] [DecidableEq Ext]

omit [Fintype Tid] [DecidableEq Ext] in
theorem mapped_of_alive [Fintype Tid] {base : Config Tid (DLL.Shared Tid Obj Ext) (DLL.Local Tid Obj Ext)}
    (hbase : (DLL.system Tid Obj Ext).Reachable Program.anyStep (DLL.start Tid Ext made) base)
    (ha : Readers.Alive base.shared i) : Mapped base.shared i := by
  refine ⟨?_, ha.kept, fun n hn hf hi => ha.spared n hn _ hf .image (imageOf_eq_some.mp hi)⟩
  have hmem : i ∈ Multiset.range base.shared.nextImage := by
    rw [(image_life_cycle hbase).loaded]
    exact Multiset.mem_add.mpr (.inl (Multiset.mem_add.mpr (.inr (Multiset.mem_coe.mpr ha.published))))
  exact Multiset.mem_range.mp hmem

omit [Fintype Tid] [Fintype Obj] [DecidableEq Ext] in
/-- In every run no two images share an address. -/
theorem apart_of_reachable (hc : (process Tid Obj Ext ms h o).Reachable (Orderly ms o) (start Tid Ext Addr made) c) :
    Apart ms c.shared.readers.base := by
  refine hc.invariant (P := fun c => Apart ms c.shared.readers.base) (fun i _ hi => absurd hi.1 (Nat.not_lt_zero i)) ?_
  intro c t b c' hap hok hn
  obtain ⟨sh, l, hs, rfl⟩ := Program.next_eq_some_iff.mp hn
  have hm : Moves ms h o t c.shared (c.locals t) b sh l := moves_of_step hs
  have hnext {a : DLL.Action Obj Ext} {rs : Readers.Shared Tid Obj Ext} {ol : DLL.Local Tid Obj Ext}
      (hr : Readers.step t c.shared.readers (c.locals t).object (.object a) = some (rs, ol))
      (hvacant : Vacant ms t c.shared.readers (c.locals t).object a) : Apart ms rs.base := by
    obtain ⟨i, hi⟩ := remaps_next (Readers.moves_of_step hr)
    exact hap.next hi (hvacant _ hr)
  cases hm with
  | uses _ _ hr => exact hnext hr (hok.1 _ rfl).2
  | crosses hinner hr | crossed _ _ hinner hr => exact hnext hr (hok.1 _ hinner).2
  | loads _ _ _ _ hr =>
    show Apart ms _
    exact (read_changes hr).1 ▸ hap
  | accesses => exact hap

/-- What the Objects and the domain do is a change of the handle's image at most, and frees nothing that
is current or held. -/
theorem reachable_movedTo (hc : (process Tid Obj Ext ms h o).Reachable (Orderly ms o) (start Tid Ext Addr made) c)
    {b : Readers.Action Obj Ext} {rs : Readers.Shared Tid Obj Ext} {ol : DLL.Local Tid Obj Ext}
    (hflat : Readers.Flat (readersOf c) t b)
    (hr : Readers.step t c.shared.readers (c.locals t).object b = some (rs, ol))
    (hvacant : rs.base.nextImage = c.shared.readers.base.nextImage ∨
      ms.imageAt c.shared.readers.base (ms.address c.shared.readers.base.nextImage) = none)
    {c₀ : Config Tid (Function.Shared Tid Addr) (Function.Local Addr)} {locals : Tid → Function.Local Addr}
    (hf : (Function.calls Tid Addr h).Reachable Program.anyStep c₀ ⟨view ms o c.shared, locals⟩) :
    (Function.calls Tid Addr h).Reachable Program.anyStep c₀ ⟨view ms o (c.shared.movedTo ms o rs), locals⟩ := by
  have hbefore := readersOf_reachable hc
  have hn : (Readers.system Tid Obj Ext).next (readersOf c) t b =
      some ⟨rs, Function.update (fun u => (c.locals u).object) t ol⟩ := Program.next_eq_some_iff.mpr ⟨_, _, hr, rfl⟩
  have hafter := hbefore.step hflat hn
  have hap := apart_of_reachable hc
  obtain ⟨i, hi⟩ := remaps_next (Readers.moves_of_step hr)
  have hap' := hap.next hi hvacant
  obtain ⟨hsame, hchanged⟩ := heap_next hap hap' hi hvacant
  have hheap {j : Nat} (ha : Readers.Alive rs.base j) :
      ((ms.imageAt rs.base (ms.address j)).map ms.image).isSome = true := by
    have hmapped : Mapped rs.base j := mapped_of_alive (Readers.objectsOf_reachable hafter) ha
    rw [hap'.imageAt_eq_some.mpr ⟨hmapped, rfl⟩, Option.map_some, Option.isSome_some]
  refine reachable_replaced hf t _ (fun x => (ms.imageAt rs.base x).map ms.image) (x := ms.address i)
    (fun y hy => ?_) ?_ (fun y hy => ?_) (fun u y hy => ?_)
  · simp only [view, hsame y hy]
  · simp only [view]
    rcases hchanged with he | he | he
    · exact .inl (by rw [he])
    · exact .inr (.inl (by rw [he, Option.map_none]))
    · exact .inr (.inr (by rw [he, Option.map_none]))
  · obtain ⟨j, hj, rfl⟩ := Option.map_eq_some_iff.mp hy
    exact hheap (Readers.alive_of_shown hafter t hj)
  · obtain ⟨j, rfl, s, hs, hload⟩ := (tracked_of_reachable hc u).2 y hy
    exact hheap (Readers.alive_next hbefore hflat hn hs (Readers.kept_of_reachable hbefore u s hs) .image j hload).1

def callsOf (ms : Modules Addr) (o : Obj) (c : Config Tid (Shared Tid Obj Ext Addr) (Local Tid Obj Ext Addr)) :
    Config Tid (Function.Shared Tid Addr) (Function.Local Addr) :=
  ⟨view ms o c.shared, fun u => (c.locals u).call⟩

omit [Fintype Tid] [DecidableEq Obj] [Fintype Obj] [DecidableEq Ext] [DecidableEq Addr] in
private theorem calls_update (c : Config Tid (Shared Tid Obj Ext Addr) (Local Tid Obj Ext Addr)) (t : Tid)
    (l : Local Tid Obj Ext Addr) :
    (fun u => (Function.update c.locals t l u).call) = Function.update (fun u => (c.locals u).call) t l.call := by
  funext u
  by_cases hu : u = t
  · subst hu
    simp
  · simp [Function.update_of_ne hu]

omit [DecidableEq Obj] [Fintype Obj] [DecidableEq Ext] in
theorem reachable_access {c₀ : Config Tid (Function.Shared Tid Addr) (Function.Local Addr)} {b : Function.Action Addr}
    {f : Function.Shared Tid Addr} {fl : Function.Local Addr} (hown : replaces b = false)
    (hs : Function.step h t (view ms o sh) l.call b = some (f, fl)) {locals : Tid → Function.Local Addr}
    (hl : locals t = l.call)
    (hr : (Function.calls Tid Addr h).Reachable Program.anyStep c₀ ⟨view ms o sh, locals⟩) :
    (Function.calls Tid Addr h).Reachable Program.anyStep c₀
      ⟨view ms o (sh.taking f), Function.update locals t fl⟩ := by
  have hview : view ms o (sh.taking f) = f := by
    obtain ⟨hheap, himage, hstate⟩ := own_step hs hown
    cases f
    cases hheap
    cases himage
    cases hstate
    rfl
  rw [hview]
  rw [← hl] at hs
  exact hr.step trivial (Program.next_eq_some_iff.mpr ⟨_, _, calls_own hs hown, rfl⟩)

omit [DecidableEq Tid] [DecidableEq Obj] [Fintype Tid] [Fintype Obj] [DecidableEq Ext] in
private theorem callsOf_start : callsOf ms o (start Tid Ext Addr made) = Function.start Tid Addr := by
  have hobject : ((DLL.start Tid Ext made).shared.objects o).shown = none ∧
      ((DLL.start Tid Ext made).shared.objects o).control.elim .zombie Control.state = .zombie := by
    cases hmade : made o <;> simp [DLL.start, hmade, Object.shown, Object.useCount]
  have hheap : (fun x => (ms.imageAt (start Tid Ext Addr made).shared.readers.base x).map ms.image) =
      fun _ => none := rfl
  have hview : view ms o (start Tid Ext Addr made).shared = {} := by
    simp only [view, hheap]
    exact congrArg₂ (fun shown state => ({ image := Option.map ms.address shown, state } : Function.Shared Tid Addr))
      hobject.1 hobject.2
  rw [callsOf, hview]
  rfl

theorem calls_of_reachable (hc : (process Tid Obj Ext ms h o).Reachable (Orderly ms o) (start Tid Ext Addr made) c) :
    (Function.calls Tid Addr h).Reachable Program.anyStep (Function.start Tid Addr) (callsOf ms o c) := by
  induction hc with
  | init =>
    rw [callsOf_start]
    exact .init
  | @step c c' t b hr hok hn ih =>
    obtain ⟨sh, l, hs, rfl⟩ := Program.next_eq_some_iff.mp hn
    have hm : Moves ms h o t c.shared (c.locals t) b sh l := moves_of_step hs
    simp only [callsOf, calls_update] at ih ⊢
    cases hm with
    | uses _ _ hstep =>
      rw [Function.update_eq_self]
      exact reachable_movedTo hr (hok.1 _ rfl).1 hstep ((hok.1 _ rfl).2 _ hstep) ih
    | crosses hinner hstep =>
      rw [Function.update_eq_self]
      exact reachable_movedTo hr (hok.1 _ hinner).1 hstep ((hok.1 _ hinner).2 _ hstep) ih
    | crossed hown _ hinner hstep _ hf =>
      exact reachable_access hown hf rfl (reachable_movedTo hr (hok.1 _ hinner).1 hstep ((hok.1 _ hinner).2 _ hstep) ih)
    | loads _ hown _ _ hstep hf =>
      exact reachable_access hown hf rfl
        (reachable_movedTo hr (fun _ ha => by cases ha) hstep (.inl (by rw [(read_changes hstep).1])) ih)
    | accesses _ hown _ _ hf => exact reachable_access hown hf rfl ih

omit [Fintype Obj] [DecidableEq Ext] [DecidableEq Obj] in
/-- An invocation is neither at the edge of a section nor a load. -/
theorem at_invocation {f f' : Function.Shared Tid Addr} {fl fl' : Function.Local Addr}
    {b : Function.Action Addr} {fn : UInt64}
    (hs : Function.step h t f fl b = some (f', fl')) (hi : fl'.invoked = fn :: fl.invoked) :
    (crossing b fl.pc : Option (RCU.Action (Resource Ext) Reclaim)) = none ∧ loads h b fl.pc = false := by
  obtain ⟨x, hpc | hpc⟩ := (Function.moves_of_step (Function.calls_of_invokes hs hi)).invokes hi <;> rw [hpc] <;> cases b <;> exact ⟨rfl, rfl⟩

/-- What is invoked is the pointer of an entry of an image that is mapped, and that the section of the call
holds. -/
theorem invoked_of_next (hc : (process Tid Obj Ext ms h o).Reachable (Orderly ms o) (start Tid Ext Addr made) c)
    {b : Function.Action Addr} {f : Function.Shared Tid Addr} {fl : Function.Local Addr} {fn : UInt64}
    (hs : Function.step h t (view ms o c.shared) (c.locals t).call b = some (f, fl))
    (hi : fl.invoked = fn :: (c.locals t).call.invoked) :
    ∃ i tbl e, Readers.Holds c.shared.readers t (.image i) ∧ Readers.Alive c.shared.readers.base i ∧
      ms.address i ∈ c.shared.seen t ∧ (ms.image i).exportTable = some tbl ∧ h.entry tbl = some e ∧ e.fnptr = fn := by
  have hcalls := calls_of_reachable hc
  obtain ⟨x, hpc⟩ := (Function.moves_of_step (Function.calls_of_invokes hs hi)).invokes hi
  have himage : (c.locals t).call.pc.image = some x := by rcases hpc with hpc | hpc <;> rw [hpc] <;> rfl
  have hheld := (Function.rooted_of_reachable hcalls).2 t x himage
  have hseen := (Function.witnessed_of_reachable hcalls t).2 x himage
  have hserving : Function.Serves (fun _ => True) h (view ms o c.shared) x fn := by
    have hv := Function.vouched_of_run (P := fun _ => True) .init Function.vouched_start
      (hcalls.mono fun c t b _ => ⟨fun _ _ _ _ => ⟨fun _ _ _ _ _ _ => trivial, fun _ _ _ _ _ _ => trivial⟩,
        fun _ _ _ _ _ _ _ _ _ _ => trivial⟩)
    have hserving := hv.serving t
    simp only [callsOf] at hserving
    rcases hpc with hpc | hpc <;> rwa [hpc] at hserving
  obtain ⟨img, tbl, e, hheap, htbl, he, hfn, -⟩ := hserving
  obtain ⟨i, hat, rfl⟩ := Option.map_eq_some_iff.mp hheap
  obtain ⟨hmapped, hx⟩ := mapped_of_imageAt hat
  obtain ⟨j, hj, s, hs, hload⟩ := (tracked_of_reachable hc t).2 x hheld
  have halive := (Readers.kept_of_reachable (readersOf_reachable hc) t s hs .image j hload).1
  obtain rfl : i = j := by
    have hmapped' := mapped_of_alive (Readers.objectsOf_reachable (readersOf_reachable hc)) halive
    exact apart_of_reachable hc i j hmapped hmapped' (hx.trans hj.symm)
  exact ⟨i, tbl, e, ⟨s, hs, hload⟩, halive, hx ▸ hseen, htbl, he, hfn⟩

end Refinement

private def twoVersions : Modules Nat :=
  ⟨fun i => 8 * i + 8, fun i => Function.exporting Function.typy (if i = 0 then 16 else 32)⟩

/-- A call is about to invoke what it has found in image 0 while a reload takes the image out. -/
private def reloadUnderCall : List (Fin 2 × Action Unit Unit Nat) :=
  (1, .user (.load () "")) :: List.replicate 6 (1, .user (.run true)) ++
    [(1, .user (.makeHandle ())), (0, .handle .call true)] ++ List.replicate 16 (0, .handle .run true) ++
    (1, .user (.reload () "")) :: List.replicate 5 (1, .user (.run true))

/-- The run of a handle among its Object's operations, as the handle sees it, is a run of its calls: what
allocates, exchanges and frees images there is what the Objects and the domain do, and an address has an
image exactly when one is mapped there. User code has no sections of the domain here but those of handles
and Objects. -/
theorem calls_run_on_the_domain [Fintype Obj] [DecidableEq Ext]
    (hc : (process Tid Obj Ext ms h o).Reachable (Orderly ms o) (start Tid Ext Addr made) c) :
    (Function.calls Tid Addr h).Reachable Program.anyStep (Function.start Tid Addr) (callsOf ms o c) ∧
      ∀ x img, (callsOf ms o c).shared.heap x = some img ↔
        ∃ i, Mapped c.shared.readers.base i ∧ ms.address i = x ∧ ms.image i = img := by
  refine ⟨calls_of_reachable hc, fun x img => ?_⟩
  simp only [callsOf, view, Option.map_eq_some_iff, (apart_of_reachable hc).imageAt_eq_some, and_assoc]

theorem calls_run_on_the_domain_reloading :
    ∃ c : Config (Fin 2) (Shared (Fin 2) Unit Unit Nat) (Local (Fin 2) Unit Unit Nat),
      c.shared.readers.base.disposed = [0] ∧
      (Function.calls (Fin 2) Nat Function.typyHandle).Reachable Program.anyStep (Function.start (Fin 2) Nat)
        (callsOf twoVersions () c) ∧
      (callsOf twoVersions () c).shared.heap 8 = some (Function.exporting Function.typy 16) := by
  have hrun : ((process (Fin 2) Unit Unit twoVersions Function.typyHandle ()).exec (Orderly twoVersions ())
      (start (Fin 2) Unit Nat fun _ => true) reloadUnderCall).map (fun c =>
        decide (c.shared.readers.base.disposed = [0] ∧ Mapped c.shared.readers.base 0)) = some true := by
    decide
  obtain ⟨c, hc, hd⟩ := Option.map_eq_some_iff.mp hrun
  obtain ⟨hdisposed, hmapped⟩ := of_decide_eq_true hd
  obtain ⟨hcalls, hheap⟩ := calls_run_on_the_domain (.of_exec .init hc)
  exact ⟨c, hdisposed, hcalls, (hheap 8 _).mpr ⟨0, hmapped, rfl, rfl⟩⟩

/-- Over every run in which sections are balanced and not nested, nothing is unloaded by force and images
are allocated in free memory, any function that a call of a handle invokes is that of an entry of an image
which the section of the call holds, which was current during it, and which has not been reclaimed. -/
theorem invoked_functions_are_loaded [Fintype Obj] [DecidableEq Ext]
    (hc : (process Tid Obj Ext ms h o).Reachable (Orderly ms o) (start Tid Ext Addr made) c) {b : Action Obj Ext Addr}
    (hn : (process Tid Obj Ext ms h o).next c t b = some c') {fn : UInt64}
    (hi : (c'.locals t).call.invoked = fn :: (c.locals t).call.invoked) :
    ∃ i tbl e, Readers.Holds c.shared.readers t (.image i) ∧ Readers.Alive c.shared.readers.base i ∧
      ms.address i ∈ c.shared.seen t ∧ (ms.image i).exportTable = some tbl ∧ h.entry tbl = some e ∧ e.fnptr = fn := by
  obtain ⟨sh, l, hs, rfl⟩ := Program.next_eq_some_iff.mp hn
  simp only [Function.update_self] at hi
  have hm : Moves ms h o t c.shared (c.locals t) b sh l := moves_of_step hs
  cases hm with
  | uses | crosses => exact absurd hi.symm (List.cons_ne_self _ _)
  | crossed _ hd _ _ _ hf => cases hd.symm.trans (at_invocation hf hi).1
  | loads _ _ hload _ _ hf =>
    have hat : (crossing _ _ : Option (RCU.Action (Resource Ext) Reclaim)) = none ∧ _ := at_invocation hf hi
    cases hload.symm.trans hat.2
  | accesses _ _ _ _ hf => exact invoked_of_next hc hf hi

theorem invoked_functions_are_loaded_reloading :
    ∃ c : Config (Fin 2) (Shared (Fin 2) Unit Unit Nat) (Local (Fin 2) Unit Unit Nat),
      c.shared.readers.base.disposed = [0] ∧
      ∃ i tbl e, Readers.Holds c.shared.readers 0 (.image i) ∧ Readers.Alive c.shared.readers.base i ∧
        twoVersions.address i ∈ c.shared.seen 0 ∧ (twoVersions.image i).exportTable = some tbl ∧
        Function.typyHandle.entry tbl = some e ∧ e.fnptr = 16 := by
  have hrun : (((process (Fin 2) Unit Unit twoVersions Function.typyHandle ()).exec (Orderly twoVersions ())
      (start (Fin 2) Unit Nat fun _ => true) reloadUnderCall).bind fun c =>
        ((process (Fin 2) Unit Unit twoVersions Function.typyHandle ()).next c 0 (.handle .run true)).map fun c' =>
          decide (c.shared.readers.base.disposed = [0] ∧
            (c'.locals 0).call.invoked = 16 :: (c.locals 0).call.invoked)) = some true := by
    decide
  obtain ⟨c, hc, hn⟩ := Option.bind_eq_some_iff.mp hrun
  obtain ⟨c', hn, hd⟩ := Option.map_eq_some_iff.mp hn
  obtain ⟨hdisposed, hi⟩ := of_decide_eq_true hd
  exact ⟨c, hdisposed, invoked_functions_are_loaded (.of_exec .init hc) hn hi⟩

end Abix.DLL.Process

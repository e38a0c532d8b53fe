import Mathlib.Data.Fintype.Option
import Abix.DLL.PointerCounts

/-! Runs of the counting pointers: the resets that wait for their callbacks are a stack, and every
orderly operation keeps the counts. -/
namespace Abix.DLL.Pointers
open Abix.Concurrency
variable {H Obj : Type} {w w' : World H Obj}

section Stack
variable [DecidableEq H] {h o : H} {hd src : Handle} {kind : Kind} {after : After H} {frames : List (Frame H)}

/-- The resets that wait are those of the handles that leave; the source of an assignment that waits
did not leave when the assignment began. -/
structure Stacked (w : World H Obj) : Prop where
  leaving : ∀ h hd, w.handles h = some hd → (hd.leaving = true ↔ h ∈ w.frames.map Frame.handle)
  frames : ∀ f ∈ w.frames, ∃ b, w.handles f.handle = some { kind := f.kind, cb := some b, leaving := true }
  sources : ∀ f ∈ w.frames, f.after.source ≠ some f.handle
  order : w.frames.Pairwise fun f g => f.after.source ≠ some g.handle
  nodup : (w.frames.map Frame.handle).Nodup

omit [DecidableEq H] in
theorem Stacked.congr (hs : Stacked w) (hhandles : w'.handles = w.handles) (hframes : w'.frames = w.frames) :
    Stacked w' where
  leaving := by rw [hhandles, hframes]; exact hs.leaving
  frames := by rw [hhandles, hframes]; exact hs.frames
  sources := by rw [hframes]; exact hs.sources
  order := by rw [hframes]; exact hs.order
  nodup := by rw [hframes]; exact hs.nodup

omit [DecidableEq H] in
theorem Stacked.not_mem (hs : Stacked w) (hold : ∀ hd, w.handles h = some hd → hd.leaving = false) :
    h ∉ w.frames.map Frame.handle := by
  intro hmem
  obtain ⟨f, hf, rfl⟩ := List.mem_map.mp hmem
  obtain ⟨b, hhandle⟩ := hs.frames f hf
  cases hold _ hhandle

theorem Stacked.put (hs : Stacked w) {x : Option Handle} (hold : ∀ hd, w.handles h = some hd → hd.leaving = false)
    (hnew : ∀ hd, x = some hd → hd.leaving = false) : Stacked (w.put h x) where
  leaving := by
    intro h' hd hh
    by_cases hne : h' = h
    · subst hne
      rw [handles_put_self] at hh
      have hnot := hs.not_mem hold
      simp only [hnew hd hh, Bool.false_eq_true, false_iff]
      exact hnot
    · exact hs.leaving h' hd (by rwa [handles_put_of_ne hne] at hh)
  frames := by
    intro f hf
    have hne : f.handle ≠ h := fun heq => hs.not_mem hold (heq ▸ List.mem_map_of_mem hf)
    rw [handles_put_of_ne hne]
    exact hs.frames f hf
  sources := hs.sources
  order := hs.order
  nodup := hs.nodup

theorem Stacked.transfer (hs : Stacked w) (hh : ∀ hd, w.handles h = some hd → hd.leaving = false)
    (ho : w.handles o = some src) (hl : src.leaving = false) (hne : o ≠ h) : Stacked (w.transfer h o src) := by
  have ho' : (w.put h (some { kind := src.kind, cb := src.cb })).handles o = some src := by
    rwa [handles_put_of_ne hne]
  have hput : Stacked (w.put h (some { kind := src.kind, cb := src.cb })) :=
    hs.put hh (fun hd hd' => by cases hd'; rfl)
  refine hput.put (fun hd hd' => ?_) (fun hd hd' => by cases hd'; exact hl)
  exact Option.some.inj (ho'.symm.trans hd') ▸ hl

theorem Stacked.push (hs : Stacked w) (hh : w.handles h = some hd) (hl : hd.leaving = false)
    (hsource : ∀ o, after.source = some o → o ≠ h ∧ ¬ w.Leaving o)
    {b : Nat} (hhandles : w'.handles = (w.put h (some { kind := hd.kind, cb := some b, leaving := true })).handles)
    (hframes : w'.frames = { handle := h, kind := hd.kind, after } :: w.frames) : Stacked w' := by
  have hnot : h ∉ w.frames.map Frame.handle := hs.not_mem fun hd' hh' => Option.some.inj (hh.symm.trans hh') ▸ hl
  constructor
  · intro h' hd' hh'
    rw [hhandles] at hh'
    rw [hframes, List.map_cons, List.mem_cons]
    by_cases hne : h' = h
    · subst hne
      rw [handles_put_self] at hh'
      cases hh'
      simp
    · rw [handles_put_of_ne hne] at hh'
      simpa [hne] using hs.leaving h' hd' hh'
  · intro f hf
    rw [hhandles]
    rw [hframes] at hf
    rcases List.mem_cons.mp hf with rfl | hf
    · exact ⟨b, handles_put_self _⟩
    · have hne : f.handle ≠ h := fun heq => hnot (heq ▸ List.mem_map_of_mem hf)
      rw [handles_put_of_ne hne]
      exact hs.frames f hf
  · intro f hf
    rw [hframes] at hf
    rcases List.mem_cons.mp hf with rfl | hf
    · exact fun ho => (hsource h ho).1 rfl
    · exact hs.sources f hf
  · rw [hframes, List.pairwise_cons]
    refine ⟨fun g hg ho => (hsource _ ho).2 ?_, hs.order⟩
    obtain ⟨b, hleaving⟩ := hs.frames g hg
    exact ⟨_, hleaving, rfl⟩
  · rw [hframes, List.map_cons, List.nodup_cons]
    exact ⟨hnot, hs.nodup⟩

/-- A callback returns: the innermost reset goes on, and its handle points nowhere. -/
theorem Stacked.pop {f : Frame H} (hs : Stacked w) (hw : w.frames = f :: frames)
    (hhandles : w'.handles = (w.put f.handle (some { kind := f.kind })).handles) (hframes : w'.frames = frames) :
    Stacked w' := by
  have hnodup := hs.nodup
  have horder := hs.order
  rw [hw, List.map_cons, List.nodup_cons] at hnodup
  rw [hw, List.pairwise_cons] at horder
  have hrest {g : Frame H} (hg : g ∈ frames) : g ∈ w.frames := hw ▸ List.mem_cons_of_mem f hg
  constructor
  · intro h' hd' hh'
    rw [hhandles] at hh'
    rw [hframes]
    by_cases hne : h' = f.handle
    · subst hne
      rw [handles_put_self] at hh'
      cases hh'
      simpa using hnodup.1
    · rw [handles_put_of_ne hne] at hh'
      rw [hs.leaving h' hd' hh', hw, List.map_cons, List.mem_cons]
      simp [hne]
  · intro g hg
    rw [hframes] at hg
    have hne : g.handle ≠ f.handle := fun heq => hnodup.1 (heq ▸ List.mem_map_of_mem hg)
    rw [hhandles, handles_put_of_ne hne]
    exact hs.frames g (hrest hg)
  · intro g hg
    rw [hframes] at hg
    exact hs.sources g (hrest hg)
  · rw [hframes]
    exact horder.2
  · rw [hframes]
    exact hnodup.2

end Stack

section Step
variable [DecidableEq H] [Fintype H] {h o : H} {hd src : Handle} {kind : Kind} {after : After H}

omit [Fintype H] in
theorem Stacked.finish (hs : Stacked w) (hh : w.handles h = some { kind }) (hready : Ready w h kind after) :
    Stacked (w.finish h kind after) := by
  have hold (x : Handle) (hx : w.handles h = some x) : x.leaving = false := by
    rw [hh] at hx
    cases hx
    rfl
  cases after with
  | nothing => exact hs
  | dead => exact hs.put hold nofun
  | assigned o =>
    obtain ⟨src, ho, -⟩ := hready
    simp only [World.finish, ho]
    cases src.cb with
    | none => exact hs.put hold (fun x hx => by cases hx; rfl)
    | some b => exact Stacked.congr (hs.put hold fun x hx => by cases hx; rfl) rfl rfl
  | moved o =>
    obtain ⟨src, ho, hl, hne⟩ := hready
    simp only [World.finish, ho]
    exact hs.transfer hold ho hl hne

def Prepared (w : World H Obj) (h : H) (hd : Handle) : After H → Prop
  | .nothing | .dead => True
  | .assigned o => o ≠ h ∧ ∃ src, w.handles o = some src ∧ (hd.kind.owns → src.kind.owns ∧ ¬ w.Leaving o) ∧
      ∀ b, src.cb = some b → w.CallsBack h ∨ hd.cb = some b ∨ w.Room hd.kind b
  | .moved o => o ≠ h ∧ ¬ w.Leaving o ∧ ∃ src, w.handles o = some src

omit [DecidableEq H] [Fintype H] in
theorem Prepared.source (hp : Prepared w h hd after) (hk : hd.kind.owns = true) (ho : after.source = some o) :
    o ≠ h ∧ ¬ w.Leaving o := by
  cases after with
  | nothing => cases ho
  | dead => cases ho
  | assigned o' =>
    cases ho
    obtain ⟨hne, src, hsrc, howns, -⟩ := hp
    exact ⟨hne, (howns hk).2⟩
  | moved o' =>
    cases ho
    exact ⟨hp.1, hp.2.1⟩

omit [DecidableEq H] [Fintype H] in
theorem not_leaving (hh : w.handles h = some hd) (hl : ¬ w.Leaving h) : hd.leaving = false :=
  Bool.eq_false_iff.mpr fun hleaving => hl ⟨hd, hh, hleaving⟩

/-- Behind a drop that called nothing back, what comes next is ready. -/
theorem Prepared.ready {w₁ : World H Obj} (hp : Prepared w h hd after) (hw : Dropped w w₁ h hd) :
    Ready w₁ h hd.kind after := by
  have hother {o : H} (hne : o ≠ h) : w₁.handles o = w.handles o := by
    rw [hw.handles, Function.update_of_ne hne]
  cases after with
  | nothing => trivial
  | dead => trivial
  | assigned o =>
    obtain ⟨hne, src, hsrc, howns, hroom⟩ := hp
    refine ⟨src, (hother hne).trans hsrc, fun hk => ⟨(howns hk).1, not_leaving hsrc (howns hk).2⟩, fun b hb => ?_⟩
    exact hw.room b ((hroom b hb).resolve_left hw.quiet)
  | moved o =>
    obtain ⟨hne, hl, src, hsrc⟩ := hp
    exact ⟨src, (hother hne).trans hsrc, not_leaving hsrc hl, hne⟩

structure Good (w : World H Obj) : Prop where
  inv : Inv w
  stacked : Stacked w

theorem Good.drop (hg : Good w) (hh : w.handles h = some hd) (hl : hd.leaving = false)
    (hlast : hd.kind.owns = false → ∀ b, hd.cb = some b → (w.blocks b).weaks = 1 → w.count .leaving b = 0)
    (hp : Prepared w h hd after) : Good (w.drop h hd after) := by
  have hold (x : Handle) (hx : w.handles h = some x) : x.leaving = false := Option.some.inj (hh.symm.trans hx) ▸ hl
  rcases drop_cases hg.inv hh hl hlast after with ⟨w₁, hw, heq⟩ | ⟨hcalled, -⟩
  · have hs : Stacked w₁ := by
      refine (hg.stacked.put hold fun x hx => ?_).congr hw.handles hw.frames
      cases hx
      rfl
    have hhandle : w₁.handles h = some { kind := hd.kind } := by rw [hw.handles, Function.update_self]
    have hready := hp.ready hw
    rw [heq]
    exact ⟨hw.inv.finish hhandle hready, hs.finish hhandle hready⟩
  · obtain ⟨b, hhandles⟩ := hcalled.handles
    exact ⟨hcalled.inv, hg.stacked.push hh hl (fun o ho => hp.source hcalled.owns ho) hhandles hcalled.frames⟩

omit [Fintype H] in
theorem Stacked.construct (hs : Stacked w) (hh : w.handles h = none) (cb : Option Nat) :
    Stacked (w.put h (some { kind, cb })) :=
  hs.put (fun x hx => by rw [hh] at hx; cases hx) (fun x hx => by cases hx; rfl)

omit [DecidableEq H] in
/-- The observer of a block whose callback does not run may go; if it runs, the last one may not. -/
theorem Good.mayDrop (hg : Good w) (hm : w.MayDrop h) (hh : w.handles h = some hd) (hk : hd.kind.owns = false) (b : Nat)
    (hb : hd.cb = some b) (hone : (w.blocks b).weaks = 1) : w.count .leaving b = 0 := by
  refine Finset.sum_eq_zero fun h' _ => ?_
  cases hh' : w.handles h' with
  | none => rfl
  | some hd' =>
    refine if_neg ?_
    rintro ⟨hb', hrole⟩
    have hleaving := (hg.stacked.leaving h' hd' hh').mp (Handle.role_eq_leaving.mp hrole)
    obtain ⟨f, hf, rfl⟩ := List.mem_map.mp hleaving
    exact hm hd hh hk b hb ⟨f, hf, by rw [World.cb, hh']; exact hb'⟩ hone

/-- A callback returns, and its reset goes on to its end. -/
theorem Good.returns {f : Frame H} {frames : List (Frame H)} (hg : Good w) (hw : w.frames = f :: frames)
    (hok : Orderly w (.returns : Op H Obj)) :
    Good (({ w with frames }.endReset f.handle f.kind).finish f.handle f.kind f.after) := by
  have hf : f ∈ w.frames := hw ▸ List.mem_cons_self
  obtain ⟨b, hh⟩ := hg.stacked.frames f hf
  have hcb : ({ w with frames } : World H Obj).cb f.handle = some b := by rw [World.cb, hh]; rfl
  have hinv := (hg.inv.withFrames frames).endReset f.kind hh rfl rfl
  obtain ⟨w₁, hw₁⟩ : ∃ w₁, ({ w with frames } : World H Obj).endReset f.handle f.kind = w₁ := ⟨_, rfl⟩
  have heq := hw₁.symm.trans (endReset_eq hcb (hg.inv.freed_eq hh rfl))
  have hhandles : w₁.handles = (w.put f.handle (some { kind := f.kind })).handles := heq ▸ rfl
  have hframes : w₁.frames = frames := heq ▸ rfl
  have hcount (c : Nat) (kind : Kind) : (w₁.blocks c).count kind = (w.blocks c).count kind := by
    rw [heq]
    by_cases hcb : c = b
    · subst hcb
      rw [blocks_set_self]
      rfl
    · exact congrArg (Block.count kind) (Function.update_of_ne hcb _ _)
  rw [hw₁] at hinv ⊢
  have hhandle : w₁.handles f.handle = some { kind := f.kind } := by rw [hhandles, handles_put_self]
  have hs : Stacked w₁ := hg.stacked.pop hw hhandles hframes
  have horder := hg.stacked.order
  rw [hw, List.pairwise_cons] at horder
  have hsource {o : H} {src : Handle} (ho : f.after.source = some o) (hsrc : w.handles o = some src) :
      o ≠ f.handle ∧ w₁.handles o = some src ∧ src.leaving = false := by
    have hne : o ≠ f.handle := fun heq => hg.stacked.sources f hf (heq ▸ ho)
    refine ⟨hne, by rw [hhandles, handles_put_of_ne hne, hsrc], ?_⟩
    rw [Bool.eq_false_iff, ne_eq, hg.stacked.leaving o src hsrc, hw, List.map_cons, List.mem_cons]
    rintro (heq | hmem)
    · exact hne heq
    · obtain ⟨g, hg', rfl⟩ := List.mem_map.mp hmem
      exact horder.1 g hg' ho
  have hready : Ready w₁ f.handle f.kind f.after := by
    cases hafter : f.after with
    | nothing => trivial
    | dead => trivial
    | assigned o =>
      have ho : f.after.source = some o := by rw [hafter]; rfl
      obtain ⟨src, hsrc, howns, hroom⟩ := hok f frames hw o ho
      obtain ⟨-, hsrc₁, hl⟩ := hsource ho hsrc
      refine ⟨src, hsrc₁, fun _ => ⟨howns, hl⟩, fun c hc => ?_⟩
      rw [World.Room, hcount]
      exact hroom hafter c hc
    | moved o =>
      have ho : f.after.source = some o := by rw [hafter]; rfl
      obtain ⟨src, hsrc, -⟩ := hok f frames hw o ho
      obtain ⟨hne, hsrc₁, hl⟩ := hsource ho hsrc
      exact ⟨src, hsrc₁, hl, hne⟩
  exact ⟨hinv.finish hhandle hready, hs.finish hhandle hready⟩

theorem owns_of_compatible {k k' : Kind} (h : k = k' ∨ k = k'.observer) (hk : k.owns = true) : k'.owns = true := by
  rcases h with rfl | rfl
  · exact hk
  · cases k' <;> cases hk

theorem Good.null (hg : Good w) (hh : w.handles h = none) (kind : Kind) : Good (w.put h (some { kind })) :=
  ⟨hg.inv.put (by rw [World.cb, hh]; rfl) rfl, hg.stacked.construct hh none⟩

/-- New storage gets a handle on what the source points to. -/
theorem Good.attach (hg : Good w) (hh : w.handles h = none) (ho : w.handles o = some src)
    (howns : ∀ b, src.cb = some b → kind.owns → 0 < w.count .owning b)
    (hroom : ∀ b, src.cb = some b → w.Room kind b) : Good (w.attach h kind src.cb) := by
  cases hb : src.cb with
  | none => exact hg.null hh kind
  | some b =>
    refine ⟨hg.inv.attach (by rw [World.cb, hh]; rfl) ho hb (howns b hb) (hroom b hb), ?_⟩
    exact (hg.stacked.construct hh (some b)).congr rfl rfl

omit [DecidableEq H] [Fintype H] in
theorem access_id {b : Nat} (hnot : (w.blocks b).freed = 0) : w.access b id = w := by
  rw [access_eq id hnot, World.set, id, Function.update_eq_self]

theorem Good.construct (hg : Good w) (hh : w.handles h = none) (p : Option Obj) (hk : p.isSome → kind.owns)
    (d allocated : Bool) : Good (w.construct h kind p d allocated) := by
  rw [World.construct]
  split
  · rename_i hp
    exact ⟨hg.inv.construct hh (hk hp.1) p d, (hg.stacked.construct hh (some w.next)).congr rfl rfl⟩
  · exact hg.null hh kind

/-- The only owner hands its object on and goes, without a callback. -/
theorem Good.release (hg : Good w) (hh : w.handles h = some hd) (hk : hd.kind.owns = true) : Good (w.release h hd) := by
  cases hb : hd.cb with
  | none => simpa only [World.release, hb] using hg
  | some b =>
    have hnot := hg.inv.freed_eq hh hb
    have hcb : w.cb h = some b := cb_of hh hb
    simp only [World.release, hb, access_id hnot]
    split
    · exact hg
    · rename_i hone
      rw [not_not] at hone
      have hkept := hg.inv.kept b (hg.inv.bounded h b hcb)
      have howning : w.count .owning b = 1 := by
        rw [← hkept.strongs, hone]
        rfl
      have hl : hd.leaving = false := by
        rw [Bool.eq_false_iff]
        intro hleaving
        have hpos := count_pos hh hb
        rw [Handle.role, if_pos hleaving, (hkept.owned (by rw [howning]; exact Nat.one_pos)).1] at hpos
        exact Nat.lt_irrefl 0 hpos
      rw [access_eq _ hnot]
      have hgiven : Good (w.set b { w.blocks b with ptr := none, destroy := false, released := true }) := by
        refine ⟨hg.inv.set ?_, hg.stacked.congr rfl rfl⟩
        rw [howning] at hkept ⊢
        exact hkept.handOn
      have hdrop (v : World H Obj) : v.reset h hd.kind b .nothing = v.drop h hd .nothing := by
        simp only [World.drop, hb, hk, if_true]
      rw [hdrop]
      exact hgiven.drop hh hl (fun hobserves => by rw [hk] at hobserves; cases hobserves) trivial

/-- `lock` answers with a new owner when there is one already. -/
theorem Good.lock (hg : Good w) (hh : w.handles h = none) (ho : w.handles o = some src)
    (hroom : ∀ b, src.cb = some b → (w.blocks b).strongs = 0 ∨ w.Room .sharedPtr b) : Good (w.lock h src) := by
  cases hb : src.cb with
  | none =>
    simp only [World.lock, hb]
    exact hg.null hh src.kind.owner
  | some b =>
    simp only [World.lock, hb, access_id (hg.inv.freed_eq ho hb)]
    split
    · exact hg.null hh src.kind.owner
    · rename_i halive
      have hlt : b < w.next := hg.inv.bounded o b (cb_of ho hb)
      rw [← hb]
      refine hg.attach hh ho (fun c hc _ => ?_) (fun c hc => ?_)
      · obtain rfl := Option.some.inj (hb.symm.trans hc)
        rw [← (hg.inv.kept b hlt).strongs]
        exact Nat.pos_of_ne_zero fun hzero => halive (UInt32.toNat_inj.mp hzero)
      · obtain rfl := Option.some.inj (hb.symm.trans hc)
        have := (hroom b hb).resolve_left halive
        cases hkind : src.kind <;> exact this

/-- A handle that is not leaving takes over from a source, by copy or by move. -/
theorem Good.dropped (hg : Good w) (hh : w.handles h = some hd) (hl : ¬ w.Leaving h) (hm : w.MayDrop h)
    (hp : Prepared w h hd after) : Good (w.drop h hd after) :=
  hg.drop hh (not_leaving hh hl) (fun hk b hb hone => hg.mayDrop hm hh hk b hb hone) hp

theorem good_step {op : Op H Obj} (hg : Good w) (hok : Orderly w op) (hstep : w.step op = some w') : Good w' := by
  cases op with
  | construct h kind p d allocated =>
    simp only [World.step] at hstep
    split at hstep
    · rename_i hnew
      cases hstep
      exact hg.construct hnew.1 p hnew.2 d allocated
    · cases hstep
  | copy h kind o =>
    simp only [World.step] at hstep
    split at hstep
    · rename_i src hh ho
      split at hstep
      · rename_i hkind
        cases hstep
        have hcb {b : Nat} (hb : src.cb = some b) : w.cb o = some b := cb_of ho hb
        refine hg.attach hh ho (fun b hb hk => ?_) fun b hb => hok.2 b (hcb hb)
        have hpos := count_pos ho hb
        rwa [Handle.role, not_leaving ho (hok.1 hk), owns_of_compatible hkind hk] at hpos
      · cases hstep
    · cases hstep
  | move h o =>
    simp only [World.step] at hstep
    split at hstep
    · rename_i hh ho
      cases hstep
      have hl := not_leaving ho hok
      have hne : h ≠ o := fun heq => by rw [heq, ho] at hh; cases hh
      exact ⟨hg.inv.transfer (by rw [World.cb, hh]; rfl) hne ho hl,
        hg.stacked.transfer (fun x hx => by rw [hh] at hx; cases hx) ho hl (Ne.symm hne)⟩
    · cases hstep
  | assign h o =>
    simp only [World.step] at hstep
    split at hstep
    · rename_i hh ho
      split at hstep
      · rename_i hkind
        split at hstep
        · cases hstep
          exact hg
        · rename_i hne
          cases hstep
          obtain ⟨hl, hm, hsrc⟩ := hok hne
          obtain ⟨howns, hroom⟩ := hsrc _ hh
          refine hg.dropped hh hl hm ⟨Ne.symm hne, _, ho, fun hk => ?_, fun b hb => hroom b ?_⟩
          · exact ⟨owns_of_compatible hkind hk, howns hk⟩
          · rw [World.cb, ho]
            exact hb
      · cases hstep
    · cases hstep
  | moveAssign h o =>
    simp only [World.step] at hstep
    split at hstep
    · rename_i hh ho
      split at hstep
      · rename_i hkind
        split at hstep
        · cases hstep
          exact hg
        · rename_i hne
          cases hstep
          obtain ⟨hl, hlo, hm⟩ := hok hne
          exact hg.dropped hh hl hm ⟨Ne.symm hne, hlo, _, ho⟩
      · cases hstep
    · cases hstep
  | reset h =>
    obtain ⟨hd, hh, rfl⟩ := Option.map_eq_some_iff.mp hstep
    exact hg.dropped hh hok.1 hok.2 trivial
  | release h =>
    obtain ⟨hd, hh, hrelease⟩ := Option.bind_eq_some_iff.mp hstep
    split at hrelease
    · rename_i hk
      cases hrelease
      exact hg.release hh hk
    · cases hrelease
  | lock h o =>
    simp only [World.step] at hstep
    split at hstep
    · rename_i hh ho
      split at hstep
      · cases hstep
      · cases hstep
        exact hg.lock hh ho fun b hb => hok b (cb_of ho hb)
    · cases hstep
  | read h =>
    obtain ⟨hd, hh, rfl⟩ := Option.map_eq_some_iff.mp hstep
    cases hb : hd.cb with
    | none => exact hg
    | some b => simpa only [Option.elim_some, access_id (hg.inv.freed_eq hh hb)] using hg
  | destroy h =>
    obtain ⟨hd, hh, rfl⟩ := Option.map_eq_some_iff.mp hstep
    exact hg.dropped hh hok.1 hok.2 trivial
  | returns =>
    simp only [World.step] at hstep
    split at hstep
    · cases hstep
    · rename_i f frames hw
      cases hstep
      exact hg.returns hw hok

omit [DecidableEq H] in
/-- What right counts and an ordered stack say about callbacks and frees. -/
theorem Good.sound (hg : Good w) : Sound w where
  fault := hg.inv.fault
  destroyed := by
    intro b hb
    have hkept := hg.inv.kept b hb
    by_cases hnone : w.count .owning b = 0
    · rw [(hkept.gone hnone).2.1]
      simp [hnone]
    · rw [(hkept.owned (Nat.pos_of_ne_zero hnone)).2.1]
      simp [hnone]
  freed := by
    intro b hb
    have hkept := hg.inv.kept b hb
    by_cases hnone : w.count .owning b = 0
    · rw [(hkept.gone hnone).2.2]
      simp [hnone, and_comm]
    · rw [(hkept.owned (Nat.pos_of_ne_zero hnone)).2.2]
      simp [hnone]
  idle := by
    intro hidle b
    refine Finset.sum_eq_zero fun h _ => ?_
    cases hh : w.handles h with
    | none => rfl
    | some hd =>
      refine if_neg ?_
      rintro ⟨-, hrole⟩
      have hmem := (hg.stacked.leaving h hd hh).mp (Handle.role_eq_leaving.mp hrole)
      rw [hidle] at hmem
      cases hmem

omit [DecidableEq H] in
theorem good_initial : Good (initial H Obj).shared where
  inv := ⟨rfl, nofun, nofun⟩
  stacked := ⟨nofun, nofun, nofun, .nil, .nil⟩

theorem good_of_reachable {c : Config Unit (World H Obj) Unit}
    (h : (sequential H Obj).Reachable (fun c _ op => Orderly c.shared op) (initial H Obj) c) : Good c.shared := by
  refine h.invariant (P := fun c => Good c.shared) good_initial ?_
  intro c t op c' hg hok hnext
  obtain ⟨w', l, hstep, rfl⟩ := Program.next_eq_some_iff.mp hnext
  obtain ⟨w'', hw, heq⟩ := Option.map_eq_some_iff.mp hstep
  cases heq
  exact good_step hg hok hw

/-- In every run of orderly operations, at any point of any callback: the callback of a block was
called once if its owners are gone and `release` has not handed its object on, and not called
otherwise; the block was freed once if nothing refers to it, and not freed otherwise; and no freed
block, dead handle or null pointer was accessed. -/
theorem counts_are_kept {c : Config Unit (World H Obj) Unit}
    (h : (sequential H Obj).Reachable (fun c _ op => Orderly c.shared op) (initial H Obj) c) : Sound c.shared :=
  (good_of_reachable h).sound

end Step

/-- The last owner goes. Its callback finds the object gone through an observer, takes a second
observer and ends the life of the first; the second frees the block behind the callback. -/
def observedDrop : List (Unit × Op (Option Bool) Unit) :=
  [((), .construct none .sharedPtr (some ()) true true), ((), .copy (some true) .weakPtr none), ((), .destroy none),
    ((), .lock (some false) (some true)), ((), .destroy (some false)),
    ((), .copy (some false) .weakPtr (some true)), ((), .destroy (some true)), ((), .read (some false)), ((), .returns),
    ((), .destroy (some false))]

theorem counts_are_kept_observed : ∃ c : Config Unit (World (Option Bool) Unit) Unit,
    (c.shared.blocks 0).destroyed = 1 ∧ (c.shared.blocks 0).freed = 1 ∧ Sound c.shared := by
  have hrun : ((sequential (Option Bool) Unit).exec (fun c _ op => Orderly c.shared op) (initial (Option Bool) Unit)
      observedDrop).map (fun c => ((c.shared.blocks 0).destroyed, (c.shared.blocks 0).freed)) = some (1, 1) := by
    decide
  obtain ⟨c, hc, he⟩ := Option.map_eq_some_iff.mp hrun
  obtain ⟨hdestroyed, hfreed⟩ := Prod.mk.injEq _ _ _ _ ▸ he
  exact ⟨c, hdestroyed, hfreed, counts_are_kept (.of_exec .init hc)⟩

/-- An object that observes itself: its callback ends the life of the last observer, which frees the
block, and the reset behind it writes the block and frees it again. -/
theorem counts_fail : ∃ c : Config Unit (World Bool Unit) Unit,
    (sequential Bool Unit).Reachable Program.anyStep (initial Bool Unit) c ∧
      c.shared.fault = true ∧ (c.shared.blocks 0).freed = 2 ∧ ¬ Sound c.shared := by
  have hrun : ((sequential Bool Unit).exec Program.anyStep (initial Bool Unit)
      [((), .construct false .sharedPtr (some ()) true true), ((), .copy true .weakPtr false), ((), .reset false),
        ((), .destroy true), ((), .returns)]).map
      (fun c => (c.shared.fault, (c.shared.blocks 0).freed)) = some (true, 2) := by
    decide
  obtain ⟨c, hc, he⟩ := Option.map_eq_some_iff.mp hrun
  obtain ⟨hfault, hfreed⟩ := Prod.mk.injEq _ _ _ _ ▸ he
  refine ⟨c, .of_exec .init hc, hfault, hfreed, fun hs => ?_⟩
  rw [hs.fault] at hfault
  cases hfault

end Abix.DLL.Pointers

import Abix.DLL.Images
import Abix.DLL.Retirement
import Abix.RCU.Completion

/-! Every call of an Object can be brought to its end. The calls of the domain that are under way return,
the holders of the writer locks give them back, and then each thread runs through what is left of its
own call. All this needs that nobody calls an Object or waits for readers inside a section of its own. -/
namespace Abix.DLL
open Abix.Concurrency Abix.RCU
variable {Tid Obj Ext : Type} [DecidableEq Tid] [DecidableEq Obj] {t u : Tid} {o : Obj} {a : Action Obj Ext}
  {sh sh' : Shared Tid Obj Ext} {l l' : Local Tid Obj Ext} {f : Frame Obj} {r : Result}
  {c c' : Config Tid (Shared Tid Obj Ext) (Local Tid Obj Ext)} {made : Obj → Bool}

def Action.exchanges : Action Obj Ext → Bool
  | .load _ _ | .reload _ _ | .unload _ | .forceUnload _ | .destroy _ | .dropHandle _ => true
  | _ => false

def Action.direct : Action Obj Ext → Option (RCU.Action (Resource Ext) Reclaim)
  | .domain b => some b
  | _ => none

/-- Nobody starts such a call, or waits for readers, inside a section of its own. -/
def Outside (c : Config Tid (Shared Tid Obj Ext) (Local Tid Obj Ext)) (t : Tid) (a : Action Obj Ext) : Prop :=
  (a.exchanges = true → c.shared.dom.readerEpoch t = 0) ∧ ∀ b ∈ a.direct, WaitsOutside (domainOf c) t b

omit [DecidableEq Tid] [DecidableEq Obj] in
instance (c : Config Tid (Shared Tid Obj Ext) (Local Tid Obj Ext)) (t : Tid) (a : Action Obj Ext) :
    Decidable (Outside c t a) :=
  inferInstanceAs (Decidable ((_ → _) ∧ ∀ b ∈ a.direct, _))

/-- No call starts but the exit of a thread that is inside a section, and no allocation of a node fails. -/
def Continues (c : Config Tid (Shared Tid Obj Ext) (Local Tid Obj Ext)) (t : Tid) (a : Action Obj Ext) : Prop :=
  (∃ x, a = .run x ∧ Allocates (c.shared.dom, (c.locals t).dom) x) ∨
    (a = .domain .exit ∧ c.shared.dom.readerEpoch t ≠ 0)

omit [DecidableEq Tid] [DecidableEq Obj] in
theorem Continues.outside (h : Continues c t a) : Outside c t a := by
  rcases h with ⟨x, rfl, -⟩ | ⟨rfl, -⟩
  · exact ⟨nofun, nofun⟩
  · refine ⟨nofun, fun b hb => ?_⟩
    cases hb
    exact nofun

theorem reachable_continues (h : (system Tid Obj Ext).Reachable Outside (start Tid Ext made) c)
    (hc : (system Tid Obj Ext).Reachable Continues c c') :
    (system Tid Obj Ext).Reachable Outside (start Tid Ext made) c' :=
  h.trans (hc.mono fun _ _ _ => Continues.outside)

section Sections

def entering : Pc Tid (Resource Ext) Reclaim → Bool
  | .registerThread e => e
  | .enterLoad | .enterStore _ => true
  | _ => false

/-- A thread that is in a call of an Object is outside, and will be until the call returns. -/
def Apart (sh : Shared Tid Obj Ext) (t : Tid) (l : Local Tid Obj Ext) : Prop :=
  l.frame.object ≠ none → sh.dom.readerEpoch t = 0 ∧ entering l.dom.pc = false ∧ l.dom.pc ≠ .exited

variable {d d' : RCU.Shared Tid (Resource Ext) Reclaim} {m m' : RCU.Local Tid (Resource Ext) Reclaim} {x : Bool}

/-- The next access of a call that does not enter leaves the thread outside. -/
theorem run_outside (hm : RCU.Moves t d (.run x) m d' m') (hr : d.readerEpoch t = 0) (he : entering m.pc = false)
    (hx : m.pc ≠ .exited) : d'.readerEpoch t = 0 ∧ entering m'.pc = false ∧ m'.pc ≠ .exited := by
  cases hm with
  | called hs => cases hs
  | @registers _ entered =>
    obtain rfl : entered = false := he
    exact ⟨hr, rfl, nofun⟩
  | loads | enters => cases he
  | leaves => exact ⟨Function.update_self .., rfl, nofun⟩
  | _ => exact ⟨hr, rfl, nofun⟩

private theorem retireImage_outside {i : Nat} {bounded : Bool} {stage stage' : Stage}
    {b : RCU.Action (Resource Ext) Reclaim} (hcall : retireImage i bounded r stage = some (b, stage'))
    (hm : RCU.Moves t d b m d' m') (hr : d.readerEpoch t = 0) :
    d'.readerEpoch t = 0 ∧ entering m'.pc = false ∧ m'.pc ≠ .exited := by
  cases stage with
  | wait =>
    cases bounded <;> cases hcall <;> cases hm with
    | called hs =>
      cases hs
      exact ⟨hr, rfl, nofun⟩
  | outcome => cases hcall
  | _ =>
    cases hcall
    cases hm with
    | called hs =>
      cases hs
      exact ⟨hr, rfl, nofun⟩

omit [DecidableEq Tid] in
/-- Only the calls that may exchange an image take a thread into the code of `Object`. -/
theorem exchanges_of_call {p : Shared Tid Obj Ext × Frame Obj} (h : call sh a = some p) (hp : p.2.object ≠ none) :
    a.exchanges = true := by
  cases a with
  | setReclaimTimeoutMs | makeHandle =>
    simp only [call] at h
    split at h <;> cases h <;> exact absurd rfl hp
  | domain | run => cases h
  | _ => rfl

private theorem exchanges_of_step (hs : step t sh l a = some (sh', l')) (hl : l.frame.object = none)
    (hl' : l'.frame.object ≠ none) : a.exchanges = true := by
  simp only [step] at hs
  split at hs
  · rename_i b g hb
    obtain ⟨q, -, hq⟩ := Option.map_eq_some_iff.mp hs
    cases hq
    rcases domainAccess_frame hb with hg | ⟨_, _, _, _, _, _, hold, -⟩
    · exact absurd (hg ▸ hl) hl'
    · rw [hold] at hl
      cases hl
  · split at hs
    · obtain ⟨p, hp, hq⟩ := Option.map_eq_some_iff.mp hs
      cases hq
      exact exchanges_of_call hp hl'
    · split at hs
      · rename_i o ho
        cases hl.symm.trans ho
      · cases hs
    · cases hs

theorem apart_of_reachable (h : (system Tid Obj Ext).Reachable Outside (start Tid Ext made) c) (t : Tid) :
    Apart c.shared t (c.locals t) := by
  have hstable : (system Tid Obj Ext).Stable Outside (fun _ => True) Apart := by
    constructor
    · intro c t a sh l hok _ hj hs
      refine ⟨trivial, fun hin => ?_⟩
      rcases step_cases hs with ⟨b, d, hb, hd, rfl, -⟩ | ⟨r, o, hnone, hpc, hdom, hm, -⟩
      · rcases domainAccess_cases hb with ⟨v, hframe, hg, -⟩ | ⟨x, rfl, hg⟩ | ⟨r, o, i, bounded, stage, stage', next,
          -, hold, -, hcall⟩
        · rw [hg, hframe] at hin
          exact absurd rfl hin
        · obtain ⟨hr, he, hx⟩ := hj t (hg ▸ hin)
          exact run_outside (moves_of_step hd) hr he hx
        · obtain ⟨hr, -, -⟩ := hj t (by simp [hold, Frame.object])
          exact retireImage_outside hcall (moves_of_step hd) hr
      · have hd : sh.dom = c.shared.dom := hm.hands.dom
        rw [hd, hdom, hpc]
        refine ⟨?_, rfl, fun he => by cases he⟩
        by_cases hidle : (c.locals t).frame.object = none
        · exact hok.1 (exchanges_of_step hs hidle hin)
        · exact (hj t hidle).1
    · intro c t a sh l _ _ hj hs u hne hin
      rcases step_cases hs with ⟨b, d, hb, hd, rfl, -⟩ | ⟨r, o, -, -, -, hm, -⟩
      · obtain ⟨hr, hrest⟩ := hj u hin
        exact ⟨((moves_of_step hd).readerEpoch_ne hne).trans hr, hrest⟩
      · have hd : sh.dom = c.shared.dom := hm.hands.dom
        rw [hd]
        exact hj u hin
  exact (hstable.reachable trivial (fun _ h => absurd rfl h) h).2 t

omit [DecidableEq Tid] [DecidableEq Obj] in
/-- An access of the domain is a call of its user, the next access of a call, or a call of `retire_image`. -/
theorem domainAccess_origin {b : RCU.Action (Resource Ext) Reclaim} {g : Frame Obj}
    (h : domainAccess l a = some (b, g)) :
    (a = .domain b ∧ direct b = true) ∨ (∃ x, a = .run x ∧ b = .run x) ∨
      ∃ r o i bounded stage stage' next, l.frame = .retire o i bounded stage next ∧
        retireImage i bounded r stage = some (b, stage') := by
  cases a with
  | domain b' =>
    simp only [domainAccess] at h
    split at h
    · split at h
      · cases h
        exact .inl ⟨rfl, ‹_›⟩
      · cases h
    · cases h
  | run x =>
    simp only [domainAccess] at h
    split at h
    · rename_i hframe
      obtain ⟨⟨b', s⟩, hb, he⟩ := Option.map_eq_some_iff.mp h
      cases he
      exact .inr (.inr ⟨_, _, _, _, _, _, _, hframe, hb⟩)
    · cases h
    · cases h
      exact .inr (.inl ⟨x, rfl, rfl⟩)
  | _ => cases h

omit [DecidableEq Tid] [DecidableEq Obj] in
/-- A thread that is in a call of an Object waits for no reader of its own. -/
theorem Outside.disciplined (hok : Outside c t a) (hapart : Apart c.shared t (c.locals t)) :
    Disciplined WaitsOutside c t a := by
  rintro ⟨b, g⟩ hb
  rcases domainAccess_origin hb with ⟨rfl, -⟩ | ⟨x, -, rfl⟩ | ⟨_, _, _, _, _, _, _, hold, -⟩
  · exact hok.2 b rfl
  · exact nofun
  · exact fun _ => (hapart (by simp [hold, Frame.object])).1

private theorem disciplined_of_reachable (h : (system Tid Obj Ext).Reachable Outside (start Tid Ext made) c) :
    (system Tid Obj Ext).Reachable (Disciplined WaitsOutside) (start Tid Ext made) c := by
  refine (h.assuming (K := fun c => ∀ t, Apart c.shared t (c.locals t)) fun _ => apart_of_reachable).mono ?_
  exact fun _ t _ ⟨hapart, hok⟩ => hok.disciplined (hapart t)

end Sections

section Lifting

structure Leaves (c c' : Config Tid (Shared Tid Obj Ext) (Local Tid Obj Ext)) : Prop where
  frames : ∀ t, (c'.locals t).frame = (c.locals t).frame
  objects : c'.shared.objects = c.shared.objects

omit [DecidableEq Tid] [DecidableEq Obj] in
theorem Leaves.trans {c'' : Config Tid (Shared Tid Obj Ext) (Local Tid Obj Ext)} (h : Leaves c c')
    (h' : Leaves c' c'') : Leaves c c'' :=
  ⟨fun t => (h'.frames t).trans (h.frames t), h'.objects.trans h.objects⟩

omit [DecidableEq Obj] in
theorem domainAccess_of_run {d : RCU.Shared Tid (Resource Ext) Reclaim} {x : Bool}
    {p : RCU.Shared Tid (Resource Ext) Reclaim × RCU.Local Tid (Resource Ext) Reclaim}
    (hs : RCU.step t d l.dom (.run x) = some p) : domainAccess l (.run x) = some (.run x, l.frame) := by
  simp only [domainAccess]
  split
  · rename_i hpc _
    simp [RCU.step, run, hpc] at hs
  · rename_i hpc _
    simp [RCU.step, run, hpc] at hs
  · rfl

omit [DecidableEq Obj] in
theorem domainAccess_of_exit {d : RCU.Shared Tid (Resource Ext) Reclaim}
    {p : RCU.Shared Tid (Resource Ext) Reclaim × RCU.Local Tid (Resource Ext) Reclaim}
    (hs : RCU.step t d l.dom .exit = some p) (hf : l.frame.object = none) :
    domainAccess l (.domain .exit) = some (.exit, l.frame) := by
  obtain ⟨⟨pc, b⟩, frame, changed⟩ := l
  cases frame with
  | idle v =>
    cases pc with
    | idle => rfl
    | _ => cases hs
  | _ => cases hf

/-- An access of the domain by a thread whose frame stays. -/
theorem next_of_domain {d : RCU.Shared Tid (Resource Ext) Reclaim} {m : RCU.Local Tid (Resource Ext) Reclaim}
    {b : RCU.Action (Resource Ext) Reclaim} (hb : domainAccess (c.locals t) a = some (b, (c.locals t).frame))
    (hs : RCU.step t c.shared.dom (c.locals t).dom b = some (d, m)) :
    ∃ c', (system Tid Obj Ext).next c t a = some c' ∧
      domainOf c' = ⟨d, Function.update (domainOf c).locals t m⟩ ∧ Leaves c c' := by
  have hstep : step t c.shared (c.locals t) a = some ({ c.shared with dom := d }, { c.locals t with dom := m }) := by
    simp only [step, hb, hs, Option.map_some]
  refine ⟨_, Program.next_eq_some_iff.mpr ⟨_, _, hstep, rfl⟩, ?_, ⟨fun u => ?_, rfl⟩⟩
  · simp only [domainOf, domainOf_update]
  · by_cases hu : u = t
    · subst hu
      simp
    · simp [Function.update_of_ne hu]

/-- What the domain does on its own it does in the middle of the calls of the Objects, if each of its steps
is one that a thread can make there. -/
theorem lifted {ok : Config Tid (RCU.Shared Tid (Resource Ext) Reclaim) (RCU.Local Tid (Resource Ext) Reclaim) → Tid →
      RCU.Action (Resource Ext) Reclaim → Prop}
    {ok' : Config Tid (Shared Tid Obj Ext) (Local Tid Obj Ext) → Tid → Action Obj Ext → Prop}
    (hlift : ∀ c₁, (system Tid Obj Ext).Reachable ok' c c₁ → Leaves c c₁ → ∀ t b p, ok (domainOf c₁) t b →
      RCU.step t c₁.shared.dom (c₁.locals t).dom b = some p →
      ∃ a, ok' c₁ t a ∧ domainAccess (c₁.locals t) a = some (b, (c₁.locals t).frame))
    {d : Config Tid (RCU.Shared Tid (Resource Ext) Reclaim) (RCU.Local Tid (Resource Ext) Reclaim)}
    (hd : (domain Tid (Resource Ext) Reclaim).Reachable ok (domainOf c) d) :
    ∃ c', (system Tid Obj Ext).Reachable ok' c c' ∧ domainOf c' = d ∧ Leaves c c' := by
  induction hd with
  | init => exact ⟨c, .init, rfl, fun _ => rfl, rfl⟩
  | @step d₁ d₂ t b _ hok hn ih =>
    obtain ⟨c₁, hr, rfl, hleaves⟩ := ih
    obtain ⟨sh, m, hs, rfl⟩ := Program.next_eq_some_iff.mp hn
    obtain ⟨a, ha, hb⟩ := hlift c₁ hr hleaves t b (sh, m) hok hs
    obtain ⟨c₂, hn, hdom, hleaves'⟩ := next_of_domain hb hs
    exact ⟨c₂, hr.step ha hn, hdom, hleaves.trans hleaves'⟩

/-- The domain completes its calls in the middle of those of the Objects. -/
theorem continues_of_completes (h : (system Tid Obj Ext).Reachable Outside (start Tid Ext made) c)
    {d : Config Tid (RCU.Shared Tid (Resource Ext) Reclaim) (RCU.Local Tid (Resource Ext) Reclaim)}
    (hd : (domain Tid (Resource Ext) Reclaim).Reachable Completes (domainOf c) d) :
    ∃ c', (system Tid Obj Ext).Reachable Continues c c' ∧ domainOf c' = d ∧ Leaves c c' := by
  refine lifted (fun c₁ hr _ t b p hok hs => ?_) hd
  rcases hok with ⟨x, rfl, hx⟩ | ⟨rfl, hin⟩
  · exact ⟨.run x, .inl ⟨x, rfl, hx⟩, domainAccess_of_run hs⟩
  · refine ⟨.domain .exit, .inr ⟨rfl, hin⟩, domainAccess_of_exit hs ?_⟩
    exact of_not_not fun hframe => hin (apart_of_reachable (reachable_continues h hr) t hframe).1

/-- Between two calls of the domain in every thread, with nobody inside a section. -/
structure Calm (made : Obj → Bool) (c : Config Tid (Shared Tid Obj Ext) (Local Tid Obj Ext)) : Prop where
  reachable : (system Tid Obj Ext).Reachable Outside (start Tid Ext made) c
  returned : ∀ t, (c.locals t).dom.pc.Returned

/-- The calls of the domain return, and the code of the Objects stays where it is. -/
theorem calm_of_reachable [Fintype Tid] (h : (system Tid Obj Ext).Reachable Outside (start Tid Ext made) c) :
    ∃ c', (system Tid Obj Ext).Reachable Continues c c' ∧ Calm made c' ∧ Leaves c c' ∧
      Vacated (domainOf c') ∧ c'.shared.dom.epoch.sync = 0 := by
  obtain ⟨d, hd, ⟨hvacated, hsync⟩, hreturned⟩ := vacated_of_reachable (domainOf_reachable (disciplined_of_reachable h))
  obtain ⟨c', hr, rfl, hleaves⟩ := continues_of_completes h hd
  exact ⟨c', hr, ⟨reachable_continues h hr, hreturned⟩, hleaves, hvacated, hsync⟩

end Lifting

section Ranks

def Stage.rank : Stage → Nat
  | .index => 5
  | .sync => 4
  | .image => 3
  | .wait => 2
  | .check _ => 1
  | .outcome _ => 0

def Next.rank : Next → Nat
  | .unloaded => 0
  | .setPath _ | .deleted => 1
  | .destroyed => 8

/-- No access of a frame leads to one of a higher rank, and none but a failed attempt at the lock to one of
the same. -/
def Frame.rank : Frame Obj → Nat
  | .idle _ => 0
  | .setPath _ _ | .discard _ _ | .forceFree _ _ | .deleteControl _ => 1
  | .retire _ _ _ stage next => next.rank + stage.rank + 1
  | .dropObject _ => 8
  | .unlock _ _ _ => 15
  | .storeState _ _ _ => 16
  | .exchange _ _ => 17
  | .lock _ _ _ _ => 18
  | .useCount _ _ => 19
  | .loadImage _ _ => 20

omit [DecidableEq Tid] [DecidableEq Obj] in
private theorem rank_destroyControl (d : Control) : (sh.destroyControl o d).2.rank < 8 := by
  unfold Shared.destroyControl
  split <;> simp [Shared.retire, Frame.rank, Next.rank, Stage.rank]

omit [DecidableEq Tid] in
theorem rank_retired (next : Next) : (sh.retired o next).2.rank ≤ next.rank := by
  cases next <;> exact Nat.le_refl _

omit [DecidableEq Tid] in
private theorem rank_swapped (d : Control) (s : Swap) (previous : Option Nat) : (sh.swapped d o s previous).2.rank < 15 := by
  have hnext (next : Next) : next.rank ≤ 8 := by cases next <;> simp [Next.rank]
  unfold Shared.swapped
  split
  · rename_i next _ _
    have := hnext next
    simp only [Shared.retire, Frame.rank, Stage.rank]
    omega
  · rename_i next _
    have := hnext next
    exact (rank_retired next).trans_lt (by omega)
  · simp [Frame.rank]
  · simp [Shared.returned, Frame.rank]

omit [DecidableEq Tid] in
/-- Outside the calls of `retire_image` the code makes its next access, and gets further, unless the lock
is taken. -/
theorem exists_objectStep {d : Control} (ho : f.object = some o)
    (hcalls : ∀ u i bounded stage next, f = .retire u i bounded stage next → ∃ proven, stage = .outcome proven)
    (hfree : ∀ u s limited polls, f = .lock u s limited polls → d.writerLock = false) :
    ∃ p, objectStep sh r false d f = some p ∧ p.2.rank < f.rank := by
  cases f with
  | idle => cases ho
  | loadImage u path => exact ⟨_, rfl, by simp [Shared.returned, Frame.rank]⟩
  | useCount u s =>
    by_cases hu : 1 < (sh.objects u).useCount
    · refine ⟨_, if_pos hu, ?_⟩
      split <;> simp [Shared.returned, Frame.rank]
    · exact ⟨_, if_neg hu, Nat.lt_succ_self 18⟩
  | lock u s limited polls =>
    refine ⟨_, if_pos (hfree u s limited polls rfl), ?_⟩
    simp [Frame.rank]
  | exchange u s => exact ⟨_, rfl, by simp [Frame.rank]⟩
  | storeState u s previous => exact ⟨_, rfl, by simp [Frame.rank]⟩
  | unlock u s previous => exact ⟨_, rfl, rank_swapped ..⟩
  | retire u i bounded stage next =>
    obtain ⟨proven, rfl⟩ := hcalls u i bounded stage next rfl
    exact ⟨_, rfl, (rank_retired next).trans_lt (Nat.lt_succ_self _)⟩
  | setPath u path => exact ⟨_, rfl, by simp [Shared.returned, Frame.rank]⟩
  | discard u i => exact ⟨_, rfl, by simp [Shared.returned, Frame.rank]⟩
  | forceFree u i => exact ⟨_, rfl, by simp [Shared.returned, Frame.rank]⟩
  | dropObject u =>
    refine ⟨_, rfl, ?_⟩
    split
    · exact rank_destroyControl d
    · simp [Frame.rank]
  | deleteControl u => exact ⟨_, rfl, by simp [Frame.rank]⟩

omit [DecidableEq Obj] in
/-- The other stages of `retire_image` each start a call of the domain. -/
theorem exists_domainCall {d : RCU.Shared Tid (Resource Ext) Reclaim} {b : List (RetiredNode (Resource Ext) Reclaim)}
    (i : Nat) (bounded : Bool) {stage : Stage} (hstage : ∀ proven, stage ≠ .outcome proven) :
    ∃ call stage', retireImage i bounded r stage = some (call, stage') ∧ stage'.rank < stage.rank ∧
      ∃ p, RCU.step t d ⟨.idle r, b⟩ call = some p := by
  cases stage with
  | index => cases bounded <;> exact ⟨_, _, rfl, by simp [Stage.rank], _, rfl⟩
  | wait => cases bounded <;> exact ⟨_, _, rfl, by simp [Stage.rank], _, rfl⟩
  | outcome proven => exact absurd rfl (hstage proven)
  | _ => exact ⟨_, _, rfl, by simp [Stage.rank], _, rfl⟩

private theorem step_of_call {d : RCU.Shared Tid (Resource Ext) Reclaim} {m : RCU.Local Tid (Resource Ext) Reclaim} {i : Nat}
    {bounded : Bool} {stage stage' : Stage} {next : Next} {b : RCU.Action (Resource Ext) Reclaim}
    (hpc : l.dom.pc = .idle r) (hframe : l.frame = .retire o i bounded stage next)
    (hcall : retireImage i bounded r stage = some (b, stage')) (hs : RCU.step t sh.dom l.dom b = some (d, m)) :
    step t sh l (.run true) =
      some ({ sh with dom := d }, { l with dom := m, frame := .retire o i bounded stage' next }) := by
  have hb : domainAccess l (.run true) = some (b, .retire o i bounded stage' next) := by
    simp only [domainAccess, hpc, hframe, hcall, Option.map_some]
  simp only [step, hb, hs, Option.map_some]

/-- The step that makes an access of the code of `Object`. -/
theorem step_of_objectStep {d : Control} {p : Shared Tid Obj Ext × Frame Obj} {answer : Bool} (hpc : l.dom.pc = .idle r)
    (ho : l.frame.object = some o)
    (hcalls : ∀ u i bounded stage next, l.frame = .retire u i bounded stage next → ∃ proven, stage = .outcome proven)
    (hc : (sh.objects o).control = some d) (hs : objectStep sh r answer d l.frame = some p) :
    ∃ changed, step t sh l (.run answer) = some (p.1, { l with frame := p.2, changed := changed }) := by
  obtain ⟨⟨pc, b⟩, f, changed⟩ := l
  obtain rfl : pc = .idle r := hpc
  have hb : domainAccess (⟨⟨.idle r, b⟩, f, changed⟩ : Local Tid Obj Ext) (.run answer) = none := by
    cases f with
    | retire u i bounded stage next =>
      obtain ⟨proven, rfl⟩ := hcalls u i bounded stage next rfl
      rfl
    | _ => rfl
  cases f with
  | idle => cases ho
  | _ =>
    obtain rfl := Option.some.inj ho
    simp only [step, hb, Frame.object, hc, hs, Option.map_some]
    exact ⟨_, rfl⟩

end Ranks

section Controls

def Object.Hosted (x : Object) : Prop := 0 < x.calls → x.control ≠ none

omit [DecidableEq Tid] in
theorem hosted_setObject {x : Object} (hx : x.Hosted) : ((sh.setObject o x).objects o).Hosted := by
  rwa [Shared.setObject_self]

omit [DecidableEq Tid] in
theorem hosted_returned (v : Option Returned) (hx : (sh.objects o).Hosted) :
    ((sh.returned o v).1.objects o).Hosted := by
  refine hosted_setObject fun hcalls => hx ?_
  dsimp only at hcalls
  omega

omit [DecidableEq Tid] in
theorem hosted_retired (next : Next) (hx : (sh.objects o).Hosted) : ((sh.retired o next).1.objects o).Hosted := by
  cases next with
  | unloaded => exact hosted_returned _ hx
  | _ => exact hx

omit [DecidableEq Tid] [DecidableEq Obj] in
private theorem hosted_destroyControl (d : Control) (hx : (sh.objects o).Hosted) :
    ((sh.destroyControl o d).1.objects o).Hosted := by
  unfold Shared.destroyControl
  split <;> exact hx

omit [DecidableEq Tid] in
theorem hosted_setControl (d : Control) : ((sh.setControl o d).objects o).Hosted := hosted_setObject fun _ => nofun

omit [DecidableEq Tid] in
private theorem hosted_swapped (d : Control) (s : Swap) (previous : Option Nat) (hx : (sh.objects o).Hosted) :
    ((sh.swapped d o s previous).1.objects o).Hosted := by
  unfold Shared.swapped
  split
  · exact hx
  · exact hosted_retired _ hx
  · exact hx
  · exact hosted_returned _ hx

omit [DecidableEq Tid] in
private theorem Moves.hosted {p : Shared Tid Obj Ext × Frame Obj} (hm : Moves sh r o f p)
    (hin : ∀ k ∈ f.seats, (sh.objects o).Occupied k) (hs : (sh.objects o).Sound) (hx : (sh.objects o).Hosted) :
    (p.1.objects o).Hosted := by
  cases hm with
  | enters _ hc => exact hosted_setObject fun _ => by simp [hc]
  | destroys _ hz | destroysNull _ hz => exact hosted_setObject fun hcalls => absurd hz hcalls.ne'
  | configures | locks | stores | exchanges => exact hosted_setControl _
  | unlocks => exact hosted_swapped _ _ _ (hosted_setControl _)
  | records => exact hosted_retired _ (hosted_setControl _)
  | shares _ hc => exact hosted_setObject fun hcalls => hx hcalls
  | drops => exact hosted_setObject fun hcalls => hx hcalls
  | dropsLast | dropsOwnedLast => exact hosted_destroyControl _ (hosted_setObject fun hcalls => hx hcalls)
  | dropsOwned => exact hosted_setObject fun hcalls => hx hcalls
  | loadFails | stale | discards | frees => exact hosted_returned _ hx
  | @timesOut s =>
    cases s with
    | publish => exact hx
    | _ => exact hosted_returned _ hx
  | setsPath => exact hosted_returned _ (hosted_setObject fun hcalls => hx hcalls)
  | deletes =>
    obtain ⟨-, howned, -⟩ := hin .deleter List.mem_cons_self
    refine hosted_setObject fun hcalls => absurd (hs.calls ?_) hcalls.ne'
    cases ha : (sh.objects o).alive with
    | false => rfl
    | true => exact absurd (hs.owned ha) (by simp [howned])
  | refused | loads | abandons | sole | spins => exact hx

private theorem hosted_of_reachable [Fintype Tid]
    {ok : Config Tid (Shared Tid Obj Ext) (Local Tid Obj Ext) → Tid → Action Obj Ext → Prop}
    (h : (system Tid Obj Ext).Reachable ok (start Tid Ext made) c) (o : Obj) : (c.shared.objects o).Hosted := by
  refine (h.assuming fun _ => seated_of_reachable).invariant (P := fun c => ∀ o, (c.shared.objects o).Hosted)
    (fun o hcalls => absurd hcalls (Nat.not_lt_zero _)) ?_ o
  rintro c t a c' hc ⟨hseated, -⟩ hn u
  obtain ⟨sh, l, hs, rfl⟩ := Program.next_eq_some_iff.mp hn
  rcases step_cases hs with ⟨b, d, hb, -, rfl, -⟩ | ⟨r, o, -, -, -, hm, -⟩
  · exact hc u
  · by_cases hu : u = o
    · subst hu
      exact hm.hosted (fun k hk => hseated.occupied (hm.object_of_seat hk) k hk) (hseated.sound u) (hc u)
    · rw [hm.at.1 u hu]
      exact hc u

end Controls

section Stages
variable [Fintype Tid]

/-- A frame of an Object has a Control to work on. -/
theorem exists_control (h : (system Tid Obj Ext).Reachable Outside (start Tid Ext made) c)
    (ho : (c.locals t).frame.object = some o) : ∃ d, (c.shared.objects o).control = some d := by
  have hseat := (seated_of_reachable h).occupied ho
  have hhosted := hosted_of_reachable h o
  have hmember (hk : .member ∈ (c.locals t).frame.seats) : (c.shared.objects o).control ≠ none :=
    hhosted (hseat .member hk)
  have hdestructor (hk : .destructor ∈ (c.locals t).frame.seats) : (c.shared.objects o).control ≠ none :=
    (hseat .destructor hk).1
  have hdeleter (hk : .deleter ∈ (c.locals t).frame.seats) : (c.shared.objects o).control ≠ none :=
    (hseat .deleter hk).1
  refine Option.ne_none_iff_exists'.mp ?_
  generalize (c.locals t).frame = f at ho hmember hdestructor hdeleter
  have hswap (s : Swap) (hk : s.seat ∈ f.seats) : (c.shared.objects o).control ≠ none := by
    cases s with
    | destroy => exact hdestructor hk
    | _ => exact hmember hk
  cases f with
  | idle => cases ho
  | useCount _ s | lock _ s => exact hswap s List.mem_cons_self
  | exchange _ s | storeState _ s | unlock _ s => exact hswap s (List.mem_cons_of_mem _ List.mem_cons_self)
  | retire _ _ _ _ next =>
    cases next with
    | setPath | unloaded => exact hmember List.mem_cons_self
    | destroyed => exact hdestructor List.mem_cons_self
    | deleted => exact hdeleter List.mem_cons_self
  | dropObject => exact hdestructor List.mem_cons_self
  | deleteControl => exact hdeleter List.mem_cons_self
  | _ => exact hmember List.mem_cons_self

/-- The other threads stay where they are in the code of the Objects. -/
def Others (t : Tid) (c c' : Config Tid (Shared Tid Obj Ext) (Local Tid Obj Ext)) : Prop :=
  ∀ u, u ≠ t → (c'.locals u).frame = (c.locals u).frame

/-- A thread gets further in its call, unless the lock that it needs is taken. -/
theorem Calm.advances (h : Calm made c) (ho : (c.locals t).frame.object = some o)
    (hfree : ∀ s limited polls d, (c.locals t).frame = .lock o s limited polls →
      (c.shared.objects o).control = some d → d.writerLock = false) :
    ∃ c', (system Tid Obj Ext).Reachable Continues c c' ∧ Calm made c' ∧ Others t c c' ∧
      (c'.locals t).frame.rank < (c.locals t).frame.rank := by
  obtain ⟨-, -, hexited⟩ := apart_of_reachable h.reachable t (by simp [ho])
  obtain ⟨r, hpc⟩ : ∃ r, (c.locals t).dom.pc = .idle r := by
    have hreturned := h.returned t
    generalize (c.locals t).dom.pc = pc at hreturned hexited
    cases pc with
    | idle r => exact ⟨r, rfl⟩
    | exited => exact absurd rfl hexited
    | _ => exact hreturned.elim
  have hothers (sh : Shared Tid Obj Ext) (l : Local Tid Obj Ext) : Others t c ⟨sh, Function.update c.locals t l⟩ :=
    fun u hu => by simp [Function.update_of_ne hu]
  by_cases hcall : ∃ u i bounded stage next, (c.locals t).frame = .retire u i bounded stage next ∧
      ∀ proven, stage ≠ .outcome proven
  · obtain ⟨u, i, bounded, stage, next, hframe, hstage⟩ := hcall
    obtain ⟨call, stage', hcall, hrank, ⟨d, m⟩, hs⟩ : ∃ call stage',
        retireImage i bounded r stage = some (call, stage') ∧
        stage'.rank < stage.rank ∧ ∃ p, RCU.step t c.shared.dom ⟨.idle r, (c.locals t).dom.batch⟩ call = some p :=
      exists_domainCall i bounded hstage
    rw [← hpc] at hs
    have hstep := step_of_call hpc hframe hcall hs
    have hr : (system Tid Obj Ext).Reachable Continues c _ :=
      .step .init (.inl ⟨true, rfl, allocates_true _⟩) (Program.next_eq_some_iff.mpr ⟨_, _, hstep, rfl⟩)
    obtain ⟨c', hr', hcalm, hleaves, -⟩ := calm_of_reachable (reachable_continues h.reachable hr)
    refine ⟨c', hr.trans hr', hcalm, fun u hu => (hleaves.frames u).trans (hothers _ _ u hu), ?_⟩
    rw [hleaves.frames t, hframe]
    simp only [Function.update_self, Frame.rank]
    omega
  · have hcalls : ∀ u i bounded stage next, (c.locals t).frame = .retire u i bounded stage next →
        ∃ proven, stage = .outcome proven := by
      intro u i bounded stage next hframe
      by_contra hnot
      exact hcall ⟨u, i, bounded, stage, next, hframe, fun proven he => hnot ⟨proven, he⟩⟩
    obtain ⟨d, hd⟩ := exists_control h.reachable ho
    have hlock : ∀ u s limited polls, (c.locals t).frame = .lock u s limited polls → d.writerLock = false := by
      intro u s limited polls hframe
      obtain rfl : u = o := Option.some.inj (by rw [← ho, hframe]; rfl)
      exact hfree s limited polls d hframe hd
    obtain ⟨p, hs, hrank⟩ : ∃ p, objectStep c.shared r false d (c.locals t).frame = some p ∧ _ :=
      exists_objectStep ho hcalls hlock
    obtain ⟨changed, hstep⟩ := step_of_objectStep (t := t) hpc ho hcalls hd hs
    have hr : (system Tid Obj Ext).Reachable Continues c _ :=
      .step .init (.inl ⟨false, rfl, allocates_of_pc (by rw [hpc]; rfl)⟩)
        (Program.next_eq_some_iff.mpr ⟨_, _, hstep, rfl⟩)
    refine ⟨_, hr, ⟨reachable_continues h.reachable hr, fun u => ?_⟩, hothers _ _, ?_⟩
    · exact Program.update_of_both (P := fun l : Local Tid Obj Ext => l.dom.pc.Returned) (h.returned t) (h.returned u)
    · simpa using hrank

omit [DecidableEq Tid] in
theorem Seated.unlocked {d : Control} (h : Seated c) (hfree : ∀ u, .writer ∉ (c.locals u).frame.seats)
    (hd : (c.shared.objects o).control = some d) : d.writerLock = false := by
  have hnone : total (fun l : Local Tid Obj Ext => l.frame.sits o .writer) c.locals = 0 :=
    Finset.sum_eq_zero fun u _ => if_neg fun hin => hfree u hin.2
  have hseats := (h.seats o .writer).trans hnone
  simp only [Object.seats, hd, Option.any_some] at hseats
  split at hseats
  · cases hseats
  · exact eq_false_of_ne_true ‹_›

theorem Calm.releases (h : Calm made c) (t : Tid) : ∃ c', (system Tid Obj Ext).Reachable Continues c c' ∧
    Calm made c' ∧ Others t c c' ∧ .writer ∉ (c'.locals t).frame.seats := by
  generalize hn : (c.locals t).frame.rank = n
  induction n using Nat.strongRecOn generalizing c with
  | ind n ih =>
    by_cases hw : .writer ∈ (c.locals t).frame.seats
    · obtain ⟨o, ho⟩ : ∃ o, (c.locals t).frame.object = some o := by
        generalize (c.locals t).frame = f at hw
        cases f with
        | idle => cases hw
        | _ => exact ⟨_, rfl⟩
      obtain ⟨c₁, hr, hcalm, hothers, hrank⟩ := h.advances ho fun s limited polls d hframe => by
        rw [hframe] at hw
        exact absurd (List.mem_singleton.mp hw).symm s.seat_ne_writer
      obtain ⟨c₂, hr', hcalm', hothers', hfree⟩ := ih _ (hn ▸ hrank) hcalm rfl
      exact ⟨c₂, hr.trans hr', hcalm', fun u hu => (hothers' u hu).trans (hothers u hu), hfree⟩
    · exact ⟨c, .init, h, fun _ _ => rfl, hw⟩

/-- With the locks of the others free, a thread comes to the end of its call. -/
theorem Calm.finishes (h : Calm made c) (hfree : ∀ u, u ≠ t → .writer ∉ (c.locals u).frame.seats) :
    ∃ c', (system Tid Obj Ext).Reachable Continues c c' ∧ Calm made c' ∧ Others t c c' ∧
      (c'.locals t).frame.object = none := by
  generalize hn : (c.locals t).frame.rank = n
  induction n using Nat.strongRecOn generalizing c with
  | ind n ih =>
    cases ho : (c.locals t).frame.object with
    | none => exact ⟨c, .init, h, fun _ _ => rfl, ho⟩
    | some o =>
      obtain ⟨c₁, hr, hcalm, hothers, hrank⟩ := h.advances ho fun s limited polls d hframe hd => by
        refine (seated_of_reachable h.reachable).unlocked (fun u => ?_) hd
        by_cases hu : u = t
        · rw [hu, hframe]
          exact fun hw => s.seat_ne_writer (List.mem_singleton.mp hw).symm
        · exact hfree u hu
      obtain ⟨c₂, hr', hcalm', hothers', hdone⟩ := ih _ (hn ▸ hrank) hcalm (fun u hu => by
        rw [hothers u hu]
        exact hfree u hu) rfl
      exact ⟨c₂, hr.trans hr', hcalm', fun u hu => (hothers' u hu).trans (hothers u hu), hdone⟩

private theorem all_released (h : Calm made c) : ∃ c', (system Tid Obj Ext).Reachable Continues c c' ∧ Calm made c' ∧
    ∀ t, .writer ∉ (c'.locals t).frame.seats := by
  refine Program.one_by_one (Q := fun c t => .writer ∉ (c.locals t).frame.seats) (fun c t h => ?_) h
  obtain ⟨c', hr, hcalm, hothers, hfree⟩ := h.releases t
  refine ⟨c', hr, hcalm, hfree, fun u hu => ?_⟩
  by_cases hut : u = t
  · rwa [hut]
  · rwa [hothers u hut]

omit [DecidableEq Tid] [DecidableEq Obj] [Fintype Tid] in
theorem seats_of_object_none (h : f.object = none) : f.seats = [] := by
  cases f with
  | idle => rfl
  | _ => cases h

private theorem all_finished (h : Calm made c) (hfree : ∀ t, .writer ∉ (c.locals t).frame.seats) :
    ∃ c', (system Tid Obj Ext).Reachable Continues c c' ∧ Calm made c' ∧ ∀ t, (c'.locals t).frame.object = none := by
  suffices hstage : ∃ c', (system Tid Obj Ext).Reachable Continues c c' ∧
      (Calm made c' ∧ ∀ t, .writer ∉ (c'.locals t).frame.seats) ∧ ∀ t, (c'.locals t).frame.object = none by
    obtain ⟨c', hr, ⟨hcalm, -⟩, hdone⟩ := hstage
    exact ⟨c', hr, hcalm, hdone⟩
  refine Program.one_by_one (I := fun c => Calm made c ∧ ∀ t, .writer ∉ (c.locals t).frame.seats)
    (Q := fun c t => (c.locals t).frame.object = none) ?_ ⟨h, hfree⟩
  rintro c t ⟨h, hfree⟩
  obtain ⟨c', hr, hcalm, hothers, hdone⟩ := h.finishes (t := t) fun u _ => hfree u
  refine ⟨c', hr, ⟨hcalm, fun u => ?_⟩, hdone, fun u hu => ?_⟩
  · by_cases hut : u = t
    · rw [hut, seats_of_object_none hdone]
      exact List.not_mem_nil
    · rw [hothers u hut]
      exact hfree u
  · by_cases hut : u = t
    · rwa [hut]
    · rwa [hothers u hut]

theorem finished_of_reachable (h : (system Tid Obj Ext).Reachable Outside (start Tid Ext made) c) :
    ∃ c', (system Tid Obj Ext).Reachable Continues c c' ∧ Calm made c' ∧ (∀ t, (c'.locals t).frame.object = none) ∧
      Vacated (domainOf c') ∧ c'.shared.dom.epoch.sync = 0 := by
  obtain ⟨c₁, hr₁, h₁, -⟩ := calm_of_reachable h
  obtain ⟨c₂, hr₂, h₂, hfree⟩ := all_released h₁
  obtain ⟨c₃, hr₃, h₃, hdone⟩ := all_finished h₂ hfree
  obtain ⟨c', hr₄, h₄, hleaves, hvacated, hsync⟩ := calm_of_reachable h₃.reachable
  exact ⟨c', ((hr₁.trans hr₂).trans hr₃).trans hr₄, h₄, fun t => by rw [hleaves.frames t, hdone t], hvacated, hsync⟩

end Stages

/-- In every run in which no thread calls an Object or waits for readers inside a section of its own,
whatever state is reached, the calls that are under way can all come to their ends, with no call that
starts but the exits of the readers: then every writer lock is free, and so are the lock and the epoch of
the domain. The teardown of a module makes no call of an Object or of the domain here. -/
theorem object_calls_can_complete [Fintype Tid] (h : (system Tid Obj Ext).Reachable Outside (start Tid Ext made) c) :
    ∃ c', (system Tid Obj Ext).Reachable Continues c c' ∧
      (∀ t, (c'.locals t).dom.pc.Returned ∧ (c'.locals t).frame.object = none) ∧
      (∀ o d, (c'.shared.objects o).control = some d → d.writerLock = false) ∧
      c'.shared.dom.lock = none ∧ c'.shared.dom.epoch.sync = 0 ∧ ∀ t, c'.shared.dom.readerEpoch t = 0 := by
  obtain ⟨c', hr, hcalm, hdone, hvacated, hsync⟩ := finished_of_reachable h
  refine ⟨c', hr, fun t => ⟨hcalm.returned t, hdone t⟩, fun o d hd => ?_, hvacated.lock, hsync, hvacated.readers⟩
  exact (seated_of_reachable hcalm.reachable).unlocked (fun u => by simp [seats_of_object_none (hdone u)]) hd

/-- A reader is inside, a reload is about to exchange the image, and an unload waits for the lock. -/
theorem object_calls_can_complete_waiting :
    ∃ c c' : Config (Fin 3) (Shared (Fin 3) Unit Unit) (Local (Fin 3) Unit Unit),
      (c.shared.dom.readerEpoch 0, (c.locals 1).frame, (c.locals 2).frame) =
        (1, .exchange () (.publish "" 1), .lock () .unload false 1) ∧
      ∀ t, (c'.locals t).dom.pc.Returned ∧ (c'.locals t).frame.object = none := by
  have hrun : ((system (Fin 3) Unit Unit).exec Outside (start (Fin 3) Unit fun _ => true)
      ([(0, .domain .enter), (0, .run true), (0, .run true), (0, .run true), (1, .load () "")] ++
        List.replicate 6 (1, .run true) ++ [(1, .reload () ""), (1, .run true), (1, .run true), (2, .unload ()),
        (2, .run true), (2, .run true)])).map
      (fun c => (c.shared.dom.readerEpoch 0, (c.locals 1).frame, (c.locals 2).frame)) =
      some (1, .exchange () (.publish "" 1), .lock () .unload false 1) := by
    decide
  obtain ⟨c, hc, he⟩ := Option.map_eq_some_iff.mp hrun
  obtain ⟨c', -, hdone, -⟩ := object_calls_can_complete (.of_exec .init hc)
  exact ⟨c, c', he, hdone⟩

end Abix.DLL

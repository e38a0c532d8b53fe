import Abix.DLL.Function

/-! The inversion of a step of a call. -/
namespace Abix.DLL.Function
open Abix.Concurrency Abix.Runtime
variable {Tid Addr : Type} [DecidableEq Addr]

/-- What the threads that replace the image do to the shared words. -/
inductive Replaces (sh : Shared Tid Addr) : Action Addr → Shared Tid Addr → Prop
  | allocates {a img} : sh.heap a = none →
      Replaces sh (.allocate a img) { sh with heap := Function.update sh.heap a (some img) }
  | exchanges {new} : (∀ a ∈ new, (sh.heap a).isSome = true) →
      Replaces sh (.exchange new) { sh with image := new, seen := fun u => new.toList ++ sh.seen u }
  | sets {s} : Replaces sh (.setState s) { sh with state := s }
  | frees {a} : sh.image ≠ some a → (∀ u, sh.held u ≠ some a) →
      Replaces sh (.free a) { sh with heap := Function.update sh.heap a none }

inductive Moves [DecidableEq Tid] (h : Handle) (t : Tid) (sh : Shared Tid Addr) (l : Local Addr) :
    Action Addr → Shared Tid Addr → Local Addr → Prop
  | begins {caller} : l.pc.user = some caller → Moves h t sh l .call sh (begin h (l.push (sh.reading t) caller))
  | asks {caller} : l.pc.user = some caller → Moves h t sh l .enterRead sh
      { l.push (sh.reading t) caller with pc := .readEnter .user }
  | leaves {d} : l.pc = .idle d → Moves h t sh l .exitRead (sh.exit t) { l with pc := .idle .none }
  | fastEnters : l.pc = .fastEnter → Moves h t sh l .run (sh.enter t) { l with pc := .fastLoad }
  | fastLoads : l.pc = .fastLoad → Moves h t sh l .run (sh.hold t sh.image) { l with pc := .fastCompare sh.image }
  | fastMisses {image} : l.pc = .fastCompare image → Moves h t sh l .run sh { l with pc := .fastExit }
  | fastHits {a img tbl e} : l.pc = .fastCompare (some a) → sh.verifiedImage = some a → sh.heap a = some img →
      img.exportTable = some tbl → h.entry tbl = some e → h.Fast e →
      Moves h t sh l .run sh { l with pc := .fastCall a e.fnptr }
  | fastInvokes {a fn} : l.pc = .fastCall a fn → Moves h t sh l .run sh { l.invoke fn with pc := .fastReturn }
  | fastReturns : l.pc = .fastReturn → Moves h t sh l .run (sh.exit t) { l with pc := .idle .call }
  | fastExits : l.pc = .fastExit → Moves h t sh l .run (sh.exit t) { l with pc := .slowState }
  | inactive : l.pc = .slowState → sh.state ≠ .active →
      Moves h t sh l .run sh { l.report .notLoaded with pc := .idle .call }
  | active : l.pc = .slowState → sh.state = .active → Moves h t sh l .run sh { l with pc := .slowImage }
  | slowLoads : l.pc = .slowImage → Moves h t sh l .run sh { l with pc := .readEnter (.slowPath sh.image) }
  | readEnters {r} : l.pc = .readEnter r → Moves h t sh l .run (sh.enter t) { l with pc := .readLoad r }
  | findsNothing {r} : l.pc = .readLoad r →
      Moves h t sh l .run sh { l with pc := .readBail r, found := some .nothing }
  | findsTableless {r a img} : l.pc = .readLoad r → sh.image = some a → sh.heap a = some img → img.exportTable = none →
      Moves h t sh l .run (sh.hold t (some a)) { l with pc := r.return none, found := some .tableless }
  | findsTable {r a img tbl} : l.pc = .readLoad r → sh.image = some a → sh.heap a = some img →
      img.exportTable = some tbl →
      Moves h t sh l .run (sh.hold t (some a)) { l with pc := r.return (some (a, tbl)), found := some .table }
  | bails {v} : l.pc = .readBail (.slowPath v) → Moves h t sh l .run (sh.exit t) { l with pc := .slowCheck v none }
  | bailsUser : l.pc = .readBail .user →
      Moves h t sh l .run (sh.exit t) { l.report .unloading with pc := .idle (.table none) }
  | giveUp {v} : l.pc = .slowCheck v none → Moves h t sh l .run sh { l with pc := .idle .call }
  | refuses {v a tbl error} : l.pc = .slowCheck v (some (a, tbl)) → error ≠ .none →
      Moves h t sh l .run sh { l with pc := .slowFail error }
  | verifies {v a tbl e} : l.pc = .slowCheck v (some (a, tbl)) → h.entry tbl = some e → h.Slow e → e.fnptr ≠ 0 →
      Moves h t sh l .run sh { l with pc := .slowStore v a e.fnptr }
  | fails {error} : l.pc = .slowFail error → Moves h t sh l .run (sh.exit t) { l.report error with pc := .idle .call }
  | stores {v a fn} : l.pc = .slowStore v a fn →
      Moves h t sh l .run { sh with verifiedImage := v } { l with pc := .slowCall a fn }
  | slowInvokes {a fn} : l.pc = .slowCall a fn → Moves h t sh l .run sh { l.invoke fn with pc := .slowReturn }
  | slowReturns : l.pc = .slowReturn → Moves h t sh l .run (sh.exit t) { l with pc := .idle .call }
  | resumes {d path frames} : l.pc = .idle d → l.frames = path :: frames →
      Moves h t sh l .resume sh { l with pc := path.return, frames, undisturbed := false }
  | replaces {a sh'} : Replaces sh a sh' → Moves h t sh l a sh' l

variable [DecidableEq Tid] {h : Handle} {t u : Tid} {a : Action Addr} {sh sh' : Shared Tid Addr} {l l' : Local Addr}

private theorem moves_of_fastPath {image : Option Addr} {pc : Pc Addr} (hpc : l.pc = .fastCompare image)
    (hf : fastPath h sh image = some pc) : Moves h t sh l .run sh { l with pc } := by
  unfold fastPath at hf
  split at hf
  · cases hf
    exact .fastMisses hpc
  · split at hf
    · cases hf
      exact .fastMisses hpc
    · rename_i hver
      obtain ⟨img, himg, rfl⟩ := Option.map_eq_some_iff.mp hf
      split
      · rename_i e he
        obtain ⟨tbl, htbl, he⟩ := Option.bind_eq_some_iff.mp he
        split
        · exact .fastHits hpc (not_not.mp hver) himg htbl he ‹_›
        · exact .fastMisses hpc
      · exact .fastMisses hpc

private theorem moves_of_readImage {r : Reader Addr} {image : Option Addr} (hpc : l.pc = .readLoad r)
    (himage : ∀ x, image = some x → sh.image = some x) (hr : readImage t sh l r image = some (sh', l')) :
    Moves h t sh l .run sh' l' := by
  unfold readImage at hr
  split at hr
  · cases hr
    exact .findsNothing hpc
  · obtain ⟨img, himg, he⟩ := Option.map_eq_some_iff.mp hr
    have hcur := himage _ rfl
    obtain ⟨rfl, rfl⟩ := Prod.mk.inj he
    split
    · exact .findsTableless hpc hcur himg ‹_›
    · exact .findsTable hpc hcur himg ‹_›

private theorem moves_of_slowPath {v : Option Addr} {x : Addr} {tbl : Table} (hpc : l.pc = .slowCheck v (some (x, tbl))) :
    Moves h t sh l .run sh { l with pc := slowPath h v x tbl } := by
  unfold slowPath
  split
  · exact .refuses hpc (by decide)
  · split
    · exact .refuses hpc (by decide)
    · split
      · exact .refuses hpc (by decide)
      · exact .verifies hpc ‹_› (not_not.mp ‹_›) ‹_›

theorem moves_of_run (hr : run h t sh l = some (sh', l')) : Moves h t sh l .run sh' l' := by
  unfold run at hr
  split at hr
  · cases hr
  · cases hr
    exact .fastEnters ‹_›
  · cases hr
    exact .fastLoads ‹_›
  · rename_i hpc
    obtain ⟨pc, hf, he⟩ := Option.map_eq_some_iff.mp hr
    cases he
    exact moves_of_fastPath hpc hf
  · cases hr
    exact .fastInvokes ‹_›
  · cases hr
    exact .fastReturns ‹_›
  · cases hr
    exact .fastExits ‹_›
  · rename_i hpc
    obtain ⟨rfl, rfl⟩ := Prod.mk.inj (Option.some.inj hr)
    split
    · exact .inactive hpc ‹_›
    · exact .active hpc (not_not.mp ‹_›)
  · cases hr
    exact .slowLoads ‹_›
  · cases hr
    exact .readEnters ‹_›
  · rename_i hpc
    refine moves_of_readImage hpc (fun x hx => ?_) hr
    split at hx
    · exact hx
    · cases hx
  · cases hr
    exact .bails ‹_›
  · cases hr
    exact .bailsUser ‹_›
  · cases hr
    exact .giveUp ‹_›
  · cases hr
    exact moves_of_slowPath ‹_›
  · cases hr
    exact .fails ‹_›
  · cases hr
    exact .stores ‹_›
  · cases hr
    exact .slowInvokes ‹_›
  · cases hr
    exact .slowReturns ‹_›

private theorem moves_of_spared (hspares : Spares sh a) (hs : step h t sh l a = some (sh', l')) : Moves h t sh l a sh' l' := by
  cases a with
  | run => exact moves_of_run hs
  | call =>
    obtain ⟨caller, hpc, he⟩ := Option.map_eq_some_iff.mp hs
    cases he
    exact .begins hpc
  | enterRead =>
    obtain ⟨caller, hpc, he⟩ := Option.map_eq_some_iff.mp hs
    cases he
    exact .asks hpc
  | resume =>
    simp only [step] at hs
    split at hs
    · cases hs
      exact .resumes ‹_› ‹_›
    · cases hs
  | exitRead =>
    simp only [step] at hs
    split at hs
    · cases hs
      exact .leaves ‹_›
    · cases hs
  | allocate x img =>
    simp only [step] at hs
    split at hs
    · cases hs
      exact .replaces (.allocates (Option.isNone_iff_eq_none.mp ‹_›))
    · cases hs
  | exchange new =>
    simp only [step] at hs
    split at hs
    · cases hs
      exact .replaces (.exchanges ‹_›)
    · cases hs
  | setState s =>
    cases hs
    exact .replaces .sets
  | free x =>
    simp only [step] at hs
    split at hs
    · cases hs
      exact .replaces (.frees ‹_› hspares)
    · cases hs

/-- A step among replacements that spare the images in use is a step among any. -/
theorem calls_step_eq_some_iff [Fintype Tid] {p : Shared Tid Addr × Local Addr} :
    (calls Tid Addr h).step t sh l a = some p ↔ Spares sh a ∧ step h t sh l a = some p := by
  unfold calls
  simp only [Option.ite_none_right_eq_some]

theorem moves_of_step [Fintype Tid] (hs : (calls Tid Addr h).step t sh l a = some (sh', l')) :
    Moves h t sh l a sh' l' :=
  have hspared := calls_step_eq_some_iff.mp hs
  moves_of_spared hspared.1 hspared.2

omit [DecidableEq Tid] in
/-- While they spare the images in use, replacements of any kind are replacements that do. -/
theorem calls_of_forced [DecidableEq Tid] [Fintype Tid]
    {ok : Config Tid (Shared Tid Addr) (Local Addr) → Tid → Action Addr → Prop}
    {c₀ c : Config Tid (Shared Tid Addr) (Local Addr)} (hok : ∀ c t a, ok c t a → Spares c.shared a)
    (hc : (forcedCalls Tid Addr h).Reachable ok c₀ c) : (calls Tid Addr h).Reachable ok c₀ c := by
  refine hc.project id fun {c t a c'} hk hn => .inr ⟨t, a, hk, ?_⟩
  obtain ⟨sh, l, hs, rfl⟩ := Program.next_eq_some_iff.mp hn
  exact Program.next_eq_some_iff.mpr ⟨sh, l, calls_step_eq_some_iff.mpr ⟨hok c t a hk, hs⟩, rfl⟩

/-- A step that invokes a function frees nothing. -/
theorem calls_of_invokes [Fintype Tid] {fn : UInt64} (hs : step h t sh l a = some (sh', l'))
    (hi : l'.invoked = fn :: l.invoked) : (calls Tid Addr h).step t sh l a = some (sh', l') := by
  refine calls_step_eq_some_iff.mpr ⟨?_, hs⟩
  cases a with
  | free x =>
    simp only [step] at hs
    split at hs
    · cases hs
      exact absurd hi.symm (List.cons_ne_self _ _)
    · cases hs
  | _ => trivial

def Pc.image : Pc Addr → Option Addr
  | .fastCompare image => image
  | .fastCall a _ | .slowCheck _ (some (a, _)) | .slowStore _ a _ | .slowCall a _ => some a
  | _ => none

omit [DecidableEq Addr] in
@[simp] theorem image_begin : (begin h l).pc.image = none := by
  unfold begin
  split <;> rfl

omit [DecidableEq Addr] in
@[simp] theorem Path.image_return (path : Path) : (path.return : Pc Addr).image = none := by
  cases path <;> rfl

/-- The current image and the images held in sections are alive. -/
structure Rooted (sh : Shared Tid Addr) : Prop where
  current : ∀ a, sh.image = some a → (sh.heap a).isSome = true
  held : ∀ t a, sh.held t = some a → (sh.heap a).isSome = true

omit [DecidableEq Addr] in
theorem Rooted.hold (hr : Rooted sh) {x : Option Addr} (hx : ∀ a, x = some a → (sh.heap a).isSome = true) :
    Rooted (sh.hold t x) := by
  refine ⟨hr.current, fun u a ha => ?_⟩
  by_cases hu : u = t
  · subst hu
    exact hx a (by simpa [Shared.hold] using ha)
  · exact hr.held u a (by simpa [Shared.hold, Function.update_of_ne hu] using ha)

omit [DecidableEq Addr] in
theorem Rooted.exit (hr : Rooted sh) : Rooted (sh.exit t) := by
  have hold : Rooted (sh.hold t none) := hr.hold nofun
  exact ⟨hold.current, hold.held⟩

omit [DecidableEq Addr] in
theorem Rooted.enter (hr : Rooted sh) : Rooted (sh.enter t) := by
  have hold : Rooted (sh.hold t none) := hr.hold nofun
  exact ⟨hold.current, hold.held⟩

omit [DecidableEq Tid] in
theorem Replaces.rooted (h : Replaces sh a sh') (hr : Rooted sh) : Rooted sh' := by
  cases h with
  | @allocates x img =>
    have hkeep (y : Addr) (hy : (sh.heap y).isSome = true) :
        (Function.update sh.heap x (some img) y).isSome = true := by
      by_cases hx : y = x
      · rw [hx, Function.update_self, Option.isSome_some]
      · rwa [Function.update_of_ne hx]
    exact ⟨fun y hy => hkeep y (hr.current y hy), fun u y hy => hkeep y (hr.held u y hy)⟩
  | exchanges hlive => exact ⟨hlive, hr.held⟩
  | sets => exact ⟨hr.current, hr.held⟩
  | @frees x hcur hheld =>
    have hkeep (y : Addr) (hne : y ≠ x) (hy : (sh.heap y).isSome = true) :
        (Function.update sh.heap x none y).isSome = true := by
      rwa [Function.update_of_ne hne]
    refine ⟨fun y hy => hkeep y ?_ (hr.current y hy), fun u y hy => hkeep y ?_ (hr.held u y hy)⟩
    · rintro rfl
      exact hcur hy
    · rintro rfl
      exact hheld u hy

theorem Moves.rooted (hm : Moves h t sh l a sh' l') (hr : Rooted sh) : Rooted sh' := by
  cases hm with
  | replaces hrep => exact hrep.rooted hr
  | fastEnters | readEnters => exact hr.enter
  | stores => exact ⟨hr.current, hr.held⟩
  | fastLoads => exact hr.hold hr.current
  | findsTableless _ _ hheap | findsTable _ _ hheap =>
    refine hr.hold fun y hy => ?_
    cases hy
    rw [hheap, Option.isSome_some]
  | leaves | fastReturns | fastExits | bails | bailsUser | fails | slowReturns => exact hr.exit
  | _ => exact hr

/-- A thread works on the image that its section holds. -/
theorem Moves.holds (hm : Moves h t sh l a sh' l') (hh : ∀ x, l.pc.image = some x → sh.held t = some x) {x : Addr}
    (hx : l'.pc.image = some x) : sh'.held t = some x := by
  cases hm with
  | begins => simp at hx
  | fastLoads => exact (Function.update_self ..).trans hx
  | fastHits hpc | verifies hpc | stores hpc =>
    cases hx
    exact hh x (by rw [hpc]; rfl)
  | @findsTableless r => cases r <;> cases hx
  | @findsTable r =>
    cases r with
    | user => cases hx
    | slowPath =>
      cases hx
      exact Function.update_self ..
  | resumes => simp at hx
  | replaces hr => cases hr <;> exact hh x hx
  | _ => cases hx

theorem Moves.held_ne (hm : Moves h t sh l a sh' l') (hne : u ≠ t) : sh'.held u = sh.held u := by
  cases hm with
  | replaces hr => cases hr <;> rfl
  | fastEnters | readEnters | fastLoads | findsTableless | findsTable | leaves | fastReturns | fastExits | bails
  | bailsUser | fails | slowReturns =>
    exact Function.update_of_ne hne _ _
  | _ => rfl

theorem rooted_of_reachable [Fintype Tid]
    {ok : Config Tid (Shared Tid Addr) (Local Addr) → Tid → Action Addr → Prop}
    {c : Config Tid (Shared Tid Addr) (Local Addr)} (hc : (calls Tid Addr h).Reachable ok (start Tid Addr) c) :
    Rooted c.shared ∧ ∀ t x, (c.locals t).pc.image = some x → c.shared.held t = some x := by
  have hstable : (calls Tid Addr h).Stable ok Rooted
      (fun sh t l => ∀ x, l.pc.image = some x → sh.held t = some x) := by
    constructor
    · intro c t a sh l _ hr hj hs
      have hm := moves_of_step hs
      exact ⟨hm.rooted hr, fun x hx => hm.holds (hj t) hx⟩
    · intro c t a sh l _ _ hj hs u hne x hx
      rw [(moves_of_step hs).held_ne hne]
      exact hj u x hx
  have hroot : Rooted (start Tid Addr).shared := ⟨fun _ hx => (nomatch hx), fun _ _ hx => (nomatch hx)⟩
  exact hstable.reachable hroot (fun _ _ hx => nomatch hx) hc

end Abix.DLL.Function

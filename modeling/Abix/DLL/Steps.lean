import Abix.DLL.Object
import Abix.Concurrency.Ledger

/-! The inversion of a step of the Objects, and who may be at work on an Object. -/
namespace Abix.DLL
open Abix.Concurrency Abix.RCU
variable {Tid Obj Ext : Type} [DecidableEq Obj]

namespace Shared
variable (sh : Shared Tid Obj Ext) (o : Obj) (x : Object)

@[simp] theorem setObject_self : (sh.setObject o x).objects o = x := Function.update_self ..

theorem setObject_ne {o u : Obj} (h : u ≠ o) : (sh.setObject o x).objects u = sh.objects u := Function.update_of_ne h ..

end Shared

/-- Everything the code of `Object` does between two calls of the domain. -/
inductive Moves (sh : Shared Tid Obj Ext) (r : Result) (o : Obj) : Frame Obj → Shared Tid Obj Ext × Frame Obj → Prop
  | refused {v v'} : (∀ w, v' = some w → w.ok = false) → Moves sh r o (.idle v) (sh, .idle v')
  | enters {v c f} : (sh.objects o).alive = true → (sh.objects o).control = some c →
      ((∃ path, f = .loadImage o path) ∨ f = .useCount o .unload ∨ f = .lock o .force false 0) →
      Moves sh r o (.idle v) (sh.setObject o { sh.objects o with calls := (sh.objects o).calls + 1 }, f)
  | destroys {v c} : (sh.objects o).alive = true → (sh.objects o).calls = 0 → (sh.objects o).control = some c →
      Moves sh r o (.idle v) (sh.setObject o { sh.objects o with alive := false }, .useCount o .destroy)
  | destroysNull {v} : (sh.objects o).alive = true → (sh.objects o).calls = 0 → (sh.objects o).control = none →
      Moves sh r o (.idle v) (sh.setObject o { sh.objects o with alive := false }, .idle none)
  | configures {v c} (ms) : (sh.objects o).alive = true → (sh.objects o).control = some c →
      Moves sh r o (.idle v) (sh.setControl o { c with reclaimTimeoutMs := ms }, .idle none)
  | shares {v} : (sh.objects o).alive = true → (sh.objects o).control ≠ none →
      Moves sh r o (.idle v) (sh.setObject o { sh.objects o with handles := (sh.objects o).handles + 1 }, .idle none)
  | drops {v c k} : (sh.objects o).handles = k + 1 → (sh.objects o).control = some c →
      ¬ (k = 0 ∧ (sh.objects o).owned = false) →
      Moves sh r o (.idle v) (sh.setObject o { sh.objects o with handles := k }, .idle none)
  | dropsLast {v c} : (sh.objects o).handles = 1 → (sh.objects o).control = some c → (sh.objects o).owned = false →
      Moves sh r o (.idle v) ((sh.setObject o { sh.objects o with handles := 0 }).destroyControl o c)
  | loads {c path} : (sh.objects o).control = some c → Moves sh r o (.loadImage o path)
      ({ sh with nextImage := sh.nextImage + 1 }, Shared.lockWriter c o (.publish path sh.nextImage))
  | loadFails {path} : Moves sh r o (.loadImage o path) (sh.returned o (some ⟨false, .loadFailed⟩))
  | stale {s} : s ≠ .destroy → Moves sh r o (.useCount o s) (sh.returned o (some ⟨false, .staleHandle⟩))
  | abandons : 1 < (sh.objects o).useCount → Moves sh r o (.useCount o .destroy) (sh, .dropObject o)
  | sole {c s} : (sh.objects o).control = some c → (sh.objects o).useCount ≤ 1 →
      Moves sh r o (.useCount o s) (sh, Shared.lockWriter c o s)
  | locks {c s lim polls} : (sh.objects o).control = some c → c.writerLock = false →
      Moves sh r o (.lock o s lim polls) (sh.setControl o { c with writerLock := true }, .exchange o s)
  | spins {s lim polls} : Moves sh r o (.lock o s lim polls) (sh, .lock o s lim (polls + 1))
  | timesOut {s polls} : Moves sh r o (.lock o s true polls) (sh.timedOut o s)
  | exchanges {c s} : (sh.objects o).control = some c → Moves sh r o (.exchange o s)
      ({ sh.setControl o { c with image := s.image } with published := s.image.toList ++ sh.published },
        .storeState o s c.image)
  | stores {c s prev} : (sh.objects o).control = some c → Moves sh r o (.storeState o s prev)
      (sh.setControl o { c with state := s.state }, .unlock o s prev)
  | unlocks {c s prev} : (sh.objects o).control = some c → Moves sh r o (.unlock o s prev)
      ((sh.setControl o { c with writerLock := false }).swapped c o s prev)
  | records {c i bounded proven next} : (sh.objects o).control = some c →
      Moves sh r o (.retire o i bounded (.outcome proven) next)
        (({ sh.setControl o { c with lastReclaim := reclaimOutcome bounded proven (decide (r = Result.answer true)) } with
            outcomes := (i, reclaimOutcome bounded proven (decide (r = Result.answer true))) :: sh.outcomes }).retired o next)
  | setsPath {path} : Moves sh r o (.setPath o path)
      ((sh.setObject o { sh.objects o with path := path }).returned o (some ⟨true, .none⟩))
  | discards {i} : Moves sh r o (.discard o i)
      ({ sh with discarded := i :: sh.discarded }.returned o (some ⟨false, .lockTimeout⟩))
  | frees {i} : Moves sh r o (.forceFree o i) ({ sh with disposed := i :: sh.disposed }.returned o none)
  | dropsOwned : (sh.objects o).handles ≠ 0 →
      Moves sh r o (.dropObject o) (sh.setObject o { sh.objects o with owned := false }, .idle none)
  | dropsOwnedLast {c} : (sh.objects o).control = some c → (sh.objects o).handles = 0 → Moves sh r o (.dropObject o)
      ((sh.setObject o { sh.objects o with owned := false }).destroyControl o c)
  | deletes : Moves sh r o (.deleteControl o) (sh.setObject o { sh.objects o with control := none }, .idle none)

private theorem moves_of_callObject {sh : Shared Tid Obj Ext} {p : Shared Tid Obj Ext × Frame Obj} {o : Obj}
    {f : Frame Obj} {v refused : Option Returned} {r : Result} (hr : ∀ w, refused = some w → w.ok = false)
    (hf : ∀ c, (sh.objects o).control = some c →
      (∃ path, f = .loadImage o path) ∨ f = .useCount o .unload ∨ f = .lock o .force false 0)
    (h : callObject sh o f refused = some p) : Moves sh r o (.idle v) p := by
  simp only [callObject] at h
  split at h
  · cases h
  · rename_i ha
    split at h
    · cases h
      exact .refused hr
    · obtain ⟨c, hc⟩ := Option.ne_none_iff_exists'.mp ‹_›
      cases h
      exact .enters (by simpa using ha) hc (hf c hc)

private theorem moves_of_call {sh : Shared Tid Obj Ext} {p : Shared Tid Obj Ext × Frame Obj} {a : Action Obj Ext}
    {v : Option Returned} (r : Result) (h : call sh a = some p) : ∃ o, Moves sh r o (.idle v) p := by
  cases a with
  | load o path | reload o path =>
    exact ⟨o, moves_of_callObject (by simp) (fun _ _ => .inl ⟨path, rfl⟩) h⟩
  | unload o => exact ⟨o, moves_of_callObject (by simp) (fun _ _ => .inr (.inl rfl)) h⟩
  | forceUnload o => exact ⟨o, moves_of_callObject (by simp) (fun _ _ => .inr (.inr rfl)) h⟩
  | destroy o =>
    simp only [call] at h
    split at h
    · rename_i hx
      cases h
      split
      · exact ⟨o, .destroysNull hx.1 hx.2 ‹_›⟩
      · obtain ⟨c, hc⟩ := Option.ne_none_iff_exists'.mp ‹_›
        exact ⟨o, .destroys hx.1 hx.2 hc⟩
    · cases h
  | setReclaimTimeoutMs o ms =>
    simp only [call] at h
    split at h
    · rename_i ha hc
      cases h
      exact ⟨o, .configures ms ha hc⟩
    · cases h
      exact ⟨o, .refused (by simp)⟩
    · cases h
  | makeHandle o =>
    simp only [call] at h
    split at h
    · rename_i hx
      cases h
      exact ⟨o, .shares hx.1 hx.2⟩
    · cases h
  | dropHandle o =>
    simp only [call] at h
    split at h
    · rename_i k c hk hc
      simp only [Option.some.injEq] at h
      split at h
      · rename_i hlast
        obtain ⟨rfl, ho⟩ := hlast
        rw [← h]
        exact ⟨o, .dropsLast hk hc ho⟩
      · cases h
        exact ⟨o, .drops hk hc ‹_›⟩
    · cases h
  | domain | run => cases h

private theorem moves_of_objectStep {sh : Shared Tid Obj Ext} {p : Shared Tid Obj Ext × Frame Obj} {r : Result}
    {answer : Bool} {c : Control} {o : Obj} {frame : Frame Obj} (ho : frame.object = some o)
    (hc : (sh.objects o).control = some c) (h : objectStep sh r answer c frame = some p) : Moves sh r o frame p := by
  cases frame with
  | idle => cases ho
  | loadImage =>
    obtain rfl := Option.some.inj ho
    simp only [objectStep] at h
    split at h <;> cases h
    · exact .loads hc
    · exact .loadFails
  | useCount _ s =>
    obtain rfl := Option.some.inj ho
    simp only [objectStep] at h
    split at h
    · rename_i hu
      simp only [Option.some.injEq] at h
      split at h
      · rename_i hs
        cases h
        rw [hs]
        exact .abandons hu
      · cases h
        exact .stale ‹_›
    · cases h
      exact .sole hc (Nat.not_lt.mp ‹_›)
  | lock _ s lim polls =>
    obtain rfl := Option.some.inj ho
    simp only [objectStep] at h
    split at h
    · cases h
      exact .locks hc ‹_›
    · split at h
      · rename_i hx
        rw [hx.1, ← Option.some.inj h]
        exact .timesOut
      · cases h
        exact .spins
  | exchange =>
    obtain rfl := Option.some.inj ho
    cases h
    exact .exchanges hc
  | storeState =>
    obtain rfl := Option.some.inj ho
    cases h
    exact .stores hc
  | unlock =>
    obtain rfl := Option.some.inj ho
    rw [← Option.some.inj h]
    exact .unlocks hc
  | retire _ i bounded stage next =>
    obtain rfl := Option.some.inj ho
    cases stage with
    | outcome proven =>
      rw [← Option.some.inj h]
      exact .records hc
    | _ => cases h
  | setPath =>
    obtain rfl := Option.some.inj ho
    cases h
    exact .setsPath
  | discard =>
    obtain rfl := Option.some.inj ho
    cases h
    exact .discards
  | forceFree =>
    obtain rfl := Option.some.inj ho
    cases h
    exact .frees
  | dropObject =>
    obtain rfl := Option.some.inj ho
    simp only [objectStep, Option.some.injEq] at h
    rw [← h]
    split
    · exact .dropsOwnedLast hc ‹_›
    · exact .dropsOwned ‹_›
  | deleteControl =>
    obtain rfl := Option.some.inj ho
    cases h
    exact .deletes

/-- A step is an access of the domain, or one of the code of `Object` while the domain is
idle. -/
theorem step_cases [DecidableEq Tid] {t : Tid} {a : Action Obj Ext} {sh sh' : Shared Tid Obj Ext} {l l' : Local Tid Obj Ext}
    (h : step t sh l a = some (sh', l')) :
    (∃ b d, domainAccess l a = some (b, l'.frame) ∧ RCU.step t sh.dom l.dom b = some (d, l'.dom) ∧
      sh' = { sh with dom := d } ∧ l'.changed = l.changed) ∨
    ∃ r o, domainAccess l a = none ∧ l.dom.pc = .idle r ∧ l'.dom = l.dom ∧ Moves sh r o l.frame (sh', l'.frame) ∧
      l'.changed = ((l.frame.object = some o : Bool) && (l.changed || differs (sh.objects o) (sh'.objects o))) := by
  simp only [step] at h
  split at h
  · rename_i b frame hb
    obtain ⟨⟨d, ld⟩, hs, he⟩ := Option.map_eq_some_iff.mp h
    cases he
    exact .inl ⟨b, d, hb, hs, rfl, rfl⟩
  · rename_i hb
    right
    split at h
    · rename_i r v hpc hframe
      obtain ⟨p, hp, he⟩ := Option.map_eq_some_iff.mp h
      cases he
      obtain ⟨o, hm⟩ := moves_of_call r hp
      exact ⟨r, o, hb, hpc, rfl, hframe ▸ hm, by simp [hframe, Frame.object]⟩
    · rename_i r answer hpc hnot
      split at h
      · rename_i o ho
        split at h
        · rename_i c hc
          obtain ⟨p, hp, he⟩ := Option.map_eq_some_iff.mp h
          cases he
          exact ⟨r, o, hb, hpc, rfl, moves_of_objectStep ho hc hp, by simp [ho]⟩
        · cases h
      · cases h
    · cases h

omit [DecidableEq Obj] in
/-- An access of the domain is a direct call, the next access of a call of the domain, or the
next call of `retire_image`. -/
theorem domainAccess_cases {l : Local Tid Obj Ext} {a : Action Obj Ext} {b : RCU.Action (Resource Ext) Reclaim}
    {g : Frame Obj} (h : domainAccess l a = some (b, g)) :
    (∃ v, l.frame = .idle v ∧ g = l.frame ∧ direct b = true) ∨
    (∃ x, b = .run x ∧ g = l.frame) ∨
    ∃ r o i bounded stage stage' next, l.dom.pc = .idle r ∧ l.frame = .retire o i bounded stage next ∧
      g = .retire o i bounded stage' next ∧ retireImage i bounded r stage = some (b, stage') := by
  cases a with
  | domain a =>
    simp only [domainAccess] at h
    split at h
    · rename_i hframe
      split at h
      · cases h
        exact .inl ⟨_, hframe, rfl, ‹_›⟩
      · cases h
    · cases h
  | run answer =>
    simp only [domainAccess] at h
    split at h
    · rename_i hpc hframe
      obtain ⟨⟨b', s⟩, hb, he⟩ := Option.map_eq_some_iff.mp h
      cases he
      exact .inr (.inr ⟨_, _, _, _, _, _, _, hpc, hframe, rfl, hb⟩)
    · cases h
    · cases h
      exact .inr (.inl ⟨answer, rfl, rfl⟩)
  | _ => cases h

omit [DecidableEq Obj] in
/-- A call of the domain is made from, and leads to, the same place but for the stage. -/
theorem domainAccess_frame {l : Local Tid Obj Ext} {a : Action Obj Ext} {b : RCU.Action (Resource Ext) Reclaim}
    {g : Frame Obj} (h : domainAccess l a = some (b, g)) : g = l.frame ∨
      ∃ o i bounded stage stage' next, l.frame = .retire o i bounded stage next ∧
        g = .retire o i bounded stage' next := by
  rcases domainAccess_cases h with ⟨_, -, hg, -⟩ | ⟨_, -, hg⟩ | ⟨_, _, _, _, _, _, _, -, hold, hnew, -⟩
  · exact .inl hg
  · exact .inl hg
  · exact .inr ⟨_, _, _, _, _, _, hold, hnew⟩

end Abix.DLL

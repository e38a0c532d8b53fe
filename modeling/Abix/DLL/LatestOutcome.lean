import Abix.DLL.OneWriter

/-! What `reclaim_outcome` says after a load, reload or unload. The word is stored at the end of
`retire_image` and nowhere else, so it describes the latest operation that retired an image. -/
namespace Abix.DLL
open Abix.Concurrency Abix.RCU
variable {Tid Obj Ext : Type} [DecidableEq Tid] [DecidableEq Obj] {w t : Tid} {o u : Obj} {sh sh' : Shared Tid Obj Ext}
  {l l' : Local Tid Obj Ext} {a : Action Obj Ext} {f : Frame Obj} {p : Shared Tid Obj Ext × Frame Obj}

def Object.reclaimOutcome (x : Object) : ReclaimOutcome :=
  match x.control with
  | some k => k.lastReclaim
  | none => .notAttempted

def Object.reclaimTimeoutMs (x : Object) : Nat :=
  match x.control with
  | some k => k.reclaimTimeoutMs
  | none => 0

def Object.image (x : Object) : Option Nat := x.control.bind Control.image

/-- The latest load, reload or unload of a thread: `reclaim_outcome` and the image as the call
found them, whether `load_image` succeeded (an unload has nothing to load), the image that it gave
to `retire_image`, and the answer of `synchronize_until` there. -/
structure Operation where
  before : ReclaimOutcome := .notAttempted
  image : Option Nat := none
  loaded : Bool := false
  retired : Option Nat := none
  proven : Bool := false
  deriving DecidableEq, Repr

def note (sh : Shared Tid Obj Ext) (l : Local Tid Obj Ext) (a : Action Obj Ext) (_ : Shared Tid Obj Ext)
    (op : Operation) : Operation :=
  match l.frame, a with
  | .idle _, .load o _ | .idle _, .reload o _ =>
    { before := (sh.objects o).reclaimOutcome, image := (sh.objects o).image }
  | .idle _, .unload o => { before := (sh.objects o).reclaimOutcome, image := (sh.objects o).image, loaded := true }
  | .loadImage _ _, .run answer => { op with loaded := answer }
  | .unlock _ _ previous, .run _ => { op with retired := previous }
  | .retire _ _ _ (.outcome proven) _, .run _ => { op with proven }
  | _, _ => op

/-- The Objects with the latest operation beside each thread. -/
def annotated (Tid Obj Ext : Type) [DecidableEq Tid] [DecidableEq Obj] :
    Program Tid (Shared Tid Obj Ext) (Local Tid Obj Ext × Operation) (Action Obj Ext) :=
  (system Tid Obj Ext).recorded note

def unused (Tid Ext : Type) {Obj : Type} (made : Obj → Bool) :
    Config Tid (Shared Tid Obj Ext) (Local Tid Obj Ext × Operation) :=
  ⟨(start Tid Ext made).shared, fun t => ((start Tid Ext made).locals t, {})⟩

/-- `reclaim_outcome` says what the operation did with the image that it retired. -/
structure Describes (sh : Shared Tid Obj Ext) (x : Object) (op : Operation) : Prop where
  notAttempted : x.reclaimOutcome = .notAttempted ↔ op.retired = none
  reclaimed : x.reclaimOutcome = .reclaimed →
    ∃ i token, op.retired = some i ∧ imageNode i token ∈ sh.dom.reclaimed
  deferredTimeout : x.reclaimOutcome = .deferredTimeout → x.reclaimTimeoutMs ≠ 0 ∧ op.proven = false
  deferredBatched : x.reclaimOutcome = .deferredBatched → ∃ i, op.retired = some i ∧
    (∀ token, imageNode i token ∉ sh.dom.reclaimed) ∧ ¬ (x.reclaimTimeoutMs ≠ 0 ∧ op.proven = false)

/-- The word as `retire_image` stores it for the image `i`. -/
def Settled (sh : Shared Tid Obj Ext) (x : Object) (op : Operation) (i : Nat) : Prop :=
  ∃ done : Bool, x.reclaimOutcome = DLL.reclaimOutcome (decide (x.reclaimTimeoutMs ≠ 0)) op.proven done ∧
    (done = true ↔ ∃ token, imageNode i token ∈ sh.dom.reclaimed)

/-- The operation is over: it got no module or found no image, and left the word as it was, or it
retired the image that it found. -/
def Ends (sh : Shared Tid Obj Ext) (x : Object) (op : Operation) : Prop :=
  (op.retired = none ∧ x.reclaimOutcome = op.before ∧ (op.loaded = false ∨ op.image = none)) ∨
    ∃ i, op.retired = some i ∧ op.loaded = true ∧ op.image = some i ∧ Settled sh x op i

def Reached (o : Obj) (sh : Shared Tid Obj Ext) (op : Operation) : Frame Obj → Prop
  | .idle none => True
  | .idle (some _) => Ends sh (sh.objects o) op
  | .loadImage u _ => u = o ∧ op.retired = none ∧ (sh.objects o).reclaimOutcome = op.before ∧
      (sh.objects o).image = op.image
  | .useCount u s | .lock u s _ _ | .exchange u s => u = o ∧ s.bounded = true ∧ op.loaded = true ∧ op.retired = none ∧
      (sh.objects o).reclaimOutcome = op.before ∧ (sh.objects o).image = op.image
  | .storeState u s previous | .unlock u s previous => u = o ∧ s.bounded = true ∧ op.loaded = true ∧
      op.retired = none ∧ (sh.objects o).reclaimOutcome = op.before ∧ op.image = previous
  | .retire u i bounded _ next => u = o ∧ op.loaded = true ∧ op.retired = some i ∧ op.image = some i ∧
      bounded = decide ((sh.objects o).reclaimTimeoutMs ≠ 0) ∧ (next = .unloaded ∨ ∃ path, next = .setPath path)
  | .setPath u _ => u = o ∧ Ends sh (sh.objects o) op
  | _ => False

/-- The places between the acquisition and the release of the writer lock. -/
def Frame.holds : Frame Obj → Bool
  | .exchange _ _ | .storeState _ _ _ | .unlock _ _ _ => true
  | _ => false

/-- No handle shares the Control, and its lock is free unless the operation holds it. -/
structure Unshared (held : Bool) (x : Object) : Prop where
  useCount : x.useCount = 1
  free : held = false → ∀ k, x.control = some k → k.writerLock = false

omit [DecidableEq Tid] [DecidableEq Obj] in
/-- The end of an operation looks at two words of the Control and at what has been called back. -/
theorem Ends.congr {x x' : Object} {op : Operation} (h : Ends sh x op) (hr : x'.reclaimOutcome = x.reclaimOutcome)
    (ht : x'.reclaimTimeoutMs = x.reclaimTimeoutMs) (hd : sh'.dom.reclaimed = sh.dom.reclaimed) : Ends sh' x' op := by
  unfold Ends Settled at h ⊢
  rwa [hr, ht, hd]

omit [DecidableEq Tid] in
theorem ends_returned {op : Operation} (v : Option Returned) (h : Ends sh (sh.objects o) op) :
    Reached o (sh.returned o v).1 op (sh.returned o v).2 := by
  cases v with
  | none => trivial
  | some r =>
    apply h.congr
    · simp [Shared.returned, Object.reclaimOutcome]
    · simp [Shared.returned, Object.reclaimTimeoutMs]
    · rfl

omit [DecidableEq Tid] in
theorem unshared_returned {held : Bool} (v : Option Returned) (h : Unshared held (sh.objects o)) :
    Unshared held ((sh.returned o v).1.objects o) := by
  refine ⟨?_, fun hf k hk => h.free hf k ?_⟩
  · simpa [Shared.returned, Object.useCount] using h.useCount
  · simpa [Shared.returned] using hk

omit [DecidableEq Tid] in
theorem reached_callObject {r : Returned} {op : Operation}
    (h : callObject sh o f (some r) = some p) (hx : Unshared false (sh.objects o))
    (hbefore : (sh.objects o).reclaimOutcome = op.before) (himage : (sh.objects o).image = op.image)
    (hretired : op.retired = none)
    (hreached : ∀ sh' : Shared Tid Obj Ext, (sh'.objects o).reclaimOutcome = op.before →
      (sh'.objects o).image = op.image → Reached o sh' op f) :
    Reached o p.1 op p.2 ∧ Unshared false (p.1.objects o) := by
  simp only [callObject] at h
  split at h
  · cases h
  · split at h
    · rename_i hnone
      cases h
      refine ⟨.inl ⟨hretired, hbefore, .inr ?_⟩, hx⟩
      rw [← himage, Object.image, hnone, Option.bind_none]
    · cases h
      refine ⟨hreached _ ?_ ?_, ?_, fun _ => ?_⟩
      · simpa [Object.reclaimOutcome] using hbefore
      · simpa [Object.image] using himage
      · simpa [Object.useCount] using hx.useCount
      · simpa using hx.free rfl

omit [DecidableEq Tid] in
private theorem reached_call {c : Config Tid (Shared Tid Obj Ext) (Local Tid Obj Ext)}
    {v : Option Returned} (sh' : Shared Tid Obj Ext) (op : Operation) (hok : OneWriter w o c w a)
    (h : call sh a = some p) (hl : l.frame = .idle v) (hx : Unshared false (sh.objects o)) :
    Reached o p.1 (note sh l a sh' op) p.2 ∧ Unshared false (p.1.objects o) := by
  cases a with
  | load u path | reload u path =>
    obtain ⟨-, rfl⟩ := hok
    simp only [note, hl]
    exact reached_callObject h hx rfl rfl rfl fun sh' hb hi => ⟨rfl, rfl, hb, hi⟩
  | unload u =>
    obtain ⟨-, rfl⟩ := hok
    simp only [note, hl]
    exact reached_callObject h hx rfl rfl rfl fun sh' hb hi => ⟨rfl, rfl, rfl, rfl, hb, hi⟩
  | setReclaimTimeoutMs u ms =>
    obtain ⟨-, rfl⟩ := hok
    simp only [call] at h
    split at h
    · rename_i k _ hk
      cases h
      refine ⟨trivial, ?_, fun _ k' hk' => ?_⟩
      · simpa [Shared.setControl, Object.useCount] using hx.useCount
      · obtain rfl : { k with reclaimTimeoutMs := ms } = k' := by simpa [Shared.setControl] using hk'
        exact hx.free rfl k hk
    · cases h
      exact ⟨trivial, hx⟩
    · cases h
  | domain | run => cases h
  | forceUnload | destroy | makeHandle | dropHandle => exact hok.elim

omit [DecidableEq Tid] in
theorem unshared_setControl {held held' : Bool} {k : Control} (h : Unshared held (sh.objects o))
    (hfree : held' = false → k.writerLock = false) : Unshared held' ((sh.setControl o k).objects o) := by
  refine ⟨?_, fun hf k' hk => ?_⟩
  · simpa [Shared.setControl, Object.useCount] using h.useCount
  · obtain rfl : k = k' := by simpa [Shared.setControl] using hk
    exact hfree hf

omit [DecidableEq Tid] in
/-- What follows `retire_image`, or an exchange that found nothing to retire. -/
theorem reached_retired {op : Operation} {next : Next} (hnext : next = .unloaded ∨ ∃ path, next = .setPath path)
    (h : Ends sh (sh.objects o) op) (hx : Unshared false (sh.objects o)) :
    Reached o (sh.retired o next).1 op (sh.retired o next).2 ∧ Unshared false ((sh.retired o next).1.objects o) := by
  rcases hnext with rfl | ⟨path, rfl⟩
  · exact ⟨ends_returned _ h, unshared_returned _ hx⟩
  · exact ⟨⟨rfl, h⟩, hx⟩

private theorem Swap.bounded_next {s : Swap} (h : s.bounded = true) :
    ∃ next, s.next = some next ∧ (next = .unloaded ∨ ∃ path, next = .setPath path) := by
  cases s with
  | publish path => exact ⟨_, rfl, .inr ⟨path, rfl⟩⟩
  | unload => exact ⟨_, rfl, .inl rfl⟩
  | destroy | force => cases h

omit [DecidableEq Tid] in
/-- The lock is released: what the exchange found is given to `retire_image`. -/
theorem reached_swapped {k : Control} {s : Swap} {previous : Option Nat} {op : Operation} (hs : s.bounded = true)
    (hloaded : op.loaded = true) (hbefore : (sh.objects o).reclaimOutcome = op.before) (himage : op.image = previous)
    (htimeout : (sh.objects o).reclaimTimeoutMs = k.reclaimTimeoutMs) (hx : Unshared false (sh.objects o)) :
    Reached o (sh.swapped k o s previous).1 { op with retired := previous } (sh.swapped k o s previous).2 ∧
      Unshared false ((sh.swapped k o s previous).1.objects o) := by
  obtain ⟨next, hnext, hkind⟩ := s.bounded_next hs
  unfold Shared.swapped
  rw [hnext]
  cases previous with
  | none => exact reached_retired hkind (.inl ⟨rfl, hbefore, .inr himage⟩) hx
  | some i => exact ⟨⟨rfl, hloaded, rfl, himage, by rw [← htimeout]; rfl, hkind⟩, hx⟩

omit [DecidableEq Tid] in
private theorem reached_records {k : Control} {i : Nat} {proven done : Bool} {next : Next} {op : Operation}
    {word : ReclaimOutcome}
    (outcomes : List (Nat × ReclaimOutcome)) (hk : (sh.objects o).control = some k)
    (hword : word = DLL.reclaimOutcome (decide ((sh.objects o).reclaimTimeoutMs ≠ 0)) proven done)
    (hdone : done = true ↔ ∃ token, imageNode i token ∈ sh.dom.reclaimed)
    (hloaded : op.loaded = true) (hretired : op.retired = some i) (himage : op.image = some i)
    (hnext : next = .unloaded ∨ ∃ path, next = .setPath path) (hx : Unshared false (sh.objects o))
    (hp : p = ({ sh.setControl o { k with lastReclaim := word } with outcomes }).retired o next) :
    Reached o p.1 { op with proven } p.2 ∧ Unshared false (p.1.objects o) := by
  rw [hp]
  refine reached_retired hnext (.inr ⟨i, hretired, hloaded, himage, done, ?_, hdone⟩) ?_
  · simp [Shared.setControl, Object.reclaimOutcome, Object.reclaimTimeoutMs, hk, hword]
  · exact unshared_setControl hx fun hf => hx.free hf k hk

omit [DecidableEq Tid] in
/-- An access that the code of `Object` makes itself. -/
theorem reached_objectStep {r : Result} {y : Bool} {k : Control} {op : Operation}
    (h : objectStep sh r y k l.frame = some p) (hk : (sh.objects o).control = some k)
    (hanswer : ∀ i bounded proven next, l.frame = .retire o i bounded (.outcome proven) next →
      (r = .answer true ↔ ∃ token, imageNode i token ∈ sh.dom.reclaimed))
    (hop : Reached o sh op l.frame) (hx : Unshared l.frame.holds (sh.objects o)) :
    Reached o p.1 (note sh l (.run y) sh' op) p.2 ∧ Unshared p.2.holds (p.1.objects o) := by
  have hbefore {k' : Control} (hlast : k'.lastReclaim = k.lastReclaim) (h : (sh.objects o).reclaimOutcome = op.before) :
      ((sh.setControl o k').objects o).reclaimOutcome = op.before := by
    simpa [Shared.setControl, Object.reclaimOutcome, hk, hlast] using h
  cases hf : l.frame with
  | idle =>
    rw [hf] at h
    cases h
  | loadImage u path =>
    rw [hf] at h hop hx
    obtain ⟨rfl, hretired, hb, hi⟩ := hop
    simp only [objectStep] at h
    simp only [note, hf]
    split at h
    · cases h
      rename_i hy
      exact ⟨⟨rfl, rfl, hy, hretired, hb, hi⟩, hx⟩
    · cases h
      rename_i hy
      exact ⟨ends_returned _ (.inl ⟨hretired, hb, .inl (Bool.eq_false_of_not_eq_true hy)⟩),
        unshared_returned _ hx⟩
  | useCount u s =>
    rw [hf] at h hop hx
    obtain ⟨rfl, hs, hloaded, hretired, hb, hi⟩ := hop
    simp only [objectStep, hx.useCount, Nat.lt_irrefl, if_false] at h
    cases h
    simp only [note, hf]
    exact ⟨⟨rfl, hs, hloaded, hretired, hb, hi⟩, hx⟩
  | lock u s limited polls =>
    rw [hf] at h hop hx
    obtain ⟨rfl, hs, hloaded, hretired, hb, hi⟩ := hop
    simp only [objectStep, hx.free rfl k hk, if_true] at h
    cases h
    simp only [note, hf]
    refine ⟨⟨rfl, hs, hloaded, hretired, hbefore rfl hb, ?_⟩, unshared_setControl hx (absurd · Bool.false_ne_true.symm)⟩
    simpa [Shared.setControl, Object.image, hk] using hi
  | exchange u s =>
    rw [hf] at h hop hx
    obtain ⟨rfl, hs, hloaded, hretired, hb, hi⟩ := hop
    cases h
    simp only [note, hf]
    refine ⟨⟨rfl, hs, hloaded, hretired, hbefore rfl hb, ?_⟩, unshared_setControl hx (absurd · Bool.false_ne_true.symm)⟩
    rw [← hi, Object.image, hk, Option.bind_some]
  | storeState u s previous =>
    rw [hf] at h hop hx
    obtain ⟨rfl, hs, hloaded, hretired, hb, hi⟩ := hop
    cases h
    simp only [note, hf]
    exact ⟨⟨rfl, hs, hloaded, hretired, hbefore rfl hb, hi⟩, unshared_setControl hx (absurd · Bool.false_ne_true.symm)⟩
  | unlock u s previous =>
    rw [hf] at h hop hx
    obtain ⟨rfl, hs, hloaded, hretired, hb, hi⟩ := hop
    rw [← Option.some.inj h]
    simp only [note, hf]
    have hfree : Unshared false ((sh.setControl u { k with writerLock := false }).objects u) :=
      unshared_setControl hx fun _ => rfl
    have hword : ((sh.setControl u { k with writerLock := false }).objects u).reclaimOutcome = op.before := hbefore rfl hb
    obtain ⟨hreached, hunshared⟩ := reached_swapped (k := k) hs hloaded hword hi
      (by simp [Shared.setControl, Object.reclaimTimeoutMs]) hfree
    exact ⟨hreached, hunshared.useCount, fun _ => hunshared.free rfl⟩
  | retire u i bounded stage next =>
    rw [hf] at h hop hx
    obtain ⟨rfl, hloaded, hretired, himage, rfl, hnext⟩ := hop
    cases stage with
    | outcome proven =>
      have hdone : decide (r = .answer true) = true ↔ ∃ token, imageNode i token ∈ sh.dom.reclaimed :=
        decide_eq_true_iff.trans (hanswer i _ proven next hf)
      simp only [note, hf]
      obtain ⟨hreached, hunshared⟩ :=
        reached_records _ hk rfl hdone hloaded hretired himage hnext hx (Option.some.inj h).symm
      exact ⟨hreached, hunshared.useCount, fun _ => hunshared.free rfl⟩
    | _ => cases h
  | setPath u path =>
    rw [hf] at h hop hx
    obtain ⟨rfl, hends⟩ := hop
    cases h
    simp only [note, hf]
    refine ⟨ends_returned _ (hends.congr ?_ ?_ rfl), unshared_returned _ ⟨?_, fun hheld => ?_⟩⟩
    · simp [Object.reclaimOutcome]
    · simp [Object.reclaimTimeoutMs]
    · simpa [Object.useCount] using hx.useCount
    · simpa using hx.free hheld
  | discard | forceFree | dropObject | deleteControl =>
    rw [hf] at hop
    exact hop.elim

omit [DecidableEq Tid] [DecidableEq Obj] in
/-- Nothing outside the Object and the callbacks bears on it. -/
theorem Reached.congr {op : Operation} (h : Reached o sh op f) (hobj : sh'.objects = sh.objects)
    (hd : sh'.dom.reclaimed = sh.dom.reclaimed) : Reached o sh' op f := by
  unfold Reached Ends Settled at h ⊢
  rwa [hobj, hd]

omit [DecidableEq Tid] [DecidableEq Obj] in
theorem Reached.object {op : Operation} (h : Reached o sh op f) (hu : f.object = some u) : u = o := by
  cases f with
  | idle => cases hu
  | loadImage | useCount | lock | exchange | storeState | unlock | retire | setPath =>
    obtain rfl := Option.some.inj hu
    exact h.1
  | discard | forceFree | dropObject | deleteControl => exact h.elim

omit [DecidableEq Tid] [DecidableEq Obj] in
/-- Calls of the domain inside `retire_image` do not move the operation. -/
theorem Reached.retiring {op : Operation} {i : Nat} {bounded : Bool} {stage stage' : Stage} {next : Next}
    (h : Reached o sh op (.retire u i bounded stage next)) (hl : l.frame = .retire u i bounded stage next)
    (hobj : sh'.objects = sh.objects) : Reached o sh' (note sh l a sh' op) (.retire u i bounded stage' next) := by
  have hnote : ∃ p, note sh l a sh' op = { op with proven := p } := by
    cases a with
    | run y =>
      cases stage with
      | outcome proven => exact ⟨proven, by simp only [note, hl]⟩
      | _ => exact ⟨op.proven, by simp only [note, hl]⟩
    | _ => exact ⟨op.proven, by simp only [note, hl]⟩
  obtain ⟨p, hp⟩ := hnote
  rw [hp]
  simpa only [Reached, hobj] using h

/-- An access of the code of `Object`, with what the step answered. -/
theorem step_code (hnone : domainAccess l a = none) (h : step t sh l a = some (sh', l')) :
    ∃ r, l.dom.pc = .idle r ∧ l'.dom = l.dom ∧ ((∃ v, l.frame = .idle v ∧ call sh a = some (sh', l'.frame)) ∨
      ∃ y u k, a = .run y ∧ l.frame.object = some u ∧ (sh.objects u).control = some k ∧
        objectStep sh r y k l.frame = some (sh', l'.frame)) := by
  simp only [step, hnone] at h
  split at h
  · rename_i r v hpc hf
    obtain ⟨p, hp, he⟩ := Option.map_eq_some_iff.mp h
    cases he
    exact ⟨r, hpc, rfl, .inl ⟨v, hf, hp⟩⟩
  · rename_i r y hpc hnot
    split at h
    · rename_i u hu
      split at h
      · rename_i k hk
        obtain ⟨p, hp, he⟩ := Option.map_eq_some_iff.mp h
        cases he
        exact ⟨r, hpc, rfl, .inr ⟨y, u, k, rfl, hu, hk, hp⟩⟩
      · cases h
    · cases h
  · cases h

omit [DecidableEq Tid] [DecidableEq Obj] in
/-- The thread's calls of the domain are those of `retire_image`. -/
theorem domainAccess_retiring {c : Config Tid (Shared Tid Obj Ext) (Local Tid Obj Ext)}
    {b : RCU.Action (Resource Ext) Reclaim} {g : Frame Obj} (hok : OneWriter w o c w a)
    (hquiet : l.frame.retiring = false → ∃ r, l.dom.pc = .idle r) (h : domainAccess l a = some (b, g)) :
    ∃ u i bounded stage stage' next, l.frame = .retire u i bounded stage next ∧ g = .retire u i bounded stage' next := by
  cases hf : l.frame with
  | retire u i bounded stage next =>
    rcases domainAccess_frame h with rfl | ⟨_, _, _, _, _, _, hold, hnew⟩
    · exact ⟨u, i, bounded, stage, stage, next, rfl, hf⟩
    · exact ⟨_, _, _, _, _, _, hf ▸ hold, hnew⟩
  | _ =>
    obtain ⟨r, hr⟩ := hquiet (by rw [hf]; rfl)
    cases a with
    | domain => exact absurd rfl hok.1
    | run y => simp [domainAccess, hr, hf] at h
    | _ => cases h

/-- What is known of the thread, of its Object and of the operation beside it. -/
structure Followed (w : Tid) (o : Obj)
    (d : Config Tid (Shared Tid Obj Ext) (Local Tid Obj Ext × Operation)) : Prop where
  quiet : (d.locals w).1.frame.retiring = false → ∃ r, (d.locals w).1.dom.pc = .idle r
  reached : Reached o d.shared (d.locals w).2 (d.locals w).1.frame
  unshared : Unshared (d.locals w).1.frame.holds (d.shared.objects o)

section Run
variable [Fintype Tid] [Fintype Obj] [DecidableEq Ext] {made : Obj → Bool}
  {d d' : Config Tid (Shared Tid Obj Ext) (Local Tid Obj Ext × Operation)}

/-- At the end of `retire_image` the answer says whether the image is gone. -/
theorem answer_of_reachable {c : Config Tid (Shared Tid Obj Ext) (Local Tid Obj Ext)}
    (h : (system Tid Obj Ext).Reachable (OneWriter w o) (start Tid Ext made) c) {r : Result}
    (hr : (c.locals w).dom.pc = .idle r) {i : Nat} {bounded proven : Bool} {next : Next}
    (hf : (c.locals w).frame = .retire u i bounded (.outcome proven) next) :
    r = .answer true ↔ ∃ token, imageNode i token ∈ c.shared.dom.reclaimed := by
  have haw := (honest_of_reachable (timely_of_oneWriter h)).awaiting w
  have hanswering := answering_of_reachable h
  rw [hf, hr] at haw hanswering
  obtain ⟨yes, he, hyes⟩ := haw
  obtain rfl := Pc.idle.inj he
  cases yes with
  | true => exact ⟨fun _ => hyes rfl, fun _ => rfl⟩
  | false => exact ⟨fun he => (nomatch he), fun ⟨token, hn⟩ => absurd hn (hanswering rfl token)⟩

private theorem followed_next (hr : (system Tid Obj Ext).Reachable (OneWriter w o) (start Tid Ext made) (Program.forget d))
    (h : Followed w o d) (hok : OneWriter w o (Program.forget d) t a)
    (hn : (annotated Tid Obj Ext).next d t a = some d') :
    Followed w o d' := by
  obtain ⟨sh, l, hs, rfl⟩ := Program.next_eq_some_iff.mp hn
  obtain ⟨hstep, hnote⟩ := Program.recorded_step hs
  by_cases ht : t = w
  · subst ht
    cases hacc : domainAccess (d.locals t).1 a with
    | some access =>
      obtain ⟨b, g⟩ := access
      rcases step_cases hstep with ⟨_, e, hb, -, rfl, -⟩ | ⟨_, _, hnone, -⟩
      · obtain ⟨_, _, _, _, _, _, hf, hg⟩ := domainAccess_retiring hok h.quiet hb
        have hreached := h.reached
        have hunshared := h.unshared
        rw [hf] at hreached hunshared
        refine ⟨?_, ?_, ?_⟩
        · simp only [Function.update_self, hg]
          exact fun hno => nomatch hno
        · simp only [Function.update_self, hnote, hg]
          exact hreached.retiring hf rfl
        · simp only [Function.update_self, hg]
          exact hunshared
      · cases hacc.symm.trans hnone
    | none =>
      obtain ⟨r, hpc, hdom, hcode⟩ := step_code hacc hstep
      have hkept : Reached o sh (note d.shared (d.locals t).1 a sh (d.locals t).2) l.1.frame ∧
          Unshared l.1.frame.holds (sh.objects o) := by
        rcases hcode with ⟨v, hf, hcall⟩ | ⟨y, u, k, rfl, hu, hk, hobj⟩
        · have hfree := h.unshared
          rw [hf] at hfree
          have hstarted := reached_call sh (d.locals t).2 hok hcall hf hfree
          exact ⟨hstarted.1, hstarted.2.useCount, fun _ => hstarted.2.free rfl⟩
        · obtain rfl := h.reached.object hu
          exact reached_objectStep hobj hk (fun i _ _ _ hf => answer_of_reachable hr hpc hf) h.reached h.unshared
      refine ⟨?_, ?_, ?_⟩
      · simp only [Function.update_self, hdom]
        exact fun _ => ⟨r, hpc⟩
      · simp only [Function.update_self, hnote]
        exact hkept.1
      · simp only [Function.update_self]
        exact hkept.2
  · obtain ⟨b, e, -, hreads, hd, rfl, -⟩ := reader_step hok ht (outside_of_reachable hr t ht) hstep
    obtain ⟨hpc, hbatch⟩ := (alone_of_reachable (domainOf_reachable (sole_of_reachable hr))).reading t ht
    obtain ⟨hleaves, -, -⟩ := (RCU.moves_of_step hd).reader hreads hpc hbatch
    refine ⟨?_, ?_, ?_⟩
    · simpa only [Function.update_of_ne (Ne.symm ht)] using h.quiet
    · simp only [Function.update_of_ne (Ne.symm ht)]
      exact h.reached.congr rfl hleaves.reclaimed
    · simpa only [Function.update_of_ne (Ne.symm ht)] using h.unshared

/-- At every point of a run the place in the code says how far the operation has come. -/
theorem followed_of_reachable (h : (annotated Tid Obj Ext).Reachable
      (fun d t a => OneWriter w o (Program.forget d) t a) (unused Tid Ext made) d) : Followed w o d := by
  induction h with
  | init =>
    refine ⟨fun _ => ⟨_, rfl⟩, trivial, rfl, fun _ k hk => ?_⟩
    cases hm : made o with
    | false => simp [unused, start, hm] at hk
    | true =>
      obtain rfl : ({} : Control) = k := by simpa [unused, start, hm] using hk
      rfl
  | step hr hok hn ih => exact followed_next (Program.Reachable.forget hr) ih hok hn

omit [DecidableEq Tid] [DecidableEq Obj] [Fintype Tid] [Fintype Obj] [DecidableEq Ext] in
/-- The word that `retire_image` stored describes the operation. -/
theorem Settled.describes {x : Object} {op : Operation} {i : Nat} (h : Settled sh x op i) (hi : op.retired = some i) :
    Describes sh x op := by
  obtain ⟨done, hword, hdone⟩ := h
  cases done with
  | true =>
    have hword : x.reclaimOutcome = .reclaimed := hword
    obtain ⟨token, hn⟩ := hdone.mp rfl
    exact ⟨by simp [hword, hi], fun _ => ⟨i, token, hi, hn⟩, by simp [hword], by simp [hword]⟩
  | false =>
    have hgone (token : Nat) : imageNode i token ∉ sh.dom.reclaimed := fun hn =>
      Bool.false_ne_true (hdone.mpr ⟨token, hn⟩)
    by_cases hlate : x.reclaimTimeoutMs ≠ 0 ∧ op.proven = false
    · have hword : x.reclaimOutcome = .deferredTimeout := by
        rw [hword, DLL.reclaimOutcome]
        simp [hlate]
      exact ⟨by simp [hword, hi], by simp [hword], fun _ => hlate, by simp [hword]⟩
    · have hword : x.reclaimOutcome = .deferredBatched := by
        rw [hword, DLL.reclaimOutcome]
        simpa using hlate
      exact ⟨by simp [hword, hi], by simp [hword], by simp [hword], fun _ => ⟨i, hi, hgone, hlate⟩⟩

/-- After an operation `reclaim_outcome` describes it exactly when it retired an image, which takes a
module and a previous image, or when nothing had been retired by the operations before it either. -/
theorem outcome_describes_operation {r : Returned}
    (h : (annotated Tid Obj Ext).Reachable (fun d t a => OneWriter w o (Program.forget d) t a) (unused Tid Ext made) d)
    (hf : (d.locals w).1.frame = .idle (some r)) :
    Describes d.shared (d.shared.objects o) (d.locals w).2 ↔
      (d.locals w).2.loaded = true ∧ (d.locals w).2.image ≠ none ∨ (d.locals w).2.before = .notAttempted := by
  have hends := (followed_of_reachable h).reached
  rw [hf] at hends
  rcases hends with ⟨hretired, hword, hnone⟩ | ⟨i, hretired, hloaded, himage, hsettled⟩
  · constructor
    · exact fun hd => .inr (hword.symm.trans (hd.notAttempted.mpr hretired))
    · rintro (⟨hloaded, himage⟩ | hbefore)
      · rcases hnone with hnone | hnone
        · exact absurd (hnone.symm.trans hloaded) Bool.false_ne_true
        · exact absurd hnone himage
      · have hword := hword.trans hbefore
        exact ⟨iff_of_true hword hretired, by simp [hword], by simp [hword], by simp [hword]⟩
  · exact iff_of_true (hsettled.describes hretired) (.inl ⟨hloaded, by simp [himage]⟩)

end Run

/-- A second load replaces image 0, and the word says where it is. -/
theorem outcome_describes_operation_reload :
    ∃ d : Config Unit (Shared Unit Unit Unit) (Local Unit Unit Unit × Operation),
      (d.locals ()).2.retired = some 0 ∧ (d.shared.objects ()).reclaimOutcome = .deferredBatched ∧
        Describes d.shared (d.shared.objects ()) (d.locals ()).2 := by
  have hrun : (((annotated Unit Unit Unit).exec (fun d t a => OneWriter () () (Program.forget d) t a)
      (unused Unit Unit fun _ => true)
      (((), .load () "") :: accessesOf () 6 ++ ((), .load () "") :: accessesOf () 26)).map fun d =>
        decide ((d.locals ()).1.frame = .idle (some ⟨true, .none⟩) ∧ (d.locals ()).2.loaded = true ∧
          (d.locals ()).2.image = some 0 ∧ (d.locals ()).2.retired = some 0 ∧
          (d.shared.objects ()).reclaimOutcome = .deferredBatched)) = some true := by
    decide
  obtain ⟨d, hd, he⟩ := Option.map_eq_some_iff.mp hrun
  obtain ⟨hf, hloaded, himage, hretired, hword⟩ := of_decide_eq_true he
  refine ⟨d, hretired, hword, (outcome_describes_operation (.of_exec .init hd) hf).mpr (.inl ⟨hloaded, ?_⟩)⟩
  simp [himage]

/-- A load, an unload and another load. The last one finds no image and retires nothing, and the word
is still that of the unload. -/
theorem outcome_left_over : ∃ d : Config Unit (Shared Unit Unit Unit) (Local Unit Unit Unit × Operation),
    (annotated Unit Unit Unit).Reachable (fun d t a => OneWriter () () (Program.forget d) t a)
      (unused Unit Unit fun _ => true) d ∧ (d.locals ()).1.frame = .idle (some ⟨true, .none⟩) ∧
        (d.locals ()).2.retired = none ∧ (d.shared.objects ()).reclaimOutcome = .deferredBatched ∧
          ¬ Describes d.shared (d.shared.objects ()) (d.locals ()).2 := by
  have hrun : (((annotated Unit Unit Unit).exec (fun d t a => OneWriter () () (Program.forget d) t a)
      (unused Unit Unit fun _ => true) (((), .load () "") :: accessesOf () 6 ++ ((), .unload ()) :: accessesOf () 25 ++
        ((), .load () "") :: accessesOf () 6)).map fun d =>
          decide ((d.locals ()).1.frame = .idle (some ⟨true, .none⟩) ∧ (d.locals ()).2.retired = none ∧
            (d.shared.objects ()).reclaimOutcome = .deferredBatched)) = some true := by
    decide
  obtain ⟨d, hd, he⟩ := Option.map_eq_some_iff.mp hrun
  obtain ⟨hf, hretired, hword⟩ := of_decide_eq_true he
  refine ⟨d, .of_exec .init hd, hf, hretired, hword, fun hdescribes => ?_⟩
  have hnone := hdescribes.notAttempted.mpr hretired
  cases hword.symm.trans hnone

end Abix.DLL

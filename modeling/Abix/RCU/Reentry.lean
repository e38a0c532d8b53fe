import Abix.RCU.Advancement

/-! The domain with callbacks that run code. A collection calls back under the writer lock, and
`reclaim_image` unloads a module, which runs the module's own teardown; so a callback is a stretch
of further calls of the same thread in the middle of its sweep. -/
namespace Abix.RCU
open Abix.Concurrency
variable {Tid Obj Fn : Type} [DecidableEq Tid] {t u : Tid} {sh sh' : Shared Tid Obj Fn}

/-- A thread with the sweep it has left for a callback, and the node that is called back. -/
structure Nested (Tid Obj Fn : Type) where
  top : Local Tid Obj Fn := {}
  frames : List (Pc Tid Obj Fn × RetiredNode Obj Fn) := []

inductive NestedAction (Obj Fn : Type) where
  | call (a : Action Obj Fn)
  | returns
  deriving DecidableEq, Repr

variable {l l' lu : Nested Tid Obj Fn} {a : NestedAction Obj Fn}
  {c : Config Tid (Shared Tid Obj Fn) (Nested Tid Obj Fn)}

/-- The turn of a sweep that unlinks a node with a callback: where the sweep goes on afterwards,
the node, and the list without it. -/
def callingBack : Action Obj Fn → Pc Tid Obj Fn → Option (Pc Tid Obj Fn × RetiredNode Obj Fn × List (RetiredNode Obj Fn))
  | .run _, .sweep safe cls kept (n :: rest) finish =>
    if n.cls = cls ∧ n.epoch ≤ safe ∧ n.reclaim.isSome ∧ n.object.isSome then
      some (.sweep safe cls kept rest finish, n, kept ++ rest)
    else none
  | _, _ => none

def Action.isExit : Action Obj Fn → Bool
  | .threadExit => true
  | _ => false

/-- A callback begins where a plain sweep would have run it in one step. It ends when no call of
it is running, and until then its thread does not exit. -/
def nestedStep (t : Tid) (sh : Shared Tid Obj Fn) (l : Nested Tid Obj Fn) :
    NestedAction Obj Fn → Option (Shared Tid Obj Fn × Nested Tid Obj Fn)
  | .call a =>
    match callingBack a l.top.pc with
    | some (pc, n, retired) =>
      some ({ sh with retired }, ⟨{ l.top with pc := .idle .unit }, (pc, n) :: l.frames⟩)
    | none =>
      if a.isExit ∧ l.frames ≠ [] then none else (step t sh l.top a).map fun r => (r.1, { l with top := r.2 })
  | .returns =>
    match l.top.pc, l.frames with
    | .idle _, (pc, n) :: frames =>
      some ({ sh with reclaimed := n :: sh.reclaimed }, ⟨{ l.top with pc }, frames⟩)
    | _, _ => none

def nested (Tid Obj Fn : Type) [DecidableEq Tid] :
    Program Tid (Shared Tid Obj Fn) (Nested Tid Obj Fn) (NestedAction Obj Fn) where
  step := nestedStep

def nestedInitial (Tid Obj Fn : Type) : Config Tid (Shared Tid Obj Fn) (Nested Tid Obj Fn) := ⟨{}, fun _ => {}⟩

def Pc.WantsLock : Pc Tid Obj Fn → Prop
  | .registerThread _ | .retirePublish _ | .synchronizeLock _ | .untilLock _ | .tryLock | .collectLock _ _ => True
  | _ => False

def Pc.AwaitsSync : Pc Tid Obj Fn → Prop
  | .synchronizeSpin | .untilContended _ => True
  | _ => False

/-- The thread owns the advancement, in the running call or in one that waits for a callback. -/
def Nested.Owns (l : Nested Tid Obj Fn) : Prop := l.top.pc.owns ≠ none ∨ ∃ f ∈ l.frames, f.1.owns ≠ none

def Pc.appends : Pc Tid Obj Fn → Bool
  | .retireQueue _ => true
  | _ => false

/-- The condition on a step of a callback: it does not bring it to the lock. Read sections are for
registered threads, a node must not fill the batch, and the other calls take the lock. -/
def LeavesLock (c : Config Tid (Shared Tid Obj Fn) (Nested Tid Obj Fn)) (t : Tid) (a : NestedAction Obj Fn) : Prop :=
  (c.locals t).frames ≠ [] →
    match a with
    | .call .enter | .call .exit => t ∈ c.shared.threads
    | .call .synchronize | .call .synchronizeEager | .call (.synchronizeUntil _) | .call .tryCollect => False
    | .call (.run true) => (c.locals t).top.pc.appends → (c.locals t).top.batch.length + 1 < batchPublish
    | .call (.run false) | .call (.retire _ _) | .call (.retireEager _ _) | .call (.retireToken _ _)
    | .call (.reclaimedThrough _ _) | .call .threadExit | .returns => True

instance [DecidableEq Obj] [DecidableEq Fn] (c : Config Tid (Shared Tid Obj Fn) (Nested Tid Obj Fn)) (t : Tid)
    (a : NestedAction Obj Fn) : Decidable (LeavesLock c t a) :=
  match a with
  | .call .enter | .call .exit => inferInstanceAs (Decidable (_ → t ∈ c.shared.threads))
  | .call .synchronize | .call .synchronizeEager | .call (.synchronizeUntil _) | .call .tryCollect =>
    inferInstanceAs (Decidable (_ → False))
  | .call (.run true) => inferInstanceAs (Decidable (_ → _ → _ < _))
  | .call (.run false) | .call (.retire _ _) | .call (.retireEager _ _) | .call (.retireToken _ _)
  | .call (.reclaimedThrough _ _) | .call .threadExit | .returns => inferInstanceAs (Decidable (_ → True))

inductive Nests (t : Tid) (sh : Shared Tid Obj Fn) :
    NestedAction Obj Fn → Nested Tid Obj Fn → Shared Tid Obj Fn → Nested Tid Obj Fn → Prop
  | moves {a top sh' top' frames} : Moves t sh a top sh' top' → (a = .threadExit → frames = []) →
      Nests t sh (.call a) ⟨top, frames⟩ sh' ⟨top', frames⟩
  | callsBack {x safe k kept n rest fin b frames} :
      Nests t sh (.call (.run x)) ⟨⟨.sweep safe k kept (n :: rest) fin, b⟩, frames⟩
        { sh with retired := kept ++ rest } ⟨⟨.idle .unit, b⟩, (.sweep safe k kept rest fin, n) :: frames⟩
  | returns {r b pc n frames} : Nests t sh .returns ⟨⟨.idle r, b⟩, (pc, n) :: frames⟩
      { sh with reclaimed := n :: sh.reclaimed } ⟨⟨pc, b⟩, frames⟩

omit [DecidableEq Tid] in
private theorem callingBack_eq_some {b : Action Obj Fn} {pc pc' : Pc Tid Obj Fn} {n : RetiredNode Obj Fn}
    {retired : List (RetiredNode Obj Fn)} (h : callingBack b pc = some (pc', n, retired)) :
    ∃ x safe k kept rest fin, b = .run x ∧ pc = .sweep safe k kept (n :: rest) fin ∧
      pc' = .sweep safe k kept rest fin ∧ retired = kept ++ rest := by
  unfold callingBack at h
  split at h
  · split at h
    · cases h
      exact ⟨_, _, _, _, _, _, rfl, rfl, rfl, rfl⟩
    · cases h
  · cases h

theorem nests_of_step (h : nestedStep t sh l a = some (sh', l')) : Nests t sh a l sh' l' := by
  obtain ⟨top, frames⟩ := l
  cases a with
  | call a =>
    simp only [nestedStep] at h
    split at h
    · rename_i pc n retired hback
      obtain ⟨pc₀, b⟩ := top
      obtain ⟨x, safe, k, kept, rest, fin, rfl, rfl, rfl, rfl⟩ := callingBack_eq_some hback
      cases h
      exact .callsBack
    · split at h
      · cases h
      · rename_i hexit
        obtain ⟨r, hr, he⟩ := Option.map_eq_some_iff.mp h
        cases he
        refine .moves (moves_of_step hr) ?_
        rintro rfl
        by_contra hne
        exact hexit ⟨rfl, hne⟩
  | returns =>
    obtain ⟨pc, b⟩ := top
    cases pc with
    | idle r =>
      cases frames with
      | nil => cases h
      | cons f frames =>
        cases h
        exact .returns
    | _ => cases h

/-- Where a callback can stand: before a call takes the lock, or where none is needed. -/
def Pc.Inside : Pc Tid Obj Fn → Prop
  | .idle _ | .registerThread _ | .enterLoad | .enterStore _ | .exitStore | .retireLoad _ _ _ | .retireQueue _
  | .retirePublish _ | .synchronizeLock _ | .untilLock _ | .tryLock => True
  | _ => False

/-- What holds of each thread: the lock it holds, and that a callback calls nothing back. -/
structure Holding (sh : Shared Tid Obj Fn) (t : Tid) (l : Nested Tid Obj Fn) : Prop where
  locked : l.top.pc.Locked → sh.lock = some t
  inside : l.frames ≠ [] → sh.lock = some t ∧ l.top.pc.Inside
  frames : ∀ f ∈ l.frames, f.1.Locked
  once : l.frames.length ≤ 1
  held : sh.lock = some t → l.top.pc.Locked ∨ l.frames ≠ []

omit [DecidableEq Tid] in
theorem Pc.First.inside {pc : Pc Tid Obj Fn} (h : pc.First) : pc.Inside := by
  cases pc with
  | advanceStore | readersHead | readersPassed | collectLock | collect | sweep | minHead | minScan | exited
  | synchronizeSpin | untilContended => exact h.elim
  | _ => trivial

variable {b : Action Obj Fn} {top top' : Local Tid Obj Fn}

/-- Inside a callback a call gets no further than to the lock. -/
theorem Moves.inside (h : Moves t sh b top sh' top') (hl : sh.lock = some t) (hin : top.pc.Inside)
    (hb : b ≠ .threadExit) : sh'.lock = some t ∧ top'.pc.Inside := by
  have hfree : sh.lock ≠ none := by simp [hl]
  cases h with
  | called hs => exact ⟨hl, (first_of_start hs).inside⟩
  | exits => exact absurd rfl hb
  | registers hn | publishes hn | contended hn | deferred hn | begins hn | beginsUntil hn | contendedUntil hn
  | tries hn => exact absurd hn hfree
  | loads | enters | leaves | tags | queues | fills | noMemory | busy => exact ⟨hl, trivial⟩
  | _ => exact hin.elim

/-- A thread comes to hold the lock only at places under it. -/
theorem Moves.takes_lock (h : Moves t sh b top sh' top') (hl : top.pc.Locked → sh.lock = some t)
    (hin : top'.pc.Locked) : sh'.lock = some t := by
  cases h with
  | called hs => exact ((first_of_start hs).not_locked hin).elim
  | registers => exact ((first_afterThread _).not_locked hin).elim
  | begins | beginsUntil | collectLock => rfl
  | skips | completes | swept | reclaims | keeps => exact hl trivial
  | _ => exact hin.elim

omit [DecidableEq Tid] in
theorem holding_of_no_frames (hlocked : top.pc.Locked → sh.lock = some t) (hheld : sh.lock = some t → top.pc.Locked) :
    Holding sh t ⟨top, []⟩ where
  locked := hlocked
  inside hne := absurd rfl hne
  frames _ hf := absurd hf List.not_mem_nil
  once := Nat.zero_le _
  held hown := .inl (hheld hown)

theorem holding_own (h : Nests t sh a l sh' l') (hl : Holding sh t l) : Holding sh' t l' := by
  cases h with
  | @moves b top sh' top' frames hm hexit =>
    cases frames with
    | nil =>
      have hheld (hown : sh.lock = some t) : top.pc.Locked := (hl.held hown).resolve_right (· rfl)
      exact holding_of_no_frames (hm.takes_lock hl.locked) (hm.locked hheld)
    | cons f frames =>
      obtain ⟨hown, hin⟩ := hl.inside (List.cons_ne_nil _ _)
      obtain ⟨hown', hin'⟩ := hm.inside hown hin fun hb => List.cons_ne_nil _ _ (hexit hb)
      exact ⟨fun _ => hown', fun _ => ⟨hown', hin'⟩, hl.frames, hl.once, fun _ => .inr (List.cons_ne_nil _ _)⟩
  | @callsBack x safe k kept n rest fin b frames =>
    have hown := hl.locked trivial
    cases frames with
    | nil =>
      refine ⟨fun _ => hown, fun _ => ⟨hown, trivial⟩, ?_, Nat.le_refl _, fun _ => .inr (List.cons_ne_nil _ _)⟩
      intro f hf
      obtain rfl := List.mem_singleton.mp hf
      trivial
    | cons f frames => exact (hl.inside (List.cons_ne_nil _ _)).2.elim
  | @returns r b pc n frames =>
    have hown := (hl.inside (List.cons_ne_nil _ _)).1
    have hpc := hl.frames (pc, n) List.mem_cons_self
    obtain rfl : frames = [] := List.length_eq_zero_iff.mp (Nat.le_zero.mp (Nat.succ_le_succ_iff.mp hl.once))
    exact holding_of_no_frames (fun _ => hown) fun _ => hpc

theorem holding_others (h : Nests t sh a l sh' l') (hl : Holding sh t l) (hne : u ≠ t) (hu : Holding sh u lu) :
    Holding sh' u lu := by
  have hkeep (hown : sh.lock = some u) : sh'.lock = some u := by
    cases h with
    | moves hm => exact (hm.excluded hl.locked hown hne).1.trans hown
    | callsBack | returns => exact hown
  have hback (hown : sh'.lock = some u) : sh.lock = some u := by
    cases h with
    | moves hm => exact hm.lock_ne hown hne
    | callsBack | returns => exact hown
  exact ⟨fun h => hkeep (hu.locked h), fun h => ⟨hkeep (hu.inside h).1, (hu.inside h).2⟩, hu.frames, hu.once,
    fun h => hu.held (hback h)⟩

theorem holding_of_reachable {ok : Config Tid (Shared Tid Obj Fn) (Nested Tid Obj Fn) → Tid → NestedAction Obj Fn → Prop}
    (h : (nested Tid Obj Fn).Reachable ok (nestedInitial Tid Obj Fn) c) (t : Tid) :
    Holding c.shared t (c.locals t) := by
  have hstable : (nested Tid Obj Fn).Stable ok (fun _ => True) Holding := by
    constructor
    · exact fun _ _ hj hs => ⟨trivial, holding_own (nests_of_step hs) (hj _)⟩
    · exact fun _ _ hj hs u hne => holding_others (nests_of_step hs) (hj _) hne (hj u)
  refine (hstable.reachable trivial (fun u => ?_) h).2 t
  exact holding_of_no_frames False.elim fun hown => by cases hown

def Pc.Calm : Pc Tid Obj Fn → Prop
  | .idle _ | .enterLoad | .enterStore _ | .exitStore | .retireLoad _ _ _ | .retireQueue _ => True
  | _ => False

omit [DecidableEq Tid] in
theorem Pc.Calm.not_wantsLock {pc : Pc Tid Obj Fn} (h : pc.Calm) : ¬ pc.WantsLock := by
  cases pc with
  | registerThread | retirePublish | synchronizeLock | untilLock | tryLock | collectLock => exact h.elim
  | _ => exact id

omit [DecidableEq Tid] in
theorem Pc.Locked.not_wantsLock {pc : Pc Tid Obj Fn} (h : pc.Locked) : ¬ pc.WantsLock := by
  cases pc with
  | registerThread | retirePublish | synchronizeLock | untilLock | tryLock | collectLock => exact h.elim
  | _ => exact id

/-- A step that keeps the condition keeps a callback calm. -/
theorem calm_own (h : Nests t c.shared a (c.locals t) sh' l') (hk : LeavesLock c t a)
    (hl : Holding c.shared t (c.locals t)) (hc : (c.locals t).frames ≠ [] → (c.locals t).top.pc.Calm) :
    l'.frames ≠ [] → l'.top.pc.Calm := by
  unfold LeavesLock at hk
  generalize c.locals t = l at h hk hl hc
  cases h with
  | @moves act top sh' top' frames hm hexit =>
    intro hne
    have hcalm := hc hne
    have hk := hk hne
    cases hm with
    | called hs =>
      cases act with
      | enter | exit =>
        cases hs
        rw [getThread, if_pos hk]
        trivial
      | retire | retireEager | retireToken | reclaimedThrough =>
        cases hs
        trivial
      | synchronize | synchronizeEager | synchronizeUntil | tryCollect => exact hk.elim
      | threadExit | run => cases hs
    | exits => exact absurd (hexit rfl) hne
    | loads | enters | leaves | noMemory | queues | tags => trivial
    | fills hfull => exact absurd (hk rfl) hfull
    | _ => exact hcalm.elim
  | callsBack => exact fun _ => trivial
  | returns =>
    intro hne
    exact absurd (List.length_eq_zero_iff.mp (Nat.le_zero.mp (Nat.succ_le_succ_iff.mp hl.once))) hne

theorem calm_of_reachable (h : (nested Tid Obj Fn).Reachable LeavesLock (nestedInitial Tid Obj Fn) c) (t : Tid) :
    (c.locals t).frames ≠ [] → (c.locals t).top.pc.Calm := by
  have hholding := h.assuming fun _ h => holding_of_reachable h
  refine hholding.invariant (P := fun c => ∀ t, (c.locals t).frames ≠ [] → (c.locals t).top.pc.Calm)
    (fun _ hne => absurd rfl hne) ?_ t
  rintro c t a c' hc ⟨hl, hk⟩ hn u
  obtain ⟨sh, l, hs, rfl⟩ := Program.next_eq_some_iff.mp hn
  by_cases hu : u = t
  · subst hu
    simpa using calm_own (nests_of_step hs) hk (hl u) (hc u)
  · simpa [Function.update_of_ne hu] using hc u

/-- The thread stands before a lock that it holds. -/
def SelfLocked (c : Config Tid (Shared Tid Obj Fn) (Nested Tid Obj Fn)) (t : Tid) : Prop :=
  c.shared.lock = some t ∧ (c.locals t).top.pc.WantsLock

/-- The thread waits for an advancement that it owns. -/
def SelfAwaited (c : Config Tid (Shared Tid Obj Fn) (Nested Tid Obj Fn)) (t : Tid) : Prop :=
  (c.locals t).top.pc.AwaitsSync ∧ (c.locals t).Owns

/-- Nobody waits for an advancement of its own: a callback does not get that far. -/
theorem not_selfAwaited {ok : Config Tid (Shared Tid Obj Fn) (Nested Tid Obj Fn) → Tid → NestedAction Obj Fn → Prop}
    (h : (nested Tid Obj Fn).Reachable ok (nestedInitial Tid Obj Fn) c) (t : Tid) : ¬ SelfAwaited c t := by
  rintro ⟨hwait, howns⟩
  have hl := holding_of_reachable h t
  generalize c.locals t = l at hwait howns hl
  rcases howns with hown | ⟨f, hf, -⟩
  · obtain ⟨⟨pc, b⟩, frames⟩ := l
    cases pc with
    | synchronizeSpin | untilContended => exact hown rfl
    | _ => exact hwait.elim
  · have hin := (hl.inside (List.ne_nil_of_mem hf)).2
    obtain ⟨⟨pc, b⟩, frames⟩ := l
    cases pc with
    | synchronizeSpin | untilContended => exact hin.elim
    | _ => exact hwait.elim

/-- In every run whose callbacks make no call that comes to the lock, no thread tries to take the
lock that it holds, and none waits for `sync` while it owns the advancement. -/
theorem lock_is_leaf (h : (nested Tid Obj Fn).Reachable LeavesLock (nestedInitial Tid Obj Fn) c) (t : Tid) :
    ¬ SelfLocked c t ∧ ¬ SelfAwaited c t := by
  refine ⟨?_, not_selfAwaited h t⟩
  rintro ⟨hown, hwants⟩
  rcases (holding_of_reachable h t).held hown with hl | hne
  · exact hl.not_wantsLock hwants
  · exact (calm_of_reachable h t hne).not_wantsLock hwants

private def intoCallback : List (Unit × NestedAction Nat Unit) :=
  [((), .call (.retireToken (some 1) (some ()))), ((), .call (.run true)), ((), .call (.run true)),
    ((), .call (.synchronizeUntil true))] ++ List.replicate 10 ((), .call (.run false))

theorem lock_is_leaf_retiring : ∃ c : Config Unit (Shared Unit Nat Unit) (Nested Unit Nat Unit),
    c.shared.lock = some () ∧ (c.locals ()).top.batch.length = 1 ∧ ¬ SelfLocked c () := by
  have hrun : ((nested Unit Nat Unit).exec LeavesLock (nestedInitial Unit Nat Unit)
      (intoCallback ++ [((), .call (.retire (some 2) (some ()))), ((), .call (.run true)), ((), .call (.run true))])).map
      (fun c => (c.shared.lock, (c.locals ()).top.batch.length)) = some (some (), 1) := by
    decide
  obtain ⟨c, hc, he⟩ := Option.map_eq_some_iff.mp hrun
  obtain ⟨hlock, hbatch⟩ := Prod.mk.injEq _ _ _ _ ▸ he
  exact ⟨c, hlock, hbatch, (lock_is_leaf (.of_exec .init hc) ()).1⟩

/-- The condition is exact: a step of a callback that breaks it is followed by a wait for the lock
that the thread holds. -/
theorem selfLocked_of_not_leavesLock
    {ok : Config Tid (Shared Tid Obj Fn) (Nested Tid Obj Fn) → Tid → NestedAction Obj Fn → Prop}
    {c' : Config Tid (Shared Tid Obj Fn) (Nested Tid Obj Fn)}
    (h : (nested Tid Obj Fn).Reachable ok (nestedInitial Tid Obj Fn) c) (hk : ¬ LeavesLock c t a)
    (hn : (nested Tid Obj Fn).next c t a = some c') : SelfLocked c' t := by
  obtain ⟨sh, l, hs, rfl⟩ := Program.next_eq_some_iff.mp hn
  obtain ⟨hne, hk⟩ := Classical.not_imp.mp hk
  obtain ⟨hown, hin⟩ := (holding_of_reachable h t).inside hne
  have hnests : Nests t c.shared a (c.locals t) sh l := nests_of_step hs
  simp only [SelfLocked, Function.update_self]
  generalize c.locals t = l₀ at hnests hk hin
  cases hnests with
  | @moves act top sh' top' frames hm hexit =>
    cases act with
    | enter | exit =>
      cases hm with
      | called hstart =>
        cases hstart
        refine ⟨hown, ?_⟩
        rw [getThread, if_neg hk]
        trivial
    | synchronize | synchronizeEager | synchronizeUntil | tryCollect =>
      cases hm with
      | called hstart =>
        cases hstart
        exact ⟨hown, trivial⟩
    | run x =>
      cases x with
      | true =>
        obtain ⟨happends, hfull⟩ := Classical.not_imp.mp hk
        cases hm with
        | fills => exact ⟨hown, trivial⟩
        | queues hroom => exact absurd hroom hfull
        | called hstart => cases hstart
        | _ => cases happends
      | false => exact absurd trivial hk
    | _ => exact absurd trivial hk
  | callsBack => exact hin.elim
  | returns => exact absurd trivial hk

/-- A module whose teardown destroys an object with an image of its own: `retire_image` retires
the index and then synchronizes, in the middle of the collection. -/
theorem lock_is_leaf_fails : ¬ ∀ c : Config Unit (Shared Unit Nat Unit) (Nested Unit Nat Unit),
    (nested Unit Nat Unit).Reachable Program.anyStep (nestedInitial Unit Nat Unit) c →
      ∀ t, ¬ SelfLocked c t ∧ ¬ SelfAwaited c t := by
  intro hall
  have hrun : ((nested Unit Nat Unit).exec Program.anyStep (nestedInitial Unit Nat Unit)
      (intoCallback ++ [((), .call (.retireEager (some 2) (some ()))), ((), .call (.run true)),
        ((), .call (.run true)), ((), .call .synchronizeEager)])).map
      (fun c => (c.shared.lock, (c.locals ()).top.pc)) = some (some (), .synchronizeLock true) := by
    decide
  obtain ⟨c, hc, he⟩ := Option.map_eq_some_iff.mp hrun
  obtain ⟨hlock, hpc⟩ := Prod.mk.injEq _ _ _ _ ▸ he
  refine (hall c (.of_exec .init hc) ()).1 ⟨hlock, ?_⟩
  rw [hpc]
  trivial

end Abix.RCU

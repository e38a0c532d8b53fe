import Abix.RCU.Advancement
import Abix.RCU.Watermark
import Mathlib.Data.List.Count

/-! What a thread may conclude from the answer of `synchronize_until`. A node that was in the
retired list when the epoch moved can leave it only by being called back, and whoever raises the
watermark over the node has it ahead in the list. -/
namespace Abix.RCU
open Abix.Concurrency
variable {Tid Obj Fn : Type} [DecidableEq Tid] [DecidableEq Obj] [DecidableEq Fn] {t u : Tid} {a : Action Obj Fn}
  {sh sh' : Shared Tid Obj Fn} {l l' lu : Local Tid Obj Fn} {c : Config Tid (Shared Tid Obj Fn) (Local Tid Obj Fn)}
  {n : RetiredNode Obj Fn} {k : ReclaimClass} {old : Nat}

def Pc.rest (k : ReclaimClass) : Pc Tid Obj Fn → List (RetiredNode Obj Fn)
  | .sweep _ k' _ rest _ => if k' = k then rest else []
  | _ => []

def sweeping (c : Config Tid (Shared Tid Obj Fn) (Local Tid Obj Fn)) (k : ReclaimClass) : List (RetiredNode Obj Fn) :=
  match c.shared.lock with
  | some u => (c.locals u).pc.rest k
  | none => []

/-- How often the node has been called back, or will be by the next collection through `old`: if
there was one already, it has those that it has not looked at. -/
def available (c : Config Tid (Shared Tid Obj Fn) (Local Tid Obj Fn)) (n : RetiredNode Obj Fn) (old : Nat) : Nat :=
  c.shared.reclaimed.count n +
    if c.shared.epoch.completedOf n.cls < old then c.shared.retired.count n else (sweeping c n.cls).count n

omit [DecidableEq Tid] [DecidableEq Obj] [DecidableEq Fn] in
theorem Pc.rest_of_not_locked {pc : Pc Tid Obj Fn} (h : ¬ pc.Locked) : pc.rest k = [] := by
  cases pc with
  | sweep => exact absurd trivial h
  | _ => rfl

omit [DecidableEq Tid] [DecidableEq Obj] [DecidableEq Fn] in
theorem sweeping_of_locked (h : c.shared.lock = some t) : sweeping c k = (c.locals t).pc.rest k := by
  rw [sweeping, h]

omit [DecidableEq Tid] [DecidableEq Obj] [DecidableEq Fn] in
theorem sweeping_of_free (h : c.shared.lock = none) : sweeping c k = [] := by
  rw [sweeping, h]

omit [DecidableEq Obj] [DecidableEq Fn] in
/-- A thread outside the lock does not change what lies ahead of the one inside. -/
theorem sweeping_outside (hl : ¬ (c.locals t).pc.Locked) (hl' : ¬ l'.pc.Locked) (hlock : sh'.lock = c.shared.lock) :
    sweeping ⟨sh', Function.update c.locals t l'⟩ k = sweeping c k := by
  unfold sweeping
  simp only [hlock]
  split
  · rename_i u _
    by_cases hu : u = t
    · rw [hu, Function.update_self, Pc.rest_of_not_locked hl, Pc.rest_of_not_locked hl']
    · rw [Function.update_of_ne hu]
  · rfl

omit [DecidableEq Obj] [DecidableEq Fn] in
/-- Neither does one that takes the lock or lets it go outside a sweep. -/
theorem sweeping_moved (hl : c.shared.lock = none ∨ c.shared.lock = some t) (hr : (c.locals t).pc.rest k = [])
    (hl' : sh'.lock = none ∨ sh'.lock = some t) (hr' : l'.pc.rest k = []) :
    sweeping ⟨sh', Function.update c.locals t l'⟩ k = sweeping c k := by
  have hold : sweeping c k = [] := hl.elim sweeping_of_free fun h => (sweeping_of_locked h).trans hr
  rw [hold]
  rcases hl' with hl' | hl'
  · exact sweeping_of_free hl'
  · refine (sweeping_of_locked hl').trans ?_
    simpa using hr'

/-- A step that leaves the watermarks alone keeps what is available. -/
theorem available_le (hr : c.shared.reclaimed = sh'.reclaimed) (hret : c.shared.retired <:+ sh'.retired)
    (he : sh'.epoch.completedOf n.cls = c.shared.epoch.completedOf n.cls)
    (hs : sweeping ⟨sh', Function.update c.locals t l'⟩ n.cls = sweeping c n.cls) :
    available c n old ≤ available ⟨sh', Function.update c.locals t l'⟩ n old := by
  simp only [available, he, hs, hr]
  split
  · exact Nat.add_le_add_left (hret.sublist.count_le n) _
  · exact Nat.le_refl _

/-- During a sweep the watermark of the class is where the sweep ends. -/
def Raised (sh : Shared Tid Obj Fn) : Pc Tid Obj Fn → Prop
  | .sweep safe k _ _ _ => sh.epoch.completedOf k = safe
  | _ => True

/-- No step of any thread makes less available, as long as the watermark stays at or below `old`. -/
theorem available_next (hlt : c.locals t = l) (hp : Placed c.shared t l.pc) (hr : Raised c.shared l.pc)
    (hle : n.epoch ≤ old) (hm : Moves t c.shared a l sh' l') (hold : sh'.epoch.completedOf n.cls ≤ old) :
    available c n old ≤ available ⟨sh', Function.update c.locals t l'⟩ n old := by
  have hout (hl : ¬ l.pc.Locked) (hl' : ¬ l'.pc.Locked) (hlock : sh'.lock = c.shared.lock) :
      sweeping ⟨sh', Function.update c.locals t l'⟩ n.cls = sweeping c n.cls := sweeping_outside (hlt ▸ hl) hl' hlock
  have hmoved (hl : c.shared.lock = none ∨ c.shared.lock = some t) (hr : l.pc.rest n.cls = [])
      (hl' : sh'.lock = none ∨ sh'.lock = some t) (hr' : l'.pc.rest n.cls = []) :
      sweeping ⟨sh', Function.update c.locals t l'⟩ n.cls = sweeping c n.cls := sweeping_moved hl (hlt ▸ hr) hl' hr'
  have hmine (hl : c.shared.lock = some t) : sweeping c n.cls = l.pc.rest n.cls := hlt ▸ sweeping_of_locked hl
  have hmine' (hl : sh'.lock = some t) :
      sweeping ⟨sh', Function.update c.locals t l'⟩ n.cls = l'.pc.rest n.cls :=
    (sweeping_of_locked hl).trans (by simp)
  cases hm with
  | called hs => exact available_le rfl (List.suffix_refl _) rfl (hout id (first_of_start hs).not_locked rfl)
  | registers => exact available_le rfl (List.suffix_refl _) rfl (hout id (first_afterThread _).not_locked rfl)
  | publishes | contended | deferred | contendedUntil | tries =>
    exact available_le rfl (List.suffix_append _ _) rfl (hout id id rfl)
  | begins hl | beginsUntil hl =>
    exact available_le rfl (List.suffix_append _ _) (by cases n.cls <;> rfl) (hmoved (.inl hl) rfl (.inr rfl) rfl)
  | collectLock hl => exact available_le rfl (List.suffix_refl _) rfl (hmoved (.inl hl) rfl (.inr rfl) rfl)
  | advances | finishes =>
    exact available_le rfl (List.suffix_refl _) (by cases n.cls <;> rfl) (hmoved (.inr hp) rfl (.inl rfl) rfl)
  | skips => exact available_le rfl (List.suffix_refl _) rfl (hmoved (.inr hp) rfl (.inr hp) rfl)
  | @completes _ safe k todo clear r b hraise =>
    by_cases hk : n.cls = k
    · -- whoever raises the watermark of the class has the whole list ahead
      have hsafe : safe ≤ old := by simpa [Epoch.completedOf_complete, hk] using hold
      rw [hk] at hmine'
      simp only [available, Epoch.completedOf_complete, hk, if_true, hmine' hp, Pc.rest,
        if_pos (Nat.lt_of_lt_of_le hraise hsafe), ite_self, Nat.le_refl]
    · refine available_le rfl (List.suffix_refl _) ?_ (hmoved (.inr hp) rfl (.inr hp) (if_neg (Ne.symm hk)))
      rw [Epoch.completedOf_complete, if_neg hk]
  | swept => exact available_le rfl (List.suffix_refl _) rfl (hmoved (.inr hp.1) (ite_self _) (.inr hp.1) rfl)
  | @reclaims _ safe k kept m rest fin b hm =>
    simp only [available, hmine hp.1, hmine' hp.1, Pc.rest, hp.2]
    split
    · simp only [List.count_append, List.count_cons]
      omega
    · split <;> simp only [List.count_cons, List.count_nil] <;> omega
  | @keeps _ safe k kept m rest fin b hm =>
    simp only [available, hmine hp.1, hmine' hp.1, Pc.rest]
    split
    · exact Nat.le_refl _
    · split
      · -- a node that the sweep steps over is not ours
        rename_i hdone hk
        have hne : m ≠ n := by
          rintro rfl
          refine hm ⟨hk.symm, hle.trans ?_⟩
          have hr : c.shared.epoch.completedOf k = safe := hr
          rw [← hr, hk]
          exact Nat.not_lt.mp hdone
        rw [List.count_cons_of_ne hne]
      · exact Nat.le_refl _
  | _ => exact available_le rfl (List.suffix_refl _) rfl (hout id id rfl)

omit [DecidableEq Tid] [DecidableEq Obj] [DecidableEq Fn] in
theorem raised_of_not_locked {pc : Pc Tid Obj Fn} (h : ¬ pc.Locked) : Raised sh pc := by
  cases pc with
  | sweep => exact absurd trivial h
  | _ => trivial

omit [DecidableEq Obj] [DecidableEq Fn] in
theorem Moves.raised (h : Moves t sh a l sh' l') (hr : Raised sh l.pc) : Raised sh' l'.pc := by
  cases h with
  | called hs => exact raised_of_not_locked (first_of_start hs).not_locked
  | registers => exact raised_of_not_locked (first_afterThread _).not_locked
  | completes => simp [Raised, Epoch.completedOf_complete]
  | reclaims | keeps => exact hr
  | _ => trivial

omit [DecidableEq Obj] [DecidableEq Fn] in
theorem raised_of_reachable {ok : Config Tid (Shared Tid Obj Fn) (Local Tid Obj Fn) → Tid → Action Obj Fn → Prop}
    (hc : (domain Tid Obj Fn).Reachable ok (initial Tid Obj Fn) c) (t : Tid) : Raised c.shared (c.locals t).pc := by
  have hstable : (domain Tid Obj Fn).Stable (fun c t a => Custody c ∧ ok c t a) (fun _ => True)
      (fun sh _ l => Raised sh l.pc) := by
    constructor
    · intro c t a sh l _ _ hr hs
      exact ⟨trivial, (moves_of_step hs).raised (hr t)⟩
    · intro c t a sh l hok _ hr hs u hne
      have hu := hr u
      have hp := hok.1.placed u
      generalize c.locals u = lu at hu hp ⊢
      obtain ⟨pc, b⟩ := lu
      cases pc with
      | sweep =>
        obtain ⟨-, he, -, -⟩ := (moves_of_step hs).excluded (hok.1.placed t).locked hp.1 hne
        rw [Raised, he]
        exact hu
      | _ => trivial
  have hidle (u : Tid) : Raised (initial Tid Obj Fn).shared ((initial Tid Obj Fn).locals u).pc := trivial
  exact (hstable.reachable trivial hidle (hc.assuming fun _ => custody_of_reachable)).2 t

omit [DecidableEq Obj] [DecidableEq Fn] in
/-- What has been called back is at or below the watermark of its class. -/
theorem reclaimed_le_of_reachable {ok : Config Tid (Shared Tid Obj Fn) (Local Tid Obj Fn) → Tid → Action Obj Fn → Prop}
    (hc : (domain Tid Obj Fn).Reachable ok (initial Tid Obj Fn) c) (hn : n ∈ c.shared.reclaimed) :
    n.epoch ≤ c.shared.epoch.completedOf n.cls := by
  refine (hc.assuming fun _ => raised_of_reachable).invariant
    (P := fun c => ∀ n ∈ c.shared.reclaimed, n.epoch ≤ c.shared.epoch.completedOf n.cls) (fun _ hn => absurd hn List.not_mem_nil) ?_ n hn
  rintro c t a c' hle ⟨hraised, -⟩ hn n hmem
  obtain ⟨sh, l, hs, rfl⟩ := Program.next_eq_some_iff.mp hn
  have hm := moves_of_step hs
  refine Nat.le_trans ?_ (hm.completedOf_le n.cls)
  rcases hm.reclaimed with he | ⟨safe, k, kept, m, rest, fin, hpc, hk, hsafe, he, -⟩
  · exact hle n (he ▸ hmem)
  · rcases List.mem_cons.mp (he ▸ hmem) with rfl | hmem
    · have hr := hraised t
      rw [hpc] at hr
      rw [hk, hr]
      exact hsafe
    · exact hle n hmem

structure Standing (c : Config Tid (Shared Tid Obj Fn) (Local Tid Obj Fn)) : Prop where
  custody : Custody c
  exclusive : Exclusive c
  completed : ∀ k, c.shared.epoch.completedOf k < c.shared.epoch.global
  behind : ∀ t, Behind c.shared (c.locals t).pc
  raised : ∀ t, Raised c.shared (c.locals t).pc

omit [DecidableEq Obj] [DecidableEq Fn] in
theorem standing_of_reachable {ok : Config Tid (Shared Tid Obj Fn) (Local Tid Obj Fn) → Tid → Action Obj Fn → Prop}
    (hc : (domain Tid Obj Fn).Reachable ok (initial Tid Obj Fn) c) : Standing c where
  custody := custody_of_reachable hc
  exclusive := exclusive_of_reachable hc
  completed := (behind_of_reachable hc).1
  behind := (behind_of_reachable hc).2
  raised := raised_of_reachable hc

omit [DecidableEq Obj] [DecidableEq Fn] in
/-- While the epoch stands right above `old`, no watermark passes `old`. -/
theorem Standing.completedOf_le (h : Standing c) (hg : c.shared.epoch.global = old + 1)
    (hm : Moves t c.shared a (c.locals t) sh' l') (k : ReclaimClass) : sh'.epoch.completedOf k ≤ old := by
  have hle (safe : Nat) (hs : safe < c.shared.epoch.global) : safe ≤ old := by omega
  rcases hm.completedOf with he | ⟨safe, k', _, _, _, hpc, -, he⟩
  · rw [he]
    exact hle _ (h.completed k)
  · have hsafe := h.behind t
    rw [hpc] at hsafe
    rw [he, Epoch.completedOf_complete]
    split
    · exact hle _ hsafe
    · exact hle _ (h.completed k)

/-- Every listed node is at or below `old` and is called back as often as it is listed, by then. -/
def Owes (c : Config Tid (Shared Tid Obj Fn) (Local Tid Obj Fn)) (mine : List (RetiredNode Obj Fn)) (old : Nat) : Prop :=
  ∀ n ∈ mine, n.epoch ≤ old ∧ mine.count n ≤ available c n old

theorem Owes.next {mine : List (RetiredNode Obj Fn)} (ho : Owes c mine old) (h : Standing c)
    (hg : c.shared.epoch.global = old + 1) (hm : Moves t c.shared a (c.locals t) sh' l') :
    Owes ⟨sh', Function.update c.locals t l'⟩ mine old := by
  intro n hn
  obtain ⟨hle, hcount⟩ := ho n hn
  exact ⟨hle, hcount.trans
    (available_next rfl (h.custody.placed t) (h.raised t) hle hm (h.completedOf_le hg hm n.cls))⟩

/-- A step that runs no callback, moves no watermark and takes nothing from the retired list. -/
def Quiet (sh sh' : Shared Tid Obj Fn) : Prop :=
  sh'.reclaimed = sh.reclaimed ∧ sh'.epoch.completed = sh.epoch.completed ∧
    sh'.epoch.completedEager = sh.epoch.completedEager ∧ sh.retired <:+ sh'.retired

instance (sh sh' : Shared Tid Obj Fn) : Decidable (Quiet sh sh') := inferInstanceAs (Decidable (_ ∧ _))

/-- What is written down about a thread: the nodes it queued, its last call, and whether a step
of that call was not quiet. -/
structure Journal (Obj Fn : Type) where
  queued : List (RetiredNode Obj Fn) := []
  call : Option (Action Obj Fn) := none
  touched : Bool := false

def note (sh : Shared Tid Obj Fn) (l : Local Tid Obj Fn) (a : Action Obj Fn) (sh' : Shared Tid Obj Fn)
    (j : Journal Obj Fn) : Journal Obj Fn :=
  match a with
  | .run x => { j with
      queued := (queueing (.run x) l.pc).toList ++ j.queued
      touched := j.touched || !decide (Quiet sh sh') }
  | a => { j with call := some a, touched := false }

/-- What a `synchronize_until` with a proven grace period knows under the lock. -/
def Collects (c : Config Tid (Shared Tid Obj Fn) (Local Tid Obj Fn)) (mine : List (RetiredNode Obj Fn)) (old : Nat)
    (fin : Finish) : Prop :=
  fin.result = .answer true ∧ fin.clear = true ∧ Owes c mine old ∧
    ∀ k, k ∉ fin.todo → old ≤ c.shared.epoch.completedOf k

def Waits (c : Config Tid (Shared Tid Obj Fn) (Local Tid Obj Fn)) (j : Journal Obj Fn) : Pc Tid Obj Fn → Prop
  | .untilLock _ | .untilContended _ => j.touched = false
  | .advanceStore g old | .readersHead g old | .readersPassed g old _ =>
    j.touched = false ∧ g.finish = ⟨[.eager, .batched], true, .answer true⟩ ∧ Owes c j.queued old
  | .collectLock old fin => j.touched = false ∧ (fin = ⟨[], true, .answer false⟩ ∨
      fin = ⟨[.eager, .batched], true, .answer true⟩ ∧ Owes c j.queued old)
  | .collect old fin => (j.touched = false ∧ fin = ⟨[], true, .answer false⟩) ∨ Collects c j.queued old fin
  | .sweep old _ _ _ fin => Collects c j.queued old fin
  | .idle (.answer true) => ∀ n, j.queued.count n ≤ c.shared.reclaimed.count n
  | .idle (.answer false) => j.touched = false
  | _ => False

structure Recorded (c : Config Tid (Shared Tid Obj Fn) (Local Tid Obj Fn)) (t : Tid) (j : Journal Obj Fn) : Prop where
  kept : (c.locals t).pc ≠ .exited → ∀ n, j.queued.count n ≤
    (c.locals t).batch.count n + (c.shared.retired.count n + c.shared.reclaimed.count n)
  old : ∀ n ∈ j.queued, n.epoch ≤ c.shared.epoch.global
  carried : ∀ n, (c.locals t).pc = .retireQueue n → n.epoch ≤ c.shared.epoch.global
  waits : ∀ bounded, j.call = some (.synchronizeUntil bounded) → Waits c j (c.locals t).pc

omit [DecidableEq Tid] [DecidableEq Obj] [DecidableEq Fn] in
theorem queueing_eq_none {pc : Pc Tid Obj Fn} (h : ∀ n, pc ≠ .retireQueue n) : queueing a pc = none := by
  unfold queueing
  split
  · exact absurd rfl (h _)
  · rfl

omit [DecidableEq Obj] [DecidableEq Fn] in
/-- A node that a thread is about to queue carries an epoch that has begun. -/
theorem Moves.carried (h : Moves t sh a l sh' l') (hn : l'.pc = .retireQueue n) : n.epoch ≤ sh'.epoch.global := by
  cases h with
  | tags he =>
    cases hn
    exact Nat.le_of_eq (congrArg (·.epoch) he)
  | called hs => exact absurd hn ((first_of_start hs).ne_retireQueue n)
  | registers => exact absurd hn ((first_afterThread _).ne_retireQueue n)
  | _ => cases hn

/-- A step moves nodes of its thread on towards their callback. -/
theorem Moves.kept (h : Moves t sh a l sh' l') (hp : Placed sh t l.pc) (hx : l'.pc ≠ .exited) (n : RetiredNode Obj Fn) :
    (queueing a l.pc).toList.count n + (l.batch.count n + (sh.retired.count n + sh.reclaimed.count n)) =
      l'.batch.count n + (sh'.retired.count n + sh'.reclaimed.count n) := by
  have hnone (h : ∀ m, l.pc ≠ .retireQueue m) : (queueing a l.pc).toList.count n = 0 := by
    rw [queueing_eq_none h]
    rfl
  cases h with
  | exits => exact absurd rfl hx
  | queues | fills =>
    simp only [queueing, Option.toList, List.count_append]
    omega
  | noMemory => exact Nat.zero_add _
  | publishes | contended | deferred | begins | beginsUntil | contendedUntil | tries =>
    rw [hnone fun _ hm => by cases hm]
    simp only [publishLocalBatchLocked, advance, List.count_append, List.count_nil]
    omega
  | reclaims =>
    rw [hnone fun _ hm => by cases hm]
    simp only [hp.2, List.count_append, List.count_cons]
    omega
  | _ =>
    rw [hnone fun _ hm => by cases hm]
    exact Nat.zero_add _

/-- The other threads only add to the retired nodes and the callbacks. -/
theorem Moves.retired_reclaimed_le (h : Moves t sh a l sh' l') (hp : Placed sh t l.pc) (n : RetiredNode Obj Fn) :
    sh.retired.count n + sh.reclaimed.count n ≤ sh'.retired.count n + sh'.reclaimed.count n := by
  cases h with
  | publishes | contended | deferred | begins | beginsUntil | contendedUntil | tries =>
    simp only [publishLocalBatchLocked, advance, List.count_append]
    omega
  | reclaims =>
    simp only [hp.2, List.count_append, List.count_cons]
    omega
  | _ => exact Nat.le_refl _

theorem Collects.next {mine : List (RetiredNode Obj Fn)} {fin : Finish} (hw : Collects c mine old fin) (h : Standing c)
    (hg : c.shared.epoch.global = old + 1) (hm : Moves t c.shared a (c.locals t) sh' l') :
    Collects ⟨sh', Function.update c.locals t l'⟩ mine old fin :=
  ⟨hw.1, hw.2.1, hw.2.2.1.next h hg hm, fun k hk => (hw.2.2.2 k hk).trans (hm.completedOf_le k)⟩

/-- What a waiting thread knows survives the steps of the others. -/
theorem Waits.others {j : Journal Obj Fn} (h : Standing c) (hw : Waits c j (c.locals u).pc)
    (hm : Moves t c.shared a (c.locals t) sh' l') :
    Waits ⟨sh', Function.update c.locals t l'⟩ j (c.locals u).pc := by
  have hg := h.exclusive.global u
  generalize (c.locals u).pc = pc at hw hg ⊢
  cases pc with
  | idle r =>
    cases r with
    | answer b =>
      cases b with
      | true =>
        intro n
        refine (hw n).trans ?_
        rcases hm.reclaimed with he | ⟨_, _, _, m, _, _, -, -, -, he, -⟩
        · exact Nat.le_of_eq (congrArg (List.count n) he.symm)
        · simp only [he, List.count_cons]
          exact Nat.le_add_right _ _
      | false => exact hw
    | _ => cases hw
  | untilLock | untilContended => exact hw
  | advanceStore | readersHead | readersPassed => exact ⟨hw.1, hw.2.1, hw.2.2.next h (hg _ rfl) hm⟩
  | collectLock old fin =>
    refine ⟨hw.1, hw.2.imp_right ?_⟩
    rintro ⟨rfl, ho⟩
    exact ⟨rfl, ho.next h (hg _ rfl) hm⟩
  | collect old fin => exact hw.imp_right fun hw => hw.next h (hg _ (if_pos hw.2.1)) hm
  | sweep => exact hw.next h (hg _ (if_pos hw.2.1)) hm
  | _ => cases hw

omit [DecidableEq Tid] in
private theorem note_touched {x : Bool} {j : Journal Obj Fn} (hj : j.touched = false) (hq : Quiet sh sh') :
    (note sh l (.run x) sh' j).touched = false := by
  simp [note, hj, hq]

omit [DecidableEq Tid] in
private theorem note_queued {x : Bool} {j : Journal Obj Fn} (h : ∀ n, l.pc ≠ .retireQueue n) :
    (note sh l (.run x) sh' j).queued = j.queued := by
  simp [note, queueing_eq_none h]

/-- The advancement that a `synchronize_until` begins covers every node its thread has queued. -/
theorem Owes.begins {mine : List (RetiredNode Obj Fn)} (hw : ∀ k, c.shared.epoch.completedOf k < c.shared.epoch.global)
    (hold : ∀ n ∈ mine, n.epoch ≤ c.shared.epoch.global)
    (hkept : ∀ n, mine.count n ≤ l.batch.count n + (c.shared.retired.count n + c.shared.reclaimed.count n)) (g : Grace) :
    Owes ⟨(advance t g (publishLocalBatchLocked c.shared l.batch)).1, Function.update c.locals t l'⟩ mine
      c.shared.epoch.global := by
  intro n hn
  have hlow : (advance t g (publishLocalBatchLocked c.shared l.batch)).1.epoch.completedOf n.cls < c.shared.epoch.global := by
    have := hw n.cls
    cases hk : n.cls <;> rwa [hk] at this
  have hcount := hkept n
  refine ⟨hold n hn, ?_⟩
  simp only [available, if_pos hlow]
  simp only [advance, publishLocalBatchLocked, List.count_append]
  omega

omit [DecidableEq Tid] in
/-- Once both watermarks have reached `old` and the collection is over, nothing is owed any more. -/
theorem Owes.all_reclaimed {mine : List (RetiredNode Obj Fn)} {fin : Finish} {safe : Nat} {b : List (RetiredNode Obj Fn)}
    (ho : Owes c mine old) (hp : Placed c.shared t (c.locals t).pc) (hlt : c.locals t = ⟨.collect safe fin, b⟩)
    (hdone : ∀ k, old ≤ c.shared.epoch.completedOf k) (n : RetiredNode Obj Fn) :
    mine.count n ≤ c.shared.reclaimed.count n := by
  by_cases hn : n ∈ mine
  · have hcount := (ho n hn).2
    rw [hlt] at hp
    have hrest : sweeping c n.cls = [] := (sweeping_of_locked hp).trans (by rw [hlt]; rfl)
    rwa [available, if_neg (Nat.not_lt.mpr (hdone _)), hrest] at hcount
  · rw [List.count_eq_zero.mpr hn]
    exact Nat.zero_le _

theorem Waits.own {x : Bool} {j : Journal Obj Fn} (h : Standing c) (hr : Recorded c t j) (hlt : c.locals t = l)
    (hw : Waits c j l.pc) (hm : Moves t c.shared (.run x) l sh' l') :
    Waits ⟨sh', Function.update c.locals t l'⟩ (note c.shared l (.run x) sh' j) l'.pc := by
  have hqueued : (note c.shared l (.run x) sh' j).queued = j.queued := by
    refine note_queued fun n hn => ?_
    rw [hn] at hw
    exact hw
  have htouched (hj : j.touched = false) (hq : Quiet c.shared sh') : (note c.shared l (.run x) sh' j).touched = false :=
    note_touched hj hq
  have howes (old : Nat) (ho : Owes c j.queued old) (ha : l.pc.advancing = some old) :
      Owes ⟨sh', Function.update c.locals t l'⟩ j.queued old := by
    subst hlt
    exact ho.next h (h.exclusive.global t old ha) hm
  have hcollects (old : Nat) (fin : Finish) (hc : Collects c j.queued old fin) (ha : l.pc.advancing = some old) :
      Collects ⟨sh', Function.update c.locals t l'⟩ j.queued old fin := by
    subst hlt
    exact hc.next h (h.exclusive.global t old ha) hm
  have hsame : Quiet c.shared c.shared := ⟨rfl, rfl, rfl, List.suffix_refl _⟩
  have hkept := hlt ▸ hr.kept
  generalize note c.shared l (.run x) sh' j = j' at hqueued htouched ⊢
  cases hm with
  | contendedUntil => exact htouched hw ⟨rfl, rfl, rfl, List.suffix_append _ _⟩
  | beginsUntil =>
    refine ⟨htouched hw ⟨rfl, rfl, rfl, List.suffix_append _ _⟩, rfl, ?_⟩
    rw [hqueued]
    exact .begins h.completed hr.old (hkept nofun) _
  | expires | retries => exact htouched hw hsame
  | advances => exact ⟨htouched hw.1 hsame, hw.2.1, hqueued ▸ howes _ hw.2.2 rfl⟩
  | readersHead | passes => exact ⟨htouched hw.1 hsame, hw.2.1, hqueued ▸ howes _ hw.2.2 rfl⟩
  | rescans _ _ hg => exact ⟨htouched hw.1 hsame, hg.trans hw.2.1, hqueued ▸ howes _ hw.2.2 rfl⟩
  | passed => exact ⟨htouched hw.1 hsame, .inr ⟨hw.2.1, hqueued ▸ howes _ hw.2.2 rfl⟩⟩
  | givesUp => exact ⟨htouched hw.1 hsame, .inl rfl⟩
  | collectLock =>
    refine hw.2.imp (fun hf => ⟨htouched hw.1 hsame, hf⟩) ?_
    rintro ⟨rfl, ho⟩
    refine ⟨rfl, rfl, hqueued ▸ howes _ ho rfl, fun k hk => absurd ?_ hk⟩
    cases k <;> simp
  | @finishes _ safe clear r s b =>
    rcases hw with ⟨hj, hf⟩ | ⟨hres, -, ho, hdone⟩
    · cases hf
      exact htouched hj ⟨rfl, rfl, rfl, List.suffix_refl _⟩
    · obtain rfl : r = .answer true := hres
      intro n
      rw [hqueued]
      exact ho.all_reclaimed (h.custody.placed t) hlt (fun k => hdone k List.not_mem_nil) n
  | @skips _ safe k todo clear r b hle =>
    rcases hw with ⟨-, hf⟩ | hc
    · cases hf
    · obtain ⟨hres, hclear, ho, hdone⟩ := hcollects _ _ hc (if_pos hc.2.1)
      refine .inr ⟨hres, hclear, hqueued ▸ ho, fun k' hk' => ?_⟩
      by_cases hk : k' = k
      · exact hk ▸ hle
      · exact hdone k' (by simp [hk, hk'])
  | @completes _ safe k todo clear r b hlow =>
    rcases hw with ⟨-, hf⟩ | hc
    · cases hf
    · obtain ⟨hres, hclear, ho, hdone⟩ := hcollects _ _ hc (if_pos hc.2.1)
      refine ⟨hres, hclear, hqueued ▸ ho, fun k' hk' => ?_⟩
      by_cases hk : k' = k
      · exact Nat.le_of_eq (by simp [Epoch.completedOf_complete, hk])
      · exact hdone k' (by simp [hk, hk'])
  | swept => exact .inr (hqueued ▸ hcollects _ _ hw (if_pos hw.2.1))
  | reclaims | keeps =>
    simp only [Waits, hqueued]
    exact hcollects _ _ hw (if_pos hw.2.1)
  | called hs => cases hs
  | _ => exact hw.elim

/-- What a step of its own does to the journal of a thread. -/
theorem Recorded.own {j : Journal Obj Fn} (h : Standing c) (hr : Recorded c t j)
    (hm : Moves t c.shared a (c.locals t) sh' l') :
    Recorded ⟨sh', Function.update c.locals t l'⟩ t (note c.shared (c.locals t) a sh' j) where
  kept hx n := by
    simp only [Function.update_self] at hx ⊢
    have hcount := hm.kept (h.custody.placed t) hx n
    have hpc : (c.locals t).pc ≠ .exited := by
      intro hpc
      generalize c.locals t = l at hm hpc
      cases hm <;> cases hpc
    have hkept := hr.kept hpc n
    cases a with
    | run x =>
      simp only [note, List.count_append]
      omega
    | _ =>
      simp only [note]
      omega
  old n hn := by
    have hq : n ∈ j.queued ∨ (c.locals t).pc = .retireQueue n := by
      cases a with
      | run x =>
        rcases List.mem_append.mp hn with hn | hn
        · exact .inr (mem_queueing (Option.mem_toList.mp hn)).2
        · exact .inl hn
      | _ => exact .inl hn
    exact (hq.elim (hr.old n) (hr.carried n)).trans hm.global_le
  carried n hn := hm.carried (by simpa using hn)
  waits bounded hcall := by
    simp only [Function.update_self]
    cases a with
    | run x => exact (hr.waits bounded hcall).own h hr rfl hm
    | synchronizeUntil b =>
      generalize c.locals t = l at hm
      cases hm with
      | called hs =>
        cases hs
        exact rfl
    | _ => cases hcall

theorem Recorded.others {j : Journal Obj Fn} (h : Standing c) (hr : Recorded c u j) (hne : u ≠ t)
    (hm : Moves t c.shared a (c.locals t) sh' l') : Recorded ⟨sh', Function.update c.locals t l'⟩ u j where
  kept hx n := by
    simp only [Function.update_of_ne hne] at hx ⊢
    have hmore := hm.retired_reclaimed_le (h.custody.placed t) n
    exact (hr.kept hx n).trans (Nat.add_le_add_left hmore _)
  old n hn := (hr.old n hn).trans hm.global_le
  carried n hn := (hr.carried n (by simpa [Function.update_of_ne hne] using hn)).trans hm.global_le
  waits bounded hcall := by
    simp only [Function.update_of_ne hne]
    exact (hr.waits bounded hcall).others h hm

def journaled (Tid Obj Fn : Type) [DecidableEq Tid] [DecidableEq Obj] [DecidableEq Fn] :
    Program Tid (Shared Tid Obj Fn) (Local Tid Obj Fn × Journal Obj Fn) (Action Obj Fn) :=
  (domain Tid Obj Fn).recorded note

def blank (Tid Obj Fn : Type) : Config Tid (Shared Tid Obj Fn) (Local Tid Obj Fn × Journal Obj Fn) :=
  ⟨{}, fun _ => ({}, {})⟩

variable {d d' : Config Tid (Shared Tid Obj Fn) (Local Tid Obj Fn × Journal Obj Fn)}

private theorem recorded_next (h : Standing (Program.forget d)) (hr : ∀ u, Recorded (Program.forget d) u (d.locals u).2)
    (hn : (journaled Tid Obj Fn).next d t a = some d') (u : Tid) : Recorded (Program.forget d') u (d'.locals u).2 := by
  obtain ⟨sh, l, hs, rfl⟩ := Program.next_eq_some_iff.mp hn
  obtain ⟨hstep, hl⟩ := Program.recorded_step hs
  have hm := moves_of_step hstep
  rw [Program.forget_update]
  by_cases hu : u = t
  · subst hu
    simp only [Function.update_self, hl]
    exact (hr u).own h hm
  · simp only [Function.update_of_ne hu]
    exact (hr u).others h hu hm

theorem domain_of_journaled (h : (journaled Tid Obj Fn).Reachable Program.anyStep (blank Tid Obj Fn) d) :
    (domain Tid Obj Fn).Reachable Program.anyStep (initial Tid Obj Fn) (Program.forget d) := by
  have hrun : ((domain Tid Obj Fn).recorded note).Reachable (fun d t a => Program.anyStep (Program.forget d) t a)
      (blank Tid Obj Fn) d := h
  exact hrun.forget

theorem recorded_of_reachable (h : (journaled Tid Obj Fn).Reachable Program.anyStep (blank Tid Obj Fn) d) (t : Tid) :
    Recorded (Program.forget d) t (d.locals t).2 := by
  have hstanding (d : Config Tid (Shared Tid Obj Fn) (Local Tid Obj Fn × Journal Obj Fn))
      (h : (journaled Tid Obj Fn).Reachable Program.anyStep (blank Tid Obj Fn) d) : Standing (Program.forget d) :=
    standing_of_reachable (domain_of_journaled h)
  refine (h.assuming hstanding).invariant
    (P := fun d => ∀ t, Recorded (Program.forget d) t (d.locals t).2) (fun u => ?_) ?_ t
  · exact ⟨fun _ _ => Nat.zero_le _, fun _ hn => absurd hn List.not_mem_nil, fun _ hn => (nomatch hn),
      fun _ hc => (nomatch hc)⟩
  · rintro d t a d' hr ⟨hd, -⟩ hn
    exact recorded_next hd hr hn

/-- What a thread has queued stays written down. -/
theorem queued_subset_of_reachable (h : (journaled Tid Obj Fn).Reachable Program.anyStep d d') (t : Tid) :
    (d.locals t).2.queued <:+ (d'.locals t).2.queued := by
  refine h.invariant (P := fun d' => (d.locals t).2.queued <:+ (d'.locals t).2.queued) (List.suffix_refl _) ?_
  rintro c u a c' hc - hn
  obtain ⟨sh, l, hs, rfl⟩ := Program.next_eq_some_iff.mp hn
  by_cases hu : t = u
  · subst hu
    obtain ⟨-, hl⟩ := Program.recorded_step hs
    simp only [Function.update_self, hl]
    refine hc.trans ?_
    cases a with
    | run x => exact List.suffix_append _ _
    | _ => exact List.suffix_refl _
  · simpa [Function.update_of_ne hu] using hc

def Answered (d : Config Tid (Shared Tid Obj Fn) (Local Tid Obj Fn × Journal Obj Fn)) (t : Tid) (b : Bool) : Prop :=
  (d.locals t).1.pc = .idle (.answer b) ∧ ∃ bounded, (d.locals t).2.call = some (.synchronizeUntil bounded)

/-- When the answer is true, every node the thread has queued has been called back, and none more
often than it was queued, so exactly once where it was queued once. When it is false, the call ran
no callback, moved no watermark and took nothing from the retired list; what the thread queued is
still there or was called back by another call, and once a later call answers true all of it has
been. -/
theorem synchronize_until_outcome [Fintype Tid] {b : Bool}
    (h : (journaled Tid Obj Fn).Reachable Program.anyStep (blank Tid Obj Fn) d) (ha : Answered d t b) :
    (b = true → ∀ n, (d.locals t).2.queued.count n ≤ d.shared.reclaimed.count n ∧
      d.shared.reclaimed.count n ≤ d.shared.queued.count n ∧
      (n ∈ (d.locals t).2.queued → d.shared.queued.count n = 1 → d.shared.reclaimed.count n = 1)) ∧
    (b = false → (d.locals t).2.touched = false ∧
      (∀ n, (d.locals t).2.queued.count n ≤
        (d.locals t).1.batch.count n + d.shared.retired.count n + d.shared.reclaimed.count n) ∧
      ∀ d', (journaled Tid Obj Fn).Reachable Program.anyStep d d' → Answered d' t true →
        ∀ n, (d.locals t).2.queued.count n ≤ d'.shared.reclaimed.count n) := by
  have hdone (d : Config Tid (Shared Tid Obj Fn) (Local Tid Obj Fn × Journal Obj Fn))
      (h : (journaled Tid Obj Fn).Reachable Program.anyStep (blank Tid Obj Fn) d) (ha : Answered d t true)
      (n : RetiredNode Obj Fn) : (d.locals t).2.queued.count n ≤ d.shared.reclaimed.count n := by
    obtain ⟨hpc, bounded, hcall⟩ := ha
    have hw := (recorded_of_reachable h t).waits bounded hcall
    rw [Program.forget, hpc] at hw
    exact hw n
  refine ⟨?_, ?_⟩
  · rintro rfl n
    have hacc := accounted_of_reachable (domain_of_journaled h)
    have hle := Multiset.le_iff_count.mp hacc.le_queued n
    simp only [Multiset.count_add, Multiset.coe_count] at hle
    have hall := hdone d h ha n
    refine ⟨hall, Nat.le_of_add_right_le hle, fun hn hone => ?_⟩
    have hpos : 0 < (d.locals t).2.queued.count n := List.count_pos_iff.mpr hn
    simp only [Program.forget] at hle
    omega
  · rintro rfl
    have hr := recorded_of_reachable h t
    obtain ⟨hpc, bounded, hcall⟩ := ha
    have hw := hr.waits bounded hcall
    rw [Program.forget, hpc] at hw
    refine ⟨hw, fun n => ?_, fun d' hd' ha' n => ?_⟩
    · rw [Nat.add_assoc]
      exact hr.kept (by simp [Program.forget, hpc]) n
    · exact ((queued_subset_of_reachable hd' t).sublist.count_le n).trans (hdone d' (h.trans hd') ha' n)

theorem synchronize_until_outcome_retired :
    ∃ d : Config Bool (Shared Bool Unit Unit) (Local Bool Unit Unit × Journal Unit Unit),
      d.shared.queued.length = 1 ∧ ∀ n ∈ (d.locals true).2.queued, d.shared.reclaimed.count n = 1 := by
  have hrun : ((journaled Bool Unit Unit).exec Program.anyStep (blank Bool Unit Unit)
      ([(true, .retire (some ()) (some ())), (true, .run true), (true, .run true), (true, .synchronizeUntil true)] ++
        List.replicate 12 (true, .run false))).map
      (fun d => ((d.locals true).1.pc, (d.locals true).2.call, [(d.locals true).2.queued, d.shared.queued])) =
      some (.idle (.answer true), some (.synchronizeUntil true),
        [[⟨some (), 1, some (), .batched⟩], [⟨some (), 1, some (), .batched⟩]]) := by
    decide
  obtain ⟨d, hd, he⟩ := Option.map_eq_some_iff.mp hrun
  simp only [Prod.mk.injEq, List.cons.injEq, and_true] at he
  obtain ⟨hpc, hcall, hmine, hqueued⟩ := he
  have hout := (synchronize_until_outcome (.of_exec .init hd) ⟨hpc, true, hcall⟩).1 rfl
  refine ⟨d, by rw [hqueued]; rfl, fun n hn => (hout n).2.2 hn ?_⟩
  rw [hmine, List.mem_singleton] at hn
  rw [hqueued, hn, List.count_singleton_self]

end Abix.RCU

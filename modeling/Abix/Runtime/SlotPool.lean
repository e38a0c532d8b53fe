import Abix.Concurrency.Places
import Abix.Concurrency.Program
import Abix.Runtime.Slots

/-! The buffers behind the indexes: each index builds and destroys by itself, and one buffer of theirs may
be parked in a pool that all share. -/
namespace Abix.Runtime.SlotPool
open Abix.Concurrency

/-- `SKL_ABIX_HASH_POOL_MIN_SLOTS`, `SKL_ABIX_HASH_POOL_MAX_SLOTS`. -/
def minSlots : UInt32 := 4096

def maxSlots : UInt32 := 1048576

def InWindow (capacity : UInt32) : Prop := minSlots ≤ capacity ∧ capacity ≤ maxSlots

instance (capacity : UInt32) : Decidable (InWindow capacity) := instDecidableAnd

/-- The pool, and the heap: what each buffer holds, how often it was freed, and how many there were. -/
structure Shared where
  slots : Option Nat := none
  capacity : UInt32 := 0
  heap : Nat → List HashSlot := fun _ => []
  frees : Nat → Nat := fun _ => 0
  next : Nat := 0

/-- Where the operation on an index is. A release is for the table that is built next, or for none. -/
inductive Phase where
  | idle
  | release (after : Option Table)
  /-- The pool was offered the buffer, or is not asked: this is to be freed. -/
  | delete (stale : Option Nat) (after : Option Table)
  | take (t : Table)
  | allocate (t : Table)
  | fill (t : Table)
  /-- The loops went wrong, and do not come back. -/
  | faulted (fault : Fault)

/-- An index, and the operation on it. No step reads which table it is of. -/
structure Local where
  slots : Option Nat := none
  capacity : UInt32 := 0
  mask : UInt32 := 0
  phase : Phase := .idle
  table : Option Table := none

/-- What is called next, or what the allocator has: no buffer, or one with anything in it. -/
inductive Action where
  | build (t : Table)
  | destroy
  | proceed (allocated : Option (List HashSlot))

/-- Behind `release`: the capacity for a table, or none. -/
def released (l : Local) : Option Table → Local
  | none => { l with slots := none, capacity := 0, mask := 0, phase := .idle, table := none }
  | some t =>
    { l with slots := none, capacity := nextPow2 (t.count * 2), mask := nextPow2 (t.count * 2) - 1, phase := .take t,
             table := none }

/-- `offer`, with the lock held: what is left to be freed. -/
def offer (sh : Shared) (buf : Nat) (cap : UInt32) : Shared × Option Nat :=
  if InWindow cap ∧ (sh.slots = none ∨ sh.capacity ≠ cap) then
    ({ sh with slots := some buf, capacity := cap }, sh.slots)
  else (sh, some buf)

def take (sh : Shared) (want : UInt32) : Shared × Option Nat :=
  if sh.slots.isSome ∧ sh.capacity = want then ({ sh with slots := none, capacity := 0 }, sh.slots) else (sh, none)

/-- `memset` over the capacity, which must not be more than there is, and the loop of `build`. -/
def refill (t : Table) (capacity mask : UInt32) (buffer : List HashSlot) : Except Fault (List HashSlot) :=
  if buffer.length < capacity.toNat then .error .outOfBounds
  else fill mask 0 t.entries (List.replicate capacity.toNat ⟨0, 0⟩ ++ buffer.drop capacity.toNat)

def step (sh : Shared) (l : Local) : Action → Option (Shared × Local)
  | .build t =>
    match l.phase with
    | .idle => some (sh, { l with phase := .release (some t) })
    | _ => none
  | .destroy =>
    match l.phase with
    | .idle => some (sh, { l with phase := .release none })
    | _ => none
  | .proceed allocated =>
    match l.phase with
    | .idle => none
    | .release after =>
      match l.slots with
      | none => some (sh, released l after)
      | some buf =>
        if InWindow l.capacity then
          some ((offer sh buf l.capacity).1, { l with phase := .delete (offer sh buf l.capacity).2 after })
        else some (sh, { l with phase := .delete (some buf) after })
    | .delete stale after =>
      match stale with
      | none => some (sh, released l after)
      | some buf => some ({ sh with frees := Function.update sh.frees buf (sh.frees buf + 1) }, released l after)
    | .take t =>
      if InWindow l.capacity then
        some ((take sh l.capacity).1, { l with
          slots := (take sh l.capacity).2
          phase := if (take sh l.capacity).2.isSome then .fill t else .allocate t })
      else some (sh, { l with phase := .allocate t })
    | .allocate t =>
      match allocated with
      | none => some (sh, { l with capacity := 0, mask := 0, phase := .idle })
      | some contents =>
        if contents.length = l.capacity.toNat then
          some ({ sh with heap := Function.update sh.heap sh.next contents, next := sh.next + 1 },
            { l with slots := some sh.next, phase := .fill t })
        else none
    | .fill t =>
      match l.slots with
      | none => none
      | some buf =>
        match refill t l.capacity l.mask (sh.heap buf) with
        | .ok slots => some ({ sh with heap := Function.update sh.heap buf slots },
            { l with phase := .idle, table := some t })
        | .error fault => some (sh, { l with phase := .faulted fault })
    | .faulted _ => none

def program (Tid : Type) : Program Tid Shared Local Action where
  step _ sh l a := step sh l a

def init (Tid : Type) : Config Tid Shared Local := ⟨{}, fun _ => {}⟩

/-- The buffer that an index has: its own, or the one that its release is about to free. -/
def hand (l : Local) : Option Nat :=
  match l.phase with
  | .delete stale _ => stale
  | _ => l.slots

def places {Tid : Type} (c : Config Tid Shared Local) : Places (Option Tid) where
  held
    | none => c.shared.slots
    | some t => hand (c.locals t)
  frees := c.shared.frees
  next := c.shared.next

inductive Steps (sh : Shared) (l : Local) : Shared → Local → Prop
  | begin {after : Option Table} (hphase : l.phase = .idle) : Steps sh l sh { l with phase := .release after }
  | empty {after : Option Table} (hphase : l.phase = .release after) (hslots : l.slots = none) :
    Steps sh l sh (released l after)
  | park {after : Option Table} {buf : Nat} (hphase : l.phase = .release after) (hslots : l.slots = some buf)
      (hwindow : InWindow l.capacity) :
    Steps sh l { sh with slots := some buf, capacity := l.capacity } { l with phase := .delete sh.slots after }
  | drop {after : Option Table} {buf : Nat} (hphase : l.phase = .release after) (hslots : l.slots = some buf) :
    Steps sh l sh { l with phase := .delete (some buf) after }
  | gone {after : Option Table} (hphase : l.phase = .delete none after) : Steps sh l sh (released l after)
  | delete {after : Option Table} {buf : Nat} (hphase : l.phase = .delete (some buf) after) :
    Steps sh l { sh with frees := Function.update sh.frees buf (sh.frees buf + 1) } (released l after)
  | taken {t : Table} {buf : Nat} (hphase : l.phase = .take t) (hslots : sh.slots = some buf)
      (hcapacity : sh.capacity = l.capacity) :
    Steps sh l { sh with slots := none, capacity := 0 } { l with slots := some buf, phase := .fill t }
  | missed {t : Table} (hphase : l.phase = .take t) : Steps sh l sh { l with slots := none, phase := .allocate t }
  | outside {t : Table} (hphase : l.phase = .take t) : Steps sh l sh { l with phase := .allocate t }
  | failed {t : Table} (hphase : l.phase = .allocate t) :
    Steps sh l sh { l with capacity := 0, mask := 0, phase := .idle }
  | allocated {t : Table} {contents : List HashSlot} (hphase : l.phase = .allocate t)
      (hlength : contents.length = l.capacity.toNat) :
    Steps sh l { sh with heap := Function.update sh.heap sh.next contents, next := sh.next + 1 }
      { l with slots := some sh.next, phase := .fill t }
  | filled {t : Table} {buf : Nat} {slots : List HashSlot} (hphase : l.phase = .fill t) (hslots : l.slots = some buf)
      (hfill : refill t l.capacity l.mask (sh.heap buf) = .ok slots) :
    Steps sh l { sh with heap := Function.update sh.heap buf slots } { l with phase := .idle, table := some t }
  | fault {t : Table} {fault : Fault} (hphase : l.phase = .fill t) : Steps sh l sh { l with phase := .faulted fault }

theorem steps_of_step {sh sh' : Shared} {l l' : Local} {a : Action} (h : step sh l a = some (sh', l')) :
    Steps sh l sh' l' := by
  cases a with
  | build t =>
    cases hphase : l.phase <;> simp only [step, hphase, reduceCtorEq] at h
    obtain ⟨rfl, rfl⟩ := Prod.mk.inj (Option.some.inj h)
    exact .begin hphase
  | destroy =>
    cases hphase : l.phase <;> simp only [step, hphase, reduceCtorEq] at h
    obtain ⟨rfl, rfl⟩ := Prod.mk.inj (Option.some.inj h)
    exact .begin hphase
  | proceed allocated =>
    cases hphase : l.phase with
    | idle | faulted _ =>
      simp only [step, hphase, reduceCtorEq] at h
    | release after =>
      simp only [step, hphase] at h
      split at h
      · rename_i hslots
        obtain ⟨rfl, rfl⟩ := Prod.mk.inj (Option.some.inj h)
        exact .empty hphase hslots
      · rename_i buf hslots
        split at h
        · rename_i hwindow
          rw [offer] at h
          split at h
          · obtain ⟨rfl, rfl⟩ := Prod.mk.inj (Option.some.inj h)
            exact .park hphase hslots hwindow
          · obtain ⟨rfl, rfl⟩ := Prod.mk.inj (Option.some.inj h)
            exact .drop hphase hslots
        · obtain ⟨rfl, rfl⟩ := Prod.mk.inj (Option.some.inj h)
          exact .drop hphase hslots
    | delete stale after =>
      simp only [step, hphase] at h
      cases stale with
      | none =>
        obtain ⟨rfl, rfl⟩ := Prod.mk.inj (Option.some.inj h)
        exact .gone hphase
      | some buf =>
        obtain ⟨rfl, rfl⟩ := Prod.mk.inj (Option.some.inj h)
        exact .delete hphase
    | take t =>
      simp only [step, hphase] at h
      split at h
      · rw [take] at h
        split at h
        · rename_i htake
          obtain ⟨buf, hbuf⟩ := Option.isSome_iff_exists.mp htake.1
          obtain ⟨rfl, rfl⟩ := Prod.mk.inj (Option.some.inj h)
          rw [hbuf]
          exact .taken hphase hbuf htake.2
        · obtain ⟨rfl, rfl⟩ := Prod.mk.inj (Option.some.inj h)
          exact .missed hphase
      · obtain ⟨rfl, rfl⟩ := Prod.mk.inj (Option.some.inj h)
        exact .outside hphase
    | allocate t =>
      simp only [step, hphase] at h
      cases allocated with
      | none =>
        obtain ⟨rfl, rfl⟩ := Prod.mk.inj (Option.some.inj h)
        exact .failed hphase
      | some contents =>
        dsimp only at h
        split at h
        · rename_i hlength
          obtain ⟨rfl, rfl⟩ := Prod.mk.inj (Option.some.inj h)
          exact .allocated hphase hlength
        · cases h
    | fill t =>
      simp only [step, hphase] at h
      split at h
      · cases h
      · rename_i buf hslots
        split at h
        · rename_i slots hfill
          obtain ⟨rfl, rfl⟩ := Prod.mk.inj (Option.some.inj h)
          exact .filled hphase hslots hfill
        · obtain ⟨rfl, rfl⟩ := Prod.mk.inj (Option.some.inj h)
          exact .fault hphase

def IsBuilt (heap : Nat → List HashSlot) (l : Local) (buf : Nat) : Prop :=
  ∃ t, l.table = some t ∧ HashIndex.build t true = .ok ⟨some (heap buf), l.capacity, l.mask⟩

def IsSized (t : Table) (l : Local) : Prop :=
  l.capacity = nextPow2 (t.count * 2) ∧ l.mask = nextPow2 (t.count * 2) - 1

def Sound (heap : Nat → List HashSlot) (l : Local) : Prop :=
  match l.phase with
  | .idle | .release _ => ∀ buf, l.slots = some buf → (heap buf).length = l.capacity.toNat ∧ IsBuilt heap l buf
  | .delete _ _ => True
  | .take t | .allocate t => l.slots = none ∧ IsSized t l
  | .fill t => ∀ buf, l.slots = some buf → (heap buf).length = l.capacity.toNat ∧ IsSized t l
  | .faulted _ => ∀ buf, l.slots = some buf → (heap buf).length = l.capacity.toNat

theorem hand_released (l : Local) (after : Option Table) : hand (released l after) = none := by
  cases after <;> rfl

theorem released_sound (heap : Nat → List HashSlot) (l : Local) (after : Option Table) :
    Sound heap (released l after) := by
  cases after with
  | none => exact fun buf h => nomatch h
  | some t => exact ⟨rfl, rfl, rfl⟩

theorem Sound.congr {heap heap' : Nat → List HashSlot} {l : Local} (h : Sound heap l)
    (hheap : ∀ buf, hand l = some buf → heap' buf = heap buf) : Sound heap' l := by
  rw [Sound] at h ⊢
  rw [hand] at hheap
  cases hphase : l.phase <;> rw [hphase] at h hheap
  case delete stale after => trivial
  case take t => exact h
  case allocate t => exact h
  all_goals
    intro buf hbuf
    have heq := hheap buf hbuf
    first
      | rw [IsBuilt, heq]
        exact h buf hbuf
      | rw [heq]
        exact h buf hbuf

/-- A buffer that is as long as it is said to be comes out of `memset` as if it were fresh. -/
theorem refill_eq {t : Table} {capacity mask : UInt32} {buffer : List HashSlot} (h : buffer.length = capacity.toNat) :
    refill t capacity mask buffer = fill mask 0 t.entries (List.replicate capacity.toNat ⟨0, 0⟩) := by
  rw [refill, if_neg (Nat.not_lt.mpr h.ge), List.drop_eq_nil_of_le h.le, List.append_nil]

private theorem build_of_refill {t : Table} {l : Local} {buffer slots : List HashSlot} (hsized : IsSized t l)
    (hlength : buffer.length = l.capacity.toNat) (h : refill t l.capacity l.mask buffer = .ok slots) :
    HashIndex.build t true = .ok ⟨some slots, l.capacity, l.mask⟩ := by
  rw [refill_eq hlength, hsized.1, hsized.2] at h
  rw [HashIndex.build, if_pos rfl, h, hsized.1, hsized.2]
  rfl

private theorem freeSlot_ok_length {mask : UInt32} {slots : List HashSlot} {i : UInt32} {e : Entry} {slots' : List HashSlot}
    (h : place slots mask i e = .ok slots') : slots'.length = slots.length := by
  rw [place] at h
  cases hfree : freeSlot slots mask (slots.length + 1) (e.nameHash &&& mask) with
  | error fault =>
    rw [hfree] at h
    cases h
  | ok pos =>
    rw [hfree] at h
    obtain rfl := Except.ok.inj h
    exact List.length_set

theorem fill_length {mask : UInt32} {i : UInt32} {es : List Entry} {slots slots' : List HashSlot}
    (h : fill mask i es slots = .ok slots') : slots'.length = slots.length := by
  induction es generalizing i slots with
  | nil =>
    obtain rfl := Except.ok.inj h
    rfl
  | cons e rest ih =>
    rw [fill] at h
    cases hplace : place slots mask i e with
    | error fault =>
      rw [hplace] at h
      cases h
    | ok placed =>
      rw [hplace] at h
      exact (ih h).trans (freeSlot_ok_length hplace)

section Invariant
variable {Tid : Type} [DecidableEq Tid] {c c' : Config Tid Shared Local} {t : Tid} {a : Action}

/-- Each buffer has one owner, who has its capacity right, and each index is what it was built to be. -/
structure Owned (c : Config Tid Shared Local) : Prop where
  sole : (places c).Sole
  pool : ∀ buf, c.shared.slots = some buf →
    (c.shared.heap buf).length = c.shared.capacity.toNat ∧ InWindow c.shared.capacity
  index : ∀ t, Sound c.shared.heap (c.locals t)

/-- A step changes what the pool has and what its index has. -/
theorem places_update (sh : Shared) (l : Local) :
    places ⟨sh, Function.update c.locals t l⟩ =
      ⟨Function.update (Function.update (places c).held none sh.slots) (some t) (hand l), sh.frees, sh.next⟩ := by
  apply Places.ext
  · funext p
    dsimp only
    cases p with
    | none =>
      rw [Function.update_of_ne (Option.some_ne_none t).symm, Function.update_self]
      rfl
    | some u =>
      by_cases hu : u = t
      · subst hu
        rw [Function.update_self]
        show hand (Function.update c.locals u l u) = hand l
        rw [Function.update_self]
      · have hne : (some u : Option Tid) ≠ some t := fun h => hu (Option.some.inj h)
        rw [Function.update_of_ne hne, Function.update_of_ne (Option.some_ne_none u)]
        show hand (Function.update c.locals t l u) = hand (c.locals u)
        rw [Function.update_of_ne hu]
  · rfl
  · rfl

theorem move_of_stay {sh : Shared} {l : Local} (hslots : sh.slots = c.shared.slots)
    (hhand : hand l = hand (c.locals t)) (hfrees : sh.frees = c.shared.frees) (hnext : sh.next = c.shared.next) :
    Places.Move (places c) (places ⟨sh, Function.update c.locals t l⟩) := by
  have hself : places ⟨sh, Function.update c.locals t l⟩ = places c := by
    rw [places_update, hslots, hhand, hfrees, hnext]
    have hpool : Function.update (places c).held none c.shared.slots = (places c).held :=
      Function.update_eq_self none (places c).held
    have hindex : Function.update (places c).held (some t) (hand (c.locals t)) = (places c).held :=
      Function.update_eq_self (some t) (places c).held
    rw [hpool, hindex]
    rfl
  rw [hself]
  exact .stay _

/-- The pool and an index exchange what they have. -/
theorem move_of_swap {sh : Shared} {l : Local} (hslots : sh.slots = hand (c.locals t))
    (hhand : hand l = c.shared.slots) (hfrees : sh.frees = c.shared.frees) (hnext : sh.next = c.shared.next) :
    Places.Move (places c) (places ⟨sh, Function.update c.locals t l⟩) := by
  have hswap : Function.update (Function.update (places c).held none sh.slots) (some t) (hand l) =
      (places c).held ∘ Equiv.swap (some t) none := by
    rw [Equiv.comp_swap_eq_update, hslots, hhand]
    rfl
  rw [places_update, hswap, hfrees, hnext]
  exact .swap (places c) (some t) none

private theorem places_move (hsound : Sound c.shared.heap (c.locals t)) {sh : Shared} {l : Local}
    (h : Steps c.shared (c.locals t) sh l) :
    Places.Move (places c) (places ⟨sh, Function.update c.locals t l⟩) := by
  rw [Sound] at hsound
  cases h with
  | begin hphase | fault hphase =>
    apply move_of_stay rfl _ rfl rfl
    simp only [hand, hphase]
  | empty hphase hslots =>
    apply move_of_stay rfl _ rfl rfl
    rw [hand_released]
    simp only [hand, hphase, hslots]
  | park hphase hslots =>
    apply move_of_swap
    · simp only [hand, hphase, hslots]
    all_goals rfl
  | drop hphase hslots =>
    apply move_of_stay rfl _ rfl rfl
    simp only [hand, hphase, hslots]
  | gone hphase =>
    apply move_of_stay rfl _ rfl rfl
    rw [hand_released]
    simp only [hand, hphase]
  | delete hphase =>
    rename_i after buf
    have hheld : (places c).held (some t) = some buf := by
      show hand (c.locals t) = some buf
      simp only [hand, hphase]
    have hpool : Function.update (places c).held none c.shared.slots = (places c).held :=
      Function.update_eq_self none (places c).held
    rw [places_update, hand_released, hpool]
    exact .free (places c) hheld
  | taken hphase hslots =>
    rw [hphase] at hsound
    apply move_of_swap
    · simp only [hand, hphase, hsound.1]
    · exact hslots.symm
    all_goals rfl
  | missed hphase | outside hphase | failed hphase =>
    rw [hphase] at hsound
    apply move_of_stay rfl _ rfl rfl
    simp only [hand, hphase, hsound.1]
  | allocated hphase =>
    rw [hphase] at hsound
    have hheld : (places c).held (some t) = none := by
      show hand (c.locals t) = none
      simp only [hand, hphase, hsound.1]
    have hpool : Function.update (places c).held none c.shared.slots = (places c).held :=
      Function.update_eq_self none (places c).held
    rw [places_update, hpool]
    exact .fresh (places c) hheld
  | filled hphase =>
    apply move_of_stay rfl _ rfl rfl
    simp only [hand, hphase]

/-- What a step leaves in the heap, apart from a buffer that is new or the index's own. -/
theorem heap_kept {sh sh' : Shared} {l l' : Local} (h : Steps sh l sh' l') {buf : Nat} (hlive : buf < sh.next)
    (hother : hand l ≠ some buf) : sh'.heap buf = sh.heap buf := by
  cases h with
  | allocated => exact Function.update_of_ne (Nat.ne_of_lt hlive) _ _
  | filled hphase hslots hfill =>
    rename_i own slots
    have hne : buf ≠ own := by
      rintro rfl
      apply hother
      simp only [hand, hphase, hslots]
    exact Function.update_of_ne hne _ _
  | _ => rfl

private theorem steps_sound {sh sh' : Shared} {l l' : Local} (h : Steps sh l sh' l') (hsound : Sound sh.heap l)
    (hpool : ∀ buf, sh.slots = some buf → (sh.heap buf).length = sh.capacity.toNat) : Sound sh'.heap l' := by
  rw [Sound] at hsound
  cases h with
  | begin hphase =>
    rw [hphase] at hsound
    exact hsound
  | empty | gone | delete => exact released_sound _ _ _
  | park | drop => trivial
  | taken hphase hslots hcapacity =>
    rw [hphase] at hsound
    intro buf hbuf
    obtain rfl := Option.some.inj hbuf
    exact ⟨(hpool _ hslots).trans (congrArg UInt32.toNat hcapacity), hsound.2⟩
  | missed hphase =>
    rw [hphase] at hsound
    exact ⟨rfl, hsound.2⟩
  | outside hphase =>
    rw [hphase] at hsound
    exact hsound
  | failed hphase =>
    rw [hphase] at hsound
    intro buf hbuf
    cases hsound.1.symm.trans hbuf
  | allocated hphase hlength =>
    rw [hphase] at hsound
    intro buf hbuf
    obtain rfl := Option.some.inj hbuf
    refine ⟨?_, hsound.2⟩
    dsimp only
    rw [Function.update_self, hlength]
  | filled hphase hslots hfill =>
    rw [hphase] at hsound
    obtain ⟨hlength, hsized⟩ := hsound _ hslots
    intro buf hbuf
    obtain rfl := Option.some.inj (hslots.symm.trans hbuf)
    have hbuilt := build_of_refill hsized hlength hfill
    rw [refill_eq hlength] at hfill
    refine ⟨?_, _, rfl, ?_⟩
    · dsimp only
      rw [Function.update_self, fill_length hfill, List.length_replicate]
    · dsimp only
      rw [Function.update_self, hbuilt]
  | fault hphase =>
    rw [hphase] at hsound
    exact fun buf hbuf => (hsound buf hbuf).1

private theorem owned_step (h : Owned c) (hnext : (program Tid).next c t a = some c') : Owned c' := by
  obtain ⟨sh, l, hstep, rfl⟩ := Program.next_eq_some_iff.mp hnext
  have hsteps := steps_of_step hstep
  have hmove := places_move (h.index t) hsteps
  -- buffers that the others have are as they were
  have hkept : ∀ p buf, p ≠ some t → (places c).held p = some buf → sh.heap buf = c.shared.heap buf := by
    intro p buf hp hheld
    apply heap_kept hsteps (h.sole.live p buf hheld).1
    exact fun hown => hp (h.sole.unique p (some t) buf hheld hown)
  refine ⟨h.sole.move hmove, fun buf hbuf => ?_, fun u => ?_⟩
  · have hfits : ∀ buf, c.shared.slots = some buf →
        (sh.heap buf).length = c.shared.capacity.toNat ∧ InWindow c.shared.capacity := by
      intro buf hbuf
      rw [hkept none buf (Option.some_ne_none t).symm hbuf]
      exact h.pool buf hbuf
    cases hsteps with
    | park hphase hslots hwindow =>
      obtain rfl := Option.some.inj hbuf
      have hsound := h.index t
      rw [Sound, hphase] at hsound
      exact ⟨(hsound _ hslots).1, hwindow⟩
    | taken => cases hbuf
    | _ => exact hfits buf hbuf
  · by_cases hu : u = t
    · subst hu
      show Sound sh.heap (Function.update c.locals u l u)
      rw [Function.update_self]
      exact steps_sound hsteps (h.index u) fun buf hbuf => (h.pool buf hbuf).1
    · show Sound sh.heap (Function.update c.locals t l u)
      rw [Function.update_of_ne hu]
      refine (h.index u).congr fun buf hbuf => ?_
      exact hkept (some u) buf (fun heq => hu (Option.some.inj heq)) hbuf

private theorem owned_of_reachable (h : (program Tid).Reachable Program.anyStep (init Tid) c) : Owned c := by
  refine h.invariant ⟨?_, fun buf hbuf => absurd hbuf (Option.some_ne_none buf).symm,
    fun t => released_sound _ {} none⟩ fun c t a c' hc _ hnext => owned_step hc hnext
  have hempty : places (init Tid) = ⟨fun _ => none, fun _ => 0, 0⟩ := by
    apply Places.ext
    · funext p
      cases p <;> rfl
    · rfl
    · rfl
  rw [hempty]
  exact Places.sole_empty

/-- What an index lets go of is parked or freed. -/
theorem steps_let_go {sh sh' : Shared} {l l' : Local} (h : Steps sh l sh' l') (hsound : Sound sh.heap l) {buf : Nat}
    (hbuf : hand l = some buf) (hgone : hand l' ≠ some buf) :
    sh'.slots = some buf ∨ sh'.frees buf = sh.frees buf + 1 := by
  rw [hand] at hbuf
  rw [Sound] at hsound
  cases h with
  | park hphase hslots =>
    simp only [hphase] at hbuf
    exact .inl (hslots.symm.trans hbuf)
  | delete hphase =>
    simp only [hphase] at hbuf
    obtain rfl := Option.some.inj hbuf
    exact .inr (Function.update_self ..)
  | empty hphase hslots =>
    simp only [hphase] at hbuf
    cases hslots.symm.trans hbuf
  | gone hphase =>
    simp only [hphase] at hbuf
    cases hbuf
  | drop hphase hslots =>
    simp only [hphase] at hbuf
    exact absurd (hslots.symm.trans hbuf) hgone
  | begin hphase | outside hphase | failed hphase | filled hphase | fault hphase =>
    simp only [hphase] at hbuf
    exact absurd hbuf hgone
  | missed hphase | taken hphase | allocated hphase =>
    rw [hphase] at hsound
    simp only [hphase] at hbuf
    cases hsound.1.symm.trans hbuf

/-- An index has its own buffer, unless its release has begun to free one. -/
theorem Sound.length {heap : Nat → List HashSlot} {l : Local} (h : Sound heap l) {buf : Nat}
    (hphase : ∀ stale after, l.phase ≠ .delete stale after) (hslots : l.slots = some buf) :
    (heap buf).length = l.capacity.toNat := by
  rw [Sound] at h
  cases heq : l.phase <;> rw [heq] at h
  case delete stale after => exact absurd heq (hphase stale after)
  case take t => cases h.1.symm.trans hslots
  case allocate t => cases h.1.symm.trans hslots
  case faulted fault => exact h buf hslots
  all_goals exact (h buf hslots).1

end Invariant

/-- In every run of builds and destroys, on any number of indexes at once, a buffer that was allocated has
one owner, or was freed once and has none; the owner has its capacity right; the pool keeps only what is in
the window; what an index lets go of is parked or freed; and an index is the one over a fresh buffer. -/
theorem slot_buffers_have_one_owner {Tid : Type} [DecidableEq Tid] {c : Config Tid Shared Local}
    (h : (program Tid).Reachable Program.anyStep (init Tid) c) :
    (∀ buf < c.shared.next, (c.shared.frees buf = 0 ∧ ∃! p, (places c).held p = some buf) ∨
      (c.shared.frees buf = 1 ∧ ∀ p, (places c).held p ≠ some buf)) ∧
    (∀ p buf, (places c).held p = some buf → buf < c.shared.next) ∧
    (∀ buf, c.shared.slots = some buf →
      (c.shared.heap buf).length = c.shared.capacity.toNat ∧ InWindow c.shared.capacity) ∧
    (∀ t buf, (∀ stale after, (c.locals t).phase ≠ .delete stale after) → (c.locals t).slots = some buf →
      (c.shared.heap buf).length = (c.locals t).capacity.toNat) ∧
    (∀ t a c', (program Tid).next c t a = some c' → ∀ buf, hand (c.locals t) = some buf →
      hand (c'.locals t) ≠ some buf → c'.shared.slots = some buf ∨ c'.shared.frees buf = 1) ∧
    ∀ t buf, (c.locals t).phase = .idle → (c.locals t).slots = some buf → ∃ table, (c.locals t).table = some table ∧
      HashIndex.build table true =
        .ok ⟨some (c.shared.heap buf), (c.locals t).capacity, (c.locals t).mask⟩ := by
  have howned := owned_of_reachable h
  refine ⟨fun buf hlt => ?_, fun p buf hheld => (howned.sole.live p buf hheld).1, howned.pool,
    fun t buf hphase hslots => (howned.index t).length hphase hslots, fun t a c' hnext buf hbuf hgone => ?_,
    fun t buf hphase hslots => ?_⟩
  · by_cases hzero : c.shared.frees buf = 0
    · obtain ⟨p, hp⟩ := howned.sole.kept buf hlt hzero
      exact .inl ⟨hzero, p, hp, fun q hq => howned.sole.unique q p buf hq hp⟩
    · have honce : c.shared.frees buf ≤ 1 := howned.sole.once buf
      exact .inr ⟨by omega, fun p hp => hzero (howned.sole.live p buf hp).2⟩
  · obtain ⟨sh, l, hstep, rfl⟩ := Program.next_eq_some_iff.mp hnext
    have hlive : c.shared.frees buf = 0 := (howned.sole.live (some t) buf hbuf).2
    dsimp only at hgone
    rw [Function.update_self] at hgone
    have hlet := steps_let_go (steps_of_step hstep) (howned.index t) hbuf hgone
    rwa [hlive] at hlet
  · have hsound := howned.index t
    rw [Sound, hphase] at hsound
    exact (hsound buf hslots).2

/-- A table that is not too long fills every buffer of its capacity. -/
theorem refill_ok {t : Table} (hcount : t.count.toNat ≤ 2 ^ 30) {buffer : List HashSlot}
    (h : buffer.length = (nextPow2 (t.count * 2)).toNat) :
    ∃ slots, refill t (nextPow2 (t.count * 2)) (nextPow2 (t.count * 2) - 1) buffer = .ok slots := by
  obtain ⟨idx, slots, -, hbuild, -⟩ := build_eq t hcount
  rw [HashIndex.build, if_pos rfl] at hbuild
  rw [refill_eq h]
  cases hfill : fill (nextPow2 (t.count * 2) - 1) 0 t.entries
      (List.replicate (nextPow2 (t.count * 2)).toNat ⟨0, 0⟩) with
  | error fault =>
    rw [hfill] at hbuild
    cases hbuild
  | ok filled => exact ⟨filled, rfl⟩

def buildAndDestroy (t : Table) (contents : List HashSlot) : List Action :=
  [.build t, .proceed none, .proceed none, .proceed (some contents), .proceed none, .destroy, .proceed none,
    .proceed none]

def buildInPooled (t : Table) : List Action := [.build t, .proceed none, .proceed none, .proceed none]

/-- A buffer that the pool takes goes to the next index of its capacity. -/
theorem parked_buffer_is_reused {t : Table} (hcount : t.count.toNat ≤ 2 ^ 30)
    (hwindow : InWindow (nextPow2 (t.count * 2))) {contents : List HashSlot}
    (hlength : contents.length = (nextPow2 (t.count * 2)).toNat) :
    ∃ c c', (program Bool).Reachable Program.anyStep (init Bool) c ∧ c.shared.slots = some 0 ∧
      (program Bool).Reachable Program.anyStep c c' ∧ c'.shared.next = 1 ∧ c'.shared.slots = none ∧
        (c'.locals false).phase = .idle ∧ (c'.locals false).slots = some 0 := by
  obtain ⟨slots, hslots⟩ := refill_ok hcount hlength
  obtain ⟨again, hagain⟩ := refill_ok hcount ((fill_length ((refill_eq hlength).symm.trans hslots)).trans
    List.length_replicate)
  let parked : Shared :=
    { slots := some 0, capacity := nextPow2 (t.count * 2), heap := Function.update (fun _ => []) 0 slots,
      next := 1 }
  let reused : Local :=
    { slots := some 0, capacity := nextPow2 (t.count * 2), mask := nextPow2 (t.count * 2) - 1, table := some t }
  have hpark : (program Bool).alone true (({} : Shared), ({} : Local)) (buildAndDestroy t contents) =
      some (parked, {}) := by
    simp [buildAndDestroy, Program.alone, program, step, released, take, offer, hwindow, hlength, hslots, parked]
  have hreuse : (program Bool).alone false (parked, ({} : Local)) (buildInPooled t) =
      some ({ parked with slots := none, capacity := 0, heap := Function.update parked.heap 0 again }, reused) := by
    simp [buildInPooled, Program.alone, program, step, released, take, hwindow, hagain, parked, reused]
  exact ⟨_, _, Program.Reachable.of_alone .init hpark, rfl, Program.Reachable.of_alone .init hreuse, rfl, rfl, rfl, rfl⟩

/-- A table of 2048 times one entry: its index has the least capacity that the pool keeps. -/
def longTable : Table where
  count := 2048
  entries := List.replicate 2048 ⟨[102], 7, 1, 16, 5⟩
  counted := List.length_replicate

theorem slot_buffers_have_one_owner_reused : ∃ c,
    (program Bool).Reachable Program.anyStep (init Bool) c ∧ c.shared.next = 1 ∧ (c.locals false).slots = some 0 ∧
      c.shared.frees 0 = 0 ∧ (∃! p, (places c).held p = some 0) ∧ ∃ table, (c.locals false).table = some table ∧
        HashIndex.build table true = .ok ⟨some (c.shared.heap 0), (c.locals false).capacity, (c.locals false).mask⟩ := by
  obtain ⟨parked, c, hparked, -, hreused, hnext, -, hphase, hslots⟩ :=
    @parked_buffer_is_reused longTable (by decide) (by decide) (List.replicate 4096 ⟨9, 9⟩) List.length_replicate
  have hreach := hparked.trans hreused
  obtain ⟨howner, -, -, -, -, hbuilt⟩ := slot_buffers_have_one_owner hreach
  have hheld : (places c).held (some false) = some 0 := by
    simp only [places, hand, hphase, hslots]
  obtain ⟨hlive, hone⟩ := (howner 0 (hnext ▸ Nat.one_pos)).resolve_right fun h => h.2 (some false) hheld
  exact ⟨c, hreach, hnext, hslots, hlive, hone, hbuilt false 0 hphase hslots⟩

end Abix.Runtime.SlotPool

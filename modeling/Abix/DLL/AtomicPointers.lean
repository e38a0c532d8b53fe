import Abix.Concurrency.Ledger
import Abix.Concurrency.Program

/-! `SharedPtr` and `WeakPtr` under many threads: the handles of one control block, each used by one
thread at a time, and every access to a count a step of its own. -/
namespace Abix.DLL.AtomicPointers
open Abix.Concurrency

/-- The counts, the handles that no operation uses, and what has happened: how often the callback
began and the block was freed, whether the block was accessed after that, and whether `lock`
returned an owner after the callback had begun. -/
structure Shared where
  strongs : UInt32 := 1
  weaks : UInt32 := 0
  owners : Nat := 1
  observers : Nat := 0
  destroys : Nat := 0
  frees : Nat := 0
  stale : Bool := false
  revived : Bool := false
  deriving DecidableEq, Repr

inductive Pc where
  | idle
  /-- `reset` has taken `strongs` to zero and calls the callback. -/
  | calls
  /-- The callback runs; `_cb->ptr = nullptr` is next. -/
  | destroying
  /-- `reset` looks at `weaks`. -/
  | readsWeaks
  /-- `WeakPtr::release` has taken `weaks` to zero and looks at `strongs`. -/
  | readsStrongs
  | deallocs
  /-- `lock` has found the object alive and increments `strongs`. -/
  | locks
  deriving DecidableEq, Repr

inductive Action where
  | copyShared
  | copyWeak
  | observe
  | dropShared
  | dropWeak
  | lock
  | run
  deriving DecidableEq, Repr

def Shared.access (sh : Shared) : Shared := { sh with stale := sh.stale || 0 < sh.frees }

/-- One access. A copy leaves its source where it was; a drop ends the life of a handle; `lock`
keeps its handle until it returns. -/
def step (sh : Shared) : Action → Pc → Option (Shared × Pc)
  | .copyShared, .idle =>
    if 0 < sh.owners then some ({ sh.access with strongs := sh.strongs + 1, owners := sh.owners + 1 }, .idle) else none
  | .copyWeak, .idle =>
    if 0 < sh.observers then some ({ sh.access with weaks := sh.weaks + 1, observers := sh.observers + 1 }, .idle)
    else none
  | .observe, .idle =>
    if 0 < sh.owners then some ({ sh.access with weaks := sh.weaks + 1, observers := sh.observers + 1 }, .idle) else none
  | .dropShared, .idle =>
    if 0 < sh.owners then
      some ({ sh.access with strongs := sh.strongs - 1, owners := sh.owners - 1 },
        if sh.strongs - 1 = 0 then .calls else .idle)
    else none
  | .dropWeak, .idle =>
    if 0 < sh.observers then
      some ({ sh.access with weaks := sh.weaks - 1, observers := sh.observers - 1 },
        if sh.weaks - 1 = 0 then .readsStrongs else .idle)
    else none
  | .lock, .idle =>
    if 0 < sh.observers then
      if sh.strongs = 0 then some (sh.access, .idle)
      else some ({ sh.access with observers := sh.observers - 1 }, .locks)
    else none
  | .run, .calls => some ({ sh.access with destroys := sh.destroys + 1 }, .destroying)
  | .run, .destroying => some (sh.access, .readsWeaks)
  | .run, .readsWeaks => some (sh.access, if sh.weaks = 0 then .deallocs else .idle)
  | .run, .readsStrongs => some (sh.access, if sh.strongs = 0 then .deallocs else .idle)
  | .run, .deallocs => some ({ sh with frees := sh.frees + 1 }, .idle)
  | .run, .locks =>
    some ({ sh.access with
      strongs := sh.strongs + 1
      owners := sh.owners + 1
      observers := sh.observers + 1
      revived := sh.revived || 0 < sh.destroys }, .idle)
  | _, _ => none

def program (Tid : Type) : Program Tid Shared Pc Action where
  step _ sh pc a := step sh a pc

def initial (Tid : Type) : Config Tid Shared Pc := ⟨{}, fun _ => .idle⟩

variable {Tid : Type} [Fintype Tid] [DecidableEq Tid]

def Pc.isLast : Pc → Bool
  | .calls | .destroying | .readsWeaks => true
  | .idle | .readsStrongs | .deallocs | .locks => false

/-- The condition on a step: the last owner does not go while a weak drop has yet to look at
`strongs`, the last observer does not go while the last owner has yet to look at `weaks`, `lock`
increments only what is not zero, and no count is at its maximum when it is incremented. -/
def Orderly (c : Config Tid Shared Pc) (t : Tid) : Action → Prop
  | .copyShared => c.shared.strongs.toNat + 1 < 2 ^ 32
  | .copyWeak | .observe => c.shared.weaks.toNat + 1 < 2 ^ 32
  | .dropShared => c.shared.strongs = 1 → ∀ u, c.locals u ≠ .readsStrongs
  | .dropWeak => c.shared.weaks = 1 → ∀ u, (c.locals u).isLast = false
  | .lock => True
  | .run => c.locals t = .locks → c.shared.strongs ≠ 0 ∧ c.shared.strongs.toNat + 1 < 2 ^ 32

instance (c : Config Tid Shared Pc) (t : Tid) (a : Action) : Decidable (Orderly c t a) :=
  match a with
  | .copyShared => inferInstanceAs (Decidable (_ < _))
  | .copyWeak | .observe => inferInstanceAs (Decidable (_ < _))
  | .dropShared => inferInstanceAs (Decidable (_ → ∀ u, c.locals u ≠ .readsStrongs))
  | .dropWeak => inferInstanceAs (Decidable (_ → ∀ u, (c.locals u).isLast = false))
  | .lock => inferInstanceAs (Decidable True)
  | .run => inferInstanceAs (Decidable (_ → _ ∧ _))

/-- The callback begins once and the block is freed once, when nobody uses them any more; nothing
accesses the block afterwards, and `lock` revives nothing. -/
structure Sound (c : Config Tid Shared Pc) : Prop where
  stale : c.shared.stale = false
  revived : c.shared.revived = false
  destroys_le : c.shared.destroys ≤ 1
  frees_le : c.shared.frees ≤ 1
  owned : 0 < c.shared.owners → c.shared.destroys = 0
  observed : 0 < c.shared.owners + c.shared.observers → c.shared.frees = 0
  destroyed : c.shared.owners = 0 → (∀ t, c.locals t = .idle) → c.shared.destroys = 1
  freed : c.shared.owners = 0 → c.shared.observers = 0 → (∀ t, c.locals t = .idle) → c.shared.frees = 1

def number (locals : Tid → Pc) (pc : Pc) : Nat := total (fun l => if l = pc then 1 else 0) locals

inductive Moves (sh : Shared) : Action → Pc → Shared → Pc → Prop
  | copiesShared : 0 < sh.owners →
      Moves sh .copyShared .idle { sh.access with strongs := sh.strongs + 1, owners := sh.owners + 1 } .idle
  | copiesWeak : 0 < sh.observers →
      Moves sh .copyWeak .idle { sh.access with weaks := sh.weaks + 1, observers := sh.observers + 1 } .idle
  | observes : 0 < sh.owners →
      Moves sh .observe .idle { sh.access with weaks := sh.weaks + 1, observers := sh.observers + 1 } .idle
  | dropsShared : 0 < sh.owners → sh.strongs ≠ 1 →
      Moves sh .dropShared .idle { sh.access with strongs := sh.strongs - 1, owners := sh.owners - 1 } .idle
  | dropsLast : 0 < sh.owners → sh.strongs = 1 →
      Moves sh .dropShared .idle { sh.access with strongs := sh.strongs - 1, owners := sh.owners - 1 } .calls
  | dropsWeak : 0 < sh.observers → sh.weaks ≠ 1 →
      Moves sh .dropWeak .idle { sh.access with weaks := sh.weaks - 1, observers := sh.observers - 1 } .idle
  | dropsLastWeak : 0 < sh.observers → sh.weaks = 1 →
      Moves sh .dropWeak .idle { sh.access with weaks := sh.weaks - 1, observers := sh.observers - 1 } .readsStrongs
  | expired : 0 < sh.observers → sh.strongs = 0 → Moves sh .lock .idle sh.access .idle
  | alive : 0 < sh.observers → sh.strongs ≠ 0 →
      Moves sh .lock .idle { sh.access with observers := sh.observers - 1 } .locks
  | begins : Moves sh .run .calls { sh.access with destroys := sh.destroys + 1 } .destroying
  | ends : Moves sh .run .destroying sh.access .readsWeaks
  | unobserved : sh.weaks = 0 → Moves sh .run .readsWeaks sh.access .deallocs
  | observed : sh.weaks ≠ 0 → Moves sh .run .readsWeaks sh.access .idle
  | unowned : sh.strongs = 0 → Moves sh .run .readsStrongs sh.access .deallocs
  | owned : sh.strongs ≠ 0 → Moves sh .run .readsStrongs sh.access .idle
  | frees : Moves sh .run .deallocs { sh with frees := sh.frees + 1 } .idle
  | locks : Moves sh .run .locks
      { sh.access with
        strongs := sh.strongs + 1
        owners := sh.owners + 1
        observers := sh.observers + 1
        revived := sh.revived || 0 < sh.destroys } .idle

theorem sub_one_eq_zero {a : UInt32} : a - 1 = 0 ↔ a = 1 := by
  rw [UInt32.sub_eq_iff_eq_add, UInt32.zero_add]

theorem moves_of_step {sh sh' : Shared} {a : Action} {pc pc' : Pc} (h : step sh a pc = some (sh', pc')) :
    Moves sh a pc sh' pc' := by
  unfold step at h
  split at h
  case h_1 | h_2 | h_3 =>
    split at h <;> cases h
    constructor
    assumption
  case h_4 =>
    split at h
    · rename_i hpos
      cases h
      by_cases hone : sh.strongs = 1
      · rw [if_pos (sub_one_eq_zero.mpr hone)]
        exact .dropsLast hpos hone
      · rw [if_neg (mt sub_one_eq_zero.mp hone)]
        exact .dropsShared hpos hone
    · cases h
  case h_5 =>
    split at h
    · rename_i hpos
      cases h
      by_cases hone : sh.weaks = 1
      · rw [if_pos (sub_one_eq_zero.mpr hone)]
        exact .dropsLastWeak hpos hone
      · rw [if_neg (mt sub_one_eq_zero.mp hone)]
        exact .dropsWeak hpos hone
    · cases h
  case h_6 =>
    split at h
    · rename_i hpos
      split at h
      · rename_i hzero
        cases h
        exact .expired hpos hzero
      · rename_i halive
        cases h
        exact .alive hpos halive
    · cases h
  case h_7 =>
    cases h
    exact .begins
  case h_8 =>
    cases h
    exact .ends
  case h_9 =>
    by_cases hzero : sh.weaks = 0
    · rw [if_pos hzero] at h
      cases h
      exact .unobserved hzero
    · rw [if_neg hzero] at h
      cases h
      exact .observed hzero
  case h_10 =>
    by_cases hzero : sh.strongs = 0
    · rw [if_pos hzero] at h
      cases h
      exact .unowned hzero
    · rw [if_neg hzero] at h
      cases h
      exact .owned hzero
  case h_11 =>
    cases h
    exact .frees
  case h_12 =>
    cases h
    exact .locks
  case h_13 => cases h

/-- How far the block is on its way out, in numbers: of owners, of observers, of the threads that
are about to call the callback, in it, about to look at `weaks`, about to look at `strongs` and about
to free, of callbacks and of frees. While there is an owner, nothing has happened; without one, either
the last owner is on its way and the block is its business, or it has gone by, and the block is
freed by whoever finds it without observers. -/
structure Phase (owners observers calls runs looks strays deallocs destroys frees : Nat) : Prop where
  alive : 0 < owners → calls + runs + looks = 0 ∧ deallocs = 0 ∧ destroys = 0 ∧ frees = 0
  gone : owners = 0 → destroys + calls = 1 ∧ calls + runs + looks ≤ 1
  dying : owners = 0 → 0 < calls + runs + looks → strays + deallocs + frees = 0
  watched : owners = 0 → calls + runs + looks = 0 → 0 < observers → strays + deallocs + frees = 0
  unwatched : owners = 0 → calls + runs + looks = 0 → observers = 0 → strays + deallocs + frees = 1

namespace Phase
variable {o o' v v' q d r l f y z : Nat}

/-- Whoever has a handle, or is on the way through a drop, finds the block. -/
theorem frees_eq (hp : Phase o v q d r l f y z) (h : 0 < o + v + q + d + r + l) : z = 0 := by
  obtain ⟨halive, -, hdying, hwatched, hunwatched⟩ := hp
  omega

/-- As long as there is an owner, the counts go up and down freely. -/
theorem counts (hp : Phase o v q d r l f y z) (ho : 0 < o) (ho' : 0 < o') : Phase o' v' q d r l f y z := by
  obtain ⟨hzero, hcalm⟩ := hp.alive ho
  exact ⟨fun _ => ⟨hzero, hcalm⟩, by omega, by omega, by omega, by omega⟩

/-- As long as there is an observer, their count goes up and down freely. -/
theorem observed (hp : Phase o v q d r l f y z) (hv : 0 < v) (hv' : 0 < v') : Phase o v' q d r l f y z :=
  ⟨hp.alive, hp.gone, hp.dying, fun ho hzero _ => hp.watched ho hzero hv, by omega⟩

theorem lastOwner (hp : Phase o v q d r l f y z) (ho : 0 < o) (hl : l = 0) : Phase 0 v (q + 1) d r l f y z := by
  obtain ⟨hzero, hf, hy, hz⟩ := hp.alive ho
  exact ⟨by omega, by omega, by omega, by omega, by omega⟩

private theorem lastObserver (hp : Phase o v q d r l f y z) (hv : 0 < v) (hzero : q + d + r = 0) :
    Phase o 0 q d r (l + 1) f y z := by
  refine ⟨hp.alive, hp.gone, by omega, by omega, fun ho _ _ => ?_⟩
  have := hp.watched ho hzero hv
  omega

theorem begins (hp : Phase o v (q + 1) d r l f y z) : Phase o v q (d + 1) r l f (y + 1) z := by
  obtain ⟨halive, hgone, hdying, -, -⟩ := hp
  exact ⟨by omega, by omega, by omega, by omega, by omega⟩

theorem ends (hp : Phase o v q (d + 1) r l f y z) : Phase o v q d (r + 1) l f y z := by
  obtain ⟨halive, hgone, hdying, -, -⟩ := hp
  exact ⟨by omega, by omega, by omega, by omega, by omega⟩

/-- The last owner finds observers, and leaves the block to them. -/
theorem leaves (hp : Phase o v q d (r + 1) l f y z) (hv : 0 < v) : Phase o v q d r l f y z := by
  obtain ⟨halive, hgone, hdying, -, -⟩ := hp
  exact ⟨by omega, by omega, by omega, by omega, by omega⟩

theorem unobserved (hp : Phase o 0 q d (r + 1) l f y z) : Phase o 0 q d r l (f + 1) y z := by
  obtain ⟨halive, hgone, hdying, -, -⟩ := hp
  exact ⟨by omega, by omega, by omega, by omega, by omega⟩

/-- A weak drop finds owners, and leaves the block to them. -/
theorem passes (hp : Phase o v q d r (l + 1) f y z) (ho : 0 < o) : Phase o v q d r l f y z := by
  obtain ⟨hzero, hcalm⟩ := hp.alive ho
  exact ⟨fun _ => ⟨hzero, hcalm⟩, by omega, by omega, by omega, by omega⟩

theorem unowned (hp : Phase 0 v q d r (l + 1) f y z) : Phase 0 v q d r l (f + 1) y z := by
  obtain ⟨-, hgone, hdying, hwatched, hunwatched⟩ := hp
  exact ⟨by omega, hgone, by omega, by omega, by omega⟩

/-- Whoever is about to free the block is the last one who has to do with it. -/
theorem dealloc (hp : Phase o v q d r l (f + 1) y z) : Phase o v q d r l f y (z + 1) := by
  have ho : o = 0 := by
    by_contra hne
    have hcalm := hp.alive (Nat.pos_of_ne_zero hne)
    omega
  have hidle : q + d + r = 0 := by
    by_contra hne
    have hcalm := hp.dying ho (Nat.pos_of_ne_zero hne)
    omega
  have hv : v = 0 := by
    by_contra hne
    have hcalm := hp.watched ho hidle (Nat.pos_of_ne_zero hne)
    omega
  have hone := hp.unwatched ho hidle hv
  exact ⟨by omega, hp.gone, by omega, by omega, by omega⟩

end Phase

structure Balanced (sh : Shared) (n : Pc → Nat) : Prop where
  stale : sh.stale = false
  revived : sh.revived = false
  strongs : sh.strongs.toNat = sh.owners
  weaks : sh.weaks.toNat = sh.observers + n .locks
  phase : Phase sh.owners sh.weaks.toNat (n .calls) (n .destroying) (n .readsWeaks) (n .readsStrongs) (n .deallocs)
    sh.destroys sh.frees

structure Allowed (sh : Shared) (n : Pc → Nat) (a : Action) (pc : Pc) : Prop where
  copyShared : a = .copyShared → sh.strongs.toNat + 1 < 2 ^ 32
  copyWeak : a = .copyWeak ∨ a = .observe → sh.weaks.toNat + 1 < 2 ^ 32
  dropShared : a = .dropShared → sh.strongs = 1 → n .readsStrongs = 0
  dropWeak : a = .dropWeak → sh.weaks = 1 → n .calls + n .destroying + n .readsWeaks = 0
  locks : a = .run → pc = .locks → sh.strongs ≠ 0 ∧ sh.strongs.toNat + 1 < 2 ^ 32

theorem toNat_add_one {a : UInt32} (h : a.toNat + 1 < 2 ^ 32) : (a + 1).toNat = a.toNat + 1 := by
  rw [UInt32.toNat_add, UInt32.toNat_one, Nat.mod_eq_of_lt h]

theorem toNat_sub_one {a : UInt32} (h : 0 < a.toNat) : (a - 1).toNat = a.toNat - 1 :=
  UInt32.toNat_sub_of_le _ _ (UInt32.le_iff_toNat_le.mpr h)

theorem toNat_ne {a b : UInt32} (h : a ≠ b) : a.toNat ≠ b.toNat := mt UInt32.toNat_inj.mp h

variable {sh sh' : Shared} {n n' : Pc → Nat} {a : Action} {pc pc' : Pc}

/-- An access to a block that has not been freed. -/
theorem access_eq (h : sh.frees = 0) : sh.access = sh := by
  have hlive : (sh.stale || decide (0 < sh.frees)) = sh.stale := by simp [h]
  rw [Shared.access, hlive]

theorem Balanced.step (hb : Balanced sh n) (hm : Moves sh a pc sh' pc') (ha : Allowed sh n a pc)
    (hn : ∀ p, n' p + (if pc = p then 1 else 0) = n p + if pc' = p then 1 else 0) (hpos : 0 < n pc) :
    Balanced sh' n' := by
  obtain ⟨hstale, hrevived, hstrongs, hweaks, hphase⟩ := hb
  have haccess (h : 0 < sh.owners + sh.weaks.toNat + n .calls + n .destroying + n .readsWeaks + n .readsStrongs) :
      sh.access = sh := access_eq (hphase.frees_eq h)
  have hcalls := hn .calls
  have hdestroying := hn .destroying
  have hreadsWeaks := hn .readsWeaks
  have hreadsStrongs := hn .readsStrongs
  have hdeallocs := hn .deallocs
  have hlocks := hn .locks
  cases hm
  all_goals
    simp only [reduceCtorEq, if_true, if_false, Nat.add_zero]
      at hcalls hdestroying hreadsWeaks hreadsStrongs hdeallocs hlocks
  case copiesShared howned =>
    have hadd := toNat_add_one (ha.copyShared rfl)
    rw [haccess (by omega)]
    refine ⟨hstale, hrevived, ?_, ?_, ?_⟩
    · rw [hadd, hstrongs]
    · rw [hweaks, hlocks]
    · rw [hcalls, hdestroying, hreadsWeaks, hreadsStrongs, hdeallocs]
      exact hphase.counts howned (Nat.succ_pos _)
  case copiesWeak hobserved =>
    have hadd := toNat_add_one (ha.copyWeak (.inl rfl))
    rw [haccess (by omega)]
    refine ⟨hstale, hrevived, hstrongs, ?_, ?_⟩
    · rw [hadd, hweaks, hlocks, Nat.add_right_comm]
    · rw [hcalls, hdestroying, hreadsWeaks, hreadsStrongs, hdeallocs, hadd]
      exact hphase.observed (by omega) (Nat.succ_pos _)
  case observes howned =>
    have hadd := toNat_add_one (ha.copyWeak (.inr rfl))
    rw [haccess (by omega)]
    refine ⟨hstale, hrevived, hstrongs, ?_, ?_⟩
    · rw [hadd, hweaks, hlocks, Nat.add_right_comm]
    · rw [hcalls, hdestroying, hreadsWeaks, hreadsStrongs, hdeallocs]
      exact hphase.counts howned howned
  case dropsShared howned hmore =>
    have hsub := toNat_sub_one (hstrongs ▸ howned)
    have hne : sh.strongs.toNat ≠ 1 := toNat_ne hmore
    rw [haccess (by omega)]
    refine ⟨hstale, hrevived, ?_, ?_, ?_⟩
    · rw [hsub, hstrongs]
    · rw [hweaks, hlocks]
    · rw [hcalls, hdestroying, hreadsWeaks, hreadsStrongs, hdeallocs]
      exact hphase.counts howned (by dsimp only; omega)
  case dropsLast howned hone =>
    have hsub := toNat_sub_one (hstrongs ▸ howned)
    have hlast : sh.owners = 1 := hstrongs.symm.trans (congrArg UInt32.toNat hone)
    rw [haccess (by omega)]
    refine ⟨hstale, hrevived, ?_, ?_, ?_⟩
    · rw [hsub, hstrongs]
    · rw [hweaks, hlocks]
    · rw [hcalls, hdestroying, hreadsWeaks, hreadsStrongs, hdeallocs, hlast]
      exact hphase.lastOwner howned (ha.dropShared rfl hone)
  case dropsWeak hobserved hmore =>
    have hsub := toNat_sub_one (a := sh.weaks) (by omega)
    have hne : sh.weaks.toNat ≠ 1 := toNat_ne hmore
    rw [haccess (by omega)]
    refine ⟨hstale, hrevived, hstrongs, ?_, ?_⟩
    · rw [hsub, hweaks, hlocks, Nat.sub_add_comm hobserved]
    · rw [hcalls, hdestroying, hreadsWeaks, hreadsStrongs, hdeallocs, hsub]
      exact hphase.observed (by omega) (by omega)
  case dropsLastWeak hobserved hone =>
    have hsub := toNat_sub_one (a := sh.weaks) (by omega)
    have hlast : sh.weaks.toNat = 1 := congrArg UInt32.toNat hone
    rw [haccess (by omega)]
    refine ⟨hstale, hrevived, hstrongs, ?_, ?_⟩
    · rw [hsub, hweaks, hlocks, Nat.sub_add_comm hobserved]
    · rw [hcalls, hdestroying, hreadsWeaks, hreadsStrongs, hdeallocs, hsub, hlast]
      exact hphase.lastObserver (by omega) (ha.dropWeak rfl hone)
  case expired hobserved hzero =>
    rw [haccess (by omega)]
    refine ⟨hstale, hrevived, hstrongs, by rw [hweaks, hlocks], ?_⟩
    rwa [hcalls, hdestroying, hreadsWeaks, hreadsStrongs, hdeallocs]
  case alive hobserved hpositive =>
    rw [haccess (by omega)]
    refine ⟨hstale, hrevived, hstrongs, ?_, ?_⟩
    · dsimp only
      omega
    · rwa [hcalls, hdestroying, hreadsWeaks, hreadsStrongs, hdeallocs]
  case begins =>
    rw [haccess (by omega)]
    refine ⟨hstale, hrevived, hstrongs, by rw [hweaks, hlocks], ?_⟩
    rw [← hcalls] at hphase
    rw [hdestroying, hreadsWeaks, hreadsStrongs, hdeallocs]
    exact hphase.begins
  case ends =>
    rw [haccess (by omega)]
    refine ⟨hstale, hrevived, hstrongs, by rw [hweaks, hlocks], ?_⟩
    rw [← hdestroying] at hphase
    rw [hcalls, hreadsWeaks, hreadsStrongs, hdeallocs]
    exact hphase.ends
  case unobserved hzero =>
    rw [haccess (by omega)]
    refine ⟨hstale, hrevived, hstrongs, by rw [hweaks, hlocks], ?_⟩
    rw [← hreadsWeaks, hzero, UInt32.toNat_zero] at hphase
    rw [hcalls, hdestroying, hreadsStrongs, hdeallocs, hzero, UInt32.toNat_zero]
    exact hphase.unobserved
  case observed hpositive =>
    have hsome : sh.weaks.toNat ≠ 0 := toNat_ne hpositive
    rw [haccess (by omega)]
    refine ⟨hstale, hrevived, hstrongs, by rw [hweaks, hlocks], ?_⟩
    rw [← hreadsWeaks] at hphase
    rw [hcalls, hdestroying, hreadsStrongs, hdeallocs]
    exact hphase.leaves (Nat.pos_of_ne_zero hsome)
  case unowned hzero =>
    have hnone : sh.owners = 0 := hstrongs.symm.trans (congrArg UInt32.toNat hzero)
    rw [haccess (by omega)]
    refine ⟨hstale, hrevived, hstrongs, by rw [hweaks, hlocks], ?_⟩
    rw [← hreadsStrongs, hnone] at hphase
    rw [hcalls, hdestroying, hreadsWeaks, hdeallocs, hnone]
    exact hphase.unowned
  case owned hpositive =>
    have hsome : sh.strongs.toNat ≠ 0 := toNat_ne hpositive
    rw [haccess (by omega)]
    refine ⟨hstale, hrevived, hstrongs, by rw [hweaks, hlocks], ?_⟩
    rw [← hreadsStrongs] at hphase
    rw [hcalls, hdestroying, hreadsWeaks, hdeallocs]
    exact hphase.passes (Nat.pos_of_ne_zero (hstrongs ▸ hsome))
  case frees =>
    refine ⟨hstale, hrevived, hstrongs, by rw [hweaks, hlocks], ?_⟩
    rw [← hdeallocs] at hphase
    rw [hcalls, hdestroying, hreadsWeaks, hreadsStrongs]
    exact hphase.dealloc
  case locks =>
    obtain ⟨hpositive, hroom⟩ := ha.locks rfl rfl
    have hadd := toNat_add_one hroom
    have howned : 0 < sh.owners := Nat.pos_of_ne_zero (hstrongs ▸ toNat_ne hpositive)
    have hdestroys : (sh.revived || decide (0 < sh.destroys)) = false := by
      rw [hrevived, (hphase.alive howned).2.2.1]
      rfl
    rw [haccess (by omega)]
    refine ⟨hstale, hdestroys, ?_, ?_, ?_⟩
    · rw [hadd, hstrongs]
    · dsimp only
      omega
    · rw [hcalls, hdestroying, hreadsWeaks, hreadsStrongs, hdeallocs]
      exact hphase.counts howned (Nat.succ_pos _)

omit [DecidableEq Tid] in
theorem number_eq_zero {locals : Tid → Pc} {pc : Pc} (h : ∀ t, locals t ≠ pc) : number locals pc = 0 :=
  Finset.sum_eq_zero fun t _ => if_neg (h t)

omit [DecidableEq Tid] in
private theorem number_pos (locals : Tid → Pc) (t : Tid) : 0 < number locals (locals t) := by
  have hle := held_le_total (fun l => if l = locals t then 1 else 0) locals t
  rw [if_pos rfl] at hle
  exact hle

omit [DecidableEq Tid] in
private theorem Orderly.allowed {c : Config Tid Shared Pc} {t : Tid} {a : Action} (h : Orderly c t a) :
    Allowed c.shared (number c.locals) a (c.locals t) where
  copyShared := by
    rintro rfl
    exact h
  copyWeak := by
    rintro (rfl | rfl) <;> exact h
  dropShared := by
    rintro rfl hone
    exact number_eq_zero (h hone)
  dropWeak := by
    rintro rfl hone
    have hnone (pc : Pc) (hpc : pc.isLast = true) : number c.locals pc = 0 :=
      number_eq_zero fun u hu => by rw [← hu, h hone u] at hpc; cases hpc
    rw [hnone _ rfl, hnone _ rfl, hnone _ rfl]
  locks := by
    rintro rfl hpc
    exact h hpc

omit [DecidableEq Tid] in
private theorem balanced_initial : Balanced (initial Tid).shared (number (initial Tid).locals) := by
  have hnone (pc : Pc) (hpc : .idle ≠ pc) : number (initial Tid).locals pc = 0 := number_eq_zero fun _ => hpc
  refine ⟨rfl, rfl, rfl, ?_, ?_⟩
  · rw [hnone .locks nofun]
    rfl
  · rw [hnone .calls nofun, hnone .destroying nofun, hnone .readsWeaks nofun, hnone .readsStrongs nofun,
      hnone .deallocs nofun]
    exact ⟨fun _ => ⟨rfl, rfl, rfl, rfl⟩, nofun, nofun, nofun, nofun⟩

theorem balanced_of_reachable {c : Config Tid Shared Pc} (h : (program Tid).Reachable Orderly (initial Tid) c) :
    Balanced c.shared (number c.locals) := by
  refine h.invariant (P := fun c => Balanced c.shared (number c.locals)) balanced_initial ?_
  intro c t a c' hb hok hnext
  obtain ⟨sh, pc, hstep, rfl⟩ := Program.next_eq_some_iff.mp hnext
  exact hb.step (moves_of_step hstep) hok.allowed (fun p => total_update _ c.locals t pc) (number_pos c.locals t)

/-- In every run of orderly steps, for any number of threads: the callback begins once and the block
is freed once, each when nobody uses it any more, nothing accesses the block after that, and `lock`
never returns an owner of an object whose callback has begun. -/
theorem threads_keep_counts {c : Config Tid Shared Pc} (h : (program Tid).Reachable Orderly (initial Tid) c) :
    Sound c := by
  obtain ⟨hstale, hrevived, -, hweaks, hphase⟩ := balanced_of_reachable h
  obtain ⟨halive, hgone, hdying, hwatched, hunwatched⟩ := hphase
  have hquiet (hidle : ∀ t, c.locals t = .idle) (pc : Pc) (hpc : .idle ≠ pc) : number c.locals pc = 0 :=
    number_eq_zero fun t => hidle t ▸ hpc
  refine ⟨hstale, hrevived, by omega, by omega, by omega, by omega, fun hnone hidle => ?_, fun hnone hlast hidle => ?_⟩
  · have hcalls := hquiet hidle .calls nofun
    omega
  · have hcalls := hquiet hidle .calls nofun
    have hdestroying := hquiet hidle .destroying nofun
    have hreadsWeaks := hquiet hidle .readsWeaks nofun
    have hreadsStrongs := hquiet hidle .readsStrongs nofun
    have hdeallocs := hquiet hidle .deallocs nofun
    have hlocks := hquiet hidle .locks nofun
    omega

/-- One thread locks while the other one copies; then the owners go, and the observer last. -/
theorem threads_keep_counts_dropped : ∃ c : Config Bool Shared Pc, c.shared.frees = 1 ∧ Sound c := by
  have hrun : ((program Bool).exec Orderly (initial Bool)
      [(true, .observe), (true, .lock), (false, .copyShared), (true, .run), (true, .dropShared), (false, .dropShared),
        (true, .dropShared), (true, .run), (true, .run), (true, .run), (false, .dropWeak), (false, .run),
        (false, .run)]).map (fun c => c.shared.frees) = some 1 := by
    decide
  obtain ⟨c, hc, hfrees⟩ := Option.map_eq_some_iff.mp hrun
  exact ⟨c, hfrees, threads_keep_counts (.of_exec .init hc)⟩

/-- `lock` finds the object alive, another thread drops the last owner and runs the callback, and
`lock` returns an owner. Or the last owner and the last observer are dropped at once, and both free
the block. -/
theorem threads_fail :
    (∃ c, (program Bool).Reachable Program.anyStep (initial Bool) c ∧ c.shared.revived = true ∧ ¬ Sound c) ∧
    ∃ c, (program Bool).Reachable Program.anyStep (initial Bool) c ∧ c.shared.frees = 2 ∧ ¬ Sound c := by
  constructor
  · have hrun : ((program Bool).exec Program.anyStep (initial Bool)
        [(true, .observe), (true, .lock), (false, .dropShared), (false, .run), (true, .run)]).map
        (fun c => c.shared.revived) = some true := by
      decide
    obtain ⟨c, hc, hrevived⟩ := Option.map_eq_some_iff.mp hrun
    refine ⟨c, .of_exec .init hc, hrevived, fun hs => ?_⟩
    rw [hs.revived] at hrevived
    cases hrevived
  · have hrun : ((program Bool).exec Program.anyStep (initial Bool)
        [(true, .observe), (false, .dropShared), (false, .run), (false, .run), (true, .dropWeak), (false, .run),
          (true, .run), (false, .run), (true, .run)]).map (fun c => c.shared.frees) = some 2 := by
      decide
    obtain ⟨c, hc, hfrees⟩ := Option.map_eq_some_iff.mp hrun
    refine ⟨c, .of_exec .init hc, hfrees, fun hs => ?_⟩
    have := hs.frees_le
    omega

end Abix.DLL.AtomicPointers

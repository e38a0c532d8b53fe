import Abix.Concurrency.Ledger
import Abix.Interface.Owner

/-! What is adopted under a lease is destroyed once, and its module stays until then. -/
namespace Abix.Interface.Owner
open Abix.Concurrency Abix.Interface.ModuleRegistry
variable {R Ctl Obj : Type} {w w' : World R Ctl Obj} {r other : R} {ref : Ref Ctl Obj} {pending : List (After R)}
  {after : After R} {n : Nat} {value : Handle Obj} {control : Option Ctl} {c : Ctl}

def World.Idle (w : World R Ctl Obj) (r : R) : Prop := ∀ ref pending, w.refs r = .alive ref pending → pending = []

def World.Countable (w : World R Ctl Obj) (control : Option Ctl) : Prop :=
  ∀ c, control = some c → (w.modules.controls c).state = .active → (w.modules.controls c).leases.toNat + 1 < 2 ^ 32

/-- What is to be destroyed is adopted while its module is active, and nobody uses a variable whose
destroy entry runs. -/
def Orderly (w : World R Ctl Obj) : Op R Ctl Obj → Prop
  | .adopt _ value control =>
    (∀ c, control = some c → value.releases = true → (w.modules.controls c).state = .active) ∧ w.Countable control
  | .borrow _ _ control => w.Countable control
  | .moveConstruct _ other => w.Idle other
  | .moveAssign r other => r = other ∨ (w.Idle r ∧ w.Idle other)
  | .release r => w.Idle r
  | .destruct r => w.Idle r
  | .returns r => ∀ ref pending other, w.refs r = .alive ref (.assigned other :: pending) → w.Idle other
  | .default _ | .beginUnload _ | .registerModule .. | .unregisterModule _ => True

/-- The variable has the handle of an adoption, and no release of it has begun. -/
def World.Holds (w : World R Ctl Obj) (r : R) (n : Nat) : Prop :=
  ∃ ref, w.refs r = .alive ref [] ∧ ref.adoption = some n

/-- The destroy entry of what is owned is called once, when it is no longer held, and that of
anything else never. Until it has returned there is a lease, and the module is not unloaded. -/
structure Kept (w : World R Ctl Obj) : Prop where
  once : ∀ n value control, w.adoptions[n]? = some (value, control) → value.releases = true →
    (w.calls n = [] ∧ ∃! r, w.Holds r n) ∨ (w.calls n = [(value.destroy, value.object)] ∧ ∀ r, ¬ w.Holds r n)
  never : ∀ n value control, w.adoptions[n]? = some (value, control) → value.releases = false → w.calls n = []
  leased : ∀ n value c, w.adoptions[n]? = some (value, some c) → value.releases = true → w.returned n = 0 →
    (∃ r ref pending, w.refs r = .alive ref pending ∧ ref.adoption = some n ∧ ref.handle = value ∧ ref.lease = some c) ∧
      (w.modules.controls c).leases ≠ 0 ∧ (w.modules.controls c).state ≠ .unloaded

/-- Whether a variable has the handle of an adoption, a release of it begun or not. -/
def carrying (n : Nat) : RefState R Ctl Obj → Nat
  | .dead => 0
  | .alive ref _ => if ref.adoption = some n then 1 else 0

/-- Whether a variable has the handle of an adoption and no release of it has begun. -/
def waiting (n : Nat) : RefState R Ctl Obj → Nat
  | .alive ref [] => if ref.adoption = some n then 1 else 0
  | .dead | .alive _ (_ :: _) => 0

def leasing [DecidableEq Ctl] (c : Ctl) : RefState R Ctl Obj → Nat
  | .dead => 0
  | .alive ref _ => if ref.lease = some c then 1 else 0

/-- A variable has nothing, or what it has comes from an adoption, with the lease if it is owned. -/
def Carries (adoptions : List (Handle Obj × Option Ctl)) (ref : Ref Ctl Obj) : Prop :=
  ref = {} ∨ ∃ n control, adoptions[n]? = some (ref.handle, control) ∧ ref.adoption = some n ∧
    (ref.handle.releases = true → ref.lease = control)

def Blank (s : RefState R Ctl Obj) : Prop := s = .dead ∨ s = .alive {} []

theorem Blank.carrying {s : RefState R Ctl Obj} (h : Blank s) (n : Nat) : carrying n s = 0 := by
  rcases h with rfl | rfl <;> rfl

theorem Blank.waiting {s : RefState R Ctl Obj} (h : Blank s) (n : Nat) : waiting n s = 0 := by
  rcases h with rfl | rfl <;> rfl

theorem Blank.leasing [DecidableEq Ctl] {s : RefState R Ctl Obj} (h : Blank s) (c : Ctl) : leasing c s = 0 := by
  rcases h with rfl | rfl <;> rfl

/-- A state of one variable, after another has been written. -/
theorem refs_update [DecidableEq R] {refs : R → RefState R Ctl Obj} {s : RefState R Ctl Obj} {r' : R}
    {ref : Ref Ctl Obj} {pending : List (After R)} (h : Function.update refs r s r' = .alive ref pending) :
    (r' = r ∧ s = .alive ref pending) ∨ (r' ≠ r ∧ refs r' = .alive ref pending) := by
  by_cases heq : r' = r
  · subst heq
    rw [Function.update_self] at h
    exact .inl ⟨rfl, h⟩
  · rw [Function.update_of_ne heq] at h
    exact .inr ⟨heq, h⟩

/-- What holds of every variable holds after a write, if it holds of what is written. -/
theorem alive_update [DecidableEq R] {P : R → Ref Ctl Obj → List (After R) → Prop}
    {refs : R → RefState R Ctl Obj} {r : R} {ref : Ref Ctl Obj} {pending : List (After R)}
    (hold : ∀ r' ref' pending', refs r' = .alive ref' pending' → P r' ref' pending') (hnew : P r ref pending) :
    ∀ r' ref' pending', Function.update refs r (.alive ref pending) r' = .alive ref' pending' →
      P r' ref' pending' := by
  intro r' ref' pending' h
  rcases refs_update h with ⟨rfl, hsame⟩ | ⟨-, hother⟩
  · cases hsame
    exact hnew
  · exact hold r' ref' pending' hother

section Totals
variable [Fintype R] [DecidableEq R] {held : RefState R Ctl Obj → Nat} {refs : R → RefState R Ctl Obj}
  {s : RefState R Ctl Obj}

/-- A write that leaves what one variable has leaves the total. -/
theorem total_same (h : held s = held (refs r)) : total held (Function.update refs r s) = total held refs := by
  have htotal := total_update held refs r s
  omega

/-- What one variable hands to another that had nothing stays in the total. -/
theorem total_transfer {s' : RefState R Ctl Obj} (hne : other ≠ r) (hr : held (refs r) = 0)
    (hs : held s = held (refs other)) (hs' : held s' = 0) :
    total held (Function.update (Function.update refs r s) other s') = total held refs := by
  have hfirst := total_update held refs r s
  have hsecond := total_update held (Function.update refs r s) other s'
  rw [Function.update_of_ne hne] at hsecond
  omega

end Totals

section Good
variable [Fintype R] [DecidableEq R] [DecidableEq Ctl]

structure Due (w : World R Ctl Obj) (n : Nat) (value : Handle Obj) : Prop where
  carried : total (carrying n) w.refs + w.returned n = 1
  called : (w.calls n = [] ∧ total (waiting n) w.refs = 1) ∨
    (w.calls n = [(value.destroy, value.object)] ∧ total (waiting n) w.refs = 0)

structure Good (w : World R Ctl Obj) : Prop where
  carries : ∀ r ref pending, w.refs r = .alive ref pending → Carries w.adoptions ref
  pending : ∀ r ref pending, w.refs r = .alive ref pending →
    pending = [] ∨ ∃ after, pending = [after] ∧ after ≠ .assigned r ∧ ref.handle.releases = true
  fresh : ∀ n, w.adoptions.length ≤ n → w.calls n = [] ∧ w.returned n = 0
  due : ∀ n value control, w.adoptions[n]? = some (value, control) → value.releases = true → Due w n value
  spared : ∀ n value control, w.adoptions[n]? = some (value, control) → value.releases = false → w.calls n = []
  leases : ∀ c, (w.modules.controls c).leases.toNat = total (leasing c) w.refs
  unloaded : ∀ c, (w.modules.controls c).state = .unloaded → (w.modules.controls c).leases = 0

omit [Fintype R] [DecidableEq R] [DecidableEq Ctl] in
theorem Carries.mono {adoptions : List (Handle Obj × Option Ctl)} (h : Carries adoptions ref)
    (x : Handle Obj × Option Ctl) : Carries (adoptions ++ [x]) ref := by
  rcases h with rfl | ⟨n, control, hn, hrest⟩
  · exact .inl rfl
  · exact .inr ⟨n, control, List.getElem?_append_left (List.getElem?_eq_some_iff.mp hn).1 ▸ hn, hrest⟩

omit [Fintype R] [DecidableEq R] [DecidableEq Ctl] in
/-- What a variable has, when it is to be destroyed. -/
theorem Carries.of_releases {adoptions : List (Handle Obj × Option Ctl)} (h : Carries adoptions ref)
    (hreleases : ref.handle.releases = true) :
    ∃ n, adoptions[n]? = some (ref.handle, ref.lease) ∧ ref.adoption = some n := by
  rcases h with rfl | ⟨n, control, hn, hadoption, hlease⟩
  · cases hreleases
  · exact ⟨n, hlease hreleases ▸ hn, hadoption⟩

theorem Good.blank (hg : Good w) {s : RefState R Ctl Obj} (hold : Blank (w.refs r)) (hnew : Blank s) :
    Good (w.put r s) where
  carries r' ref pending h := by
    rcases refs_update h with ⟨-, rfl⟩ | ⟨-, h⟩
    · rcases hnew with hdead | halive
      · cases hdead
      · cases halive
        exact .inl rfl
    · exact hg.carries r' ref pending h
  pending r' ref pending h := by
    rcases refs_update h with ⟨-, rfl⟩ | ⟨-, h⟩
    · rcases hnew with hdead | halive
      · cases hdead
      · cases halive
        exact .inl rfl
    · exact hg.pending r' ref pending h
  fresh := hg.fresh
  due n value control h hreleases := by
    obtain ⟨hcarried, hcalled⟩ := hg.due n value control h hreleases
    constructor
    · rw [World.put, total_same ((hnew.carrying n).trans (hold.carrying n).symm)]
      exact hcarried
    · rw [World.put, total_same ((hnew.waiting n).trans (hold.waiting n).symm)]
      exact hcalled
  spared := hg.spared
  leases c := by
    rw [World.put, total_same ((hnew.leasing c).trans (hold.leasing c).symm)]
    exact hg.leases c
  unloaded := hg.unloaded

theorem Good.transfer (hg : Good w) (hr : Blank (w.refs r)) (hother : w.refs other = .alive ref []) (hne : other ≠ r) :
    Good ((w.put r (.alive ref [])).put other (.alive {} [])) where
  carries := alive_update (alive_update hg.carries (hg.carries other ref [] hother)) (.inl rfl)
  pending := alive_update (alive_update hg.pending (.inl rfl)) (.inl rfl)
  fresh := hg.fresh
  due n value control h hreleases := by
    obtain ⟨hcarried, hcalled⟩ := hg.due n value control h hreleases
    constructor
    · rw [World.put, World.put, total_transfer hne (hr.carrying n) (by rw [hother]) rfl]
      exact hcarried
    · rw [World.put, World.put, total_transfer hne (hr.waiting n) (by rw [hother]) rfl]
      exact hcalled
  spared := hg.spared
  leases c := by
    rw [World.put, World.put, total_transfer hne (hr.leasing c) (by rw [hother]) rfl]
    exact hg.leases c
  unloaded := hg.unloaded

/-- The destroy entry of what a variable has is called. -/
theorem Good.call (hg : Good w) (hr : w.refs r = .alive ref []) (hreleases : ref.handle.releases = true)
    (hafter : after ≠ .assigned r) (hn : ref.adoption = some n) :
    Good { w with
      refs := Function.update w.refs r (.alive ref [after])
      calls := Function.update w.calls n (w.calls n ++ [(ref.handle.destroy, ref.handle.object)]) } := by
  obtain ⟨k, hk, hadoption⟩ := (hg.carries r ref [] hr).of_releases hreleases
  obtain rfl : n = k := Option.some.inj (hn.symm.trans hadoption)
  have hlt := (List.getElem?_eq_some_iff.mp hk).1
  have hwaiting : waiting n (w.refs r) = 1 := by rw [hr, waiting, if_pos hadoption]
  have hheld := held_le_total (waiting n) w.refs r
  constructor
  · exact alive_update hg.carries (hg.carries r ref [] hr)
  · exact alive_update hg.pending (.inr ⟨after, rfl, hafter, hreleases⟩)
  · intro k (hk : w.adoptions.length ≤ k)
    have hne : k ≠ n := by omega
    simpa [Function.update_of_ne hne] using hg.fresh k hk
  · intro k value control hvalue hvalue_releases
    obtain ⟨hcarried, hcalled⟩ := hg.due k value control hvalue hvalue_releases
    constructor
    · rw [total_same (by rw [hr]; rfl)]
      exact hcarried
    · dsimp only
      have htotal := total_update (waiting k) w.refs r (.alive ref [after])
      by_cases hkn : k = n
      · subst hkn
        cases hk.symm.trans hvalue
        rw [hwaiting, show waiting k (.alive ref [after]) = 0 from rfl] at htotal
        rw [hwaiting] at hheld
        rcases hcalled with ⟨hnone, hone⟩ | ⟨-, hzero⟩
        · exact .inr ⟨by simp [hnone], by omega⟩
        · omega
      · have hother : waiting k (w.refs r) = 0 := by
          rw [hr, waiting, if_neg]
          exact fun heq => hkn (Option.some.inj (heq.symm.trans hadoption))
        rw [hother, show waiting k (.alive ref [after]) = 0 from rfl] at htotal
        rw [Function.update_of_ne hkn, show total (waiting k) (Function.update w.refs r (.alive ref [after])) =
          total (waiting k) w.refs by omega]
        exact hcalled
  · intro k value control hvalue hspared
    have hkn : k ≠ n := by
      rintro rfl
      cases hk.symm.trans hvalue
      cases hreleases.symm.trans hspared
    dsimp only
    rw [Function.update_of_ne hkn]
    exact hg.spared k value control hvalue hspared
  · intro c
    rw [total_same (by rw [hr]; rfl)]
    exact hg.leases c
  · exact hg.unloaded

omit [Fintype R] [DecidableEq R] in
@[simp] theorem setLeases_state (m : ModuleRegistry.World Ctl) (c d : Ctl) (leases : UInt32) :
    ((setLeases m c leases).controls d).state = (m.controls d).state := by
  by_cases h : d = c
  · subst h
    simp [setLeases]
  · simp [setLeases, Function.update_of_ne h]

omit [Fintype R] [DecidableEq R] in
@[simp] theorem setLeases_leases_self (m : ModuleRegistry.World Ctl) (c : Ctl) (leases : UInt32) :
    ((setLeases m c leases).controls c).leases = leases := by
  simp [setLeases]

omit [Fintype R] [DecidableEq R] in
theorem setLeases_leases_of_ne {d : Ctl} (h : d ≠ c) (m : ModuleRegistry.World Ctl) (leases : UInt32) :
    ((setLeases m c leases).controls d).leases = (m.controls d).leases := by
  simp [setLeases, Function.update_of_ne h]

theorem Good.leases_clear (hg : Good w) (hr : w.refs r = .alive ref pending) (c : Ctl) :
    ((releaseLease w.modules ref.lease).controls c).leases.toNat =
        total (leasing c) (Function.update w.refs r (.alive {} [])) ∧
      (((releaseLease w.modules ref.lease).controls c).state = .unloaded →
        ((releaseLease w.modules ref.lease).controls c).leases = 0) := by
  have htotal := total_update (leasing c) w.refs r (.alive {} [])
  have hheld := held_le_total (leasing c) w.refs r
  have hcount := hg.leases c
  rw [show leasing c (.alive {} [] : RefState R Ctl Obj) = 0 from rfl] at htotal
  by_cases hlease : ref.lease = some c
  · rw [hr, leasing, if_pos hlease] at htotal hheld
    have hone : (1 : UInt32) ≤ (w.modules.controls c).leases := by
      rw [UInt32.le_iff_toNat_le]
      exact hcount ▸ hheld
    rw [hlease, releaseLease, setLeases_leases_self, setLeases_state]
    constructor
    · rw [UInt32.toNat_sub_of_le _ _ hone, hcount, show (1 : UInt32).toNat = 1 from rfl]
      omega
    · intro hunloaded
      rw [hg.unloaded c hunloaded] at hone
      exact absurd hone (by decide)
  · rw [hr, leasing, if_neg hlease] at htotal
    have hsame : ((releaseLease w.modules ref.lease).controls c).leases = (w.modules.controls c).leases ∧
        ((releaseLease w.modules ref.lease).controls c).state = (w.modules.controls c).state := by
      cases hd : ref.lease with
      | none => exact ⟨rfl, rfl⟩
      | some d =>
        have hne : c ≠ d := by
          rintro rfl
          exact hlease hd
        exact ⟨setLeases_leases_of_ne hne _ _, setLeases_state _ _ _ _⟩
    rw [hsame.1, hsame.2]
    exact ⟨by omega, hg.unloaded c⟩

/-- A variable is cleared. The destroy entry of what it had is not due any more. -/
theorem Good.clear (hg : Good w) (returned : Nat → Nat) (hr : w.refs r = .alive ref pending)
    (hfresh : ∀ n, w.adoptions.length ≤ n → returned n = 0)
    (hdue : ∀ n value control, w.adoptions[n]? = some (value, control) → value.releases = true →
      total (carrying n) (Function.update w.refs r (.alive {} [])) + returned n = 1 ∧ waiting n (w.refs r) = 0) :
    Good (World.clear { w with returned } r ref []) where
  carries := alive_update hg.carries (.inl rfl)
  pending := alive_update hg.pending (.inl rfl)
  fresh n hn := ⟨(hg.fresh n hn).1, hfresh n hn⟩
  due n value control h hreleases := by
    obtain ⟨hcarried, hwaiting⟩ := hdue n value control h hreleases
    constructor
    · exact hcarried
    · rw [World.clear, total_same hwaiting.symm]
      exact (hg.due n value control h hreleases).called
  spared := hg.spared
  leases c := (hg.leases_clear hr c).1
  unloaded c := (hg.leases_clear hr c).2

omit [Fintype R] [DecidableEq R] [DecidableEq Ctl] in
/-- A variable whose handle is not to be destroyed does not stand in the way of one that is. -/
theorem Carries.adoption_ne {adoptions : List (Handle Obj × Option Ctl)} (h : Carries adoptions ref)
    (hspared : ref.handle.releases = false) (hn : adoptions[n]? = some (value, control))
    (hreleases : value.releases = true) : ref.adoption ≠ some n := by
  rintro hadoption
  rcases h with rfl | ⟨k, control', hk, hadoption', -⟩
  · cases hadoption
  · obtain rfl : n = k := Option.some.inj (hadoption.symm.trans hadoption')
    cases hk.symm.trans hn
    cases hspared.symm.trans hreleases

/-- What a variable has is not to be destroyed, so it is just cleared. -/
theorem Good.clear_spared (hg : Good w) (hr : w.refs r = .alive ref []) (hspared : ref.handle.releases = false) :
    Good (w.clear r ref []) := by
  refine hg.clear w.returned hr (fun n hn => (hg.fresh n hn).2) fun n value control hn hreleases => ?_
  have hne := (hg.carries r ref [] hr).adoption_ne hspared hn hreleases
  have hcarrying : carrying n (w.refs r) = 0 := by rw [hr, carrying, if_neg hne]
  constructor
  · rw [total_same (s := .alive {} []) hcarrying.symm]
    exact (hg.due n value control hn hreleases).carried
  · rw [hr, waiting, if_neg hne]

/-- The destroy entry has returned, and the variable is cleared. -/
theorem Good.clear_returned (hg : Good w) (hr : w.refs r = .alive ref [after]) (hn : ref.adoption = some n)
    (hlt : n < w.adoptions.length) :
    Good (World.clear { w with returned := Function.update w.returned n (w.returned n + 1) } r ref []) := by
  refine hg.clear _ hr (fun k hk => ?_) fun k value control hk hreleases => ⟨?_, by rw [hr]; rfl⟩
  · rw [Function.update_of_ne (by omega)]
    exact (hg.fresh k hk).2
  · have hcarried := (hg.due k value control hk hreleases).carried
    have htotal := total_update (carrying k) w.refs r (.alive {} [])
    rw [show carrying k (.alive {} [] : RefState R Ctl Obj) = 0 from rfl, hr, carrying] at htotal
    by_cases hkn : k = n
    · subst hkn
      rw [if_pos hn] at htotal
      rw [Function.update_self]
      omega
    · rw [if_neg fun heq => hkn (Option.some.inj (heq.symm.trans hn))] at htotal
      rw [Function.update_of_ne hkn]
      omega

omit [DecidableEq R] in
/-- Nobody has an adoption that is still to come. -/
theorem Good.carrying_fresh (hg : Good w) (h : w.adoptions.length ≤ n) (r : R) :
    carrying n (w.refs r) = 0 ∧ waiting n (w.refs r) = 0 := by
  cases hr : w.refs r with
  | dead => exact ⟨rfl, rfl⟩
  | alive ref pending =>
    have hne : ref.adoption ≠ some n := by
      intro hadoption
      rcases hg.carries r ref pending hr with rfl | ⟨k, control, hk, hk', -⟩
      · cases hadoption
      · obtain rfl : n = k := Option.some.inj (hadoption.symm.trans hk')
        exact absurd (List.getElem?_eq_some_iff.mp hk).1 (Nat.not_lt.mpr h)
    constructor
    · rw [carrying, if_neg hne]
    · cases pending with
      | nil => rw [waiting, if_neg hne]
      | cons after pending => rfl

omit [DecidableEq R] in
private theorem Good.total_fresh (hg : Good w) (h : w.adoptions.length ≤ n) :
    total (carrying n) w.refs = 0 ∧ total (waiting n) w.refs = 0 :=
  ⟨Finset.sum_eq_zero fun u _ => (hg.carrying_fresh h u).1, Finset.sum_eq_zero fun u _ => (hg.carrying_fresh h u).2⟩

omit [Fintype R] in
private theorem World.adopt_refs (w : World R Ctl Obj) (r : R) (value : Handle Obj) (control : Option Ctl) :
    ∃ lease, (w.adopt r value control).refs = Function.update w.refs r
      (.alive { handle := value, lease, adoption := some w.adoptions.length } []) := ⟨_, rfl⟩

/-- The lease that an adoption asks for, if any. -/
theorem Good.leases_adopt (hg : Good w) (hr : w.refs r = .dead) (value : Handle Obj) {control : Option Ctl}
    (hcountable : w.Countable control) (c : Ctl) :
    ((w.adopt r value control).modules.controls c).leases.toNat = total (leasing c) (w.adopt r value control).refs ∧
      (((w.adopt r value control).modules.controls c).state = .unloaded →
        ((w.adopt r value control).modules.controls c).leases = 0) := by
  have hkeep : ∀ (adoption : Option Nat), total (leasing c) (Function.update w.refs r
      (.alive { handle := value, lease := none, adoption } [])) = total (leasing c) w.refs := fun adoption =>
    total_same (by rw [hr]; rfl)
  cases control with
  | none =>
    simp only [World.adopt, hkeep]
    exact ⟨hg.leases c, hg.unloaded c⟩
  | some d =>
    by_cases hactive : (w.modules.controls d).state = .active
    · simp only [World.adopt, acquireLease, hactive, if_true]
      have htotal := total_update (leasing c) w.refs r
        (.alive { handle := value, lease := some d, adoption := some w.adoptions.length } [])
      rw [hr, show leasing c (.dead : RefState R Ctl Obj) = 0 from rfl, leasing] at htotal
      by_cases hcd : c = d
      · subst hcd
        rw [if_pos rfl] at htotal
        rw [setLeases_leases_self, setLeases_state, hactive]
        refine ⟨?_, nofun⟩
        have hlt := hcountable c rfl hactive
        rw [UInt32.toNat_add, show (1 : UInt32).toNat = 1 from rfl, Nat.mod_eq_of_lt hlt, hg.leases c]
        omega
      · rw [if_neg fun heq => hcd (Option.some.inj heq).symm] at htotal
        rw [setLeases_leases_of_ne hcd, setLeases_state, hg.leases c]
        exact ⟨by omega, fun hunloaded => hg.unloaded c hunloaded⟩
    · simp only [World.adopt, acquireLease, hactive, if_false, hkeep]
      exact ⟨hg.leases c, hg.unloaded c⟩

theorem Good.adopt (hg : Good w) (hr : w.refs r = .dead) {value : Handle Obj} {control : Option Ctl}
    (hactive : ∀ c, control = some c → value.releases = true → (w.modules.controls c).state = .active)
    (hcountable : w.Countable control) : Good (w.adopt r value control) where
  carries := by
    refine alive_update (fun r' ref pending h => (hg.carries r' ref pending h).mono (value, control)) ?_
    refine .inr ⟨w.adoptions.length, control, by simp [World.adopt], rfl, fun hreleases => ?_⟩
    cases control with
    | none => rfl
    | some c => simp [acquireLease, hactive c rfl hreleases]
  pending := alive_update hg.pending (.inl rfl)
  fresh n hn := by
    have hle : w.adoptions.length ≤ n := by
      simp only [World.adopt, List.length_append, List.length_singleton] at hn
      omega
    exact hg.fresh n hle
  due n value' control' hn hreleases := by
    obtain ⟨lease, hrefs⟩ := w.adopt_refs r value control
    have hcarrying := total_update (carrying n) w.refs r
      (.alive { handle := value, lease, adoption := some w.adoptions.length } [])
    have hwaiting := total_update (waiting n) w.refs r
      (.alive { handle := value, lease, adoption := some w.adoptions.length } [])
    rw [← hrefs, hr] at hcarrying hwaiting
    rcases Nat.lt_trichotomy n w.adoptions.length with hlt | rfl | hgt
    · have hne : some w.adoptions.length ≠ some n := fun heq => Nat.ne_of_gt hlt (Option.some.inj heq)
      have hdue := hg.due n value' control' (List.getElem?_append_left hlt ▸ hn) hreleases
      simp only [carrying, waiting, if_neg hne, Nat.add_zero] at hcarrying hwaiting
      exact ⟨hcarrying ▸ hdue.carried, hwaiting ▸ hdue.called⟩
    · have hnone := hg.total_fresh (Nat.le_refl _)
      obtain ⟨hcalls, hreturned⟩ := hg.fresh w.adoptions.length (Nat.le_refl _)
      simp only [carrying, waiting, if_true, hnone] at hcarrying hwaiting
      refine ⟨?_, .inl ⟨hcalls, hwaiting⟩⟩
      exact hreturned.symm ▸ hcarrying
    · have hnone : (w.adoptions ++ [(value, control)])[n]? = none :=
        List.getElem?_eq_none (by simp only [List.length_append, List.length_singleton]; omega)
      cases hnone.symm.trans hn
  spared n value' control' hn hspared := by
    rcases Nat.lt_trichotomy n w.adoptions.length with hlt | rfl | hgt
    · exact hg.spared n value' control' (List.getElem?_append_left hlt ▸ hn) hspared
    · exact (hg.fresh _ (Nat.le_refl _)).1
    · exact (hg.fresh n (Nat.le_of_lt hgt)).1
  leases c := (hg.leases_adopt hr value hcountable c).1
  unloaded c := (hg.leases_adopt hr value hcountable c).2

omit [DecidableEq R] in
/-- What the module registry does leaves the leases, and unloads only what has none. -/
theorem Good.modules (hg : Good w) {m : ModuleRegistry.World Ctl}
    (hleases : ∀ c, (m.controls c).leases = (w.modules.controls c).leases)
    (hunloaded : ∀ c, (m.controls c).state = .unloaded →
      (w.modules.controls c).state = .unloaded ∨ (w.modules.controls c).leases = 0) :
    Good { w with modules := m } where
  carries := hg.carries
  pending := hg.pending
  fresh := hg.fresh
  due n value control h hreleases := by
    obtain ⟨hcarried, hcalled⟩ := hg.due n value control h hreleases
    exact ⟨hcarried, hcalled⟩
  spared := hg.spared
  leases c := by
    rw [hleases c]
    exact hg.leases c
  unloaded c h := by
    rw [hleases c]
    rcases hunloaded c h with h | h
    · exact hg.unloaded c h
    · exact h

theorem Good.finish (hg : Good w) (hr : w.refs r = .alive {} []) (hself : after ≠ .assigned r)
    (hidle : ∀ other, after = .assigned other → w.Idle other) (h : w.finish r [] after = some w') : Good w' := by
  cases after with
  | released => exact Option.some.inj h ▸ hg
  | destructed => exact Option.some.inj h ▸ hg.blank (hr ▸ .inr rfl) (.inl rfl)
  | assigned other =>
    have hne : other ≠ r := by
      rintro rfl
      exact hself rfl
    simp only [World.finish, World.transfer] at h
    cases hother : w.refs other with
    | dead =>
      rw [hother] at h
      cases h
    | alive ref pending =>
      obtain rfl := hidle other rfl ref pending hother
      rw [hother] at h
      exact Option.some.inj h ▸ hg.transfer (hr ▸ .inr rfl) hother hne

omit [Fintype R] in
/-- Clearing one variable leaves every idle variable idle. -/
theorem World.Idle.clear {other : R} (h : w.Idle other) (r : R) (ref : Ref Ctl Obj) : (w.clear r ref []).Idle other := by
  intro ref' pending' h'
  rcases refs_update h' with ⟨-, hempty⟩ | ⟨-, h'⟩
  · cases hempty
    rfl
  · exact h ref' pending' h'

/-- A release begins: the destroy entry is called, or there is none and the release is over. -/
theorem Good.beginRelease (hg : Good w) (hr : w.refs r = .alive ref []) (hself : after ≠ .assigned r)
    (hidle : ∀ other, after = .assigned other → w.Idle other) (h : w.beginRelease r ref [] after = some w') :
    Good w' := by
  rw [World.beginRelease] at h
  split at h
  · rename_i hreleases
    obtain ⟨n, -, hn⟩ := (hg.carries r ref [] hr).of_releases hreleases
    rw [hn] at h
    exact Option.some.inj h ▸ hg.call hr hreleases hself hn
  · rename_i hspared
    exact (hg.clear_spared hr (by simpa using hspared)).finish (Function.update_self ..) hself
      (fun other hother => (hidle other hother).clear r ref) h

/-- A destroy entry returns, and the release goes on. -/
theorem Good.endRelease (hg : Good w) (hr : w.refs r = .alive ref (after :: pending))
    (hidle : ∀ other, after = .assigned other → w.Idle other) (h : w.endRelease r ref pending after = some w') :
    Good w' := by
  rcases hg.pending r ref _ hr with hnone | ⟨after', hone, hself, hreleases⟩
  · cases hnone
  · cases hone
    obtain ⟨n, hlt, hn⟩ := (hg.carries r ref _ hr).of_releases hreleases
    rw [World.endRelease, hn] at h
    have hcleared := hg.clear_returned hr hn (List.getElem?_eq_some_iff.mp hlt).1
    exact hcleared.finish (Function.update_self ..) hself
      (fun other hother ref' pending' h' => (hidle other hother).clear r ref ref' pending' h') h

omit [Fintype R] [DecidableEq R] in
theorem beginUnload_controls (m : ModuleControl) : (beginUnload m).leases = m.leases ∧
    ((beginUnload m).state = .unloaded → m.state = .unloaded) := by
  rw [beginUnload]
  split
  · exact ⟨rfl, nofun⟩
  · exact ⟨rfl, id⟩

omit [Fintype R] [DecidableEq R] in
/-- An unload that begins at one module counts no lease and finishes no unload at any. -/
theorem update_beginUnload_controls (controls : Ctl → ModuleControl) (control c : Ctl) :
    (Function.update controls control (beginUnload (controls control)) c).leases = (controls c).leases ∧
      ((Function.update controls control (beginUnload (controls control)) c).state = .unloaded →
        (controls c).state = .unloaded) := by
  by_cases hc : c = control
  · subst hc
    rw [Function.update_self]
    exact beginUnload_controls (controls c)
  · rw [Function.update_of_ne hc]
    exact ⟨rfl, id⟩

omit [Fintype R] [DecidableEq R] in
/-- A registration activates a module, if it does anything. -/
theorem registerModule_controls (cap : Capacity) (m : ModuleRegistry.World Ctl) (control : Ctl)
    (manifest : ModuleManifest) (c : Ctl) :
    ((registerModule cap m control manifest).1.controls c).leases = (m.controls c).leases ∧
      (((registerModule cap m control manifest).1.controls c).state = .unloaded → (m.controls c).state = .unloaded) := by
  rw [registerModule]
  split
  · exact ⟨rfl, id⟩
  · by_cases hc : c = control
    · subst hc
      simp
    · simp [Function.update_of_ne hc]

omit [Fintype R] [DecidableEq R] in
/-- A module is unloaded only when it has no lease. -/
theorem unregisterModule_controls (cap : Capacity) (m : ModuleRegistry.World Ctl) (id : Nat) (c : Ctl) :
    ((unregisterModule cap m id).1.controls c).leases = (m.controls c).leases ∧
      (((unregisterModule cap m id).1.controls c).state = .unloaded →
        (m.controls c).state = .unloaded ∨ (m.controls c).leases = 0) := by
  rw [unregisterModule]
  split
  · exact ⟨rfl, .inl⟩
  · split
    · exact ⟨rfl, .inl⟩
    · rename_i control _
      obtain ⟨hleases, hstate⟩ := beginUnload_controls (m.controls control)
      by_cases hc : c = control
      · subst hc
        dsimp only
        split
        · rename_i hidle
          have hzero : (m.controls c).leases = 0 := by simpa [waitForIdle, hleases] using hidle
          simp [markUnloaded, hleases, hzero]
        · simp only [Function.update_self]
          exact ⟨hleases, fun h => .inl (hstate h)⟩
      · dsimp only
        split <;> simp [Function.update_of_ne hc] <;> exact .inl

theorem good_step {cap : Capacity} {op : Op R Ctl Obj} (hg : Good w) (hok : Orderly w op) (h : w.step cap op = some w') :
    Good w' := by
  cases op with
  | default r =>
    simp only [World.step] at h
    split at h
    · rename_i hr
      exact Option.some.inj h ▸ hg.blank (hr ▸ .inl rfl) (.inr rfl)
    · cases h
  | adopt r value control =>
    simp only [World.step] at h
    split at h
    · rename_i hr
      exact Option.some.inj h ▸ hg.adopt hr hok.1 hok.2
    · cases h
  | borrow r object control =>
    simp only [World.step] at h
    split at h
    · rename_i hr
      have hspared : (Handle.makeBorrowed object).releases = false := by
        simp [Handle.releases, Handle.makeBorrowed]
      exact Option.some.inj h ▸ hg.adopt hr (fun c _ hreleases => absurd hreleases (by simp [hspared])) hok
    · cases h
  | moveConstruct r other =>
    simp only [World.step] at h
    split at h
    · rename_i hr
      simp only [World.transfer] at h
      split at h
      · cases h
      · rename_i ref pending hother
        obtain rfl := hok ref pending hother
        have hne : other ≠ r := by
          rintro rfl
          cases hr.symm.trans hother
        exact Option.some.inj h ▸ hg.transfer (hr ▸ .inl rfl) hother hne
    · cases h
  | moveAssign r other =>
    simp only [World.step] at h
    split at h
    · cases h
    · rename_i ref pending hr
      split at h
      · exact Option.some.inj h ▸ hg
      · rename_i hne
        obtain ⟨hidle, hother⟩ := hok.resolve_left hne
        obtain rfl := hidle ref pending hr
        refine hg.beginRelease hr (fun heq => hne (After.assigned.inj heq).symm) ?_ h
        rintro _ ⟨⟩
        exact hother
  | release r =>
    simp only [World.step] at h
    split at h
    · cases h
    · rename_i ref pending hr
      obtain rfl := hok ref pending hr
      have hself : After.released ≠ .assigned r := nofun
      exact hg.beginRelease hr hself (fun _ hassigned => nomatch hassigned) h
  | destruct r =>
    simp only [World.step] at h
    split at h
    · cases h
    · rename_i ref pending hr
      obtain rfl := hok ref pending hr
      have hself : After.destructed ≠ .assigned r := nofun
      exact hg.beginRelease hr hself (fun _ hassigned => nomatch hassigned) h
  | returns r =>
    simp only [World.step] at h
    split at h
    · cases h
    · cases h
    · rename_i ref after pending hr
      refine hg.endRelease hr ?_ h
      rintro other rfl
      exact hok ref pending other hr
  | beginUnload control =>
    refine Option.some.inj h ▸ hg.modules (fun c => ?_) fun c hc => ?_
    · exact (update_beginUnload_controls w.modules.controls control c).1
    · exact .inl ((update_beginUnload_controls w.modules.controls control c).2 hc)
  | registerModule control manifest =>
    refine Option.some.inj h ▸ hg.modules (fun c => ?_) fun c hc => ?_
    · exact (registerModule_controls cap w.modules control manifest c).1
    · exact .inl ((registerModule_controls cap w.modules control manifest c).2 hc)
  | unregisterModule id =>
    refine Option.some.inj h ▸ hg.modules (fun c => ?_) fun c hc => ?_
    · exact (unregisterModule_controls cap w.modules id c).1
    · exact (unregisterModule_controls cap w.modules id c).2 hc

omit [Fintype R] [DecidableEq R] [DecidableEq Ctl] in
theorem waiting_ne_zero {r : R} : waiting n (w.refs r) ≠ 0 ↔ w.Holds r n := by
  cases hr : w.refs r with
  | dead =>
    refine iff_of_false (fun h => h rfl) ?_
    rintro ⟨ref, halive, -⟩
    cases hr.symm.trans halive
  | alive ref pending =>
    cases pending with
    | nil =>
      rw [waiting]
      constructor
      · intro h
        exact ⟨ref, hr, of_not_not fun hne => h (if_neg hne)⟩
      · rintro ⟨ref', halive, hn⟩
        cases hr.symm.trans halive
        simp [hn]
    | cons after pending =>
      refine iff_of_false (fun h => h rfl) ?_
      rintro ⟨ref', halive, -⟩
      cases hr.symm.trans halive

theorem Good.kept (hg : Good w) : Kept w where
  once n value control hn hreleases := by
    obtain ⟨-, ⟨hcalls, hone⟩ | ⟨hcalls, hzero⟩⟩ := hg.due n value control hn hreleases
    · obtain ⟨r, -, hr⟩ := Finset.exists_ne_zero_of_sum_ne_zero (ne_of_eq_of_ne hone one_ne_zero)
      refine .inl ⟨hcalls, r, waiting_ne_zero.mp hr, fun r' hr' => ?_⟩
      by_contra hne
      have hboth := held_add_held_le_total (waiting n) w.refs hne
      have hwaits := waiting_ne_zero.mpr hr'
      omega
    · refine .inr ⟨hcalls, fun r hr => ?_⟩
      have hheld := held_le_total (waiting n) w.refs r
      have hwaits := waiting_ne_zero.mpr hr
      omega
  never := hg.spared
  leased n value c hn hreleases hreturned := by
    have hcarried := (hg.due n value (some c) hn hreleases).carried
    have hone : total (carrying n) w.refs ≠ 0 := by omega
    obtain ⟨r, -, hr⟩ := Finset.exists_ne_zero_of_sum_ne_zero hone
    cases halive : w.refs r with
    | dead =>
      rw [halive] at hr
      exact absurd rfl hr
    | alive ref pending =>
      have hadoption : ref.adoption = some n := by
        rw [halive, carrying] at hr
        exact of_not_not fun hne => hr (if_neg hne)
      have hcarries := hg.carries r ref pending halive
      have hreleased : ref.handle.releases = true := by
        by_contra hspared
        exact hcarries.adoption_ne (by simpa using hspared) hn hreleases hadoption
      obtain ⟨k, hk, hk'⟩ := hcarries.of_releases hreleased
      obtain rfl : n = k := Option.some.inj (hadoption.symm.trans hk')
      obtain ⟨hhandle, hlease⟩ := Prod.mk.inj (Option.some.inj (hk.symm.trans hn))
      have hleases : (w.modules.controls c).leases ≠ 0 := by
        intro hzero
        have hheld := held_le_total (leasing c) w.refs r
        rw [← hg.leases c, hzero, halive, leasing, if_pos hlease] at hheld
        exact absurd hheld (by decide)
      exact ⟨⟨r, ref, pending, halive, hadoption, hhandle, hlease⟩, hleases, fun h => hleases (hg.unloaded c h)⟩

omit [DecidableEq R] in
theorem good_initial : Good (initial R Ctl Obj).shared where
  carries _ _ _ h := nomatch h
  pending _ _ _ h := nomatch h
  fresh _ _ := ⟨rfl, rfl⟩
  due _ _ _ h := nomatch h
  spared _ _ _ h := nomatch h
  leases _ := (Finset.sum_eq_zero fun _ _ => rfl).symm
  unloaded _ h := nomatch h

theorem good_of_reachable {cap : Capacity} {s : Config Unit (World R Ctl Obj) Unit}
    (h : (owners R Ctl Obj cap).Reachable (fun s _ op => Orderly s.shared op) (initial R Ctl Obj) s) :
    Good s.shared := by
  refine h.invariant (P := fun s => Good s.shared) good_initial ?_
  intro s t op s' hg hok hnext
  obtain ⟨w', l, hstep, rfl⟩ := Program.next_eq_some_iff.mp hnext
  obtain ⟨w'', hw, heq⟩ := Option.map_eq_some_iff.mp hstep
  cases heq
  exact good_step hg hok hw

/-- In every run of orderly operations, with the modules' life going on at any point: what is owned
is destroyed once, what is borrowed never, and until a destroy entry has returned its module is under
a lease and not unloaded. -/
theorem owned_is_destroyed_once {cap : Capacity} {s : Config Unit (World R Ctl Obj) Unit}
    (h : (owners R Ctl Obj cap).Reachable (fun s _ op => Orderly s.shared op) (initial R Ctl Obj) s) : Kept s.shared :=
  (good_of_reachable h).kept

end Good

def noInterfaces : ModuleManifest := ⟨1, .ofList [] (by decide)⟩

def ownedUnit : Handle Unit := .makeOwned (some ()) 7 1

/-- The object is adopted and destroyed, its module is unregistered while the destroy entry runs, which
is refused, and again afterwards. -/
theorem owned_is_destroyed_once_unregistered : ∃ s : Config Unit (World Unit Unit Unit) Unit,
    s.shared.calls 0 = [(7, some ())] ∧ (s.shared.modules.controls ()).state = .unloaded ∧ Kept s.shared := by
  let cap : Capacity := {}
  let loaded : World Unit Unit Unit := { modules := (registerModule cap {} () noInterfaces).1 }
  let adopted := loaded.adopt () ownedUnit (some ())
  let ref : Ref Unit Unit := ⟨ownedUnit, some (), some 0⟩
  have hmade : (owners Unit Unit Unit cap).Reachable (fun s _ op => Orderly s.shared op) (initial Unit Unit Unit)
      ⟨loaded, fun _ => ()⟩ :=
    .step (t := ()) (a := .registerModule () noInterfaces) .init trivial rfl
  have hadopted : (owners Unit Unit Unit cap).Reachable (fun s _ op => Orderly s.shared op) (initial Unit Unit Unit)
      ⟨adopted, fun _ => ()⟩ := by
    refine hmade.step (t := ()) (a := .adopt () ownedUnit (some ())) ⟨?_, ?_⟩ rfl
    · rintro ⟨⟩ - -
      rfl
    · rintro ⟨⟩ - -
      decide
  let called : World Unit Unit Unit :=
    { adopted with
      refs := Function.update adopted.refs () (.alive ref [.destructed])
      calls := Function.update adopted.calls 0 [(7, some ())] }
  have hidle : adopted.Idle () := by
    intro ref' pending h
    cases h
    rfl
  have hcalled : (owners Unit Unit Unit cap).Reachable (fun s _ op => Orderly s.shared op) (initial Unit Unit Unit)
      ⟨called, fun _ => ()⟩ := hadopted.step (t := ()) (a := .destruct ()) hidle rfl
  let busy : World Unit Unit Unit := { called with modules := (unregisterModule cap called.modules 1).1 }
  have hbusy : (owners Unit Unit Unit cap).Reachable (fun s _ op => Orderly s.shared op) (initial Unit Unit Unit)
      ⟨busy, fun _ => ()⟩ := hcalled.step (t := ()) (a := .unregisterModule 1) trivial rfl
  let returned := World.put (World.clear { busy with returned := Function.update busy.returned 0 1 } () ref []) () .dead
  have hreturned : (owners Unit Unit Unit cap).Reachable (fun s _ op => Orderly s.shared op) (initial Unit Unit Unit)
      ⟨returned, fun _ => ()⟩ := by
    refine hbusy.step (t := ()) (a := .returns ()) ?_ rfl
    intro ref' pending other h
    cases h
  let gone : World Unit Unit Unit := { returned with modules := (unregisterModule cap returned.modules 1).1 }
  have hgone : (owners Unit Unit Unit cap).Reachable (fun s _ op => Orderly s.shared op) (initial Unit Unit Unit)
      ⟨gone, fun _ => ()⟩ := hreturned.step (t := ()) (a := .unregisterModule 1) trivial rfl
  exact ⟨_, rfl, by decide, owned_is_destroyed_once hgone⟩

/-- A module that is draining gives no lease, and the adopted object is valid without one. -/
theorem refused_lease_lets_module_unload : ∃ s : Config Unit (World Unit Unit Unit) Unit,
    (owners Unit Unit Unit {}).Reachable Program.anyStep (initial Unit Unit Unit) s ∧
      s.shared.refs () = .alive ⟨ownedUnit, none, some 0⟩ [] ∧ s.shared.calls 0 = [] ∧
      (s.shared.modules.controls ()).state = .unloaded ∧ ¬ Kept s.shared := by
  have hrun : ((owners Unit Unit Unit {}).exec Program.anyStep (initial Unit Unit Unit)
      [((), .registerModule () noInterfaces), ((), .beginUnload ()), ((), .adopt () ownedUnit (some ())),
        ((), .unregisterModule 1)]).map
      (fun s => decide (s.shared.refs () = .alive ⟨ownedUnit, none, some 0⟩ [] ∧ s.shared.calls 0 = [] ∧
        (s.shared.modules.controls ()).state = .unloaded ∧ s.shared.adoptions[0]? = some (ownedUnit, some ()) ∧
        s.shared.returned 0 = 0)) = some true := by
    decide
  obtain ⟨s, hs, he⟩ := Option.map_eq_some_iff.mp hrun
  obtain ⟨href, hcalls, hstate, hadoption, hreturned⟩ := of_decide_eq_true he
  refine ⟨s, .of_exec .init hs, href, hcalls, hstate, fun hkept => ?_⟩
  exact (hkept.leased 0 ownedUnit () hadoption (by decide) hreturned).2.2 hstate

end Abix.Interface.Owner

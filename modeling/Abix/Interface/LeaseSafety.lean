import Abix.Interface.Lease
import Abix.Concurrency.Ledger

/-! Nobody holds a lease on a module that has been unregistered, as long as the 32-bit
counter of leases never wraps. -/
namespace Abix.Interface.Lease
open Abix.Concurrency
variable {Tid : Type} [DecidableEq Tid]

/-- Everything one atomic access can do, with the test that led to it. -/
inductive Moves (sh : Shared) : Pc → Shared → Pc → Prop
  | acquire (r) : Moves sh (.idle r) sh .acquireCheck
  | turnedAway : sh.state ≠ .active → Moves sh .acquireCheck sh (.idle (some false))
  | admitted : Moves sh .acquireCheck sh .acquireAdd
  | increment : Moves sh .acquireAdd { sh with leases := sh.leases + 1 } (.acquireRecheck sh.leases)
  | refused (b) : sh.state ≠ .active → Moves sh (.acquireRecheck b) sh .acquireUndo
  | first (b) : sh.state = .active → b = 0 → sh.pin = true → Moves sh (.acquireRecheck b) sh .acquirePin
  | granted (b) : sh.state = .active → ¬ (b = 0 ∧ sh.pin = true) →
      Moves sh (.acquireRecheck b) { sh with held := sh.held + 1 } (.idle (some true))
  | undo : Moves sh .acquireUndo { sh with leases := sh.leases - 1 } (.idle (some false))
  | pinned : Moves sh .acquirePin { sh with pins := sh.pins + 1, held := sh.held + 1 } (.idle (some true))
  | release (r) : 0 < sh.held → Moves sh (.idle r) { sh with held := sh.held - 1 } .releaseSub
  | last : sh.leases = 1 → sh.unpin = true →
      Moves sh .releaseSub { sh with leases := sh.leases - 1 } .releaseUnpin
  | notLast : ¬ (sh.leases = 1 ∧ sh.unpin = true) →
      Moves sh .releaseSub { sh with leases := sh.leases - 1 } (.idle none)
  | unpinned : Moves sh .releaseUnpin { sh with unpins := sh.unpins + 1 } (.idle none)
  | unload (r un) : (un = true → sh.unregistered = false) → Moves sh (.idle r) sh (.unloadLoad un)
  | observe (un) : Moves sh (.unloadLoad un) sh (.unloadLoop un sh.state)
  | observeAgain (un o) : Moves sh (.unloadLoop un o) sh (.unloadLoop un sh.state)
  | begun (un o r) : o ≠ .active → Moves sh (.unloadLoop un o) sh (unloadBegun un r)
  | flip (un o) : sh.state = .active →
      Moves sh (.unloadLoop un o) { sh with state := .draining } (unloadBegun un true)
  | wait (r) : Moves sh (.idle r) sh (.idlePoll false 0)
  | poll (un i j) : Moves sh (.idlePoll un i) sh (.idlePoll un j)
  | pollLast (un i) : Moves sh (.idlePoll un i) sh (.idleLast un)
  | seenIdle (un i) : sh.leases = 0 → Moves sh (.idlePoll un i) sh (idleAnswer un true)
  | seenIdleLast (un) : sh.leases = 0 → Moves sh (.idleLast un) sh (idleAnswer un true)
  | busy (un) : Moves sh (.idleLast un) sh (.idle (some false))
  | notRegistered (r) : sh.unregistered = true → Moves sh (.idle r) sh (.idle (some false))
  | mark : Moves sh .markUnloaded { sh with state := .unloaded, unregistered := true } (.idle (some true))

theorem moves_of_run {spurious : Bool} {sh sh' : Shared} {pc pc' : Pc}
    (h : run spurious sh pc = some (sh', pc')) : Moves sh pc sh' pc' := by
  cases pc with
  | idle r => cases h
  | acquireCheck =>
    simp only [run, tryAcquireLease, Option.some.injEq, Prod.mk.injEq] at h
    obtain ⟨rfl, rfl⟩ := h
    split
    · exact .admitted
    · exact .turnedAway ‹_›
  | acquireAdd =>
    cases h
    exact .increment
  | acquireRecheck b =>
    simp only [run, tryAcquireLease] at h
    split at h
    · cases h
      exact .refused b ‹_›
    · rename_i ha
      split at h
      · rename_i hb
        cases h
        exact .first b (not_not.mp ha) hb.1 hb.2
      · cases h
        exact .granted b (not_not.mp ha) ‹_›
  | acquireUndo =>
    cases h
    exact .undo
  | acquirePin =>
    cases h
    exact .pinned
  | releaseSub =>
    simp only [run, releaseLease, Option.some.injEq, Prod.mk.injEq] at h
    obtain ⟨rfl, rfl⟩ := h
    split
    · rename_i hl
      exact .last hl.1 hl.2
    · exact .notLast ‹_›
  | releaseUnpin =>
    cases h
    exact .unpinned
  | unloadLoad un =>
    cases h
    exact .observe un
  | unloadLoop un o =>
    simp only [run, beginUnload] at h
    split at h
    · rename_i ho
      cases h
      exact .begun un o true (by rcases ho with rfl | rfl <;> decide)
    · split at h
      · cases h
        exact .begun un o false ‹_›
      · split at h
        · rename_i hs
          cases h
          exact .flip un o hs.1
        · cases h
          exact .observeAgain un o
  | idlePoll un i =>
    simp only [run, waitForIdle, Option.some.injEq, Prod.mk.injEq] at h
    obtain ⟨rfl, rfl⟩ := h
    split
    · exact .seenIdle un i ‹_›
    · split
      · exact .poll un i (i + 1)
      · exact .pollLast un i
  | idleLast un =>
    simp only [run, waitForIdle, Option.some.injEq, Prod.mk.injEq] at h
    obtain ⟨rfl, rfl⟩ := h
    by_cases hz : sh.leases = 0
    · simpa [hz] using Moves.seenIdleLast un hz
    · simpa [hz, idleAnswer] using Moves.busy un
  | markUnloaded =>
    cases h
    exact .mark

/-- The one inversion of a step: later proofs argue by these cases. -/
theorem moves_of_step {sh sh' : Shared} {pc pc' : Pc} {a : Action}
    (h : step sh pc a = some (sh', pc')) : Moves sh pc sh' pc' := by
  cases a with
  | run spurious => exact moves_of_run h
  | tryAcquireLease =>
    cases pc <;> cases h
    exact .acquire _
  | releaseLease =>
    cases pc with
    | idle r =>
      simp only [step] at h
      split at h
      · cases h
        exact .release r ‹_›
      · cases h
    | _ => cases h
  | beginUnload =>
    cases pc <;> cases h
    exact .unload _ false (by simp)
  | waitForIdle =>
    cases pc <;> cases h
    exact .wait _
  | unregisterModule =>
    cases pc with
    | idle r =>
      simp only [step, Option.some.injEq, Prod.mk.injEq] at h
      obtain ⟨rfl, rfl⟩ := h
      split
      · exact .notRegistered r ‹_›
      · exact .unload r true fun _ => Bool.eq_false_iff.mpr ‹_›
    | _ => cases h

/-- What a thread between its increment and its decrement adds to the counter. -/
def weight : Pc → Nat
  | .acquireRecheck _ | .acquireUndo | .acquirePin | .releaseSub => 1
  | .idle _ | .acquireCheck | .acquireAdd | .releaseUnpin | .unloadLoad _ | .unloadLoop _ _ | .idlePoll _ _
  | .idleLast _ | .markUnloaded => 0

@[simp] theorem weight_unloadBegun (un r : Bool) : weight (unloadBegun un r) = 0 := by
  cases un <;> rfl

@[simp] theorem weight_idleAnswer (un r : Bool) : weight (idleAnswer un r) = 0 := by
  cases un <;> cases r <;> rfl

/-- The discipline under which the counter is exact: an acquire never increments the
largest 32-bit value. -/
def Fits (c : Config Tid Shared Pc) (t : Tid) (_ : Action) : Prop :=
  c.locals t = .acquireAdd → c.shared.leases ≠ 4294967295

instance (c : Config Tid Shared Pc) (t : Tid) (a : Action) : Decidable (Fits c t a) :=
  inferInstanceAs (Decidable (_ → _))

theorem toNat_add_one {x : UInt32} (h : x ≠ 4294967295) : (x + 1).toNat = x.toNat + 1 := by
  have hx := x.toNat_lt
  have hne : x.toNat ≠ 4294967295 := fun he => h (UInt32.toNat_inj.mp he)
  rw [UInt32.toNat_add, UInt32.toNat_one]
  omega

theorem toNat_sub_one {x : UInt32} (h : 0 < x.toNat) : (x - 1).toNat = x.toNat - 1 := by
  have hx := x.toNat_lt
  rw [UInt32.toNat_sub, UInt32.toNat_one]
  omega

/-- An access changes the counter by what it changes in the leases handed out and in the
moving thread's own share. -/
theorem Moves.balance {sh sh' : Shared} {pc pc' : Pc} (h : Moves sh pc sh' pc')
    (hfits : pc = .acquireAdd → sh.leases ≠ 4294967295) (hcounted : weight pc ≤ sh.leases.toNat) :
    sh'.leases.toNat + sh.held + weight pc = sh.leases.toNat + sh'.held + weight pc' := by
  cases h with
  | increment =>
    rw [toNat_add_one (hfits rfl)]
    simp only [weight]
    omega
  | undo | last | notLast =>
    simp only [weight] at hcounted ⊢
    rw [toNat_sub_one hcounted]
    omega
  | release r hh =>
    simp only [weight]
    omega
  | granted | pinned =>
    simp only [weight]
    omega
  | begun | flip =>
    rw [weight_unloadBegun]
    rfl
  | seenIdle | seenIdleLast =>
    rw [weight_idleAnswer]
    rfl
  | _ => rfl

variable [Fintype Tid]

/-- The counter is the leases handed out plus the calls that have counted themselves in. -/
def Counted (c : Config Tid Shared Pc) : Prop :=
  c.shared.leases.toNat = c.shared.held + total weight c.locals

private theorem counted_next {c c' : Config Tid Shared Pc} {t : Tid} {a : Action} (h : Counted c)
    (hok : Fits c t a) (hn : (program Tid).next c t a = some c') : Counted c' := by
  obtain ⟨sh, pc, hs, rfl⟩ := Program.next_eq_some_iff.mp hn
  have hw := held_le_total weight c.locals t
  have hu := total_update weight c.locals t pc
  unfold Counted at h ⊢
  have hb := (moves_of_step hs).balance hok (by omega)
  simp only
  omega

omit [DecidableEq Tid] [Fintype Tid] in
/-- A module that is no longer active is never active again. -/
theorem Moves.closed {sh sh' : Shared} {pc pc' : Pc} (h : Moves sh pc sh' pc')
    (hc : sh.state ≠ .active) : sh'.state ≠ .active := by
  cases h <;> simp_all

omit [DecidableEq Tid] [Fintype Tid] in
theorem Moves.activated {sh sh' : Shared} {pc pc' : Pc} (h : Moves sh pc sh' pc')
    (hc : sh.state ≠ .loading) : sh'.state ≠ .loading := by
  cases h <;> simp_all

/-- No lease is out and none is being pinned or given back, and none can be taken. -/
structure Drained (c : Config Tid Shared Pc) : Prop where
  closed : c.shared.state ≠ .active
  held : c.shared.held = 0
  threads : ∀ t, c.locals t ≠ .acquirePin ∧ c.locals t ≠ .releaseSub

omit [Fintype Tid] in
theorem drained_next {c c' : Config Tid Shared Pc} {t : Tid} {a : Action} (h : Drained c)
    (hn : (program Tid).next c t a = some c') : Drained c' := by
  obtain ⟨sh, pc, hs, rfl⟩ := Program.next_eq_some_iff.mp hn
  have hmove := moves_of_step hs
  have hheld := h.held
  have hclosed := h.closed
  have ht := h.threads t
  refine ⟨hmove.closed h.closed, ?_, ?_⟩
  · generalize c.locals t = pc₀ at hmove ht
    cases hmove <;> simp_all
  · refine (Function.forall_update_iff c.locals (p := fun _ pc => pc ≠ .acquirePin ∧ pc ≠ .releaseSub)).mpr
      ⟨?_, fun u _ => h.threads u⟩
    generalize c.locals t = pc₀ at hmove ht
    cases hmove with
    | begun un o r | flip un o => cases un <;> simp [unloadBegun]
    | seenIdle un | seenIdleLast un => cases un <;> simp [idleAnswer]
    | _ => simp_all

omit [DecidableEq Tid] in
/-- Reading zero from the counter of a closed module proves it drained. -/
theorem Counted.drained {c : Config Tid Shared Pc} (h : Counted c) (hclosed : c.shared.state ≠ .active)
    (hz : c.shared.leases = 0) : Drained c := by
  have h0 : c.shared.held + total weight c.locals = 0 := by
    rw [← h, hz]
    rfl
  refine ⟨hclosed, by omega, fun t => ?_⟩
  have hw := held_le_total weight c.locals t
  constructor <;> intro he <;> rw [he] at hw <;> simp only [weight] at hw <;> omega

/-- What a thread inside `begin_unload`, `wait_for_idle` or an undo relies on. -/
def Relies (c : Config Tid Shared Pc) : Pc → Prop
  | .unloadLoop _ o => o ≠ .loading ∧ (o ≠ .active → c.shared.state ≠ .active)
  | .acquireUndo => c.shared.state ≠ .active
  | .idlePoll true _ | .idleLast true => c.shared.state ≠ .active
  | .markUnloaded => Drained c
  | _ => True

structure Safe (c : Config Tid Shared Pc) : Prop where
  counted : Counted c
  activated : c.shared.state ≠ .loading
  relies : ∀ t, Relies c (c.locals t)
  drained : c.shared.state = .unloaded ∨ c.shared.unregistered = true → Drained c

omit [DecidableEq Tid] [Fintype Tid] in
private theorem relies_mono {c c' : Config Tid Shared Pc} (hs : c.shared.state ≠ .active → c'.shared.state ≠ .active)
    (hd : Drained c → Drained c') {pc : Pc} (h : Relies c pc) : Relies c' pc := by
  unfold Relies at h ⊢
  split at h
  · exact ⟨h.1, fun ho => hs (h.2 ho)⟩
  · exact hs h
  · exact hs h
  · exact hs h
  · exact hd h
  · trivial

omit [DecidableEq Tid] [Fintype Tid] in
private theorem relies_unloadBegun {c : Config Tid Shared Pc} (un r : Bool) (h : c.shared.state ≠ .active) :
    Relies c (unloadBegun un r) := by
  cases un
  · trivial
  · exact h

omit [DecidableEq Tid] [Fintype Tid] in
private theorem relies_idleAnswer {c : Config Tid Shared Pc} (un : Bool) (h : un = true → Drained c) :
    Relies c (idleAnswer un true) := by
  cases un
  · trivial
  · exact h rfl

theorem safe_next {c c' : Config Tid Shared Pc} {t : Tid} {a : Action} (h : Safe c)
    (hok : Fits c t a) (hn : (program Tid).next c t a = some c') : Safe c' := by
  have hcount := counted_next h.counted hok hn
  have hdrain : Drained c → Drained c' := fun hd => drained_next hd hn
  obtain ⟨sh, pc, hs, rfl⟩ := Program.next_eq_some_iff.mp hn
  have hmove := moves_of_step hs
  have hclosed : c.shared.state ≠ .active → sh.state ≠ .active := hmove.closed
  have hrely := h.relies t
  have hactive := h.activated
  have hold := h.drained
  refine ⟨hcount, hmove.activated hactive, ?_, ?_⟩
  · refine (Function.forall_update_iff c.locals (p := fun _ pc => Relies _ pc)).mpr
      ⟨?_, fun u _ => relies_mono hclosed hdrain (h.relies u)⟩
    generalize c.locals t = pc₀ at hmove hrely
    cases hmove with
    | observe un | observeAgain un => exact ⟨hactive, id⟩
    | refused b hb => exact hb
    | begun un o r ho => exact relies_unloadBegun un r (hrely.2 ho)
    | flip un o ha => exact relies_unloadBegun un true (by simp)
    | seenIdle un i hz =>
      refine relies_idleAnswer un fun hun => hdrain (h.counted.drained ?_ hz)
      subst hun
      exact hrely
    | seenIdleLast un hz =>
      refine relies_idleAnswer un fun hun => hdrain (h.counted.drained ?_ hz)
      subst hun
      exact hrely
    | wait r => trivial
    | poll un i j =>
      cases un
      · trivial
      · exact hrely
    | pollLast un i =>
      cases un
      · trivial
      · exact hrely
    | _ => trivial
  · intro hu
    apply hdrain
    generalize c.locals t = pc₀ at hmove hrely
    cases hmove with
    | mark => exact hrely
    | flip un o ha => exact hold (.inr (by simpa using hu))
    | _ => exact hold hu

omit [DecidableEq Tid] in
theorem safe_start (pin unpin : Bool) : Safe (start Tid pin unpin) :=
  ⟨by simp [Counted, start, registered, total, weight], by simp [start, registered],
    fun _ => trivial, by simp [start, registered]⟩

def Acquiring : Pc → Prop
  | .acquireCheck | .acquireAdd | .acquireRecheck _ | .acquireUndo | .acquirePin => True
  | .idle _ | .releaseSub | .releaseUnpin | .unloadLoad _ | .unloadLoop _ _ | .idlePoll _ _ | .idleLast _
  | .markUnloaded => False

/-- After `unregister_module` has returned ok nobody holds a lease and the next access of
no acquire makes it return true; and the module is not unloaded while a lease is held. -/
def LeaseSafe (c : Config Tid Shared Pc) : Prop :=
  (c.shared.unregistered = true → c.shared.held = 0 ∧ (∀ t, c.locals t ≠ .releaseSub) ∧
    ∀ t a c', (program Tid).next c t a = some c' → Acquiring (c.locals t) → c'.locals t ≠ .idle (some true)) ∧
  ((0 < c.shared.held ∨ ∃ t, c.locals t = .releaseSub) → c.shared.state ≠ .unloaded)

/-- Lease safety over every run in which the 32-bit counter never wraps. -/
theorem unregistered_module_has_no_lease {pin unpin : Bool} {c : Config Tid Shared Pc}
    (h : (program Tid).Reachable Fits (start Tid pin unpin) c) : LeaseSafe c := by
  have hsafe : Safe c := h.invariant (safe_start pin unpin) fun _ _ _ _ hs hk hn => safe_next hs hk hn
  refine ⟨fun hu => ?_, ?_⟩
  · have hd := hsafe.drained (.inr hu)
    refine ⟨hd.held, fun t => (hd.threads t).2, fun t a c' hn ha => ?_⟩
    obtain ⟨sh, pc, hs, rfl⟩ := Program.next_eq_some_iff.mp hn
    have hmove := moves_of_step hs
    have hclosed := hd.closed
    have hpin := (hd.threads t).1
    simp only [Function.update_self]
    generalize c.locals t = pc₀ at hmove ha hpin
    cases hmove <;> simp_all [Acquiring]
  · intro hheld hun
    have hd := hsafe.drained (.inl hun)
    rcases hheld with hh | ⟨t, ht⟩
    · exact absurd hd.held (by omega)
    · exact (hd.threads t).2 ht

/-- The theorem's discipline admits a whole life cycle: one lease taken, pinned and given
back, then the module unregistered. -/
theorem unregistered_module_has_no_lease_cycle :
    ∃ c, (program Unit).Reachable Fits (start Unit true true) c ∧ c.shared.unregistered = true ∧ LeaseSafe c := by
  have he : ((program Unit).exec Fits (start Unit true true)
      ([.tryAcquireLease, .run false, .run false, .run false, .run false, .releaseLease, .run false, .run false,
        .unregisterModule, .run false, .run false, .run false, .run false].map ((), ·))).isSome = true := by
    decide
  obtain ⟨c, hc⟩ := Option.isSome_iff_exists.mp he
  have hr := Program.Reachable.of_exec .init hc
  refine ⟨c, hr, ?_, unregistered_module_has_no_lease hr⟩
  have := congrArg (Option.map fun c => c.shared.unregistered) hc
  exact (Option.some.inj this).symm

private theorem acquire_many (n : Nat) : ∃ c, (program Unit).Reachable Program.anyStep (start Unit false false) c ∧
    c.shared = { registered false false with leases := UInt32.ofNat n, held := n } ∧ ∃ r, c.locals () = .idle r := by
  induction n with
  | zero => exact ⟨_, .init, rfl, none, rfl⟩
  | succ n ih =>
    obtain ⟨⟨sh, locals⟩, hr, rfl, r, hl⟩ := ih
    simp only at hl
    have he : (program Unit).exec Program.anyStep
        ⟨{ registered false false with leases := UInt32.ofNat n, held := n }, locals⟩
        ([.tryAcquireLease, .run false, .run false, .run false].map ((), ·)) =
        some ⟨{ registered false false with leases := UInt32.ofNat (n + 1), held := n + 1 },
          fun _ => .idle (some true)⟩ := by
      simp [Program.exec, Program.next, program, step, run, tryAcquireLease, hl, registered, UInt32.ofNat_add]
      rfl
    exact ⟨_, hr.of_exec he, rfl, some true, rfl⟩

/-- One thread that takes 2^32 leases and keeps them wraps the counter to zero, and the
module is unregistered under all of them. -/
theorem wrapped_counter_unregisters :
    ¬ ∀ c, (program Unit).Reachable Program.anyStep (start Unit false false) c → LeaseSafe c := by
  intro hall
  obtain ⟨⟨sh, locals⟩, hr, rfl, r, hl⟩ := acquire_many 4294967296
  obtain rfl : locals = fun _ => .idle r := funext fun _ => hl
  have he : (program Unit).exec Program.anyStep
      ⟨{ registered false false with leases := UInt32.ofNat 4294967296, held := 4294967296 }, fun _ => .idle r⟩
      ([.unregisterModule, .run false, .run false, .run false, .run false].map ((), ·)) =
      some ⟨⟨.unloaded, 0, false, false, 4294967296, 0, 0, true⟩, fun _ => .idle (some true)⟩ := rfl
  have hheld := ((hall _ (hr.of_exec he)).1 rfl).1
  exact absurd hheld (by decide)

end Abix.Interface.Lease

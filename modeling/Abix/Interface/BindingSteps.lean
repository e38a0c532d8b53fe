import Abix.Interface.Binding
import Abix.Interface.LeaseSafety

/-! What the steps of bindings do to the words of a control: the counter is the leases that variables
and threads hold, the state only goes on, and a closed module gives no lease. -/
namespace Abix.Interface.Binding
open Abix.Concurrency Abix.Blocks Abix.Model Abix.Interface.ModuleRegistry
variable {Tid E B Ctl Obj : Type} [DecidableEq E] [DecidableEq B] [DecidableEq Ctl] {setting : Setting Ctl}
  {sh sh' : Shared E B Ctl Obj} {l l' : Local B Ctl Obj} {control : Ctl}

inductive Moves (setting : Setting Ctl) (sh : Shared E B Ctl Obj) :
    Local B Ctl Obj → Shared E B Ctl Obj → Local B Ctl Obj → Prop
  | kept (s s') : Moves setting sh (.idle s) sh (.idle s')
  | registered (s control manifest) : sh.entered = false →
      Moves setting sh (.idle s) { sh with modules := (registerModule setting.capacity sh.modules control manifest).1 }
        (.idle (some (registerModule setting.capacity sh.modules control manifest).2))
  | drawn (s) : Moves setting sh (.idle s) { sh with modules.counter := nextModuleInstanceId sh.modules } (.idle none)
  | copied (s e k) : k < sh.modules.interfaceCount →
      Moves setting sh (.idle s) { sh with entries := Function.update sh.entries e (sh.modules.interfaces k) }
        (.idle none)
  | unbound (s b) : sh.bound b = none → Moves setting sh (.idle s) (sh.put b (some {})) (.idle none)
  | moved (s b other value) : b ≠ other → sh.bound other = some value →
      Moves setting sh (.idle s) (sh.move b other value) (drop ((sh.bound b).bind (·.lease)))
  | destroyed (s b value) : sh.bound b = some value →
      Moves setting sh (.idle s) (sh.put b none) (drop value.lease)
  | acquiring (s b control) : Moves setting sh (.idle s) sh (.inside (.acquire b) control .acquireCheck)
  | binding (s b e object control) : (sh.entries e).control = some control →
      Moves setting sh (.idle s) sh (.inside (.bind b (sh.entries e) object) control .acquireCheck)
  | unloading (s control) : Moves setting sh (.idle s) sh (.inside .loader control (.unloadLoad false))
  | waiting (s control) : Moves setting sh (.idle s) sh (.inside .loader control (.idlePoll false 0))
  | entering (s id slot control) : sh.entered = false → findSlot setting.capacity sh.modules id = some slot →
      (sh.modules.modules slot).control = some control →
      Moves setting sh (.idle s) { sh with entered := true } (.inside (.unregister slot) control (.unloadLoad true))
  | finished (call control answer r) : finish setting sh control answer call = some r →
      Moves setting sh (.inside call control (.idle answer)) r.1 (.idle r.2)
  | removed (slot control) : Moves setting sh (.inside (.unregister slot) control .markUnloaded)
      { sh with modules := remove sh.modules slot control } (.inside (.unregister slot) control (.idle (some true)))
  | accessed (call control pc words pc') : (∀ slot, call = .unregister slot → pc ≠ .markUnloaded) →
      Lease.Moves (sh.words setting control) pc words pc' → (∀ answer, pc ≠ .idle answer) →
      Moves setting sh (.inside call control pc) (sh.setWords control words) (.inside call control pc')

theorem moves_of_run {spurious : Bool} (h : run setting spurious sh l = some (sh', l')) :
    Moves setting sh l sh' l' := by
  unfold run at h
  split at h
  · cases h
  · rename_i call control answer
    obtain ⟨r, hr, he⟩ := Option.map_eq_some_iff.mp h
    cases he
    exact .finished call control answer r hr
  · cases h
    exact .removed _ _
  · rename_i call control pc hidle hmark
    obtain ⟨r, hr, he⟩ := Option.map_eq_some_iff.mp h
    cases he
    refine .accessed call control pc r.1 r.2 ?_ (Lease.moves_of_run hr) ?_
    · rintro slot rfl rfl
      exact hmark slot rfl rfl
    · rintro answer rfl
      exact hidle answer rfl

theorem moves_of_start {s : Option ModuleStatus} {a : Action E B Ctl Obj} (h : start setting sh a = some (sh', l')) :
    Moves setting sh (.idle s) sh' l' := by
  cases a with
  | registerModule control manifest =>
    simp only [start] at h
    split at h
    · cases h
    · cases h
      exact .registered s control manifest (Bool.eq_false_iff.mpr ‹_›)
  | unregisterModule id =>
    simp only [start] at h
    split at h
    · cases h
    · split at h
      · cases h
        exact .kept s _
      · obtain ⟨control, hc, he⟩ := Option.map_eq_some_iff.mp h
        cases he
        exact .entering s id _ control (Bool.eq_false_iff.mpr ‹_›) ‹_› hc
  | draw =>
    cases h
    exact .drawn s
  | copy e k =>
    simp only [start] at h
    split at h
    · rename_i hk
      cases h
      exact .copied s e k hk.2
    · cases h
  | acquireLease b control =>
    cases h
    exact .acquiring s b control
  | bindInterface b e object =>
    simp only [start] at h
    split at h
    · split at h
      · cases h
      · cases h
        exact .unbound s b (Option.not_isSome_iff_eq_none.mp ‹_›)
    · cases h
      exact .binding s b e object _ ‹_›
  | moveConstruct b other =>
    simp only [start] at h
    split at h
    · rename_i hb ho
      cases h
      have hne : b ≠ other := by
        rintro rfl
        rw [hb] at ho
        cases ho
      have hm : Moves setting sh (.idle s) (sh.move b other _) _ := .moved s b other _ hne ho
      rwa [hb] at hm
    · cases h
  | moveAssign b other =>
    simp only [start] at h
    split at h
    · rename_i old value hb ho
      split at h
      · cases h
        exact .kept s none
      · rename_i hne
        cases h
        have hm : Moves setting sh (.idle s) (sh.move b other value) _ := .moved s b other value hne ho
        rwa [hb] at hm
    · cases h
  | destroy b =>
    obtain ⟨value, hb, he⟩ := Option.map_eq_some_iff.mp h
    cases he
    exact .destroyed s b value hb
  | beginUnload control =>
    cases h
    exact .unloading s control
  | waitForIdle control =>
    cases h
    exact .waiting s control
  | run spurious => cases h

theorem moves_of_step {a : Action E B Ctl Obj} (h : step setting sh l a = some (sh', l')) :
    Moves setting sh l sh' l' := by
  cases l with
  | idle s => exact moves_of_start h
  | inside call control pc =>
    cases a with
    | run spurious => exact moves_of_run h
    | _ => cases h

/-- The accesses of `begin_unload` and `wait_for_idle`, on their own or for `unregister_module`. -/
def Serving (un : Bool) : Lease.Pc → Prop
  | .unloadLoad v | .unloadLoop v _ | .idlePoll v _ | .idleLast v => v = un
  | .markUnloaded => un = true
  | .idle answer => answer ≠ none
  | .acquireCheck | .acquireAdd | .acquireRecheck _ | .acquireUndo | .acquirePin | .releaseSub | .releaseUnpin => False

def Call.Makes : Call B Ctl Obj → Lease.Pc → Prop
  | .acquire _, pc | .bind .., pc => Lease.Acquiring pc ∨ ∃ answer, pc = .idle (some answer)
  | .release, pc => pc = .releaseSub ∨ pc = .releaseUnpin ∨ pc = .idle none
  | .loader, pc => Serving false pc
  | .unregister _, pc => Serving true pc

def Local.Makes : Local B Ctl Obj → Prop
  | .idle _ => True
  | .inside call _ pc => call.Makes pc

/-- Whether a call that is over has taken a lease that it still has to store. -/
def Call.taken : Call B Ctl Obj → Lease.Pc → Nat
  | .acquire _, .idle (some true) | .bind .., .idle (some true) => 1
  | _, _ => 0

section Accesses
omit [DecidableEq B] [DecidableEq Ctl]
variable {call : Call B Ctl Obj} {words words' : Lease.Shared} {pc pc' : Lease.Pc}

theorem serving_moves {un : Bool} (h : Serving un pc) (hm : Lease.Moves words pc words' pc') (hidle : ∀ r, pc ≠ .idle r)
    (hmark : un = true → pc ≠ .markUnloaded) : Serving un pc' ∧ words'.held = words.held := by
  cases hm with
  | begun v o r =>
    obtain rfl := h
    cases v <;> simp [Lease.unloadBegun, Serving]
  | flip v o =>
    obtain rfl := h
    cases v <;> simp [Lease.unloadBegun, Serving]
  | seenIdle v i hz =>
    obtain rfl := h
    cases v <;> simp [Lease.idleAnswer, Serving]
  | seenIdleLast v hz =>
    obtain rfl := h
    cases v <;> simp [Lease.idleAnswer, Serving]
  | busy v => exact ⟨Option.some_ne_none _, rfl⟩
  | mark => exact absurd rfl (hmark h)
  | _ => simp_all [Serving]

theorem makes_moves (h : call.Makes pc) (hm : Lease.Moves words pc words' pc') (hidle : ∀ r, pc ≠ .idle r)
    (hmark : ∀ slot, call = .unregister slot → pc ≠ .markUnloaded) :
    call.Makes pc' ∧ words'.held = words.held + call.taken pc' := by
  cases call with
  | acquire b | bind b entry object =>
    obtain h | ⟨answer, rfl⟩ := h
    · cases hm <;> simp_all [Call.Makes, Call.taken, Lease.Acquiring]
    · exact absurd rfl (hidle _)
  | release =>
    obtain rfl | rfl | rfl := h
    · cases hm <;> simp [Call.Makes, Call.taken]
    · cases hm
      simp [Call.Makes, Call.taken]
    · exact absurd rfl (hidle _)
  | loader =>
    obtain ⟨hs, hheld⟩ := serving_moves h hm hidle fun h => absurd h Bool.false_ne_true
    exact ⟨hs, hheld⟩
  | unregister slot =>
    obtain ⟨hs, hheld⟩ := serving_moves h hm hidle fun _ => hmark slot rfl
    exact ⟨hs, hheld⟩

/-- An access takes no lease from a module that is not active. -/
theorem held_moves (hm : Lease.Moves words pc words' pc') (hidle : ∀ r, pc ≠ .idle r) (hc : words.state ≠ .active)
    (hpin : pc ≠ .acquirePin) : words'.held = words.held ∧ pc' ≠ .acquirePin ∧ pc' ≠ .releaseSub := by
  cases hm with
  | begun v o r | flip v o => cases v <;> simp [Lease.unloadBegun]
  | seenIdle v i hz | seenIdleLast v hz => cases v <;> simp [Lease.idleAnswer]
  | _ => simp_all

/-- Only `unregister_module` marks a module unloaded. -/
theorem unregister_of_makes (h : call.Makes .markUnloaded) : ∃ slot, call = .unregister slot := by
  cases call with
  | unregister slot => exact ⟨slot, rfl⟩
  | acquire b | bind b entry object => simp [Call.Makes, Lease.Acquiring] at h
  | release => simp [Call.Makes] at h
  | loader => simp [Call.Makes, Serving] at h

end Accesses

section Finish
omit [DecidableEq E] [DecidableEq Ctl]
variable {call : Call B Ctl Obj} {answer : Option Bool} {r : Shared E B Ctl Obj × Option ModuleStatus}

/-- A call that ends touches neither the modules nor the copies. -/
theorem finish_frame (h : finish setting sh control answer call = some r) :
    r.1.modules = sh.modules ∧ r.1.entries = sh.entries ∧
      ((∀ slot, call ≠ .unregister slot) → r.1.entered = sh.entered) := by
  cases call with
  | acquire b | bind b entry object =>
    simp only [finish] at h
    split at h
    · cases h
    · cases h
      exact ⟨rfl, rfl, fun _ => rfl⟩
  | unregister slot =>
    cases h
    exact ⟨rfl, rfl, fun hne => absurd rfl (hne slot)⟩
  | _ =>
    cases h
    exact ⟨rfl, rfl, fun _ => rfl⟩

/-- It returns an object, with the lease that it has taken, or leaves the variables alone. -/
theorem finish_bound (h : finish setting sh control answer call = some r) :
    (r.1.bound = sh.bound ∧ call.taken (.idle answer) = 0) ∨
    ∃ b ref, sh.bound b = none ∧ call.taken (.idle (some true)) = 1 ∧
      r.1.bound = (sh.put b (some (if answer = some true then ⟨ref, some control⟩ else {}))).bound ∧
      (ref = {} ∨ ∃ entry object, call = .bind b entry object ∧ ref = resolved setting entry object) := by
  cases call with
  | acquire b =>
    simp only [finish] at h
    split at h
    · cases h
    · cases h
      exact .inr ⟨b, {}, Option.not_isSome_iff_eq_none.mp ‹_›, rfl, rfl, .inl rfl⟩
  | bind b entry object =>
    simp only [finish] at h
    split at h
    · cases h
    · cases h
      exact .inr ⟨b, _, Option.not_isSome_iff_eq_none.mp ‹_›, rfl, rfl, .inr ⟨entry, object, rfl, rfl⟩⟩
  | _ =>
    cases h
    exact .inl ⟨rfl, rfl⟩

end Finish

def leased (control : Ctl) (value : Option (BoundInterface Ctl Obj)) : Nat :=
  if value.bind (·.lease) = some control then 1 else 0

def Local.weight (control : Ctl) : Local B Ctl Obj → Nat
  | .idle _ => 0
  | .inside call c pc => if c = control then Lease.weight pc + call.taken pc else 0

omit [DecidableEq B] in
theorem weight_drop (value : Option (BoundInterface Ctl Obj)) :
    (drop (value.bind (·.lease)) : Local B Ctl Obj).weight control = leased control value := by
  unfold leased
  cases value.bind (·.lease) with
  | none => rfl
  | some c => simp [drop, Local.weight, Lease.weight, Call.taken]

omit [DecidableEq B] in
theorem Local.weight_of_zero {call : Call B Ctl Obj} {c : Ctl} {pc : Lease.Pc} (hw : Lease.weight pc = 0)
    (ht : call.taken pc = 0) : (Local.inside call c pc).weight control = 0 := by
  simp [Local.weight, hw, ht]

omit [DecidableEq B] in
/-- A lease that was taken is that of the object that is returned. -/
theorem weight_answered {call : Call B Ctl Obj} {c : Ctl} {answer : Option Bool} {ref : InterfaceRef Obj}
    (hcall : call.taken (.idle (some true)) = 1) : (Local.inside call c (.idle answer)).weight control =
      leased control (some (if answer = some true then ⟨ref, some c⟩ else {})) := by
  cases answer with
  | none => cases call <;> simp [Local.weight, Lease.weight, Call.taken, leased]
  | some a =>
    cases a with
    | false => cases call <;> simp [Local.weight, Lease.weight, Call.taken, leased]
    | true => simp [Local.weight, Lease.weight, hcall, leased]

theorem leased_of_lease {value : BoundInterface Ctl Obj} (h : value.lease = none) :
    leased control (some value) = 0 := by
  simp [leased, h]

private theorem registerModule_leases (cap : Capacity) (w : World Ctl) (c : Ctl) (manifest : ModuleManifest) :
    ((registerModule cap w c manifest).1.controls control).leases = (w.controls control).leases := by
  unfold registerModule
  split
  · rfl
  · by_cases hc : control = c
    · simp [hc]
    · simp [Function.update_of_ne hc]

section Counting
variable [Fintype B]

omit [DecidableEq E] in
theorem total_put (sh : Shared E B Ctl Obj) (control : Ctl) (b : B) (value : Option (BoundInterface Ctl Obj)) :
    total (leased control) (sh.put b value).bound + leased control (sh.bound b) =
      total (leased control) sh.bound + leased control value :=
  total_update (leased control) sh.bound b value

/-- A step changes the counter by what it changes in the variables and in its thread's own share. -/
theorem Moves.balance (h : Moves setting sh l sh' l') (hmakes : l.Makes) (control : Ctl)
    (hfits : ∀ call c, l = .inside call c .acquireAdd → (sh.modules.controls c).leases ≠ 4294967295)
    (hcounted : l.weight control ≤ (sh.modules.controls control).leases.toNat) :
    (sh'.modules.controls control).leases.toNat + total (leased control) sh.bound + l.weight control =
      (sh.modules.controls control).leases.toNat + total (leased control) sh'.bound + l'.weight control := by
  cases h with
  | registered s c manifest =>
    rw [registerModule_leases]
    rfl
  | unbound s b hb =>
    have ht := total_put sh control b (some {})
    rw [hb] at ht
    simpa [Local.weight, Shared.put, leased] using ht.symm
  | moved s b other value hne ho =>
    have h1 := total_put sh control b (some value)
    have h2 := total_put (sh.put b (some value)) control other (some value.movedFrom)
    have hother : (sh.put b (some value)).bound other = some value := by
      rw [← ho]
      exact Function.update_of_ne hne.symm ..
    have hfrom : leased control (some value.movedFrom) = 0 := leased_of_lease rfl
    rw [hother] at h2
    rw [weight_drop]
    simp only [Local.weight]
    change (sh.modules.controls control).leases.toNat + total (leased control) sh.bound + 0 =
      (sh.modules.controls control).leases.toNat +
        total (leased control) ((sh.put b (some value)).put other (some value.movedFrom)).bound +
          leased control (sh.bound b)
    omega
  | destroyed s b value hb =>
    have ht := total_put sh control b none
    have hw : (drop ((some value).bind (·.lease)) : Local B Ctl Obj).weight control = leased control (some value) :=
      weight_drop _
    rw [hb] at ht
    rw [Option.bind_some] at hw
    rw [hw]
    simp only [Local.weight]
    change (sh.modules.controls control).leases.toNat + total (leased control) sh.bound + 0 =
      (sh.modules.controls control).leases.toNat + total (leased control) (sh.put b none).bound +
        leased control (some value)
    have hnone : leased control (none : Option (BoundInterface Ctl Obj)) = 0 := rfl
    omega
  | finished call c answer r hr =>
    obtain ⟨hmodules, -, -⟩ := finish_frame hr
    rw [hmodules]
    rcases finish_bound hr with ⟨hbound, htaken⟩ | ⟨b, ref, hb, htaken, hbound, -⟩
    · rw [hbound, Local.weight_of_zero rfl htaken]
      rfl
    · have ht := total_put sh control b (some (if answer = some true then ⟨ref, some c⟩ else {}))
      rw [hb] at ht
      rw [weight_answered htaken, hbound]
      exact (Nat.add_assoc ..).trans ((congrArg _ ht.symm).trans rfl)
  | removed slot c =>
    have hl : ((remove sh.modules slot c).controls control).leases = (sh.modules.controls control).leases := by
      by_cases hc : control = c
      · simp [remove, markUnloaded, hc]
      · simp [remove, Function.update_of_ne hc]
    rw [hl, Local.weight_of_zero rfl rfl, Local.weight_of_zero rfl rfl]
  | accessed call c pc words pc' hmark hm hidle =>
    obtain ⟨-, hheld⟩ := makes_moves hmakes hm hidle hmark
    have hzero : call.taken pc = 0 := by
      cases pc with
      | idle r => exact absurd rfl (hidle r)
      | _ => cases call <;> rfl
    simp only [Local.weight, hzero] at hcounted ⊢
    by_cases hc : c = control
    · subst hc
      rw [if_pos rfl] at hcounted
      have hb := hm.balance (fun he => hfits call c (he ▸ rfl)) hcounted
      simp only [Shared.setWords, Function.update_self, Shared.words, if_true] at hb hheld ⊢
      omega
    · simp [hc, Shared.setWords, Function.update_of_ne (Ne.symm hc)]
  | acquiring | binding | unloading | waiting | entering =>
    rw [Local.weight_of_zero rfl rfl]
    rfl
  | _ => rfl

end Counting

def Shared.state (sh : Shared E B Ctl Obj) (control : Ctl) : ModuleState := (sh.modules.controls control).state

def Closed (sh : Shared E B Ctl Obj) (control : Ctl) : Prop := sh.state control ≠ .active ∧ sh.state control ≠ .loading

/-- A registration changes no control but its own, and that only from the loading state. -/
theorem registerModule_cases (cap : Capacity) (w : World Ctl) (c : Ctl) (manifest : ModuleManifest) :
    (refusal cap w c manifest = none ∧ (w.controls c).state = .loading ∧
      ((registerModule cap w c manifest).1.controls c).state = .active ∧
      ∀ d, d ≠ c → (registerModule cap w c manifest).1.controls d = w.controls d) ∨
    (registerModule cap w c manifest).1 = w := by
  cases hr : refusal cap w c manifest with
  | some status => exact .inr (by simp [registerModule, hr])
  | none =>
    have hloading : (w.controls c).state = .loading := by
      unfold refusal at hr
      repeat' split at hr
      any_goals cases hr
      rename_i hactivate
      by_contra hne
      exact hactivate (if_neg hne)
    refine .inl ⟨rfl, hloading, by simp [registerModule, hr], fun d hd => ?_⟩
    simp [registerModule, hr, Function.update_of_ne hd]

omit [DecidableEq E] [DecidableEq B] in
theorem setWords_state (sh : Shared E B Ctl Obj) (control d : Ctl) (words : Lease.Shared) :
    (sh.setWords control words).state d = if d = control then words.state else sh.state d := by
  by_cases hd : d = control
  · simp [Shared.state, Shared.setWords, hd]
  · simp [Shared.state, Shared.setWords, hd]

omit [DecidableEq E] [DecidableEq B] in
private theorem remove_state (sh : Shared E B Ctl Obj) (slot : Nat) (control d : Ctl) :
    ({ sh with modules := remove sh.modules slot control } : Shared E B Ctl Obj).state d =
      if d = control then .unloaded else sh.state d := by
  by_cases hd : d = control
  · simp [Shared.state, remove, markUnloaded, hd]
  · simp [Shared.state, remove, hd]

/-- The states of the controls change by registrations, by removals and by what a lease does. -/
theorem Moves.states (h : Moves setting sh l sh' l') (hmakes : l.Makes) (d : Ctl) :
    sh'.state d = sh.state d ∨ (sh.entered = false ∧ sh.state d = .loading ∧ sh'.state d = .active) ∨
      (sh.state d = .active ∧ sh'.state d = .draining) ∨
      (sh'.state d = .unloaded ∧ ∃ slot, l = .inside (.unregister slot) d .markUnloaded) := by
  cases h with
  | registered s c manifest he =>
    rcases registerModule_cases setting.capacity sh.modules c manifest with ⟨-, hl, ha, hother⟩ | hsame
    · by_cases hd : d = c
      · exact .inr (.inl ⟨he, hd ▸ hl, hd ▸ ha⟩)
      · exact .inl (congrArg ModuleControl.state (hother d hd))
    · exact .inl (by simp only [Shared.state, hsame])
  | finished call c answer r hr => exact .inl (by rw [Shared.state, (finish_frame hr).1, Shared.state])
  | removed slot c =>
    rw [remove_state]
    by_cases hd : d = c
    · exact .inr (.inr (.inr ⟨if_pos hd, slot, hd ▸ rfl⟩))
    · exact .inl (if_neg hd)
  | accessed call c pc words pc' hmark hm hidle =>
    rw [setWords_state]
    by_cases hd : d = c
    · subst hd
      rw [if_pos rfl]
      cases hm with
      | flip v o ha => exact .inr (.inr (.inl ⟨ha, rfl⟩))
      | mark =>
        obtain ⟨slot, rfl⟩ := unregister_of_makes hmakes
        exact absurd rfl (hmark slot rfl)
      | _ => exact .inl rfl
    · exact .inl (if_neg hd)
  | _ => exact .inl rfl

theorem Moves.closed (h : Moves setting sh l sh' l') (hmakes : l.Makes) {d : Ctl} (hc : Closed sh d) :
    Closed sh' d := by
  rcases h.states hmakes d with he | ⟨-, hl, -⟩ | ⟨ha, -⟩ | ⟨hu, -⟩
  · rwa [Closed, he]
  · exact absurd hl hc.2
  · exact absurd ha hc.1
  · simp [Closed, hu]

theorem Moves.unloaded (h : Moves setting sh l sh' l') (hmakes : l.Makes) {d : Ctl} (hu : sh.state d = .unloaded) :
    sh'.state d = .unloaded := by
  rcases h.states hmakes d with he | ⟨-, hl, -⟩ | ⟨ha, -⟩ | ⟨hu', -⟩
  · rw [he, hu]
  · rw [hu] at hl
    cases hl
  · rw [hu] at ha
    cases ha
  · exact hu'

def Local.Owns (control : Ctl) : Local B Ctl Obj → Prop
  | .idle _ => False
  | .inside call c pc => c = control ∧ (pc = .acquirePin ∨ pc = .releaseSub ∨ call.taken pc ≠ 0)

omit [DecidableEq B] in
theorem Local.weight_ne_zero (h : l.Owns control) : l.weight control ≠ 0 := by
  cases l with
  | idle s => exact h.elim
  | inside call c pc =>
    obtain ⟨rfl, rfl | rfl | ht⟩ := h <;> simp_all [Local.weight, Lease.weight]

omit [DecidableEq B] in
private theorem leased_answered {call : Call B Ctl Obj} {c : Ctl} {answer : Option Bool} {ref : InterfaceRef Obj}
    (h : ¬ (Local.inside call c (.idle answer)).Owns control) (hcall : call.taken (.idle (some true)) = 1) :
    leased control (some (if answer = some true then ⟨ref, some c⟩ else {})) = 0 := by
  rw [← weight_answered hcall]
  by_contra hne
  simp only [Local.weight, Lease.weight, Nat.zero_add, ite_eq_right_iff, Classical.not_imp] at hne
  exact h ⟨hne.1, .inr (.inr hne.2)⟩

omit [DecidableEq B] in
theorem not_owns_drop {value : Option (BoundInterface Ctl Obj)} (h : leased control value = 0) :
    ¬ (drop (value.bind (·.lease)) : Local B Ctl Obj).Owns control := by
  intro ho
  have hw := Local.weight_ne_zero ho
  rw [weight_drop] at hw
  exact hw h

omit [DecidableEq E] in
theorem leased_put {b : B} {value : Option (BoundInterface Ctl Obj)} (hvars : ∀ b, leased control (sh.bound b) = 0)
    (hv : leased control value = 0) (b' : B) : leased control ((sh.put b value).bound b') = 0 :=
  (Function.forall_update_iff sh.bound (p := fun _ v => leased control v = 0)).mpr ⟨hv, fun b _ => hvars b⟩ b'

/-- Where no lease is out and none can be taken, a step takes none. -/
theorem Moves.free (h : Moves setting sh l sh' l') (hmakes : l.Makes) {d : Ctl} (hc : sh.state d ≠ .active)
    (hvars : ∀ b, leased d (sh.bound b) = 0) (hl : ¬ l.Owns d) :
    (∀ b, leased d (sh'.bound b) = 0) ∧ ¬ l'.Owns d := by
  cases h with
  | unbound s b hb => exact ⟨leased_put hvars (leased_of_lease rfl), nofun⟩
  | moved s b other value hne ho =>
    have hvalue : leased d (some value) = 0 := ho ▸ hvars other
    exact ⟨leased_put (leased_put hvars hvalue) (leased_of_lease rfl), not_owns_drop (hvars b)⟩
  | destroyed s b value hb =>
    have hvalue : leased d (some value) = 0 := hb ▸ hvars b
    exact ⟨leased_put hvars rfl, not_owns_drop hvalue⟩
  | finished call c answer r hr =>
    rcases finish_bound hr with ⟨hbound, -⟩ | ⟨b, ref, -, htaken, hbound, -⟩
    · rw [hbound]
      exact ⟨hvars, not_false⟩
    · rw [hbound]
      exact ⟨leased_put hvars (leased_answered hl htaken), not_false⟩
  | accessed call c pc words pc' hmark hm hidle =>
    refine ⟨hvars, ?_⟩
    rintro ⟨rfl, ho⟩
    obtain ⟨-, htaken⟩ := makes_moves hmakes hm hidle hmark
    obtain ⟨hheld, hpin, hsub⟩ := held_moves hm hidle hc fun he => hl ⟨rfl, .inl he⟩
    rcases ho with ho | ho | ho
    · exact hpin ho
    · exact hsub ho
    · omega
  | removed slot c => exact ⟨hvars, by simp [Local.Owns, Call.taken]⟩
  | _ => exact ⟨hvars, by simp [Local.Owns, Call.taken]⟩

end Abix.Interface.Binding

import Abix.Interface.BindingSteps
import Abix.Interface.Representation

/-! A valid bound interface keeps its module registered: in every interleaving of bindings and moves with
registrations and unregistrations, its lease is counted, and a module under a lease is not removed. -/
namespace Abix.Interface.Binding
open Abix.Concurrency Abix.Blocks Abix.Model Abix.Interface.ModuleRegistry
variable {Tid E B Ctl Obj : Type} [DecidableEq E] [DecidableEq B] [DecidableEq Ctl] {setting : Setting Ctl}
  {sh sh' : Shared E B Ctl Obj} {l l' : Local B Ctl Obj} {control : Ctl} {log log' : List (Registered Ctl)}

/-- The record of the registered modules: each has an id, and none is loading or unloaded. -/
structure Booked (setting : Setting Ctl) (log : List (Registered Ctl)) (w : World Ctl) : Prop where
  represents : Represents setting.capacity w log
  named : ∀ r ∈ log, r.id ≠ 0
  live : ∀ r ∈ log, (w.controls r.control).state = .active ∨ (w.controls r.control).state = .draining

/-- A module that is registered stays so or is unloaded, and an unloaded one stays unloaded. -/
structure Later (log : List (Registered Ctl)) (w : World Ctl) (log' : List (Registered Ctl)) (w' : World Ctl) :
    Prop where
  unloaded : ∀ control, (w.controls control).state = .unloaded → (w'.controls control).state = .unloaded
  kept : ∀ r ∈ log, r ∈ log' ∨ (w'.controls r.control).state = .unloaded

def Closing (state : ModuleState) : Lease.Pc → Prop
  | .unloadLoop _ observed => observed ≠ .loading ∧ (observed ≠ .active → state ≠ .active)
  | .idlePoll _ _ | .idleLast _ | .markUnloaded => state ≠ .active
  | _ => True

/-- The entry is that of a module that is registered or that has been unloaded. -/
def Vouched (log : List (Registered Ctl)) (w : World Ctl) (entry : ModuleInterface Ctl) : Prop :=
  ∀ control, entry.control = some control →
    (w.controls control).state = .unloaded ∨ ∃ r ∈ log, r.control = control ∧ entry ∈ r.bindings

/-- What a call relies on: its entry is vouched for, or the registry is its own. -/
def Call.Relies (log : List (Registered Ctl)) (sh : Shared E B Ctl Obj) (control : Ctl) (pc : Lease.Pc) :
    Call B Ctl Obj → Prop
  | .acquire _ | .release | .loader => True
  | .bind _ entry _ => entry.control = some control ∧ Vouched log sh.modules entry
  | .unregister slot => sh.entered = true ∧ ((∀ answer, pc ≠ .idle answer) →
      (∃ r ∈ log, r.slot = slot ∧ r.control = control) ∧ Closing (sh.state control) pc)

def Local.Relies (log : List (Registered Ctl)) (sh : Shared E B Ctl Obj) : Local B Ctl Obj → Prop
  | .idle _ => True
  | .inside call control pc => call.Relies log sh control pc

/-- A ref under a lease is that of an entry of the leased module. -/
def Backed (setting : Setting Ctl) (log : List (Registered Ctl)) (w : World Ctl)
    (value : BoundInterface Ctl Obj) : Prop :=
  ∀ control, value.lease = some control → value.ref.valid = true →
    ∃ entry object, value.ref = resolved setting entry object ∧ entry.control = some control ∧ Vouched log w entry

section Record
omit [DecidableEq Ctl]
variable {w w' : World Ctl}

theorem Later.refl (log : List (Registered Ctl)) (w : World Ctl) : Later log w log w :=
  ⟨fun _ h => h, fun _ h => .inl h⟩

theorem Vouched.later {entry : ModuleInterface Ctl} (h : Vouched log w entry) (hl : Later log w log' w') :
    Vouched log' w' entry := by
  intro control hc
  rcases h control hc with hu | ⟨r, hr, rfl, hmem⟩
  · exact .inl (hl.unloaded control hu)
  · rcases hl.kept r hr with hr' | hu
    · exact .inr ⟨r, hr', rfl, hmem⟩
    · exact .inl hu

theorem Backed.later {value : BoundInterface Ctl Obj} (h : Backed setting log w value) (hl : Later log w log' w') :
    Backed setting log' w' value := by
  intro control hc hv
  obtain ⟨entry, object, href, hentry, hvouched⟩ := h control hc hv
  exact ⟨entry, object, href, hentry, hvouched.later hl⟩

end Record

/-- What a step does to the registry and to its record. -/
theorem Moves.booked (h : Moves setting sh l sh' l') (hcap : setting.capacity.interfaces < 2 ^ 32) (hmakes : l.Makes)
    (hrelies : l.Relies log sh) (hb : Booked setting log sh.modules) :
    ∃ log', Booked setting log' sh'.modules ∧ Later log sh.modules log' sh'.modules ∧
      (sh.entered = true ∨ sh'.entered = true → (∀ slot c, l ≠ .inside (.unregister slot) c .markUnloaded) →
        log' = log) := by
  have hunloaded : ∀ d, (sh.modules.controls d).state = .unloaded → (sh'.modules.controls d).state = .unloaded :=
    fun d => h.unloaded hmakes
  cases h with
  | registered s c manifest he =>
    rcases registerModule_cases setting.capacity sh.modules c manifest with ⟨hr, -, ha, hother⟩ | hsame
    · refine ⟨_, ⟨represents_register hb.represents hr (hb.represents.room.trans_lt hcap), fun r hmem => ?_,
        fun r hmem => ?_⟩, ⟨hunloaded, fun r hmem => .inl (List.mem_append_left _ hmem)⟩, 
        fun ht _ => absurd (he.symm.trans (or_self_iff.mp ht)) Bool.false_ne_true⟩
      · rcases List.mem_append.mp hmem with hmem | hmem
        · exact hb.named r hmem
        · obtain rfl := List.mem_singleton.mp hmem
          exact Nat.succ_ne_zero _
      · by_cases hc : r.control = c
        · exact .inl (hc ▸ ha)
        · rw [hother _ hc]
          rcases List.mem_append.mp hmem with hmem | hmem
          · exact hb.live r hmem
          · obtain rfl := List.mem_singleton.mp hmem
            exact absurd rfl hc
    · rw [hsame]
      exact ⟨log, hb, .refl log sh.modules, fun _ _ => rfl⟩
  | drawn s =>
    exact ⟨log, ⟨hb.represents.controls_next (fun _ => rfl) (Nat.le_succ _), hb.named, hb.live⟩,
      ⟨fun _ h => h, fun _ h => .inl h⟩, fun _ _ => rfl⟩
  | finished call c answer r hr =>
    rw [(finish_frame hr).1]
    exact ⟨log, hb, .refl log sh.modules, fun _ _ => rfl⟩
  | removed slot c =>
    obtain ⟨-, hslot⟩ := hrelies
    obtain ⟨⟨r, hmem, rfl, rfl⟩, -⟩ := hslot nofun
    obtain ⟨before, after, rfl⟩ := List.append_of_mem hmem
    have hsub : (before ++ after).Sublist (before ++ r :: after) := (List.sublist_cons_self r after).append_left before
    refine ⟨before ++ after, ⟨?_, fun r' hr' => hb.named r' (hsub.mem hr'), fun r' hr' => ?_⟩,
      ⟨hunloaded, fun r' hr' => ?_⟩, fun _ hne => absurd rfl (hne r.slot r.control)⟩
    · exact (represents_remove hb.represents).controls_next (update_id rfl) (Nat.le_refl _)
    · have hne : r'.control ≠ r.control := by
        have hd := hb.represents.controls
        rw [List.map_append, List.map_cons, List.nodup_middle, List.nodup_cons] at hd
        intro he
        exact hd.1 (he ▸ by simpa using List.mem_map_of_mem (f := Registered.control) hr')
      simp only [remove, Function.update_of_ne hne]
      exact hb.live r' (hsub.mem hr')
    · rcases List.mem_append.mp hr' with hr' | hr'
      · exact .inl (List.mem_append_left _ hr')
      · rcases List.mem_cons.mp hr' with rfl | hr'
        · exact .inr (by simp [remove, markUnloaded])
        · exact .inl (List.mem_append_right _ hr')
  | accessed call c pc words pc' hmark hm hidle =>
    have hmove : Moves setting sh (.inside call c pc) (sh.setWords c words) (.inside call c pc') :=
      .accessed call c pc words pc' hmark hm hidle
    refine ⟨log, ⟨hb.represents.controls_next (update_id rfl) (Nat.le_refl _), hb.named, fun r hr => ?_⟩,
      ⟨hunloaded, fun _ h => .inl h⟩, fun _ _ => rfl⟩
    have hlive := hb.live r hr
    rcases hmove.states hmakes r.control with he | ⟨-, hl, -⟩ | ⟨-, hd⟩ | ⟨-, slot, hu⟩
    · rw [Shared.state, Shared.state] at he
      rwa [he]
    · rw [Shared.state] at hl
      simp [hl] at hlive
    · exact .inr hd
    · cases hu
      exact absurd rfl (hmark slot rfl)
  | _ => exact ⟨log, hb, .refl log sh.modules, fun _ _ => rfl⟩

/-- `unregister_module` learns what it relies on from its accesses. -/
theorem closing_moves {words words' : Lease.Shared} {pc pc' : Lease.Pc} (hs : Serving true pc)
    (hm : Lease.Moves words pc words' pc') (hidle : ∀ r, pc ≠ .idle r) (hmark : pc ≠ .markUnloaded)
    (hlive : words.state ≠ .loading) (h : Closing words.state pc) : Closing words'.state pc' := by
  cases hm with
  | begun v o r ho =>
    obtain rfl := hs
    exact h.2 ho
  | flip v o ha =>
    obtain rfl := hs
    simp [Lease.unloadBegun, Closing]
  | seenIdle v i hz | seenIdleLast v hz =>
    obtain rfl := hs
    exact h
  | observe v | observeAgain v o => exact ⟨hlive, id⟩
  | _ => simp_all [Closing, Serving]

omit [DecidableEq E] [DecidableEq B] [DecidableEq Ctl] in
theorem drop_relies (lease : Option Ctl) :
    (drop lease : Local B Ctl Obj).Makes ∧ (drop lease : Local B Ctl Obj).Relies log sh := by
  cases lease with
  | none => exact ⟨trivial, trivial⟩
  | some c => exact ⟨.inl rfl, trivial⟩

/-- What the moving thread relies on after its step. -/
theorem Moves.relies (h : Moves setting sh l sh' l') (hmakes : l.Makes) (hrelies : l.Relies log sh)
    (hb : Booked setting log sh.modules) (hl : Later log sh.modules log' sh'.modules)
    (hlog : sh.entered = true ∨ sh'.entered = true → (∀ slot c, l ≠ .inside (.unregister slot) c .markUnloaded) →
      log' = log)
    (hentries : ∀ e, Vouched log sh.modules (sh.entries e)) : l'.Makes ∧ l'.Relies log' sh' := by
  cases h with
  | moved s b other value hne ho => exact drop_relies _
  | destroyed s b value hb => exact drop_relies _
  | acquiring s b c => exact ⟨.inl trivial, trivial⟩
  | binding s b e object c hc => exact ⟨.inl trivial, hc, (hentries e).later hl⟩
  | unloading s c => exact ⟨rfl, trivial⟩
  | waiting s c => exact ⟨rfl, trivial⟩
  | entering s id slot c he hf hc =>
    rw [hlog (.inr rfl) nofun]
    obtain ⟨r, hr, rfl, rfl⟩ := findSlot_eq_some hb.represents hf
    obtain ⟨before, after, hsplit⟩ := List.append_of_mem hr
    have hcontrol := (hb.represents.slots before r after hsplit).1.symm.trans hc
    exact ⟨rfl, rfl, fun _ => ⟨⟨r, hr, rfl, Option.some.inj hcontrol⟩, trivial⟩⟩
  | removed slot c => exact ⟨nofun, hrelies.1, fun hne => absurd rfl (hne _)⟩
  | accessed call c pc words pc' hmark hm hidle =>
    refine ⟨(makes_moves hmakes hm hidle hmark).1, ?_⟩
    cases call with
    | bind b entry object => exact ⟨hrelies.1, hrelies.2.later hl⟩
    | unregister slot =>
      have hsame : log' = log := by
        refine hlog (.inl hrelies.1) ?_
        rintro slot' c' he
        cases he
        exact hmark slot rfl rfl
      obtain ⟨⟨r, hr, hslot, hc⟩, hclosing⟩ := hrelies.2 hidle
      have hloading : sh.state c ≠ .loading := by
        rcases hc ▸ hb.live r hr with ha | hd
        · simp [Shared.state, ha]
        · simp [Shared.state, hd]
      refine ⟨hrelies.1, fun _ => ⟨⟨r, hsame ▸ hr, hslot, hc⟩, ?_⟩⟩
      rw [setWords_state, if_pos rfl]
      exact closing_moves hmakes hm hidle (hmark slot rfl) hloading hclosing
    | _ => trivial
  | _ => exact ⟨trivial, trivial⟩

private theorem mark_moves {words words' : Lease.Shared} {pc pc' : Lease.Pc} (hm : Lease.Moves words pc words' pc')
    (he : pc' = .markUnloaded) : words.leases = 0 ∧ (pc = .idleLast true ∨ ∃ i, pc = .idlePoll true i) := by
  cases hm with
  | begun v o r | flip v o => cases v <;> cases he
  | seenIdle v i hz =>
    cases v with
    | false => cases he
    | true => exact ⟨hz, .inr ⟨i, rfl⟩⟩
  | seenIdleLast v hz =>
    cases v with
    | false => cases he
    | true => exact ⟨hz, .inl rfl⟩
  | _ => cases he

/-- `unregister_module` goes on to remove a module when it has read that no lease is out. -/
theorem Moves.marking {slot : Nat} (h : Moves setting sh l sh' l')
    (he : l' = .inside (.unregister slot) control .markUnloaded) :
    (sh.modules.controls control).leases = 0 ∧
      ∃ pc, l = .inside (.unregister slot) control pc ∧ (pc = .idleLast true ∨ ∃ i, pc = .idlePoll true i) := by
  cases h with
  | moved s b other value hne ho => cases hd : (sh.bound b).bind (·.lease) <;> simp [drop, hd] at he
  | destroyed s b value hb => cases hd : value.lease <;> simp [drop, hd] at he
  | accessed call c pc words pc' hmark hm hidle =>
    cases he
    obtain ⟨hz, hpc⟩ := mark_moves hm rfl
    exact ⟨hz, pc, rfl, hpc⟩
  | _ => cases he

/-- No lease on the control is out, and none can be taken any more. -/
structure Drained (c : Config Tid (Shared E B Ctl Obj) (Local B Ctl Obj)) (control : Ctl) : Prop where
  closed : Closed c.shared control
  objects : ∀ b, leased control (c.shared.bound b) = 0
  threads : ∀ t, ¬ (c.locals t).Owns control

def Local.Unregistering : Local B Ctl Obj → Prop
  | .inside (.unregister _) _ _ => True
  | _ => False

private theorem Moves.unregistering (h : Moves setting sh l sh' l') (hl : l'.Unregistering) :
    l.Unregistering ∨ sh.entered = false := by
  cases h with
  | moved s b other value hne ho =>
    cases hd : (sh.bound b).bind (·.lease) <;> simp [drop, hd, Local.Unregistering] at hl
  | destroyed s b value hb => cases hd : value.lease <;> simp [drop, hd, Local.Unregistering] at hl
  | entering s id slot c he hf hc => exact .inr he
  | removed slot c => exact .inl trivial
  | accessed call c pc words pc' hmark hm hidle =>
    cases call with
    | unregister slot => exact .inl trivial
    | _ => exact hl.elim
  | _ => exact hl.elim

theorem Moves.entered (h : Moves setting sh l sh' l') (hl : ¬ l.Unregistering) (he : sh.entered = true) :
    sh'.entered = true := by
  cases h with
  | entering s id slot c he' hf hc => rfl
  | finished call c answer r hr =>
    rw [(finish_frame hr).2.2, he]
    rintro slot rfl
    exact hl trivial
  | _ => exact he

omit [DecidableEq E] [DecidableEq B] [DecidableEq Ctl] in
/-- A step of another thread leaves alone what a thread relies on. -/
theorem Local.Relies.later (h : l.Relies log sh) (hb : Booked setting log sh.modules)
    (hl : Later log sh.modules log' sh'.modules)
    (hturn : l.Unregistering → log' = log ∧ sh'.entered = true ∧ ∀ d, Closed sh d → Closed sh' d) :
    l.Relies log' sh' := by
  cases l with
  | idle s => trivial
  | inside call c pc =>
    cases call with
    | bind b entry object => exact ⟨h.1, h.2.later hl⟩
    | unregister slot =>
      obtain ⟨hlog, he, hclosed⟩ := hturn trivial
      refine ⟨he, fun hidle => ?_⟩
      obtain ⟨⟨r, hr, hslot, hc⟩, hclosing⟩ := h.2 hidle
      refine ⟨⟨r, hlog ▸ hr, hslot, hc⟩, ?_⟩
      have hstate : sh.state c ≠ .active → sh'.state c ≠ .active := by
        intro hne
        refine (hclosed c ⟨hne, ?_⟩).1
        rcases hc ▸ hb.live r hr with ha | hd
        · simp [Shared.state, ha]
        · simp [Shared.state, hd]
      cases pc with
      | unloadLoop v o => exact ⟨hclosing.1, fun ho => hstate (hclosing.2 ho)⟩
      | idlePoll v i => exact hstate hclosing
      | idleLast v => exact hstate hclosing
      | markUnloaded => exact hstate hclosing
      | _ => trivial
    | _ => trivial

omit [DecidableEq Ctl] in
/-- An entry of the registry's array is that of a registered module. -/
theorem represents_vouched {cap : Capacity} {w : World Ctl} (h : Represents cap w log) {k : Nat}
    (hk : k < w.interfaceCount) : Vouched log w (w.interfaces k) := by
  have hmem : w.interfaces k ∈ log.flatMap Registered.bindings := by
    rw [← h.interfaces]
    exact List.mem_map_of_mem (List.mem_range.mpr hk)
  obtain ⟨r, hr, hbinding⟩ := List.mem_flatMap.mp hmem
  intro d hd
  refine .inr ⟨r, hr, ?_, hbinding⟩
  obtain ⟨entry, -, he⟩ := List.mem_map.mp hbinding
  rw [← he] at hd
  exact Option.some.inj hd

theorem Moves.entries (h : Moves setting sh l sh' l') (hb : Booked setting log sh.modules)
    (hl : Later log sh.modules log' sh'.modules) (hentries : ∀ e, Vouched log sh.modules (sh.entries e)) (e : E) :
    Vouched log' sh'.modules (sh'.entries e) := by
  cases h with
  | copied s e' k hk =>
    refine (Function.forall_update_iff sh.entries (p := fun _ entry => Vouched log' sh.modules entry)).mpr
      ⟨(represents_vouched hb.represents hk).later hl, fun e _ => (hentries e).later hl⟩ e
  | finished call c answer r hr =>
    rw [(finish_frame hr).2.1]
    exact (hentries e).later hl
  | _ => exact (hentries e).later hl

omit [DecidableEq Ctl] in
theorem backed_of_lease {value : BoundInterface Ctl Obj} {w : World Ctl} (h : value.lease = none) :
    Backed setting log w value := by
  intro d hd
  rw [h] at hd
  cases hd

omit [DecidableEq E] [DecidableEq Ctl] in
theorem put_backed {b' : B} {value' : Option (BoundInterface Ctl Obj)} {w : World Ctl}
    (hbound : ∀ b value, sh.bound b = some value → Backed setting log w value)
    (hvalue : ∀ value, value' = some value → Backed setting log w value) (b : B) (value : BoundInterface Ctl Obj)
    (hv : (sh.put b' value').bound b = some value) : Backed setting log w value := by
  by_cases hb : b = b'
  · subst hb
    simp only [Shared.put, Function.update_self] at hv
    exact hvalue value hv
  · simp only [Shared.put, Function.update_of_ne hb] at hv
    exact hbound b value hv

private theorem Moves.backed (h : Moves setting sh l sh' l') (hrelies : l.Relies log sh)
    (hl : Later log sh.modules log' sh'.modules)
    (hbound : ∀ b value, sh.bound b = some value → Backed setting log sh.modules value) (b : B)
    (value : BoundInterface Ctl Obj) (hv : sh'.bound b = some value) : Backed setting log' sh'.modules value := by
  have hold (b : B) (value : BoundInterface Ctl Obj) (hb : sh.bound b = some value) :
      Backed setting log' sh'.modules value := (hbound b value hb).later hl
  cases h with
  | unbound s b' hb => exact put_backed hold (fun _ he => Option.some.inj he ▸ backed_of_lease rfl) b value hv
  | moved s b' other value' hne ho =>
    refine put_backed (put_backed hold fun _ he => ?_) (fun _ he => Option.some.inj he ▸ backed_of_lease rfl) b value hv
    exact Option.some.inj he ▸ hold other value' ho
  | destroyed s b' value' hb => exact put_backed hold (fun _ he => absurd he.symm (Option.some_ne_none _)) b value hv
  | finished call c answer r hr =>
    rcases finish_bound hr with ⟨hsame, -⟩ | ⟨b', ref, -, -, hput, href⟩
    · rw [hsame] at hv
      exact hold b value hv
    · rw [hput] at hv
      refine put_backed hold (fun value he => ?_) b value hv
      obtain rfl := Option.some.inj he
      intro d hd hvalid
      split at hd
      · rename_i ha
        obtain rfl := Option.some.inj hd
        rw [if_pos ha] at hvalid ⊢
        rcases href with rfl | ⟨entry, object, rfl, rfl⟩
        · cases hvalid
        · exact ⟨entry, object, rfl, hrelies.1, hrelies.2.later hl⟩
      · cases hd
  | _ => exact hold b value hv

def Local.incrementing : Local B Ctl Obj → Option Ctl
  | .inside _ control .acquireAdd => some control
  | _ => none

/-- The discipline under which the counters are exact: an acquire never increments the largest 32-bit
value. -/
def Fits (c : Config Tid (Shared E B Ctl Obj) (Local B Ctl Obj)) (t : Tid) (_ : Action E B Ctl Obj) : Prop :=
  ∀ control ∈ (c.locals t).incrementing, (c.shared.modules.controls control).leases ≠ 4294967295

instance (c : Config Tid (Shared E B Ctl Obj) (Local B Ctl Obj)) (t : Tid) (a : Action E B Ctl Obj) :
    Decidable (Fits c t a) :=
  inferInstanceAs (Decidable (∀ control ∈ (c.locals t).incrementing, _))

section Safety
variable [Fintype Tid] [DecidableEq Tid] [Fintype B] {c c' : Config Tid (Shared E B Ctl Obj) (Local B Ctl Obj)}

structure Sound (setting : Setting Ctl) (log : List (Registered Ctl))
    (c : Config Tid (Shared E B Ctl Obj) (Local B Ctl Obj)) : Prop where
  booked : Booked setting log c.shared.modules
  makes : ∀ t, (c.locals t).Makes
  relies : ∀ t, (c.locals t).Relies log c.shared
  single : ∀ t u, (c.locals t).Unregistering → (c.locals u).Unregistering → t = u
  counted : ∀ control, (c.shared.modules.controls control).leases.toNat =
    total (leased control) c.shared.bound + total (Local.weight control) c.locals
  drained : ∀ control, (c.shared.state control = .unloaded ∨
    ∃ t slot, c.locals t = .inside (.unregister slot) control .markUnloaded) → Drained c control
  entries : ∀ e, Vouched log c.shared.modules (c.shared.entries e)
  bound : ∀ b value, c.shared.bound b = some value → Backed setting log c.shared.modules value

omit [DecidableEq E] [DecidableEq B] [DecidableEq Tid] in
/-- Reading zero from the counter of a closed module proves it drained. -/
theorem Sound.drained_of_zero (h : Sound setting log c) (hclosed : Closed c.shared control)
    (hz : (c.shared.modules.controls control).leases = 0) : Drained c control := by
  have hsum := h.counted control
  rw [hz] at hsum
  refine ⟨hclosed, fun b => ?_, fun t ho => ?_⟩
  · have hle := held_le_total (leased control) c.shared.bound b
    rw [UInt32.toNat_zero] at hsum
    omega
  · have hle := held_le_total (Local.weight control) c.locals t
    have hne := Local.weight_ne_zero ho
    rw [UInt32.toNat_zero] at hsum
    omega

omit [Fintype Tid] [Fintype B] in
theorem Drained.next {t : Tid} (h : Drained c control) (hmove : Moves setting c.shared (c.locals t) sh' l')
    (hmakes : (c.locals t).Makes) : Drained ⟨sh', Function.update c.locals t l'⟩ control := by
  obtain ⟨hobjects, howns⟩ := hmove.free hmakes h.closed.1 h.objects (h.threads t)
  exact ⟨hmove.closed hmakes h.closed, hobjects,
    (Function.forall_update_iff c.locals (p := fun _ l => ¬ l.Owns control)).mpr ⟨howns, fun u _ => h.threads u⟩⟩

omit [DecidableEq E] [DecidableEq B] [DecidableEq Tid] in
theorem Sound.entered (h : Sound setting log c) (t : Tid) (hl : (c.locals t).Unregistering) :
    c.shared.entered = true := by
  have hrelies := h.relies t
  generalize c.locals t = l at hl hrelies
  cases l with
  | idle s => exact hl.elim
  | inside call d pc =>
    cases call with
    | unregister slot => exact hrelies.1
    | _ => exact hl.elim

/-- A module that is unloaded after a step, or about to be, was drained before it. -/
theorem Sound.drained_before {t : Tid} (h : Sound setting log c) (hmove : Moves setting c.shared (c.locals t) sh' l')
    (hd : sh'.state control = .unloaded ∨
      ∃ u slot, Function.update c.locals t l' u = .inside (.unregister slot) control .markUnloaded) :
    Drained c control := by
  rcases hd with hu | ⟨u, slot, hu⟩
  · rcases hmove.states (h.makes t) control with he | ⟨-, -, ha⟩ | ⟨-, hd⟩ | ⟨-, slot, hl⟩
    · exact h.drained control (.inl (he ▸ hu))
    · rw [hu] at ha
      cases ha
    · rw [hu] at hd
      cases hd
    · exact h.drained control (.inr ⟨t, slot, hl⟩)
  · by_cases hut : u = t
    · subst hut
      rw [Function.update_self] at hu
      obtain ⟨hz, pc, hl, hpc⟩ := hmove.marking hu
      have hrelies := h.relies u
      rw [hl] at hrelies
      have hidle : ∀ answer, pc ≠ .idle answer := by
        rcases hpc with rfl | ⟨i, rfl⟩ <;> exact nofun
      obtain ⟨⟨r, hr, -, rfl⟩, hclosing⟩ := hrelies.2 hidle
      refine h.drained_of_zero ⟨?_, ?_⟩ hz
      · rcases hpc with rfl | ⟨i, rfl⟩ <;> exact hclosing
      · rcases h.booked.live r hr with ha | hd
        · simp [Shared.state, ha]
        · simp [Shared.state, hd]
    · rw [Function.update_of_ne hut] at hu
      exact h.drained control (.inr ⟨u, slot, hu⟩)

private theorem sound_next {t : Tid} {a : Action E B Ctl Obj} (h : Sound setting log c)
    (hcap : setting.capacity.interfaces < 2 ^ 32) (hfits : Fits c t a)
    (hn : (bindings setting Tid E B Obj).next c t a = some c') : ∃ log', Sound setting log' c' := by
  obtain ⟨sh', l', hs, rfl⟩ := Program.next_eq_some_iff.mp hn
  have hmove : Moves setting c.shared (c.locals t) sh' l' := moves_of_step hs
  have hmakes := h.makes t
  obtain ⟨log', hbooked, hlater, hlog⟩ := hmove.booked hcap hmakes (h.relies t) h.booked
  obtain ⟨hmakes', hrelies'⟩ := hmove.relies hmakes (h.relies t) h.booked hlater hlog h.entries
  refine ⟨log', hbooked, ?_, ?_, ?_, ?_, ?_, ?_, ?_⟩
  · exact (Function.forall_update_iff c.locals (p := fun _ l => l.Makes)).mpr ⟨hmakes', fun u _ => h.makes u⟩
  · refine (Function.forall_update_iff c.locals (p := fun _ l => l.Relies log' sh')).mpr ⟨hrelies', fun u hu => ?_⟩
    refine (h.relies u).later h.booked hlater fun hun => ?_
    have hother : ¬ (c.locals t).Unregistering := fun ht => hu (h.single u t hun ht)
    have hentered := h.entered u hun
    refine ⟨hlog (.inl hentered) fun slot d he => hother (he ▸ trivial), hmove.entered hother hentered, fun d => ?_⟩
    exact hmove.closed hmakes
  · have hnew (u : Tid) (hu : u ≠ t) (hl : l'.Unregistering) : ¬ (c.locals u).Unregistering := by
      intro hun
      rcases hmove.unregistering hl with ht | he
      · exact hu (h.single u t hun ht)
      · exact Bool.false_ne_true (he.symm.trans (h.entered u hun))
    intro u v
    by_cases hu : u = t <;> by_cases hv : v = t
    · exact fun _ _ => hu.trans hv.symm
    · simp only [hu, Function.update_self, Function.update_of_ne hv]
      exact fun hl hv' => absurd hv' (hnew v hv hl)
    · simp only [hv, Function.update_self, Function.update_of_ne hu]
      exact fun hu' hl => absurd hu' (hnew u hu hl)
    · simp only [Function.update_of_ne hu, Function.update_of_ne hv]
      exact h.single u v
  · intro control
    have ht := total_update (Local.weight control) c.locals t l'
    have hle := held_le_total (Local.weight control) c.locals t
    have hsum := h.counted control
    have hb := hmove.balance hmakes control (fun call d he => hfits d (he ▸ rfl)) (by omega)
    simp only
    omega
  · intro control hd
    refine (h.drained_before hmove hd).next hmove hmakes
  · exact hmove.entries h.booked hlater h.entries
  · exact hmove.backed (h.relies t) hlater h.bound

theorem sound_of_reachable (hcap : setting.capacity.interfaces < 2 ^ 32)
    (h : (bindings setting Tid E B Obj).Reachable Fits (initial Tid E B Ctl Obj) c) : ∃ log, Sound setting log c := by
  refine h.invariant (P := fun c => ∃ log, Sound setting log c) ?_ ?_
  · refine ⟨[], ⟨represents_of_reached .init, nofun, nofun⟩, fun _ => trivial, fun _ => trivial, nofun,
      fun control => ?_, ?_, ?_, ?_⟩
    · simp [initial, total, leased, Local.weight]
    · rintro control (hu | ⟨t, slot, hl⟩)
      · cases hu
      · cases hl
    · intro e control hc
      cases hc
    · intro b value hb
      cases hb
  · rintro c t a c' ⟨log, hs⟩ hfits hn
    exact sound_next hs hcap hfits hn

end Safety

omit [DecidableEq Ctl] in
/-- An entry of a registered module is in a cell of its slot's range. -/
theorem represents_cell {cap : Capacity} {w : World Ctl} (h : Represents cap w log) {r : Registered Ctl} (hr : r ∈ log)
    {entry : ModuleInterface Ctl} (hentry : entry ∈ r.bindings) :
    ∃ k, w.interfaces k = entry ∧ (w.modules r.slot).Covers k := by
  obtain ⟨before, after, rfl⟩ := List.append_of_mem hr
  obtain ⟨-, hbegin, hcount⟩ := h.slots before r after rfl
  obtain ⟨j, hj, he⟩ := List.mem_iff_getElem.mp hentry
  have hsize : r.bindings.length = r.size := List.length_map _
  have hlt : (before.map Registered.size).sum + j < w.interfaceCount := by
    rw [h.interfaceCount, List.map_append, List.map_cons, List.sum_append, List.sum_cons]
    omega
  have hcell := getElem?_contents (a := w.interfaces) hlt
  rw [h.interfaces, List.flatMap_append, List.flatMap_cons, ← length_bindings before,
    List.getElem?_append_right (Nat.le_add_right _ _), Nat.add_sub_cancel_left, List.getElem?_append_left hj,
    List.getElem?_eq_getElem hj, he] at hcell
  rw [length_bindings] at hcell
  refine ⟨_, (Option.some.inj hcell).symm, (h.used _).mpr ⟨r, hr, rfl⟩, ?_, ?_⟩ <;> omega

omit [DecidableEq Ctl] in
private theorem findSlot_of_mem {cap : Capacity} {w : World Ctl} (h : Represents cap w log) {r : Registered Ctl} (hr : r ∈ log)
    (hid : r.id ≠ 0) : findSlot cap w r.id = some r.slot := by
  obtain ⟨before, after, hsplit⟩ := List.append_of_mem hr
  have hcontrol := (h.slots before r after hsplit).1
  cases hf : findSlot cap w r.id with
  | some i =>
    obtain ⟨r', hr', rfl, hid'⟩ := findSlot_eq_some h hf
    rw [List.inj_on_of_nodup_map h.unique hr' hr hid']
  | none =>
    rw [findSlot, if_neg hid] at hf
    have hlt := Nat.lt_of_lt_of_le (h.below r hr) cap.le_slots
    have hno := List.find?_eq_none.mp hf r.slot (List.mem_range.mpr hlt)
    simp [slotId, hcontrol, (h.used r.slot).mpr ⟨r, hr, rfl⟩, (h.ids r hr).1] at hno

omit [DecidableEq Ctl] in
/-- An entry that a call through a resolved ref runs is that of a method of the table. -/
theorem method_of_resolved {entry : ModuleInterface Ctl} {object : Option Obj} {s : UInt32}
    (h : (resolved setting entry object).method s ≠ 0) :
    ∃ m ∈ entry.methods.items, m.slot = s ∧ m.entry = (resolved setting entry object).method s := by
  rcases InterfaceRef.resolveMethods_cases setting.maxMethods {} entry.interfaceId entry.version
    entry.methods object with
    ⟨count, -, hrun⟩ | ⟨status, -, hrun⟩
  · rw [resolved, hrun] at h ⊢
    simp only [InterfaceRef.method, writeAll_apply] at h ⊢
    split at h
    · exact absurd rfl h
    · rename_i hs
      rw [if_neg hs]
      cases hlast : lastAt InterfaceMethod.cell entry.methods.items s.toNat with
      | none => simp [hlast] at h
      | some m =>
        obtain ⟨hm, hcell⟩ := of_lastAt hlast
        exact ⟨m, hm, UInt32.toNat_inj.mp hcell, rfl⟩
  · rw [resolved, hrun] at h
    exact absurd (InterfaceRef.unbound_empty.2 s).2 h

/-- As long as no counter of leases wraps, a valid bound interface is that of a registered module: its
lease is on a control that is active or draining, whose slot is the one of the module's id and still
covers the entry that was bound, and what a call through it runs is a method of that entry. -/
theorem bound_interfaces_stay_registered [Fintype Tid] [DecidableEq Tid] [Fintype B]
    {c : Config Tid (Shared E B Ctl Obj) (Local B Ctl Obj)} (hcap : setting.capacity.interfaces < 2 ^ 32)
    (h : (bindings setting Tid E B Obj).Reachable Fits (initial Tid E B Ctl Obj) c) {b : B}
    {value : BoundInterface Ctl Obj} (hb : c.shared.bound b = some value) (hv : value.valid = true) :
    ∃ control slot k object, value.lease = some control ∧
      (c.shared.state control = .active ∨ c.shared.state control = .draining) ∧
      (c.shared.modules.modules slot).control = some control ∧ (c.shared.modules.modules slot).Covers k ∧
      findSlot setting.capacity c.shared.modules (c.shared.modules.interfaces k).module = some slot ∧
      value.ref = resolved setting (c.shared.modules.interfaces k) object ∧
      ∀ s, value.ref.method s ≠ 0 → ∃ m ∈ (c.shared.modules.interfaces k).methods.items, m.slot = s ∧
        m.entry = value.ref.method s := by
  obtain ⟨log, hs⟩ := sound_of_reachable hcap h
  obtain ⟨href, hlease⟩ := Bool.and_eq_true_iff.mp hv
  obtain ⟨control, hc⟩ := Option.isSome_iff_exists.mp hlease
  obtain ⟨entry, object, hresolved, hentry, hvouched⟩ := hs.bound b value hb control hc href
  rcases hvouched control hentry with hu | ⟨r, hr, rfl, hmem⟩
  · have hzero := (hs.drained control (.inl hu)).objects b
    simp [hb, leased, hc] at hzero
  · obtain ⟨k, hk, hcovers⟩ := represents_cell hs.booked.represents hr hmem
    obtain ⟨before, after, hsplit⟩ := List.append_of_mem hr
    obtain ⟨e, -, he⟩ := List.mem_map.mp hmem
    have hid : entry.module = r.id := he ▸ rfl
    refine ⟨r.control, r.slot, k, object, hc, hs.booked.live r hr, (hs.booked.represents.slots before r after hsplit).1,
      hcovers, ?_, hk ▸ hresolved, ?_⟩
    · rw [hk, hid]
      exact findSlot_of_mem hs.booked.represents hr (hs.booked.named r hr)
    · intro s hmethod
      rw [hresolved] at hmethod ⊢
      rw [hk]
      exact method_of_resolved hmethod

def oneMethod : ModuleManifest where
  manifestVersion := abixManifestVersion
  interfaces := .ofList [⟨⟨1, 0⟩, 1, .ofList [⟨⟨1, 0⟩, 7, 0⟩] (by decide)⟩] (by decide)

/-- One thread binds the only interface while the other begins to unregister its module. -/
def unregisteredUnderBinding : List (Bool × Action Unit Unit Unit Unit) :=
  [(false, .registerModule () oneMethod), (false, .copy () 0), (false, .bindInterface () () (some ())),
    (false, .run false), (true, .unregisterModule 1), (false, .run false), (false, .run false),
    (true, .run false), (true, .run false), (false, .run false), (true, .run false)]

theorem bound_interfaces_stay_registered_draining :
    ∃ c : Config Bool (Shared Unit Unit Unit Unit) (Local Unit Unit Unit),
      c.shared.state () = .draining ∧ ∃ slot k, (c.shared.modules.modules slot).Covers k := by
  have hrun : ((bindings {} Bool Unit Unit Unit).exec Fits (initial Bool Unit Unit Unit Unit)
      unregisteredUnderBinding).map (fun c => decide (c.shared.state () = .draining ∧
        (c.shared.bound ()).any BoundInterface.valid = true)) = some true := by
    decide
  obtain ⟨c, hc, hd⟩ := Option.map_eq_some_iff.mp hrun
  obtain ⟨hstate, hany⟩ := of_decide_eq_true hd
  cases hb : c.shared.bound () with
  | none =>
    rw [hb] at hany
    cases hany
  | some value =>
    have hv : value.valid = true := by simpa [hb] using hany
    obtain ⟨-, slot, k, -, -, -, -, hcovers, -⟩ :=
      bound_interfaces_stay_registered (by decide) (.of_exec .init hc) hb hv
    exact ⟨c, hstate, slot, k, hcovers⟩

end Abix.Interface.Binding

import Abix.Interface.ModuleRegistry
import Mathlib.Data.List.Nodup

/-! What the module registry holds after any sequence of calls: the blocks of the registered
modules, packed in the order of registration, as long as each block begins below 2 ^ 32. -/
namespace Abix.Interface.ModuleRegistry
open Abix.Blocks Abix.Model
variable {Ctl : Type} [DecidableEq Ctl] {cap : Capacity} {w : World Ctl} {control : Ctl} {manifest : ModuleManifest}

structure Registered (Ctl : Type) where
  slot : Nat
  control : Ctl
  id : Nat
  entries : List InterfaceManifestEntry

def Registered.bindings (r : Registered Ctl) : List (ModuleInterface Ctl) := r.entries.map (binding r.control r.id)

def Registered.size (r : Registered Ctl) : Nat := r.entries.length

/-- The registered modules after a call, in the order of registration. -/
def record (cap : Capacity) (log : List (Registered Ctl)) (w : World Ctl) (op : Op Ctl) : List (Registered Ctl) :=
  if (step cap w op).2 = some .ok then
    match op with
    | .registerModule control manifest =>
      log ++ [⟨freeSlot w.modules cap.modules 0, control, nextModuleInstanceId w, manifest.interfaces.items⟩]
    | .unregisterModule id => log.filter (·.id ≠ id)
    | .control _ _ _ | .draw => log
  else log

/-- The worlds and the records that calls lead to, when each keeps to the condition. -/
inductive Reached (cap : Capacity) (ok : World Ctl → Op Ctl → Prop) : World Ctl → List (Registered Ctl) → Prop
  | init : Reached cap ok {} []
  | step {w log op} : Reached cap ok w log → ok w op → Reached cap ok (step cap w op).1 (record cap log w op)

/-- A module is registered only while fewer than 2 ^ 32 interfaces are. -/
def Fits (cap : Capacity) (w : World Ctl) : Op Ctl → Prop
  | .registerModule control manifest => refusal cap w control manifest = none → w.interfaceCount < 2 ^ 32
  | .unregisterModule _ | .control _ _ _ | .draw => True

theorem Capacity.le_slots (cap : Capacity) : cap.modules ≤ cap.slots := by
  unfold slots
  split <;> omega

omit [DecidableEq Ctl] in
private theorem freeSlot_spec (modules : Nat → ModuleSlot Ctl) (left i : Nat) :
    freeSlot modules left i ≤ i + left ∧
      (freeSlot modules left i ≠ i + left → (modules (freeSlot modules left i)).used = false) := by
  induction left generalizing i with
  | zero => exact ⟨Nat.le_refl _, fun h => absurd rfl h⟩
  | succ left ih =>
    rw [freeSlot]
    by_cases hu : (modules i).used = true
    · obtain ⟨hle, hfree⟩ := ih (i + 1)
      rw [if_pos hu]
      exact ⟨by omega, fun hne => hfree (by omega)⟩
    · rw [if_neg hu]
      exact ⟨by omega, fun _ => Bool.eq_false_iff.mpr hu⟩

structure Accepted (cap : Capacity) (w : World Ctl) (control : Ctl) (manifest : ModuleManifest) : Prop where
  length : manifest.interfaces.items.length = manifest.interfaces.count.toNat
  fresh : ∀ i < cap.slots, (w.modules i).used = true → (w.modules i).control ≠ some control
  room : w.interfaceCount + manifest.interfaces.count.toNat ≤ cap.interfaces
  slot_lt : freeSlot w.modules cap.modules 0 < cap.modules
  slot_free : (w.modules (freeSlot w.modules cap.modules 0)).used = false

private theorem accepted_of_refusal (h : refusal cap w control manifest = none) : Accepted cap w control manifest := by
  unfold refusal at h
  split at h
  · cases h
  rename_i hvalid
  split at h
  · cases h
  rename_i hfresh
  split at h
  · cases h
  split at h
  · cases h
  split at h
  · cases h
  rename_i hroom
  split at h
  · cases h
  rename_i hslot
  obtain ⟨hle, hfree⟩ := freeSlot_spec w.modules cap.modules 0
  exact {
    length := manifest.interfaces.items_length (of_validateManifest (not_not.mp hvalid)).1
    fresh := fun i hi hu hc => hfresh ⟨i, hi, hu, hc⟩
    room := Nat.not_lt.mp hroom
    slot_lt := by omega
    slot_free := hfree (by omega) }

structure Represents (cap : Capacity) (w : World Ctl) (log : List (Registered Ctl)) : Prop where
  interfaces : contents w.interfaces w.interfaceCount = log.flatMap Registered.bindings
  used : ∀ i, (w.modules i).used = true ↔ ∃ r ∈ log, r.slot = i
  slots : ∀ before r after, log = before ++ r :: after → (w.modules r.slot).control = some r.control ∧
    (w.modules r.slot).begin.toNat = (before.map Registered.size).sum ∧ (w.modules r.slot).count.toNat = r.size
  below : ∀ r ∈ log, r.slot < cap.modules
  distinct : (log.map Registered.slot).Nodup
  count : w.moduleCount = log.length
  controls : (log.map Registered.control).Nodup
  ids : ∀ r ∈ log, (w.controls r.control).id = r.id ∧ r.id ≤ w.counter
  unique : (log.map Registered.id).Nodup
  room : w.interfaceCount ≤ cap.interfaces

omit [DecidableEq Ctl] in
theorem length_bindings (log : List (Registered Ctl)) :
    (log.flatMap Registered.bindings).length = (log.map Registered.size).sum := by
  simp only [List.length_flatMap, Registered.bindings, List.length_map]
  rfl

omit [DecidableEq Ctl] in
theorem Represents.interfaceCount {log : List (Registered Ctl)} (h : Represents cap w log) :
    w.interfaceCount = (log.map Registered.size).sum := by
  rw [← length_bindings, ← h.interfaces, contents_length]

theorem represents_register {log : List (Registered Ctl)} (h : Represents cap w log)
    (hr : refusal cap w control manifest = none) (hfit : w.interfaceCount < 2 ^ 32) :
    Represents cap (registerModule cap w control manifest).1
      (log ++ [⟨freeSlot w.modules cap.modules 0, control, nextModuleInstanceId w, manifest.interfaces.items⟩]) := by
  have ha := accepted_of_refusal hr
  have hnew (r : Registered Ctl) (hmem : r ∈ log) : r.slot ≠ freeSlot w.modules cap.modules 0 := by
    intro he
    have hused := (h.used _).mpr ⟨r, hmem, he⟩
    rw [ha.slot_free] at hused
    cases hused
  have hfresh (r : Registered Ctl) (hmem : r ∈ log) : r.control ≠ control := by
    rintro rfl
    obtain ⟨before, after, hlog⟩ := List.append_of_mem hmem
    exact ha.fresh r.slot (Nat.lt_of_lt_of_le (h.below r hmem) cap.le_slots) ((h.used _).mpr ⟨r, hmem, rfl⟩)
      (h.slots before r after hlog).1
  have hlater (r : Registered Ctl) (hmem : r ∈ log) : r.id ≠ nextModuleInstanceId w :=
    Nat.ne_of_lt (Nat.lt_succ_of_le (h.ids r hmem).2)
  simp only [registerModule, hr]
  constructor
  case interfaces =>
    rw [← ha.length, ← List.length_map (binding control (nextModuleInstanceId w)), contents_store, h.interfaces]
    simp [Registered.bindings]
  case used =>
    intro i
    by_cases hi : i = freeSlot w.modules cap.modules 0
    · simp [hi]
    · simp [Function.update_of_ne hi, h.used, Ne.symm hi]
  case slots =>
    intro before r after hlog
    rcases concat_eq_append_cons hlog with ⟨rfl, rfl⟩ | ⟨after', hlog⟩
    · refine ⟨by simp, ?_, by simp [Registered.size, ha.length]⟩
      simp only [Function.update_self]
      rw [UInt32.toNat_ofNat_of_lt' hfit, h.interfaceCount]
    · have hmem : r ∈ log := hlog ▸ List.mem_append_right _ List.mem_cons_self
      simp only [Function.update_of_ne (hnew r hmem)]
      exact h.slots before r after' hlog
  case below =>
    intro r hmem
    rcases List.mem_append.mp hmem with hmem | hmem
    · exact h.below r hmem
    · obtain rfl := List.mem_singleton.mp hmem
      exact ha.slot_lt
  case distinct =>
    rw [List.map_append, List.nodup_append]
    exact ⟨h.distinct, List.nodup_singleton _, by simpa using hnew⟩
  case count => simp [h.count]
  case controls =>
    rw [List.map_append, List.nodup_append]
    exact ⟨h.controls, List.nodup_singleton _, by simpa using hfresh⟩
  case ids =>
    intro r hmem
    rcases List.mem_append.mp hmem with hmem | hmem
    · simp only [Function.update_of_ne (hfresh r hmem)]
      exact ⟨(h.ids r hmem).1, Nat.le_succ_of_le (h.ids r hmem).2⟩
    · obtain rfl := List.mem_singleton.mp hmem
      simp
  case unique =>
    rw [List.map_append, List.nodup_append]
    exact ⟨h.unique, List.nodup_singleton _, by simpa using hlater⟩
  case room => exact ha.room

omit [DecidableEq Ctl] in
@[simp] theorem rebase_used (begin count : UInt32) (other : ModuleSlot Ctl) :
    (rebase begin count other).used = other.used := by
  unfold rebase
  split <;> rfl

omit [DecidableEq Ctl] in
@[simp] theorem rebase_control (begin count : UInt32) (other : ModuleSlot Ctl) :
    (rebase begin count other).control = other.control := by
  unfold rebase
  split <;> rfl

omit [DecidableEq Ctl] in
@[simp] theorem rebase_count (begin count : UInt32) (other : ModuleSlot Ctl) :
    (rebase begin count other).count = other.count := by
  unfold rebase
  split <;> rfl

omit [DecidableEq Ctl] in
/-- A slot up to the removed block stays where it is. -/
theorem rebase_before {begin count : UInt32} {other : ModuleSlot Ctl} (h : other.begin.toNat ≤ begin.toNat) :
    rebase begin count other = other := by
  rw [rebase, if_neg]
  rintro ⟨-, hlt⟩
  have := UInt32.lt_iff_toNat_lt.mp hlt
  omega

omit [DecidableEq Ctl] in
/-- A slot behind it moves by its length, which is nothing for a slot at the same place. -/
theorem rebase_after {begin count : UInt32} {other : ModuleSlot Ctl} (hu : other.used = true)
    (h : begin.toNat + count.toNat ≤ other.begin.toNat) :
    (rebase begin count other).begin.toNat = other.begin.toNat - count.toNat := by
  unfold rebase
  split
  · exact UInt32.toNat_sub_of_le _ _ (UInt32.le_iff_toNat_le.mpr (by omega))
  · rename_i hne
    have hnlt : ¬ begin < other.begin := fun hlt => hne ⟨hu, hlt⟩
    rw [UInt32.lt_iff_toNat_lt] at hnlt
    omega

omit [DecidableEq Ctl] in
/-- The slot that `unregister_module` finds is that of the module with the id. -/
theorem findSlot_eq_some {log : List (Registered Ctl)} (h : Represents cap w log) {id i : Nat}
    (hf : findSlot cap w id = some i) : ∃ r ∈ log, r.slot = i ∧ r.id = id := by
  unfold findSlot at hf
  split at hf
  · cases hf
  · have hmatch := List.find?_some hf
    simp only [slotId, Option.map_eq_some_iff, decide_eq_true_eq] at hmatch
    obtain ⟨hused, c, hc, hid⟩ := hmatch
    obtain ⟨r, hr, rfl⟩ := (h.used i).mp hused
    obtain ⟨before, after, hlog⟩ := List.append_of_mem hr
    have hcontrol := (h.slots before r after hlog).1.symm.trans hc
    cases hcontrol
    exact ⟨r, hr, rfl, (h.ids r hr).1.symm.trans hid⟩

omit [DecidableEq Ctl] in
/-- Only the ids of the controls matter to the registry, and the counter only grows. -/
theorem Represents.controls_next {log : List (Registered Ctl)} (h : Represents cap w log) {controls : Ctl → ModuleControl}
    {counter : Nat} (hid : ∀ c, (controls c).id = (w.controls c).id) (hcounter : w.counter ≤ counter) :
    Represents cap { w with controls, counter } log :=
  { h with ids := fun r hr => ⟨(hid _).trans (h.ids r hr).1, Nat.le_trans (h.ids r hr).2 hcounter⟩ }

theorem update_id {controls : Ctl → ModuleControl} {m : ModuleControl} (h : m.id = (controls control).id) (c : Ctl) :
    (Function.update controls control m c).id = (controls c).id := by
  by_cases hc : c = control
  · rw [hc, Function.update_self, h]
  · rw [Function.update_of_ne hc]

theorem beginUnload_id (m : ModuleControl) : (beginUnload m).id = m.id := by
  unfold beginUnload
  split <;> rfl

omit [DecidableEq Ctl] in
/-- The record without the module that was found. -/
theorem filter_id {before after : List (Registered Ctl)} {r : Registered Ctl}
    (h : ((before ++ r :: after).map Registered.id).Nodup) :
    (before ++ r :: after).filter (fun x => decide (x.id ≠ r.id)) = before ++ after := by
  rw [List.map_append, List.map_cons, List.nodup_append] at h
  obtain ⟨-, hafter, hdisj⟩ := h
  have hb : before.filter (fun x => decide (x.id ≠ r.id)) = before :=
    List.filter_eq_self.mpr fun x hx =>
      decide_eq_true (hdisj x.id (List.mem_map_of_mem hx) r.id List.mem_cons_self)
  have ha : after.filter (fun x => decide (x.id ≠ r.id)) = after :=
    List.filter_eq_self.mpr fun x hx => by
      refine decide_eq_true fun he => (List.nodup_cons.mp hafter).1 ?_
      exact he ▸ List.mem_map_of_mem hx
  rw [List.filter_append, List.filter_cons_of_neg (by simp), hb, ha]

omit [DecidableEq Ctl] in
/-- What the record says after the block of one module is taken out. -/
theorem represents_remove {before after : List (Registered Ctl)} {r : Registered Ctl}
    (h : Represents cap w (before ++ r :: after)) :
    Represents cap { w with
      modules := Function.update (fun j => rebase (w.modules r.slot).begin (w.modules r.slot).count (w.modules j)) r.slot {}
      interfaces := compact (w.modules r.slot).count.toNat w.interfaceCount
        (w.interfaceCount - (w.modules r.slot).begin.toNat) (w.modules r.slot).begin.toNat w.interfaces
      moduleCount := w.moduleCount - 1
      interfaceCount := w.interfaceCount - (w.modules r.slot).count.toNat } (before ++ after) := by
  obtain ⟨-, hbegin, hcount⟩ := h.slots before r after rfl
  have htotal := h.interfaceCount
  rw [List.map_append, List.map_cons, List.sum_append, List.sum_cons] at htotal
  have hsub : (before ++ after).Sublist (before ++ r :: after) := (List.sublist_cons_self r after).append_left before
  have hne (r' : Registered Ctl) (hmem : r' ∈ before ++ after) : r'.slot ≠ r.slot := by
    have hd := h.distinct
    rw [List.map_append, List.map_cons, List.nodup_middle, List.nodup_cons] at hd
    intro he
    exact hd.1 (he ▸ by simpa using List.mem_map_of_mem (f := Registered.slot) hmem)
  constructor
  case interfaces =>
    have hsize : r.bindings.length = r.size := List.length_map _
    have hpacked := h.interfaces
    have hwhole : w.interfaceCount = (before.map Registered.size).sum + r.size + (after.map Registered.size).sum := by omega
    rw [hwhole, List.flatMap_append, List.flatMap_cons, ← List.append_assoc, ← length_bindings, ← length_bindings,
      ← hsize] at hpacked
    have hclosed := contents_compact _ _ _ _ hpacked
    rw [length_bindings, length_bindings, hsize, ← hwhole, ← hbegin, ← hcount] at hclosed
    have hrest : w.interfaceCount - (w.modules r.slot).count.toNat =
        (w.modules r.slot).begin.toNat + (after.map Registered.size).sum := by omega
    simp only [hrest, List.flatMap_append]
    exact hclosed
  case used =>
    intro i
    by_cases hi : i = r.slot
    · subst hi
      simp only [Function.update_self]
      exact ⟨nofun, fun ⟨r', hmem, he⟩ => absurd he (hne r' hmem)⟩
    · simp only [Function.update_of_ne hi, rebase_used, h.used]
      constructor
      · rintro ⟨r', hmem, rfl⟩
        refine ⟨r', ?_, rfl⟩
        have hr : r' ≠ r := by
          rintro rfl
          exact hi rfl
        simpa [hr] using hmem
      · rintro ⟨r', hmem, rfl⟩
        exact ⟨r', hsub.mem hmem, rfl⟩
  case slots =>
    intro front r' back hlog
    have hmem : r' ∈ before ++ after := hlog ▸ List.mem_append_right _ List.mem_cons_self
    simp only [Function.update_of_ne (hne r' hmem), rebase_control, rebase_count]
    rcases append_eq_append_cons hlog with ⟨mid, rfl⟩ | ⟨mid, rfl, rfl⟩
    · obtain ⟨hc, hb, hn⟩ := h.slots front r' (mid ++ r :: after) (by simp)
      refine ⟨hc, ?_, hn⟩
      rw [rebase_before, hb]
      simp only [List.map_append, List.map_cons, List.sum_append, List.sum_cons] at hbegin
      omega
    · obtain ⟨hc, hb, hn⟩ := h.slots (before ++ r :: mid) r' back (by simp)
      simp only [List.map_append, List.map_cons, List.sum_append, List.sum_cons] at hb ⊢
      refine ⟨hc, ?_, hn⟩
      have hused := (h.used r'.slot).mpr ⟨r', hsub.mem hmem, rfl⟩
      rw [rebase_after hused (by omega)]
      omega
  case below => exact fun r' hmem => h.below r' (hsub.mem hmem)
  case distinct => exact (hsub.map _).nodup h.distinct
  case count =>
    simp only [h.count, List.length_append, List.length_cons]
    omega
  case controls => exact (hsub.map _).nodup h.controls
  case ids => exact fun r' hmem => h.ids r' (hsub.mem hmem)
  case unique => exact (hsub.map _).nodup h.unique
  case room => exact Nat.le_trans (Nat.sub_le _ _) h.room

private theorem represents_unregister {log : List (Registered Ctl)} (h : Represents cap w log) (id : Nat) :
    Represents cap (unregisterModule cap w id).1
      (if (unregisterModule cap w id).2 = .ok then log.filter (·.id ≠ id) else log) := by
  cases hf : findSlot cap w id with
  | none => simpa [unregisterModule, hf] using h
  | some i =>
    obtain ⟨r, hmem, rfl, rfl⟩ := findSlot_eq_some h hf
    obtain ⟨before, after, rfl⟩ := List.append_of_mem hmem
    have hcontrol := (h.slots before r after rfl).1
    cases hidle : waitForIdle (beginUnload (w.controls r.control)) with
    | true =>
      simp only [unregisterModule, hf, hcontrol, hidle, if_true, filter_id h.unique]
      exact (represents_remove h).controls_next (update_id (beginUnload_id (w.controls r.control))) (Nat.le_refl w.counter)
    | false =>
      have hbusy : (unregisterModule cap w r.id).2 ≠ .ok := by simp [unregisterModule, hf, hcontrol, hidle]
      rw [if_neg hbusy]
      simp only [unregisterModule, hf, hcontrol, hidle]
      exact h.controls_next (update_id (beginUnload_id (w.controls r.control))) (Nat.le_refl w.counter)

/-- A refused registration changes nothing, neither in the registry nor in the control. -/
theorem registerModule_refused (h : (registerModule cap w control manifest).2 ≠ .ok) :
    (registerModule cap w control manifest).1 = w := by
  unfold registerModule at h ⊢
  split
  · rfl
  · rename_i hr
    rw [hr] at h
    exact absurd rfl h

theorem refusal_ne_ok : refusal cap w control manifest ≠ some .ok := by
  unfold refusal
  repeat' split
  all_goals nofun

private theorem represents_step {log : List (Registered Ctl)} {op : Op Ctl} (h : Represents cap w log) (hfit : Fits cap w op) :
    Represents cap (step cap w op).1 (record cap log w op) := by
  cases op with
  | registerModule control manifest =>
    cases hr : refusal cap w control manifest with
    | none =>
      have hok : (registerModule cap w control manifest).2 = .ok := by simp [registerModule, hr]
      have hrecord : record cap log w (.registerModule control manifest) = _ := if_pos (congrArg some hok)
      rw [hrecord]
      exact represents_register h hr (hfit hr)
    | some status =>
      have hne : (registerModule cap w control manifest).2 ≠ .ok := by
        simp only [registerModule, hr]
        rintro rfl
        exact refusal_ne_ok hr
      have hrecord : record cap log w (.registerModule control manifest) = log :=
        if_neg fun he => hne (Option.some.inj he)
      rw [hrecord]
      simpa only [step, registerModule_refused hne] using h
  | unregisterModule id =>
    simpa [step, record] using represents_unregister h id
  | control c state leases => exact h.controls_next (update_id rfl) (Nat.le_refl _)
  | draw => exact h.controls_next (fun _ => rfl) (Nat.le_succ _)

theorem represents_of_reached {log : List (Registered Ctl)} (h : Reached cap (Fits cap) w log) : Represents cap w log := by
  induction h with
  | init =>
    exact {
      interfaces := rfl
      used := fun i => ⟨nofun, fun ⟨_, hr, _⟩ => absurd hr List.not_mem_nil⟩
      slots := fun before r after hlog => absurd hlog.symm (by simp)
      below := fun _ hr => absurd hr List.not_mem_nil
      distinct := List.nodup_nil
      count := rfl
      controls := List.nodup_nil
      ids := fun _ hr => absurd hr List.not_mem_nil
      unique := List.nodup_nil
      room := Nat.zero_le _ }
  | step _ hok ih => exact represents_step ih hok

omit [DecidableEq Ctl] in
private theorem findInterfaceFrom_eq (w : World Ctl) (id : InterfaceId) (version : UInt32) (left i max : Nat) :
    findInterfaceFrom w id version left i max =
      ((List.range' i left).filter fun j => matching id version (w.interfaces j)).take max := by
  induction left generalizing i max with
  | zero => simp [findInterfaceFrom]
  | succ left ih =>
    cases max with
    | zero => simp [findInterfaceFrom]
    | succ max =>
      rw [findInterfaceFrom, List.range'_succ, List.filter_cons]
      split
      · rw [ih, List.take_succ_cons]
      · exact ih (i + 1) (max + 1)

/-- The best of the cells below `n`: none matches, or it matches, no other has a greater version,
and a later one has a smaller. -/
def Newest (w : World Ctl) (id : InterfaceId) (version : UInt32) (n : Nat) (best : Option Nat) : Prop :=
  match best with
  | none => ∀ i < n, matching id version (w.interfaces i) = false
  | some b => b < n ∧ matching id version (w.interfaces b) = true ∧
      ∀ i < n, matching id version (w.interfaces i) = true →
        (w.interfaces i).version ≤ (w.interfaces b).version ∧ (b < i → (w.interfaces i).version < (w.interfaces b).version)

omit [DecidableEq Ctl] in
private theorem newest_better {id : InterfaceId} {version : UInt32} {n : Nat} {best : Option Nat}
    (h : Newest w id version n best) : Newest w id version (n + 1) (better w id version best n) := by
  have hlt (i : Nat) (hi : i < n + 1) : i < n ∨ i = n := by omega
  unfold better
  split
  · rename_i hn
    cases best with
    | none =>
      refine ⟨Nat.lt_succ_self n, hn, fun i hi hm => ?_⟩
      rcases hlt i hi with hi | rfl
      · exact absurd (h i hi) (by simp [hm])
      · exact ⟨UInt32.le_refl _, fun hlt => absurd hlt (Nat.lt_irrefl i)⟩
    | some b =>
      obtain ⟨hb, hbm, hbest⟩ := h
      dsimp only
      split
      · rename_i hle
        refine ⟨Nat.lt_succ_self n, hn, fun i hi hm => ?_⟩
        rcases hlt i hi with hi | rfl
        · exact ⟨UInt32.le_trans (hbest i hi hm).1 hle, fun hlt => absurd hlt (by omega)⟩
        · exact ⟨UInt32.le_refl _, fun hlt => absurd hlt (Nat.lt_irrefl i)⟩
      · rename_i hgt
        refine ⟨Nat.lt_succ_of_lt hb, hbm, fun i hi hm => ?_⟩
        rcases hlt i hi with hi | rfl
        · exact hbest i hi hm
        · have hlt := UInt32.not_le.mp hgt
          exact ⟨UInt32.le_of_lt hlt, fun _ => hlt⟩
  · rename_i hn
    have hn : matching id version (w.interfaces n) = false := by simpa using hn
    cases best with
    | none =>
      intro i hi
      rcases hlt i hi with hi | rfl
      · exact h i hi
      · exact hn
    | some b =>
      obtain ⟨hb, hbm, hbest⟩ := h
      refine ⟨Nat.lt_succ_of_lt hb, hbm, fun i hi hm => ?_⟩
      rcases hlt i hi with hi | rfl
      · exact hbest i hi hm
      · exact absurd hm (by simp [hn])

omit [DecidableEq Ctl] in
private theorem newest_findFirst (w : World Ctl) (id : InterfaceId) (version : UInt32) :
    Newest w id version w.interfaceCount (findFirst w id version) := by
  unfold findFirst
  generalize w.interfaceCount = n
  induction n with
  | zero => exact fun i hi => absurd hi (Nat.not_lt_zero i)
  | succ n ih =>
    rw [List.range_succ, List.foldl_append]
    exact newest_better ih

omit [DecidableEq Ctl] in
theorem Represents.moduleCount {log : List (Registered Ctl)} (h : Represents cap w log) :
    w.moduleCount = ((List.range cap.slots).filter fun i => (w.modules i).used).length := by
  have hperm : (log.map Registered.slot).Perm ((List.range cap.slots).filter fun i => (w.modules i).used) := by
    refine (List.perm_ext_iff_of_nodup h.distinct (List.nodup_range.filter _)).mpr fun i => ?_
    simp only [List.mem_map, List.mem_filter, List.mem_range, h.used]
    refine ⟨fun ⟨r, hr, he⟩ => ⟨?_, r, hr, he⟩, fun ⟨_, hr⟩ => hr⟩
    exact he ▸ Nat.lt_of_lt_of_le (h.below r hr) cap.le_slots
  rw [h.count, ← hperm.length_eq, List.length_map]

def ModuleSlot.Covers (slot : ModuleSlot Ctl) (k : Nat) : Prop :=
  slot.used = true ∧ slot.begin.toNat ≤ k ∧ k < slot.begin.toNat + slot.count.toNat

omit [DecidableEq Ctl] in
/-- Each cell of the array is in the range of one slot. -/
theorem Represents.existsUnique_covers {log : List (Registered Ctl)} (h : Represents cap w log) {k : Nat}
    (hk : k < w.interfaceCount) : ∃! i, (w.modules i).Covers k := by
  rw [h.interfaceCount] at hk
  obtain ⟨before, r, after, rfl, hle, hlt⟩ := exists_block Registered.size hk
  obtain ⟨-, hbegin, hcount⟩ := h.slots before r after rfl
  refine ⟨r.slot, ⟨(h.used _).mpr ⟨r, by simp, rfl⟩, by omega, by omega⟩, ?_⟩
  rintro i ⟨hused, hle', hlt'⟩
  obtain ⟨r', hmem, rfl⟩ := (h.used i).mp hused
  obtain ⟨before', after', hlog⟩ := List.append_of_mem hmem
  obtain ⟨-, hbegin', hcount'⟩ := h.slots before' r' after' hlog
  rw [block_unique Registered.size hlog hle hlt (by omega) (by omega)]

/-- After any calls whose registrations each find fewer than 2 ^ 32 interfaces: the array is the
blocks of the registered modules in the order of registration, each used slot's range is its own
module's block, and every cell is in one range; the count is that of the used slots; queries
answer with the first matches and with the last of the newest; a refused registration changes
nothing. -/
theorem registry_represents {log : List (Registered Ctl)} (h : Reached cap (Fits cap) w log) :
    contents w.interfaces w.interfaceCount = log.flatMap Registered.bindings ∧
    (∀ i, (w.modules i).used = true ↔ ∃ r ∈ log, r.slot = i) ∧
    (∀ before r after, log = before ++ r :: after → (w.modules r.slot).control = some r.control ∧
      (w.modules r.slot).begin.toNat = (before.flatMap Registered.bindings).length ∧
      (w.modules r.slot).count.toNat = r.bindings.length) ∧
    (∀ k < w.interfaceCount, ∃! i, (w.modules i).Covers k) ∧
    w.moduleCount = ((List.range cap.slots).filter fun i => (w.modules i).used).length ∧
    (∀ id version max, findInterface w id version max =
      ((List.range w.interfaceCount).filter fun i => matching id version (w.interfaces i)).take max) ∧
    (∀ id version, Newest w id version w.interfaceCount (findFirst w id version)) ∧
    ∀ control manifest, (registerModule cap w control manifest).2 ≠ .ok →
      (registerModule cap w control manifest).1 = w := by
  have hr := represents_of_reached h
  refine ⟨hr.interfaces, hr.used, fun before r after hlog => ?_, fun k hk => hr.existsUnique_covers hk, hr.moduleCount,
    fun id version max => ?_, newest_findFirst w, fun control manifest => registerModule_refused⟩
  · obtain ⟨hcontrol, hbegin, hcount⟩ := hr.slots before r after hlog
    exact ⟨hcontrol, hbegin.trans (length_bindings before).symm, hcount.trans (List.length_map _).symm⟩
  · rw [findInterface, findInterfaceFrom_eq, List.range_eq_range']

def oneInterface : ModuleManifest where
  manifestVersion := abixManifestVersion
  interfaces := .ofList [⟨⟨1, 0⟩, 1, .ofList [] (by decide)⟩] (by decide)

/-- Two modules are registered, the first is unregistered, and a third takes its slot. -/
private def slotReused : List (Op Nat) :=
  [.registerModule 0 oneInterface, .registerModule 1 oneInterface, .unregisterModule 1, .registerModule 2 oneInterface]

private def after (cap : Capacity) (w : World Nat) (ops : List (Op Nat)) : World Nat × List (Registered Nat) :=
  ops.foldl (fun s op => ((step cap s.1 op).1, record cap s.2 s.1 op)) (w, [])

theorem registry_represents_reused : ∃ (w : World Nat) (log : List (Registered Nat)),
    log.map (fun r => (r.slot, r.control, r.id)) = [(1, 1, 2), (0, 2, 3)] ∧
      contents w.interfaces w.interfaceCount = log.flatMap Registered.bindings ∧
        w.interfaceCount = 2 ∧ ∀ k < 2, ∃! i, (w.modules i).Covers k := by
  have hreached : Reached {} (Fits {}) (after {} {} slotReused).1 (after {} {} slotReused).2 :=
    .step (.step (.step (.step .init fun _ => by decide) fun _ => by decide) trivial) fun _ => by decide
  have hlog : (after {} {} slotReused).2.map (fun r => (r.slot, r.control, r.id)) = [(1, 1, 2), (0, 2, 3)] := by decide
  have hcount : (after {} {} slotReused).1.interfaceCount = 2 := by decide
  obtain ⟨hcontents, -, -, hcovers, -⟩ := registry_represents hreached
  exact ⟨_, _, hlog, hcontents, hcount, fun k hk => hcovers k (by rw [hcount]; exact hk)⟩

omit [DecidableEq Ctl] in
theorem freeSlot_eq {modules : Nat → ModuleSlot Ctl} {k : Nat} (h : ∀ j, (modules j).used = true ↔ j < k) (left i : Nat)
    (hi : i ≤ k) (hk : k ≤ i + left) : freeSlot modules left i = k := by
  induction left generalizing i with
  | zero => exact Nat.le_antisymm hi hk
  | succ left ih =>
    rw [freeSlot]
    by_cases hlt : i < k
    · rw [if_pos ((h i).mpr hlt)]
      exact ih (i + 1) hlt (by omega)
    · rw [if_neg fun hu => hlt ((h i).mp hu)]
      omega

structure Filled (cap : Capacity) (k : Nat) (w : World Nat) (log : List (Registered Nat)) : Prop where
  reached : Reached cap (fun _ _ => True) w log
  modules : w.moduleCount = k
  interfaces : w.interfaceCount = k
  bindings : (log.flatMap Registered.bindings).length = k
  used : ∀ i, (w.modules i).used = true ↔ i < k
  controls : ∀ i c, (w.modules i).control = some c → c < k
  loading : ∀ c, k ≤ c → (w.controls c).state = .loading

private theorem refusal_of_filled {k : Nat} {w : World Nat} {log : List (Registered Nat)} (h : Filled cap k w log)
    (hm : k < cap.modules) (hi : k < cap.interfaces) :
    refusal cap w k oneInterface = none ∧ freeSlot w.modules cap.modules 0 = k := by
  have hslot : freeSlot w.modules cap.modules 0 = k := freeSlot_eq h.used _ _ (Nat.zero_le k) (by omega)
  have hcount : oneInterface.interfaces.count.toNat = 1 := by decide
  have hactive : activateModule (w.controls k) ≠ none := by simp [activateModule, h.loading k (Nat.le_refl k)]
  have hvalid : validateManifest (some oneInterface) = .ok := by decide
  have hkeys : (oneInterface.interfaces.items.map fun e => (e.interfaceId, e.interfaceVersion)).Nodup := by decide
  refine ⟨?_, hslot⟩
  unfold refusal
  rw [if_neg (not_not.mpr hvalid), if_neg fun ⟨i, _, _, hc⟩ => Nat.lt_irrefl k (h.controls i k hc),
    if_neg (not_not.mpr hkeys), h.modules, h.interfaces, hslot, hcount, if_neg (by omega), if_neg (by omega),
    if_neg (by omega), if_neg hactive]

theorem filled_succ {k : Nat} {w : World Nat} {log : List (Registered Nat)} (h : Filled cap k w log)
    (hm : k < cap.modules) (hi : k < cap.interfaces) :
    Filled cap (k + 1) (step cap w (.registerModule k oneInterface)).1
      (log ++ [⟨k, k, nextModuleInstanceId w, oneInterface.interfaces.items⟩]) := by
  obtain ⟨hr, hslot⟩ := refusal_of_filled h hm hi
  have hlog : record cap log w (.registerModule k oneInterface) =
      log ++ [⟨k, k, nextModuleInstanceId w, oneInterface.interfaces.items⟩] := by
    have hok : (step cap w (.registerModule k oneInterface)).2 = some .ok := by simp [step, registerModule, hr]
    rw [record, if_pos hok, hslot]
  have hcount : oneInterface.interfaces.count.toNat = 1 := by decide
  have hitems : oneInterface.interfaces.items.length = 1 := by decide
  have hreached : Reached cap (fun _ _ => True) (step cap w (.registerModule k oneInterface)).1
      (record cap log w (.registerModule k oneInterface)) := .step h.reached trivial
  rw [hlog] at hreached
  refine ⟨hreached, ?_, ?_, ?_, fun i => ?_, fun i c => ?_, fun c hc => ?_⟩
  · simp [step, registerModule, hr, h.modules]
  · simp [step, registerModule, hr, h.interfaces, hcount]
  · simp only [List.flatMap_append, List.length_append, h.bindings, List.flatMap_singleton, Registered.bindings,
      List.length_map, hitems]
  · by_cases hik : i = k
    · simp [step, registerModule, hr, hslot, hik]
    · simp only [step, registerModule, hr, hslot, Function.update_of_ne hik, h.used]
      omega
  · by_cases hik : i = k
    · simp [step, registerModule, hr, hslot, hik]
      omega
    · simp only [step, registerModule, hr, hslot, Function.update_of_ne hik]
      exact fun hc => Nat.lt_succ_of_lt (h.controls i c hc)
  · simp only [step, registerModule, hr, Function.update_of_ne (Nat.ne_of_gt hc)]
    exact h.loading c (Nat.le_of_lt hc)

private theorem exists_filled (cap : Capacity) (k : Nat) (hm : k ≤ cap.modules) (hi : k ≤ cap.interfaces) :
    ∃ w log, Filled cap k w log := by
  induction k with
  | zero =>
    exact ⟨{}, [], .init, rfl, rfl, rfl, fun i => ⟨nofun, fun h => absurd h (Nat.not_lt_zero i)⟩, nofun, fun _ _ => rfl⟩
  | succ k ih =>
    obtain ⟨w, log, h⟩ := ih (Nat.le_of_lt hm) (Nat.le_of_lt hi)
    exact ⟨_, _, filled_succ h hm hi⟩

/-- Behind 2 ^ 32 interfaces the `begin` of a new slot has no room for its offset. -/
theorem registry_represents_fails : ¬ ∀ (cap : Capacity) (w : World Nat) (log : List (Registered Nat)),
    Reached cap (fun _ _ => True) w log → ∀ before r after, log = before ++ r :: after →
      (w.modules r.slot).begin.toNat = (before.flatMap Registered.bindings).length := by
  intro hall
  obtain ⟨w, log, h⟩ := exists_filled ⟨2 ^ 32 + 1, 2 ^ 32 + 1⟩ (2 ^ 32) (Nat.le_succ _) (Nat.le_succ _)
  have hbegin := hall _ _ _ (filled_succ h (Nat.lt_succ_self _) (Nat.lt_succ_self _)).reached log _ [] rfl
  rw [h.bindings] at hbegin
  exact absurd (hbegin ▸ UInt32.toNat_lt _) (Nat.lt_irrefl _)

end Abix.Interface.ModuleRegistry

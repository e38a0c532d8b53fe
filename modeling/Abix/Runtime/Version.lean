import Abix.Runtime.Registration
import Abix.Text.Decimal

/-! The version that a module's own string gives it: the number the string begins with, counted in
32 bits. -/
namespace Abix.Runtime.Registry
open Abix.Model Abix.Metadata Abix.Text

def parseDigits : UInt32 → List UInt8 → UInt32
  | value, [] => value
  | value, c :: text => if isDigit c then parseDigits (value * 10 + (c.toUInt32 - 48)) text else value

/-- A null string is `none`. -/
def parseVersion : Option (List UInt8) → UInt32
  | none => 0
  | some text => parseDigits 0 text

def moduleVersion (module : ModuleDescriptor) : UInt32 := parseVersion module.version

/-- The number that a string begins with, zero where it begins with no digit. -/
def leadingNumber (text : Option (List UInt8)) : Nat := valueOf ((text.getD []).takeWhile isDigit)

/-- A registration: of a module under a version that the caller gives, or under its own. -/
structure Load where
  module : ModuleDescriptor
  given : Option UInt32 := none

def Load.version (l : Load) : UInt32 := l.given.getD (moduleVersion l.module)

def Load.number (l : Load) : Nat :=
  match l.given with
  | some version => version.toNat
  | none => leadingNumber l.module.version

def Differ (row row' : TypeRow) : Prop :=
  row.type.typeId = row'.type.typeId ∧ sameLayout (some row.canonicalLayout) (some row'.canonicalLayout) = false

/-- Versions are compared as the numbers they stand for: a module conflicts with, or shares a type
with, a loaded one of its own number only; a type that comes twice comes twice in one module; every
loaded type is found in its layout under its number, and the newest one has the largest number. -/
structure Numbered (capacity : Nat) (r : Registry) (loaded : List Load) (candidate : Load) : Prop where
  spelled : ∀ l ∈ candidate :: loaded, l.version.toNat = l.number
  conflict : r.checkModule capacity candidate.module candidate.version = .layoutConflict →
    ∃ l ∈ loaded, l.number = candidate.number ∧
      ∃ row ∈ l.module.rows, ∃ row' ∈ candidate.module.rows, Differ row row'
  duplicate : r.checkModule capacity candidate.module candidate.version = .duplicateType →
    ¬ (candidate.module.rows.map fun row => row.type.typeId).Nodup
  shared : ∀ row ∈ candidate.module.rows, isNew r candidate.version row = false →
    ∃ l ∈ loaded, l.number = candidate.number ∧ ∃ row' ∈ l.module.rows, row'.type.typeId = row.type.typeId
  found : ∀ l ∈ loaded, ∀ row ∈ l.module.rows, ∃ e, r.findType row.type.typeId l.version = some e ∧
    e.version.toNat = l.number ∧ sameLayout (some e.layout) (some row.canonicalLayout) = true
  newest : ∀ id, match r.findById id with
    | none => ∀ l ∈ loaded, ∀ row ∈ l.module.rows, row.type.typeId ≠ id
    | some e =>
      (∃ l ∈ loaded, ∃ row ∈ l.module.rows, row.type.typeId = id ∧ e = entryOf l.version row ∧
        e.version.toNat = l.number) ∧
      ∀ l ∈ loaded, ∀ row ∈ l.module.rows, row.type.typeId = id → l.number ≤ e.version.toNat

variable {capacity : Nat} {r : Registry} {rows : List TypeRow}

/-- A digit is worth the same in the word and in the number. -/
theorem toNat_digit {c : UInt8} (h : isDigit c = true) : (c.toUInt32 - 48).toNat = c.toNat - 48 := by
  have hle : (48 : UInt32) ≤ c.toUInt32 := by
    simp only [isDigit, decide_eq_true_eq, UInt8.le_iff_toNat_le] at h
    rw [UInt32.le_iff_toNat_le, UInt8.toNat_toUInt32]
    exact h.1
  rw [UInt32.toNat_sub_of_le _ _ hle, UInt8.toNat_toUInt32]
  rfl

private theorem toNat_parseDigits {value : UInt32} {n : Nat} (h : value.toNat = n % 2 ^ 32) (text : List UInt8) :
    (parseDigits value text).toNat =
      (text.takeWhile isDigit).foldl (fun n b => b.toNat - 48 + 10 * n) n % 2 ^ 32 := by
  induction text generalizing value n with
  | nil => exact h
  | cons c text ih =>
    rw [parseDigits]
    split
    next hdigit =>
      rw [List.takeWhile_cons_of_pos hdigit, List.foldl_cons]
      refine ih ?_
      have hten : (10 : UInt32).toNat = 10 := rfl
      rw [UInt32.toNat_add, UInt32.toNat_mul, toNat_digit hdigit, h, hten]
      omega
    next hdigit =>
      rw [List.takeWhile_cons_of_neg hdigit]
      exact h

/-- The loop loses what does not fit in 32 bits, and nothing else. -/
theorem toNat_parseVersion (text : Option (List UInt8)) :
    (parseVersion text).toNat = leadingNumber text % 2 ^ 32 := by
  cases text with
  | none => rfl
  | some text => rw [parseVersion, toNat_parseDigits (n := 0) rfl, leadingNumber, valueOf_eq_foldl, Option.getD_some]

theorem parseVersion_eq_iff (text : Option (List UInt8)) :
    (parseVersion text).toNat = leadingNumber text ↔ leadingNumber text < 2 ^ 32 := by
  rw [toNat_parseVersion]
  omega

theorem Load.version_eq_iff (l : Load) :
    l.version.toNat = l.number ↔ (l.given = none → leadingNumber l.module.version < 2 ^ 32) := by
  obtain ⟨module, given⟩ := l
  cases given with
  | none => exact (parseVersion_eq_iff module.version).trans ⟨fun h _ => h, fun h => h rfl⟩
  | some version => simp [Load.version, Load.number]

/-- What a status of the first loop of the check says about the types it was given. -/
def Refused (r : Registry) (version : UInt32) (earlier : List TypeId) (rows : List TypeRow) : RegisterStatus → Prop
  | .duplicateType => (∃ row ∈ rows, row.type.typeId ∈ earlier) ∨ ¬ (rows.map fun row => row.type.typeId).Nodup
  | .invalidModule => ∃ row ∈ rows, validLayout row.type = false
  | .layoutConflict => ∃ row ∈ rows, ∃ e, r.findType row.type.typeId version = some e ∧
      sameLayout (some e.layout) (some row.canonicalLayout) = false
  | _ => False

theorem refused_cons {version : UInt32} {earlier : List TypeId} {row : TypeRow} {status : RegisterStatus}
    (h : Refused r version (row.type.typeId :: earlier) rows status) :
    Refused r version earlier (row :: rows) status := by
  cases status with
  | ok | capacityExceeded | unknownTypeReference => exact h
  | invalidModule | layoutConflict =>
    obtain ⟨row', hmem, hrest⟩ := h
    exact ⟨row', List.mem_cons_of_mem _ hmem, hrest⟩
  | duplicateType =>
    rcases h with ⟨row', hmem, hid⟩ | hdup
    · rcases List.mem_cons.mp hid with heq | hearlier
      · refine .inr fun hnodup => (List.nodup_cons.mp hnodup).1 ?_
        exact List.mem_map.mpr ⟨row', hmem, heq⟩
      · exact .inl ⟨row', List.mem_cons_of_mem _ hmem, hearlier⟩
    · exact .inr fun hnodup => hdup (List.nodup_cons.mp hnodup).2

private theorem refused_of_checkTypes {version : UInt32} {earlier : List TypeId} {status : RegisterStatus}
    (h : r.checkTypes version earlier rows = .error status) : Refused r version earlier rows status := by
  induction rows generalizing earlier with
  | nil => cases h
  | cons row rows ih =>
    rw [checkTypes] at h
    split at h
    next hearlier =>
      cases h
      exact .inl ⟨row, List.mem_cons_self, hearlier⟩
    split at h
    next hlayout =>
      cases h
      exact ⟨row, List.mem_cons_self, (Bool.not_eq_true _).mp hlayout⟩
    split at h
    next existing hfind =>
      split at h
      · exact refused_cons (ih h)
      · rename_i hdiffer
        cases h
        exact ⟨row, List.mem_cons_self, existing, hfind, (Bool.not_eq_true _).mp hdiffer⟩
    next hfind =>
      cases hrest : r.checkTypes version (row.type.typeId :: earlier) rows with
      | error status' =>
        rw [hrest] at h
        cases h
        exact refused_cons (ih hrest)
      | ok n =>
        rw [hrest] at h
        cases h

/-- Only the first loop finds conflicts and duplicates. -/
theorem refused_of_checkModule {version : UInt32} {module : ModuleDescriptor} {status : RegisterStatus}
    (h : r.checkModule capacity module version = status) (hs : status = .layoutConflict ∨ status = .duplicateType) :
    Refused r version [] module.rows status := by
  cases hc : r.checkTypes version [] module.rows with
  | error status' =>
    unfold checkModule at h
    rw [hc] at h
    split at h
    · subst h
      rcases hs with hs | hs <;> cases hs
    · exact h ▸ refused_of_checkTypes hc
  | ok n =>
    unfold checkModule at h
    rw [hc] at h
    subst h
    exfalso
    revert hs
    dsimp only
    split_ifs <;> rintro (hs | hs) <;> cases hs

/-- Every entry is a type of a module that was accepted. -/
theorem origin_of_reached {accepted : List (ModuleDescriptor × UInt32)} (h : Reached capacity r accepted) :
    ∀ e ∈ r.entries, ∃ m ∈ accepted, ∃ row ∈ m.1.rows, e = entryOf m.2 row := by
  induction h with
  | init => exact fun e he => absurd he List.not_mem_nil
  | @step r accepted module version hreached ih =>
    by_cases hc : r.checkModule capacity module version = .ok
    · rw [registerModule_of_passed (passed_of_checkModule hc) (sound_of_reached hreached).1 hc, if_pos rfl,
        foldl_enter_entries]
      refine List.forall_mem_append.mpr ⟨fun e he => ?_, fun e he => ?_⟩
      · obtain ⟨m, hm, hrest⟩ := ih e he
        exact ⟨m, List.mem_cons_of_mem _ hm, hrest⟩
      · obtain ⟨row, hrow, rfl⟩ := List.mem_map.mp he
        exact ⟨(module, version), List.mem_cons_self, row, (List.mem_filter.mp hrow).1, rfl⟩
    · rw [registerModule_refused hc, if_neg hc]
      exact ih

section Loaded
variable {loaded : List Load} (h : Reached capacity r (loaded.map fun l => (l.module, l.version)))
include h

theorem origin_of_loaded {e : RegistryEntry} (he : e ∈ r.entries) :
    ∃ l ∈ loaded, ∃ row ∈ l.module.rows, e = entryOf l.version row := by
  obtain ⟨m, hm, row, hrow, rfl⟩ := origin_of_reached h e he
  obtain ⟨l, hl, rfl⟩ := List.mem_map.mp hm
  exact ⟨l, hl, row, hrow, rfl⟩

theorem entry_of_loaded {l : Load} (hl : l ∈ loaded) {row : TypeRow} (hrow : row ∈ l.module.rows) :
    ∃ e ∈ r.entries, e.descriptor.typeId = row.type.typeId ∧ e.version = l.version ∧
      sameLayout (some e.layout) (some row.canonicalLayout) = true :=
  (sound_of_reached h).2 _ (List.mem_map_of_mem hl) row hrow

private theorem found_of_loaded {l : Load} (hl : l ∈ loaded) {row : TypeRow} (hrow : row ∈ l.module.rows) :
    ∃ e, r.findType row.type.typeId l.version = some e ∧ e.version = l.version ∧
      sameLayout (some e.layout) (some row.canonicalLayout) = true := by
  obtain ⟨e, he, hid, hversion, hsame⟩ := entry_of_loaded h hl hrow
  obtain ⟨e', hfind⟩ := Option.isSome_iff_exists.mp (findType_isSome.mpr ⟨e, he, hid, hversion⟩)
  obtain ⟨he', hid', hversion'⟩ := of_findType hfind
  obtain rfl : e = e' :=
    List.inj_on_of_nodup_map (sound_of_reached h).1.unique he he' (by simp [hid, hid', hversion, hversion'])
  exact ⟨e, hfind, hversion, hsame⟩

/-- What is found under the version of a module was loaded under the same number. -/
theorem load_of_findType {candidate : Load} (hs : ∀ l ∈ candidate :: loaded, l.version.toNat = l.number) {id : TypeId}
    {e : RegistryEntry} (hfind : r.findType id candidate.version = some e) :
    ∃ l ∈ loaded, l.number = candidate.number ∧ ∃ row ∈ l.module.rows, row.type.typeId = id ∧
      e = entryOf l.version row := by
  obtain ⟨he, hid, hversion⟩ := of_findType hfind
  obtain ⟨l, hl, row, hrow, rfl⟩ := origin_of_loaded h he
  have hsame : l.version = candidate.version := hversion
  refine ⟨l, hl, ?_, row, hrow, hid, rfl⟩
  rw [← hs l (List.mem_cons_of_mem _ hl), ← hs candidate List.mem_cons_self, hsame]

private theorem numbered_of_spelled {candidate : Load} (hs : ∀ l ∈ candidate :: loaded, l.version.toNat = l.number) :
    Numbered capacity r loaded candidate := by
  have hloaded (l : Load) (hl : l ∈ loaded) : l.version.toNat = l.number := hs l (List.mem_cons_of_mem _ hl)
  constructor
  case spelled => exact hs
  case conflict =>
    intro hc
    obtain ⟨row', hrow', e, hfind, hdiffer⟩ := refused_of_checkModule hc (.inl rfl)
    obtain ⟨l, hl, hnumber, row, hrow, hid, rfl⟩ := load_of_findType h hs hfind
    exact ⟨l, hl, hnumber, row, hrow, row', hrow', hid, hdiffer⟩
  case duplicate =>
    intro hc
    rcases refused_of_checkModule hc (.inr rfl) with ⟨row, hrow, hearlier⟩ | hdup
    · exact absurd hearlier List.not_mem_nil
    · exact hdup
  case shared =>
    intro row hrow hnew
    obtain ⟨e, hfind⟩ : ∃ e, r.findType row.type.typeId candidate.version = some e := by
      cases hfind : r.findType row.type.typeId candidate.version with
      | none => simp [isNew, hfind] at hnew
      | some e => exact ⟨e, rfl⟩
    obtain ⟨l, hl, hnumber, row', hrow', hid, -⟩ := load_of_findType h hs hfind
    exact ⟨l, hl, hnumber, row', hrow', hid⟩
  case found =>
    intro l hl row hrow
    obtain ⟨e, hfind, hversion, hsame⟩ := found_of_loaded h hl hrow
    exact ⟨e, hfind, hversion ▸ hloaded l hl, hsame⟩
  case newest =>
    intro id
    have hbest := best_findById r id
    cases hfind : r.findById id with
    | none =>
      rw [hfind] at hbest
      intro l hl row hrow hid
      obtain ⟨e, he, heid, -⟩ := entry_of_loaded h hl hrow
      exact hbest e he (heid.trans hid)
    | some e =>
      rw [hfind] at hbest
      obtain ⟨he, heid, hmax⟩ := hbest
      obtain ⟨l, hl, row, hrow, rfl⟩ := origin_of_loaded h he
      refine ⟨⟨l, hl, row, hrow, heid, rfl, hloaded l hl⟩, fun l' hl' row' hrow' hid => ?_⟩
      obtain ⟨e', he', heid', hversion', -⟩ := entry_of_loaded h hl' hrow'
      have hle := hmax e' he' (heid'.trans hid)
      rw [hversion', UInt32.le_iff_toNat_le, hloaded l' hl'] at hle
      exact hle

end Loaded

/-- A version string is read as the number it begins with exactly when that is below 2 ^ 32; and in
every registry that loads lead to, versions are compared as numbers exactly when all the strings that
were read begin with such numbers. -/
theorem versions_are_numbers {loaded : List Load} (h : Reached capacity r (loaded.map fun l => (l.module, l.version)))
    (candidate : Load) :
    (∀ text, (parseVersion text).toNat = leadingNumber text ↔ leadingNumber text < 2 ^ 32) ∧
    (Numbered capacity r loaded candidate ↔
      ∀ l ∈ candidate :: loaded, l.given = none → leadingNumber l.module.version < 2 ^ 32) := by
  refine ⟨parseVersion_eq_iff, fun hnumbered l hl => ?_, fun hfits => ?_⟩
  · exact l.version_eq_iff.mp (hnumbered.spelled l hl)
  · exact numbered_of_spelled h fun l hl => l.version_eq_iff.mpr (hfits l hl)

/-- `selfModule` is loaded under its string, `1`. -/
theorem reached_selfModule : Reached 64 (({} : Registry).registerModule 64 selfModule (moduleVersion selfModule)).1
    ([(⟨selfModule, none⟩ : Load)].map fun l => (l.module, l.version)) := by
  have hstep : Reached 64 _ _ := .step selfModule (moduleVersion selfModule) .init
  rwa [if_pos (by decide)] at hstep

theorem versions_are_numbers_selfModule :
    Numbered 64 (({} : Registry).registerModule 64 selfModule (moduleVersion selfModule)).1 [⟨selfModule, none⟩]
      ⟨selfModule, some 7⟩ :=
  (versions_are_numbers reached_selfModule ⟨selfModule, some 7⟩).2.mpr (by decide)

/-- The type of `selfModule` with a second word, in a module of version `4294967297`. -/
def wideModule : ModuleDescriptor :=
  { selfModule with
    version := some [52, 50, 57, 52, 57, 54, 55, 50, 57, 55]
    types := .ofList [⟨.ofList [⟨⟨1, 0⟩, 8⟩] (by decide), ⟨1, 0⟩, ⟨9, 0⟩, 16, 8⟩] (by decide)
    canonicalLayouts := .ofList [⟨16, 8, ⟨9, 0⟩⟩] (by decide)
    canonicalTypes_count := rfl
    canonicalLayouts_count := rfl }

/-- The string of the second module begins with 4294967297 and is read as 1, so its type conflicts with
the one of version 1. -/
theorem wide_version_conflicts :
    leadingNumber selfModule.version = 1 ∧ leadingNumber wideModule.version = 4294967297 ∧
    (parseVersion wideModule.version).toNat = 1 ∧
    (({} : Registry).registerModule 64 selfModule (moduleVersion selfModule)).2 = .ok ∧
    (({} : Registry).registerModule 64 selfModule (moduleVersion selfModule)).1.checkModule 64 wideModule
      (moduleVersion wideModule) = .layoutConflict ∧
    (({} : Registry).checkModule 64 wideModule (moduleVersion wideModule)) = .ok := by
  decide

end Abix.Runtime.Registry

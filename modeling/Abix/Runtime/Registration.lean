import Abix.Runtime.Registry
import Mathlib.Data.List.Induction
import Mathlib.Data.List.Nodup

/-! Registering modules: a module that passes the check is entered as a whole, and what every
sequence of registrations leaves in the two tables. -/
namespace Abix.Runtime.Registry
open Abix.Model Abix.Metadata
variable {capacity : Nat} {r : Registry} {version : UInt32} {row : TypeRow} {rows : List TypeRow} {module : ModuleDescriptor}

def isNew (r : Registry) (version : UInt32) (row : TypeRow) : Bool := (r.findType row.type.typeId version).isNone

/-- The registry with one more entry; the canonical registry keeps the first layout of a type. -/
def enter (version : UInt32) (r : Registry) (row : TypeRow) : Registry where
  entries := r.entries ++ [entryOf version row]
  canonical :=
    if (r.canonical.findById row.type.typeId).isSome then r.canonical
    else r.canonical ++ [⟨row.canonicalType, row.canonicalLayout, 0⟩]

theorem findType_eq_none {id : TypeId} : r.findType id version = none ↔
    ∀ e ∈ r.entries, ¬ (e.descriptor.typeId = id ∧ e.version = version) := by
  simp [findType]

theorem findType_isSome {id : TypeId} : (r.findType id version).isSome = true ↔
    ∃ e ∈ r.entries, e.descriptor.typeId = id ∧ e.version = version := by
  simp [findType, List.find?_isSome]

theorem of_findType {id : TypeId} {e : RegistryEntry} (h : r.findType id version = some e) :
    e ∈ r.entries ∧ e.descriptor.typeId = id ∧ e.version = version := by
  have hmatch := List.find?_some h
  exact ⟨List.mem_of_find?_eq_some h, of_decide_eq_true hmatch⟩

theorem isNew_iff :
    isNew r version row = true ↔ ∀ e ∈ r.entries, ¬ (e.descriptor.typeId = row.type.typeId ∧ e.version = version) := by
  rw [isNew, Option.isNone_iff_eq_none, findType_eq_none]

/-- Entering another type does not make a type less new. -/
theorem isNew_enter {row' : TypeRow} (hne : row.type.typeId ≠ row'.type.typeId) :
    isNew (enter version r row) version row' = isNew r version row' := by
  rw [Bool.eq_iff_iff, isNew_iff, isNew_iff]
  simp [enter, entryOf, or_imp, forall_and, hne]

structure Checked (r : Registry) (version : UInt32) (earlier : List TypeId) (rows : List TypeRow) (n : Nat) : Prop where
  apart : ∀ row ∈ rows, row.type.typeId ∉ earlier
  distinct : (rows.map fun row => row.type.typeId).Nodup
  layout : ∀ row ∈ rows, validLayout row.type = true
  agrees : ∀ row ∈ rows, ∀ e, r.findType row.type.typeId version = some e →
    sameLayout (some e.layout) (some row.canonicalLayout) = true
  count : n = (rows.filter (isNew r version)).length

private theorem checked_of_checkTypes {earlier : List TypeId} {n : Nat} (h : r.checkTypes version earlier rows = .ok n) :
    Checked r version earlier rows n := by
  induction rows generalizing earlier n with
  | nil =>
    cases h
    exact ⟨nofun, List.nodup_nil, nofun, nofun, rfl⟩
  | cons row rows ih =>
    rw [checkTypes] at h
    split at h
    · cases h
    rename_i hearlier
    split at h
    · cases h
    rename_i hlayout
    have hcons (m : Nat) (hc : Checked r version (row.type.typeId :: earlier) rows m)
        (hagree : ∀ e, r.findType row.type.typeId version = some e →
          sameLayout (some e.layout) (some row.canonicalLayout) = true)
        (hn : n = if isNew r version row then m + 1 else m) : Checked r version earlier (row :: rows) n := by
      refine ⟨?_, ?_, ?_, ?_, ?_⟩
      · exact List.forall_mem_cons.mpr ⟨hearlier, fun x hx hm => hc.apart x hx (List.mem_cons_of_mem _ hm)⟩
      · refine List.nodup_cons.mpr ⟨fun hm => ?_, hc.distinct⟩
        obtain ⟨x, hx, he⟩ := List.mem_map.mp hm
        exact hc.apart x hx (he ▸ List.mem_cons_self)
      · exact List.forall_mem_cons.mpr ⟨by simpa using hlayout, hc.layout⟩
      · exact List.forall_mem_cons.mpr ⟨hagree, hc.agrees⟩
      · rw [hn, List.filter_cons, hc.count]
        split <;> rfl
    split at h
    · rename_i existing hfind
      split at h
      · rename_i hsame
        refine hcons n (ih h) (fun e he => ?_) (by simp [isNew, hfind])
        rw [hfind] at he
        cases he
        exact hsame
      · cases h
    · rename_i hfind
      cases hrest : r.checkTypes version (row.type.typeId :: earlier) rows with
      | error status =>
        rw [hrest] at h
        cases h
      | ok m =>
        rw [hrest] at h
        cases h
        exact hcons m (ih hrest) (fun e he => nomatch hfind.symm.trans he) (by simp [isNew, hfind])

private theorem checkTypes_ne_ok {earlier : List TypeId} {status : RegisterStatus}
    (h : r.checkTypes version earlier rows = .error status) : status ≠ .ok := by
  induction rows generalizing earlier with
  | nil => cases h
  | cons row rows ih =>
    rw [checkTypes] at h
    split at h
    · cases h
      exact nofun
    split at h
    · cases h
      exact nofun
    split at h
    · split at h
      · exact ih h
      · cases h
        exact nofun
    · cases hrest : r.checkTypes version (row.type.typeId :: earlier) rows with
      | error status' =>
        rw [hrest] at h
        cases h
        exact ih hrest
      | ok m =>
        rw [hrest] at h
        cases h

/-- A type that passed both checks is a valid canonical descriptor. -/
theorem validDescriptor_of_valid (h : row.valid = true) (hl : validLayout row.type = true) :
    validDescriptor (some row.canonicalType) (some row.canonicalLayout) = true := by
  simp only [TypeRow.valid, decide_eq_true_eq] at h
  obtain ⟨hid, hsize, halign, -, hnz, hsz, haz, -, -⟩ := h
  simp only [validLayout, decide_eq_true_eq] at hl
  rw [validDescriptor, if_neg (hid ▸ hnz), if_neg (by rw [← hsize, ← halign]; exact not_or.mpr ⟨hsz, haz⟩), ← halign]
  exact hl.1

/-- A turn of the loop enters a new type and passes over one that is there. -/
theorem registerTurn_eq (hv : row.valid = true) (hl : validLayout row.type = true)
    (hroom : isNew r version row = true → r.entries.length < capacity)
    (hcanonical : r.canonical.length ≤ r.entries.length) :
    registerTurn capacity version r row = (if isNew r version row then enter version r row else r, none) := by
  cases hfind : r.findType row.type.typeId version with
  | some e => simp [registerTurn, isNew, hfind]
  | none =>
    have hnew : isNew r version row = true := by simp [isNew, hfind]
    have hlt := hroom hnew
    have hne : r.entries.length ≠ capacity := Nat.ne_of_lt hlt
    rw [if_pos hnew]
    cases hc : r.canonical.findById row.type.typeId with
    | some e => simp [registerTurn, hfind, hc, append, enter, hne]
    | none =>
      have hid : row.canonicalType.id = row.type.typeId := by
        simp only [TypeRow.valid, decide_eq_true_eq] at hv
        exact hv.1.symm
      have hreg : r.canonical.registerType capacity (some row.canonicalType) (some row.canonicalLayout) 0 =
          (r.canonical ++ [⟨row.canonicalType, row.canonicalLayout, 0⟩], .ok) := by
        have hcne : r.canonical.length ≠ capacity := by omega
        simp [Metadata.Registry.registerType, validDescriptor_of_valid hv hl, hid, hc, hcne]
      simp [registerTurn, hfind, hc, hreg, append, enter, hne]

theorem enter_canonical_length (hcanonical : r.canonical.length ≤ r.entries.length) :
    (enter version r row).canonical.length ≤ (enter version r row).entries.length := by
  simp only [enter, List.length_append, List.length_singleton]
  split
  · omega
  · simp only [List.length_append, List.length_singleton]
    omega

/-- The loop enters the new types in order, and returns from no turn. -/
theorem registerTypes_eq (hd : (rows.map fun row => row.type.typeId).Nodup)
    (hv : ∀ row ∈ rows, row.valid = true ∧ validLayout row.type = true)
    (hroom : r.entries.length + (rows.filter (isNew r version)).length ≤ capacity)
    (hcanonical : r.canonical.length ≤ r.entries.length) :
    r.registerTypes capacity version rows = ((rows.filter (isNew r version)).foldl (enter version) r, .ok) := by
  induction rows generalizing r with
  | nil => rfl
  | cons row rows ih =>
    obtain ⟨hapart, hd⟩ := List.nodup_cons.mp hd
    obtain ⟨⟨hrow, hlayout⟩, hv⟩ := List.forall_mem_cons.mp hv
    rw [List.filter_cons] at hroom
    rw [registerTypes, registerTurn_eq hrow hlayout (fun hnew => ?_) hcanonical, List.filter_cons]
    · by_cases hnew : isNew r version row = true
      · have hrest : rows.filter (isNew (enter version r row) version) = rows.filter (isNew r version) := by
          refine List.filter_congr fun row' hmem => isNew_enter fun he => hapart ?_
          exact List.mem_map.mpr ⟨row', hmem, he.symm⟩
        rw [if_pos hnew] at hroom
        simp only [if_pos hnew, List.foldl_cons]
        rw [ih hd hv ?_ (enter_canonical_length hcanonical), hrest]
        rw [hrest]
        simp only [List.length_cons] at hroom
        simp only [enter, List.length_append, List.length_singleton]
        omega
      · rw [if_neg hnew] at hroom
        simp only [if_neg hnew]
        exact ih hd hv hroom hcanonical
    · rw [if_pos hnew, List.length_cons] at hroom
      omega

theorem foldl_enter_entries (rows : List TypeRow) (r : Registry) :
    (rows.foldl (enter version) r).entries = r.entries ++ rows.map (entryOf version) := by
  induction rows generalizing r with
  | nil => simp
  | cons row rows ih =>
    rw [List.foldl_cons, ih]
    simp [enter]

def Best (entries : List RegistryEntry) (id : TypeId) (best : Option RegistryEntry) : Prop :=
  match best with
  | none => ∀ e ∈ entries, e.descriptor.typeId ≠ id
  | some b => b ∈ entries ∧ b.descriptor.typeId = id ∧ ∀ e ∈ entries, e.descriptor.typeId = id → e.version ≤ b.version

private theorem best_newer {entries : List RegistryEntry} {id : TypeId} {best : Option RegistryEntry} (h : Best entries id best)
    (e : RegistryEntry) : Best (entries ++ [e]) id (newer id best e) := by
  unfold newer
  split
  · rename_i hne
    cases best with
    | none => exact List.forall_mem_append.mpr ⟨h, by simpa using hne⟩
    | some b =>
      obtain ⟨hb, hid, hmax⟩ := h
      exact ⟨List.mem_append_left _ hb, hid, List.forall_mem_append.mpr ⟨hmax, by simp [hne]⟩⟩
  · rename_i heq
    have heq := not_not.mp heq
    cases best with
    | none =>
      refine ⟨by simp, heq, List.forall_mem_append.mpr ⟨fun x hx hid => absurd hid (h x hx), ?_⟩⟩
      simp
    | some b =>
      obtain ⟨hb, hid, hmax⟩ := h
      dsimp only
      split
      · rename_i hle
        refine ⟨by simp, heq, List.forall_mem_append.mpr ⟨fun x hx hid => UInt32.le_trans (hmax x hx hid) hle, ?_⟩⟩
        simp
      · rename_i hgt
        refine ⟨List.mem_append_left _ hb, hid, List.forall_mem_append.mpr ⟨hmax, ?_⟩⟩
        simpa using fun _ => UInt32.le_of_lt (UInt32.not_le.mp hgt)

theorem best_findById (r : Registry) (id : TypeId) : Best r.entries id (r.findById id) := by
  rw [findById]
  induction r.entries using List.reverseRecOn with
  | nil => exact nofun
  | append_singleton entries e ih =>
    rw [List.foldl_append]
    exact best_newer ih e

theorem findById_isSome {id : TypeId} : (r.findById id).isSome = true ↔ ∃ e ∈ r.entries, e.descriptor.typeId = id := by
  have hbest := best_findById r id
  cases hf : r.findById id with
  | none =>
    rw [hf] at hbest
    simpa [Best] using hbest
  | some b =>
    rw [hf] at hbest
    exact ⟨fun _ => ⟨b, hbest.1, hbest.2.1⟩, fun _ => rfl⟩

theorem canonical_findById_isSome {canonical : Metadata.Registry} {id : TypeId} :
    (canonical.findById id).isSome = true ↔ ∃ e ∈ canonical, e.desc.id = id := by
  simp [Metadata.Registry.findById, List.find?_isSome]

theorem entryStatus_eq_none {e : RegistryEntry} : r.entryStatus e = none ↔
    (r.canonical.findById e.descriptor.typeId).isSome = true ∧ e.canonical.id = e.descriptor.typeId ∧
      e.descriptor.layoutHash = e.layout.layoutHash ∧ e.descriptor.size = e.layout.size ∧
      e.descriptor.align = e.layout.align := by
  simp only [entryStatus, ← Option.not_isSome_iff_eq_none, Option.isNone_iff_eq_none]
  grind

/-- The registry as a whole: it fits, it is consistent with the canonical registry, and what its
types refer to is there. -/
structure Sound (capacity : Nat) (r : Registry) : Prop where
  room : r.entries.length ≤ capacity
  canonical : r.canonical.length ≤ r.entries.length
  unique : (r.entries.map fun e => (e.descriptor.typeId, e.version)).Nodup
  consistent : ∀ e ∈ r.entries, r.entryStatus e = none
  resolvable : ∀ e ∈ r.entries, ∀ field ∈ e.descriptor.fields.items, (r.findById field.typeId).isSome = true

structure Passed (capacity : Nat) (r : Registry) (module : ModuleDescriptor) (version : UInt32) : Prop where
  valid : ∀ row ∈ module.rows, row.valid = true
  checked : ∃ n, Checked r version [] module.rows n
  room : (module.rows.filter (isNew r version)).length ≤ capacity - r.entries.length
  known : ∀ row ∈ module.rows, ∀ field ∈ row.type.fields.items, r.knownType module field.typeId = true

theorem passed_of_checkModule (h : r.checkModule capacity module version = .ok) : Passed capacity r module version := by
  unfold checkModule at h
  split at h
  · cases h
  rename_i hvalid
  have hrows : ∀ row ∈ module.rows, row.valid = true := by
    simp only [Metadata.valid, decide_eq_true_eq, not_not] at hvalid
    exact hvalid.2.2.2.2.2.2.2.1
  cases hc : r.checkTypes version [] module.rows with
  | error status =>
    rw [hc] at h
    exact absurd h (checkTypes_ne_ok hc)
  | ok n =>
    rw [hc] at h
    have hchecked := checked_of_checkTypes hc
    dsimp only at h
    split at h
    · cases h
    rename_i hroom
    split at h
    · cases h
    rename_i hknown
    exact ⟨hrows, ⟨n, hchecked⟩, hchecked.count ▸ Nat.not_lt.mp hroom, not_not.mp hknown⟩

/-- A passed check makes the registration go through. -/
theorem registerModule_of_passed (hp : Passed capacity r module version) (hs : Sound capacity r)
    (h : r.checkModule capacity module version = .ok) :
    r.registerModule capacity module version = ((module.rows.filter (isNew r version)).foldl (enter version) r, .ok) := by
  obtain ⟨n, hc⟩ := hp.checked
  rw [registerModule, if_neg (not_not.mpr h)]
  have hroom := hp.room
  have hfull := hs.room
  exact registerTypes_eq hc.distinct (fun row hrow => ⟨hp.valid row hrow, hc.layout row hrow⟩) (by omega) hs.canonical

theorem foldl_enter_canonical_length (rows : List TypeRow) (hcanonical : r.canonical.length ≤ r.entries.length) :
    (rows.foldl (enter version) r).canonical.length ≤ (rows.foldl (enter version) r).entries.length := by
  induction rows generalizing r with
  | nil => exact hcanonical
  | cons row rows ih => exact ih (enter_canonical_length hcanonical)

private theorem enter_canonical_of_isSome {id : TypeId} (h : (r.canonical.findById id).isSome = true) :
    ((enter version r row).canonical.findById id).isSome = true := by
  rw [canonical_findById_isSome] at h ⊢
  obtain ⟨e, he, hid⟩ := h
  refine ⟨e, ?_, hid⟩
  simp only [enter]
  split
  · exact he
  · exact List.mem_append_left _ he

private theorem enter_canonical_self (h : row.valid = true) :
    ((enter version r row).canonical.findById row.type.typeId).isSome = true := by
  simp only [TypeRow.valid, decide_eq_true_eq] at h
  simp only [enter]
  split
  · assumption
  · exact canonical_findById_isSome.mpr ⟨_, List.mem_append_right _ List.mem_cons_self, h.1.symm⟩

theorem foldl_enter_canonical (r : Registry) (hv : ∀ row ∈ rows, row.valid = true) {id : TypeId}
    (h : (r.canonical.findById id).isSome = true ∨ ∃ row ∈ rows, row.type.typeId = id) :
    ((rows.foldl (enter version) r).canonical.findById id).isSome = true := by
  induction rows generalizing r with
  | nil => exact h.resolve_right fun ⟨_, hrow, _⟩ => absurd hrow List.not_mem_nil
  | cons row rows ih =>
    obtain ⟨hrow, hv⟩ := List.forall_mem_cons.mp hv
    refine ih (enter version r row) hv ?_
    rcases h with hold | ⟨row', hmem, rfl⟩
    · exact .inl (enter_canonical_of_isSome hold)
    · rcases List.mem_cons.mp hmem with rfl | hmem
      · exact .inl (enter_canonical_self hrow)
      · exact .inr ⟨row', hmem, rfl⟩

/-- Every type of the module is there afterwards, in the layout of the module. -/
theorem present_of_checked {n : Nat} (hc : Checked r version [] rows n) (hrow : row ∈ rows) :
    ∃ e ∈ ((rows.filter (isNew r version)).foldl (enter version) r).entries, e.descriptor.typeId = row.type.typeId ∧
      e.version = version ∧ sameLayout (some e.layout) (some row.canonicalLayout) = true := by
  rw [foldl_enter_entries]
  cases hfind : r.findType row.type.typeId version with
  | none =>
    have hnew : isNew r version row = true := by simp [isNew, hfind]
    refine ⟨entryOf version row, ?_, rfl, rfl, by simp [entryOf, sameLayout]⟩
    exact List.mem_append_right _ (List.mem_map_of_mem (List.mem_filter.mpr ⟨hrow, hnew⟩))
  | some e =>
    obtain ⟨hmem, hid, hversion⟩ := of_findType hfind
    exact ⟨e, List.mem_append_left _ hmem, hid, hversion, hc.agrees row hrow e hfind⟩

private theorem sound_of_passed (hp : Passed capacity r module version) (hs : Sound capacity r) :
    Sound capacity ((module.rows.filter (isNew r version)).foldl (enter version) r) := by
  obtain ⟨n, hc⟩ := hp.checked
  have hentries : ((module.rows.filter (isNew r version)).foldl (enter version) r).entries =
      r.entries ++ (module.rows.filter (isNew r version)).map (entryOf version) := foldl_enter_entries _ r
  have hsub : (module.rows.filter (isNew r version)).Sublist module.rows := List.filter_sublist
  have hkeep (id : TypeId) (h : (r.findById id).isSome = true) :
      (((module.rows.filter (isNew r version)).foldl (enter version) r).findById id).isSome = true := by
    rw [findById_isSome] at h ⊢
    obtain ⟨e, he, hid⟩ := h
    exact ⟨e, hentries ▸ List.mem_append_left _ he, hid⟩
  constructor
  case room =>
    have hroom := hp.room
    have hfull := hs.room
    rw [hentries, List.length_append, List.length_map]
    omega
  case canonical => exact foldl_enter_canonical_length _ hs.canonical
  case unique =>
    rw [hentries, List.map_append, List.map_map, List.nodup_append]
    refine ⟨hs.unique, ?_, ?_⟩
    · have hids := (hsub.map fun row => row.type.typeId).nodup hc.distinct
      exact List.Nodup.of_map Prod.fst (by simpa [Function.comp_def, entryOf] using hids)
    · intro x hx y hy hxy
      obtain ⟨e, he, rfl⟩ := List.mem_map.mp hx
      obtain ⟨row, hrow, rfl⟩ := List.mem_map.mp hy
      exact isNew_iff.mp (List.mem_filter.mp hrow).2 e he (Prod.mk.injEq _ _ _ _ ▸ hxy)
  case consistent =>
    rw [hentries]
    refine List.forall_mem_append.mpr ⟨fun e he => ?_, fun e he => ?_⟩
    · obtain ⟨hcanonical, hrest⟩ := entryStatus_eq_none.mp (hs.consistent e he)
      refine entryStatus_eq_none.mpr ⟨?_, hrest⟩
      exact foldl_enter_canonical r (fun row hrow => hp.valid row (hsub.mem hrow)) (.inl hcanonical)
    · obtain ⟨row, hrow, rfl⟩ := List.mem_map.mp he
      have hvalid := hp.valid row (hsub.mem hrow)
      simp only [TypeRow.valid, decide_eq_true_eq] at hvalid
      refine entryStatus_eq_none.mpr ⟨?_, hvalid.1.symm, hvalid.2.2.2.1, hvalid.2.1, hvalid.2.2.1⟩
      exact foldl_enter_canonical r (fun row hrow => hp.valid row (hsub.mem hrow)) (.inr ⟨row, hrow, rfl⟩)
  case resolvable =>
    rw [hentries]
    refine List.forall_mem_append.mpr ⟨fun e he field hf => hkeep _ (hs.resolvable e he field hf), fun e he field hf => ?_⟩
    obtain ⟨row, hrow, rfl⟩ := List.mem_map.mp he
    have hknown := hp.known row (hsub.mem hrow) field hf
    rcases of_decide_eq_true hknown with ⟨row', hrow', hid⟩ | hold
    · obtain ⟨e', he', hid', -, -⟩ := present_of_checked hc hrow'
      exact findById_isSome.mpr ⟨e', he', hid'.trans hid⟩
    · exact hkeep _ hold

private theorem isNew_foldl_enter {row' : TypeRow} (h : ∀ row ∈ rows, row.type.typeId ≠ row'.type.typeId) :
    isNew (rows.foldl (enter version) r) version row' = isNew r version row' := by
  induction rows generalizing r with
  | nil => rfl
  | cons row rows ih =>
    obtain ⟨hne, h⟩ := List.forall_mem_cons.mp h
    exact (ih h).trans (isNew_enter hne)

/-- No turn of the loop ends it, and none leaves a new type out. -/
theorem registerTurn_of_passed {before after : List TypeRow} (hp : Passed capacity r module version)
    (hs : Sound capacity r) (hrows : module.rows = before ++ row :: after) :
    registerTurn capacity version (r.registerTypes capacity version before).1 row =
      (if isNew r version row then enter version (r.registerTypes capacity version before).1 row
        else (r.registerTypes capacity version before).1, none) := by
  obtain ⟨n, hc⟩ := hp.checked
  have hvalid (x : TypeRow) (hx : x ∈ module.rows) : x.valid = true ∧ validLayout x.type = true :=
    ⟨hp.valid x hx, hc.layout x hx⟩
  have hdistinct := hc.distinct
  have hroom := hp.room
  have hfull := hs.room
  rw [hrows] at hvalid hdistinct hroom
  rw [List.filter_append, List.filter_cons, List.length_append] at hroom
  rw [List.map_append, List.nodup_append] at hdistinct
  have hstate : r.registerTypes capacity version before =
      ((before.filter (isNew r version)).foldl (enter version) r, .ok) :=
    registerTypes_eq hdistinct.1 (fun x hx => hvalid x (List.mem_append_left _ hx)) (by omega) hs.canonical
  have hnew : isNew ((before.filter (isNew r version)).foldl (enter version) r) version row = isNew r version row := by
    refine isNew_foldl_enter fun x hx he => ?_
    exact hdistinct.2.2 _ (List.mem_map_of_mem (List.mem_filter.mp hx).1) _ List.mem_cons_self he
  obtain ⟨hrow, hlayout⟩ := hvalid row (List.mem_append_right _ List.mem_cons_self)
  rw [hstate, registerTurn_eq hrow hlayout (fun hn => ?_) (foldl_enter_canonical_length _ hs.canonical), hnew]
  rw [if_pos (hnew ▸ hn), List.length_cons] at hroom
  rw [foldl_enter_entries, List.length_append, List.length_map]
  omega

/-- The registries that registrations lead to, with the modules that were accepted. -/
inductive Reached (capacity : Nat) : Registry → List (ModuleDescriptor × UInt32) → Prop
  | init : Reached capacity {} []
  | step {r accepted} (module : ModuleDescriptor) (version : UInt32) : Reached capacity r accepted →
      Reached capacity (r.registerModule capacity module version).1
        (if (r.registerModule capacity module version).2 = .ok then (module, version) :: accepted else accepted)

def Present (r : Registry) (accepted : List (ModuleDescriptor × UInt32)) : Prop :=
  ∀ m ∈ accepted, ∀ row ∈ m.1.rows, ∃ e ∈ r.entries, e.descriptor.typeId = row.type.typeId ∧ e.version = m.2 ∧
    sameLayout (some e.layout) (some row.canonicalLayout) = true

/-- A module that fails the check leaves everything as it was. -/
theorem registerModule_refused (h : r.checkModule capacity module version ≠ .ok) :
    r.registerModule capacity module version = (r, r.checkModule capacity module version) := if_pos h

theorem sound_of_reached {accepted : List (ModuleDescriptor × UInt32)} (h : Reached capacity r accepted) :
    Sound capacity r ∧ Present r accepted := by
  induction h with
  | init =>
    refine ⟨⟨Nat.zero_le _, Nat.le_refl _, List.nodup_nil, nofun, nofun⟩, fun m hm => absurd hm List.not_mem_nil⟩
  | @step r accepted module version _ ih =>
    obtain ⟨hs, hpresent⟩ := ih
    by_cases hc : r.checkModule capacity module version = .ok
    · have hp := passed_of_checkModule hc
      rw [registerModule_of_passed hp hs hc, if_pos rfl]
      refine ⟨sound_of_passed hp hs, List.forall_mem_cons.mpr ⟨fun row hrow => ?_, fun m hm row hrow => ?_⟩⟩
      · obtain ⟨n, hchecked⟩ := hp.checked
        exact present_of_checked hchecked hrow
      · obtain ⟨e, he, hrest⟩ := hpresent m hm row hrow
        exact ⟨e, foldl_enter_entries _ r ▸ List.mem_append_left _ he, hrest⟩
    · rw [registerModule_refused hc, if_neg hc]
      exact ⟨hs, hpresent⟩

/-- For every reachable registry and every module: the registration answers what the check
answers; if that is not ok nothing changes; if it is ok, the loop goes on after each turn, having
entered the type if it was new, so that the entries grow by the new types in order and every type
of the module is there. -/
theorem registration_is_atomic {accepted : List (ModuleDescriptor × UInt32)} (h : Reached capacity r accepted)
    (module : ModuleDescriptor) (version : UInt32) :
    (r.registerModule capacity module version).2 = r.checkModule capacity module version ∧
    (r.checkModule capacity module version ≠ .ok → (r.registerModule capacity module version).1 = r) ∧
    (r.checkModule capacity module version = .ok →
      (∀ before row after, module.rows = before ++ row :: after →
        registerTurn capacity version (r.registerTypes capacity version before).1 row =
          (if isNew r version row then enter version (r.registerTypes capacity version before).1 row
            else (r.registerTypes capacity version before).1, none)) ∧
      (r.registerModule capacity module version).1.entries =
        r.entries ++ (module.rows.filter (isNew r version)).map (entryOf version) ∧
      ∀ row ∈ module.rows,
        ((r.registerModule capacity module version).1.findType row.type.typeId version).isSome = true) := by
  obtain ⟨hs, -⟩ := sound_of_reached h
  by_cases hc : r.checkModule capacity module version = .ok
  · have hp := passed_of_checkModule hc
    obtain ⟨n, hchecked⟩ := hp.checked
    rw [registerModule_of_passed hp hs hc]
    refine ⟨hc.symm, fun hne => absurd hc hne, fun _ => ⟨fun before row after hrows => ?_, foldl_enter_entries _ _,
      fun row hrow => ?_⟩⟩
    · exact registerTurn_of_passed hp hs hrows
    · obtain ⟨e, he, hid, hversion, -⟩ := present_of_checked hchecked hrow
      exact findType_isSome.mpr ⟨e, he, hid, hversion⟩
  · rw [registerModule_refused hc]
    exact ⟨rfl, fun _ => rfl, fun hok => absurd hok hc⟩

/-- After any registrations: one entry for a type and a version, a consistent registry, every
type known to the canonical registry, every field type found, the lookups answer with the newest
and with the exact entry, and accepted modules of one version agree on the layouts they share. -/
theorem reachable_registry {accepted : List (ModuleDescriptor × UInt32)} (h : Reached capacity r accepted) :
    (r.entries.map fun e => (e.descriptor.typeId, e.version)).Nodup ∧
    r.validate = .ok ∧
    (∀ e ∈ r.entries, (r.canonical.findById e.descriptor.typeId).isSome = true) ∧
    (∀ e ∈ r.entries, ∀ field ∈ e.descriptor.fields.items, (r.findById field.typeId).isSome = true) ∧
    (∀ id, Best r.entries id (r.findById id)) ∧
    (∀ id version, match r.findType id version with
      | some e => e ∈ r.entries ∧ e.descriptor.typeId = id ∧ e.version = version
      | none => ∀ e ∈ r.entries, ¬ (e.descriptor.typeId = id ∧ e.version = version)) ∧
    ∀ m ∈ accepted, ∀ m' ∈ accepted, m.2 = m'.2 → ∀ row ∈ m.1.rows, ∀ row' ∈ m'.1.rows,
      row.type.typeId = row'.type.typeId →
        row.canonicalLayout.size = row'.canonicalLayout.size ∧ row.canonicalLayout.align = row'.canonicalLayout.align ∧
          row.canonicalLayout.layoutHash = row'.canonicalLayout.layoutHash := by
  obtain ⟨hs, hpresent⟩ := sound_of_reached h
  refine ⟨hs.unique, ?_, fun e he => (entryStatus_eq_none.mp (hs.consistent e he)).1, hs.resolvable, best_findById r,
    fun id version => ?_, fun m hm m' hm' hversion row hrow row' hrow' hid => ?_⟩
  · rw [validate, List.findSome?_eq_none_iff.mpr hs.consistent]
    rfl
  · split
    · exact of_findType ‹_›
    · exact findType_eq_none.mp ‹_›
  · obtain ⟨e, he, heid, hev, hsame⟩ := hpresent m hm row hrow
    obtain ⟨e', he', heid', hev', hsame'⟩ := hpresent m' hm' row' hrow'
    obtain rfl : e = e' := List.inj_on_of_nodup_map hs.unique he he' (by simp [heid, heid', hev, hev', hid, hversion])
    simp only [sameLayout, decide_eq_true_eq] at hsame hsame'
    exact ⟨hsame.1.symm.trans hsame'.1, hsame.2.1.symm.trans hsame'.2.1, hsame.2.2.symm.trans hsame'.2.2⟩

def selfModule : ModuleDescriptor where
  name := some []
  version := some [49]
  types := .ofList [⟨.ofList [⟨⟨1, 0⟩, 0⟩] (by decide), ⟨1, 0⟩, ⟨7, 0⟩, 8, 8⟩] (by decide)
  canonicalTypes := .ofList [⟨⟨1, 0⟩⟩] (by decide)
  canonicalLayouts := .ofList [⟨8, 8, ⟨7, 0⟩⟩] (by decide)
  functions := ⟨0, none, nofun⟩
  symbols := ⟨0, none, nofun⟩
  canonicalTypes_count := rfl
  canonicalLayouts_count := rfl

/-- A module that shares that type and has one more, whose field is of it. -/
def widerModule : ModuleDescriptor where
  name := some []
  version := some [49]
  types := .ofList [⟨.ofList [⟨⟨1, 0⟩, 0⟩] (by decide), ⟨1, 0⟩, ⟨7, 0⟩, 8, 8⟩,
    ⟨.ofList [⟨⟨1, 0⟩, 4⟩] (by decide), ⟨2, 0⟩, ⟨9, 0⟩, 16, 8⟩] (by decide)
  canonicalTypes := .ofList [⟨⟨1, 0⟩⟩, ⟨⟨2, 0⟩⟩] (by decide)
  canonicalLayouts := .ofList [⟨8, 8, ⟨7, 0⟩⟩, ⟨16, 8, ⟨9, 0⟩⟩] (by decide)
  functions := ⟨0, none, nofun⟩
  symbols := ⟨0, none, nofun⟩
  canonicalTypes_count := rfl
  canonicalLayouts_count := rfl

private def twoVersions : Registry :=
  ((({} : Registry).registerModule 64 selfModule 1).1.registerModule 64 selfModule 2).1

private theorem reached_twoVersions : Reached 64 twoVersions [(selfModule, 2), (selfModule, 1)] := by
  have hfirst : (({} : Registry).registerModule 64 selfModule 1).2 = .ok := by decide
  have hsecond : ((({} : Registry).registerModule 64 selfModule 1).1.registerModule 64 selfModule 2).2 = .ok := by decide
  have h := Reached.step selfModule 2 (Reached.step selfModule 1 (.init : Reached 64 {} []))
  rwa [if_pos hsecond, if_pos hfirst] at h

/-- Of the two types of the other module one is registered in version 1 already, and one is entered. -/
theorem registration_is_atomic_shared : twoVersions.checkModule 64 widerModule 1 = .ok ∧
    (twoVersions.registerModule 64 widerModule 1).1.entries =
      twoVersions.entries ++ (widerModule.rows.filter (isNew twoVersions 1)).map (entryOf 1) ∧
    ((widerModule.rows.filter (isNew twoVersions 1)).map fun row => row.type.typeId) = [⟨2, 0⟩] := by
  have hok : twoVersions.checkModule 64 widerModule 1 = .ok := by decide
  obtain ⟨-, -, haccepted⟩ := registration_is_atomic reached_twoVersions widerModule 1
  exact ⟨hok, (haccepted hok).2.1, by decide⟩

theorem reachable_registry_shared :
    ((twoVersions.registerModule 64 widerModule 1).1.entries.map fun e => (e.descriptor.typeId, e.version)) =
        [(⟨1, 0⟩, 1), (⟨1, 0⟩, 2), (⟨2, 0⟩, 1)] ∧
      (twoVersions.registerModule 64 widerModule 1).1.validate = .ok ∧
      Best (twoVersions.registerModule 64 widerModule 1).1.entries ⟨1, 0⟩
        ((twoVersions.registerModule 64 widerModule 1).1.findById ⟨1, 0⟩) := by
  have hall := reachable_registry (.step widerModule 1 reached_twoVersions)
  exact ⟨by decide, hall.2.1, hall.2.2.2.2.1 ⟨1, 0⟩⟩

end Abix.Runtime.Registry

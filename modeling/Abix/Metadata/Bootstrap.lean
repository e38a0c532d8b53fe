import Abix.Metadata.Registry
import Abix.Model.Bootstrap
import Mathlib.Data.Finset.Card
import Mathlib.Data.List.Nodup

/-! Bootstrapping the compact registry: what its consumer does with the records of an image, and
when they are all registered afterwards. -/
namespace Abix.Metadata
open Abix.Model

/-- Null pointers are `none`. -/
structure Bootstrap where
  desc : Option TypeDesc
  layout : Option TypeLayout

namespace Registry

/-- One turn of the loop of `consume_bootstrap`, which does not look at the status. -/
def consumeRecord (capacity : Nat) (registry : Registry) (record : BootRecord Bootstrap) : Registry :=
  match record.metadata with
  | none => registry
  | some metadata => (registry.registerType capacity metadata.desc metadata.layout record.typeHash).1

def consumeBootstrap (capacity : Nat) (records : List (BootRecord Bootstrap)) (registry : Registry) : Registry :=
  records.foldl (consumeRecord capacity) registry

def entryDesc : TypeDesc := ⟨0x524547454e545259, 0x1⟩

/-- The size and the alignment of `RegistryEntry` with pointers of eight bytes. -/
def entryLayout : TypeLayout := ⟨24, 8, ⟨0x1, 0x1⟩⟩

def metadataDesc : TypeDesc := ⟨0x424f4f5453545241, 0x1⟩

def metadataLayout : TypeLayout := ⟨16, 8, ⟨0x2, 0x1⟩⟩

def selfRecords : List (BootRecord Bootstrap) :=
  [⟨0x524547454e545259, 24, 8, some ⟨some entryDesc, some entryLayout⟩⟩,
    ⟨0x424f4f5453545241, 16, 8, some ⟨some metadataDesc, some metadataLayout⟩⟩]

def selfImage (capacity : Nat) : BootImage Bootstrap Registry :=
  ⟨.ofList selfRecords (by decide), bootstrapFormatVersion, bootstrapLittleEndian, some (consumeBootstrap capacity)⟩

def bootstrapSelf (capacity : Nat) (registry : Registry) : Registry × BootStatus :=
  abixBootstrap (selfImage capacity) registry

inductive Reached (capacity : Nat) : Registry → Prop
  | init : Reached capacity []
  | registerType {registry} (desc : Option TypeDesc) (layout : Option TypeLayout) (bootstrapHash : UInt64) :
      Reached capacity registry → Reached capacity (registry.registerType capacity desc layout bootstrapHash).1

def described (record : BootRecord Bootstrap) : Option (TypeDesc × TypeLayout) :=
  record.metadata.bind fun metadata => metadata.desc.bind fun desc => metadata.layout.map fun layout => (desc, layout)

/-- The type of the record is found, in the layout of its metadata. -/
def Resolves (registry : Registry) (record : BootRecord Bootstrap) : Prop :=
  ∃ t ∈ described record, ∃ e ∈ registry.findById t.1.id,
    e.layout.size = t.2.size ∧ e.layout.align = t.2.align ∧ e.layout.layoutHash = t.2.layoutHash

def newIds (registry : Registry) (records : List (BootRecord Bootstrap)) : Finset TypeId :=
  ((records.filterMap described).map fun t => t.1.id).toFinset.filter fun id => registry.findById id = none

/-- The condition: every record describes a valid type in the layout that is registered for it, if
one is, the records of one type agree, and there is room for the new types. -/
structure Fits (capacity : Nat) (registry : Registry) (records : List (BootRecord Bootstrap)) : Prop where
  valid : ∀ record ∈ records, ∃ t ∈ described record, validDescriptor (some t.1) (some t.2) = true
  known : ∀ t ∈ records.filterMap described, ∀ e ∈ registry.findById t.1.id,
    sameLayout (some e.layout) (some t.2) = true
  agree : ∀ t ∈ records.filterMap described, ∀ t' ∈ records.filterMap described, t.1.id = t'.1.id →
    sameLayout (some t.2) (some t'.2) = true
  room : registry.length + (newIds registry records).card ≤ capacity

structure Promoted (capacity : Nat) (registry : Registry) (image : BootImage Bootstrap Registry) : Prop where
  registers : (abixBootstrap image registry).2 = .ok →
    ∀ record ∈ image.records.items, Resolves (abixBootstrap image registry).1 record
  refused : (abixBootstrap image registry).2 ≠ .ok → (abixBootstrap image registry).1 = registry
  again : bootstrapSelf capacity (bootstrapSelf capacity registry).1 = ((bootstrapSelf capacity registry).1, .ok)

variable {capacity : Nat} {registry : Registry} {record : BootRecord Bootstrap} {records : List (BootRecord Bootstrap)}
  {t : TypeDesc × TypeLayout} {e : RegistryEntry} {id : TypeId}

theorem sameLayout_iff {l l' : TypeLayout} : sameLayout (some l) (some l') = true ↔
    l.size = l'.size ∧ l.align = l'.align ∧ l.layoutHash = l'.layoutHash := decide_eq_true_iff

theorem of_findById (h : registry.findById id = some e) : e ∈ registry ∧ e.desc.id = id :=
  ⟨List.mem_of_find?_eq_some h, by simpa using List.find?_some h⟩

/-- A type that is found is found with the same entry later on. -/
theorem findById_append (h : registry.findById id = some e) (added : Registry) :
    findById (registry ++ added) id = some e := by
  rw [findById, List.find?_append]
  exact Option.or_eq_some_iff.mpr (.inl h)

/-- What is found there describes a type in a layout that could be registered. -/
theorem validDescriptor_congr {d : TypeDesc} {l : TypeLayout} (hid : e.desc.id = d.id)
    (hsame : sameLayout (some e.layout) (some l) = true) :
    validDescriptor (some e.desc) (some e.layout) = validDescriptor (some d) (some l) := by
  obtain ⟨hsize, halign, -⟩ := sameLayout_iff.mp hsame
  simp only [validDescriptor, hid, hsize, halign]

/-- Every call leaves the registry alone or adds one valid entry of a new type. -/
theorem registerType_cases (capacity : Nat) (registry : Registry) (desc : Option TypeDesc) (layout : Option TypeLayout)
    (bootstrapHash : UInt64) :
    (registry.registerType capacity desc layout bootstrapHash).1 = registry ∨
      ∃ d l, validDescriptor (some d) (some l) = true ∧ registry.findById d.id = none ∧ registry.length ≠ capacity ∧
        (registry.registerType capacity desc layout bootstrapHash).1 = registry ++ [⟨d, l, bootstrapHash⟩] := by
  cases desc with
  | none => exact .inl rfl
  | some d =>
    cases layout with
    | none => exact .inl rfl
    | some l =>
      simp only [registerType]
      split
      · exact .inl rfl
      rename_i hvalid
      split
      · exact .inl rfl
      rename_i hnew
      split
      · exact .inl rfl
      rename_i hroom
      exact .inr ⟨d, l, not_not.mp hvalid, hnew, hroom, rfl⟩

/-- What every reachable registry is: no larger than its capacity, valid, and with one entry for a type. -/
structure Sound (capacity : Nat) (registry : Registry) : Prop where
  room : registry.length ≤ capacity
  valid : ∀ e ∈ registry, validDescriptor (some e.desc) (some e.layout) = true
  distinct : (registry.map fun e => e.desc.id).Nodup

theorem Sound.registerType (h : Sound capacity registry) (desc : Option TypeDesc) (layout : Option TypeLayout)
    (bootstrapHash : UInt64) : Sound capacity (registry.registerType capacity desc layout bootstrapHash).1 := by
  rcases registerType_cases capacity registry desc layout bootstrapHash with
    hsame | ⟨d, l, hvalid, hnew, hroom, hadded⟩
  · rwa [hsame]
  · rw [hadded]
    refine ⟨?_, ?_, ?_⟩
    · rw [List.length_append, List.length_singleton]
      exact Nat.lt_of_le_of_ne h.room hroom
    · exact List.forall_mem_append.mpr ⟨h.valid, by simpa using hvalid⟩
    · rw [List.map_append, List.nodup_append]
      refine ⟨h.distinct, List.nodup_singleton _, ?_⟩
      rintro _ hmem _ hid rfl
      obtain ⟨e, he, heq⟩ := List.mem_map.mp hmem
      have hnone := List.find?_eq_none.mp hnew e he
      rw [List.mem_singleton.mp hid] at heq
      exact hnone (decide_eq_true heq)

theorem sound_of_reached (h : Reached capacity registry) : Sound capacity registry := by
  induction h with
  | init => exact ⟨Nat.zero_le _, fun _ he => absurd he List.not_mem_nil, List.nodup_nil⟩
  | registerType desc layout bootstrapHash _ ih => exact ih.registerType desc layout bootstrapHash

/-- The record cannot be registered any more: its type is there, or invalid, or the registry is full. -/
def Settled (capacity : Nat) (registry : Registry) (record : BootRecord Bootstrap) : Prop :=
  ∀ t ∈ described record, validDescriptor (some t.1) (some t.2) = true →
    (registry.findById t.1.id).isSome = true ∨ registry.length = capacity

theorem consumeRecord_of_none (h : described record = none) : consumeRecord capacity registry record = registry := by
  unfold consumeRecord
  split
  · rfl
  · rename_i metadata hmetadata
    obtain ⟨desc, layout⟩ := metadata
    cases desc with
    | none => rfl
    | some d =>
      cases layout with
      | none => rfl
      | some l => simp [described, hmetadata] at h

theorem consumeRecord_of_some (h : described record = some t) : consumeRecord capacity registry record =
    (registry.registerType capacity (some t.1) (some t.2) record.typeHash).1 := by
  simp only [described, Option.bind_eq_some_iff, Option.map_eq_some_iff] at h
  obtain ⟨⟨desc, layout⟩, hmetadata, d, hdesc, l, hlayout, rfl⟩ := h
  obtain rfl : desc = some d := hdesc
  obtain rfl : layout = some l := hlayout
  rw [consumeRecord, hmetadata]

/-- A record is settled and changes nothing, or its type is new and enters. -/
theorem consumeRecord_cases (capacity : Nat) (registry : Registry) (record : BootRecord Bootstrap) :
    (Settled capacity registry record ∧ consumeRecord capacity registry record = registry) ∨
      ∃ t ∈ described record, validDescriptor (some t.1) (some t.2) = true ∧ registry.findById t.1.id = none ∧
        registry.length ≠ capacity ∧
        consumeRecord capacity registry record = registry ++ [⟨t.1, t.2, record.typeHash⟩] := by
  cases hdescribed : described record with
  | none => exact .inl ⟨fun t ht => absurd (hdescribed.symm.trans ht) nofun, consumeRecord_of_none hdescribed⟩
  | some t =>
    rw [consumeRecord_of_some hdescribed]
    simp only [registerType]
    have hsettled (h : validDescriptor (some t.1) (some t.2) = true →
        (registry.findById t.1.id).isSome = true ∨ registry.length = capacity) : Settled capacity registry record := by
      intro t' ht'
      obtain rfl := Option.some.inj (hdescribed.symm.trans ht')
      exact h
    split
    · rename_i hinvalid
      exact .inl ⟨hsettled fun hvalid => absurd hvalid hinvalid, rfl⟩
    rename_i hvalid
    split
    · rename_i hfound
      exact .inl ⟨hsettled fun _ => .inl (by rw [hfound]; rfl), rfl⟩
    rename_i hnew
    split
    · rename_i hfull
      exact .inl ⟨hsettled fun _ => .inr hfull, rfl⟩
    rename_i hroom
    exact .inr ⟨t, rfl, not_not.mp hvalid, hnew, hroom, rfl⟩

private theorem consumeRecord_of_settled (h : Settled capacity registry record) :
    consumeRecord capacity registry record = registry := by
  rcases consumeRecord_cases capacity registry record with ⟨-, hsame⟩ | ⟨t, ht, hvalid, hnew, hroom, -⟩
  · exact hsame
  · rcases h t ht hvalid with hfound | hfull
    · rw [hnew] at hfound
      cases hfound
    · exact absurd hfull hroom

private theorem settled_consumeRecord : Settled capacity (consumeRecord capacity registry record) record := by
  rcases consumeRecord_cases capacity registry record with ⟨hsettled, hsame⟩ | ⟨t, ht, -, -, -, hadded⟩
  · rwa [hsame]
  · intro t' ht' _
    obtain rfl := Option.some.inj (ht.symm.trans ht')
    rw [hadded]
    exact .inl (List.find?_isSome.mpr ⟨_, List.mem_append_right _ List.mem_cons_self, decide_eq_true rfl⟩)

/-- A record that is settled stays settled: types stay registered, and a full registry full. -/
theorem Settled.consumeRecord (h : Settled capacity registry record) (record' : BootRecord Bootstrap) :
    Settled capacity (consumeRecord capacity registry record') record := by
  rcases consumeRecord_cases capacity registry record' with ⟨-, hsame⟩ | ⟨t, -, -, -, hroom, hadded⟩
  · rwa [hsame]
  · intro t' ht' hvalid
    rcases h t' ht' hvalid with hfound | hfull
    · obtain ⟨e, he⟩ := Option.isSome_iff_exists.mp hfound
      rw [hadded, findById_append he]
      exact .inl rfl
    · exact absurd hfull hroom

theorem Settled.consumeBootstrap (h : Settled capacity registry record) (records : List (BootRecord Bootstrap)) :
    Settled capacity (consumeBootstrap capacity records registry) record := by
  induction records generalizing registry with
  | nil => exact h
  | cons record' records ih => exact ih (h.consumeRecord record')

private theorem settled_consumeBootstrap (h : record ∈ records) :
    Settled capacity (consumeBootstrap capacity records registry) record := by
  induction records generalizing registry with
  | nil => cases h
  | cons record' records ih =>
    rcases List.mem_cons.mp h with rfl | h
    · exact settled_consumeRecord.consumeBootstrap records
    · exact ih h

private theorem consumeBootstrap_of_settled (h : ∀ record ∈ records, Settled capacity registry record) :
    consumeBootstrap capacity records registry = registry := by
  induction records with
  | nil => rfl
  | cons record records ih =>
    obtain ⟨hrecord, hrest⟩ := List.forall_mem_cons.mp h
    rw [consumeBootstrap, List.foldl_cons, consumeRecord_of_settled hrecord]
    exact ih hrest

/-- Consuming the same records again changes nothing, whatever became of them the first time. -/
theorem consumeBootstrap_again (capacity : Nat) (records : List (BootRecord Bootstrap)) (registry : Registry) :
    consumeBootstrap capacity records (consumeBootstrap capacity records registry) =
      consumeBootstrap capacity records registry :=
  consumeBootstrap_of_settled fun _ => settled_consumeBootstrap

/-- A bootstrap leads to registries that calls lead to. -/
theorem Reached.consumeBootstrap (h : Reached capacity registry) (records : List (BootRecord Bootstrap)) :
    Reached capacity (consumeBootstrap capacity records registry) := by
  induction records generalizing registry with
  | nil => exact h
  | cons record records ih =>
    refine ih ?_
    cases hdescribed : described record with
    | none => rwa [consumeRecord_of_none hdescribed]
    | some t =>
      rw [consumeRecord_of_some hdescribed]
      exact h.registerType _ _ _

theorem consumeBootstrap_prefix (capacity : Nat) (records : List (BootRecord Bootstrap)) (registry : Registry) :
    ∃ added, consumeBootstrap capacity records registry = registry ++ added := by
  induction records generalizing registry with
  | nil => exact ⟨[], (List.append_nil registry).symm⟩
  | cons record records ih =>
    obtain ⟨added, hadded⟩ := ih (consumeRecord capacity registry record)
    rcases consumeRecord_cases capacity registry record with ⟨-, hsame⟩ | ⟨t, -, -, -, -, hone⟩
    · rw [hsame] at hadded
      exact ⟨added, by rwa [consumeBootstrap, List.foldl_cons, hsame]⟩
    · rw [hone, List.append_assoc] at hadded
      exact ⟨_, by rwa [consumeBootstrap, List.foldl_cons, hone]⟩

theorem mem_newIds : id ∈ newIds registry records ↔
    (∃ t ∈ records.filterMap described, t.1.id = id) ∧ registry.findById id = none := by
  simp only [newIds, Finset.mem_filter, List.mem_toFinset, List.mem_map]

theorem mem_described_self (ht : t ∈ described record) : t ∈ (record :: records).filterMap described :=
  List.mem_filterMap.mpr ⟨record, List.mem_cons_self, ht⟩

theorem mem_described_cons (ht : t ∈ records.filterMap described) : t ∈ (record :: records).filterMap described := by
  obtain ⟨r, hr, hdescribed⟩ := List.mem_filterMap.mp ht
  exact List.mem_filterMap.mpr ⟨r, List.mem_cons_of_mem _ hr, hdescribed⟩

private theorem newIds_subset_cons : newIds registry records ⊆ newIds registry (record :: records) := by
  intro id hid
  obtain ⟨⟨t, ht, heq⟩, hnone⟩ := mem_newIds.mp hid
  exact mem_newIds.mpr ⟨⟨t, mem_described_cons ht, heq⟩, hnone⟩

private theorem newIds_append_subset (d : TypeDesc) (l : TypeLayout) (bootstrapHash : UInt64) :
    newIds (registry ++ [⟨d, l, bootstrapHash⟩]) records ⊆ (newIds registry (record :: records)).erase d.id := by
  intro id hid
  obtain ⟨⟨t, ht, rfl⟩, hnone⟩ := mem_newIds.mp hid
  rw [findById, List.find?_append, Option.or_eq_none_iff] at hnone
  have hne : t.1.id ≠ d.id := fun heq => by simp [heq] at hnone
  exact Finset.mem_erase.mpr ⟨hne, mem_newIds.mpr ⟨⟨t, mem_described_cons ht, rfl⟩, hnone.1⟩⟩

/-- A full registry has no room for new types, so none of these is new. -/
theorem Fits.not_new_of_full (h : Fits capacity registry records) (hfull : registry.length = capacity)
    (ht : t ∈ records.filterMap described) : registry.findById t.1.id ≠ none := by
  have hroom := h.room
  have hcard : (newIds registry records).card = 0 := by omega
  intro hnone
  have hin := mem_newIds.mpr ⟨⟨t, ht, rfl⟩, hnone⟩
  rw [Finset.card_eq_zero.mp hcard] at hin
  exact Finset.notMem_empty t.1.id hin

theorem Resolves.consumeBootstrap (h : Resolves registry record) (records : List (BootRecord Bootstrap)) :
    Resolves (consumeBootstrap capacity records registry) record := by
  obtain ⟨added, hadded⟩ := consumeBootstrap_prefix capacity records registry
  obtain ⟨t, ht, e, he, hsame⟩ := h
  exact ⟨t, ht, e, hadded ▸ findById_append he added, hsame⟩

/-- The first record resolves once it is consumed. -/
theorem Fits.resolves (h : Fits capacity registry (record :: records)) :
    Resolves (consumeRecord capacity registry record) record := by
  obtain ⟨t, ht, hvalid⟩ := h.valid record List.mem_cons_self
  have hmem : t ∈ (record :: records).filterMap described := mem_described_self ht
  rcases consumeRecord_cases capacity registry record with ⟨hsettled, hsame⟩ | ⟨t', ht', -, hnew, -, hadded⟩
  · have hfind : registry.findById t.1.id ≠ none := by
      rcases hsettled t ht hvalid with hfound | hfull
      · exact Option.ne_none_iff_isSome.mpr hfound
      · exact h.not_new_of_full hfull hmem
    obtain ⟨e, he⟩ := Option.ne_none_iff_exists'.mp hfind
    rw [hsame]
    exact ⟨t, ht, e, he, sameLayout_iff.mp (h.known t hmem e he)⟩
  · obtain rfl := Option.some.inj (ht.symm.trans ht')
    refine ⟨t, ht, ⟨t.1, t.2, record.typeHash⟩, ?_, rfl, rfl, rfl⟩
    rw [hadded, findById, List.find?_append, Option.mem_def]
    exact Option.or_eq_some_iff.mpr (.inr ⟨hnew, by simp⟩)

/-- What is left of the records fits what is left of the room. -/
theorem Fits.rest (h : Fits capacity registry (record :: records)) :
    Fits capacity (consumeRecord capacity registry record) records := by
  have hvalid : ∀ r ∈ records, ∃ t ∈ described r, validDescriptor (some t.1) (some t.2) = true := fun r hr =>
    h.valid r (List.mem_cons_of_mem _ hr)
  have hagree : ∀ t ∈ records.filterMap described, ∀ t' ∈ records.filterMap described, t.1.id = t'.1.id →
      sameLayout (some t.2) (some t'.2) = true := fun t ht t' ht' =>
    h.agree t (mem_described_cons ht) t' (mem_described_cons ht')
  rcases consumeRecord_cases capacity registry record with ⟨-, hsame⟩ | ⟨t, ht, -, hnew, hroom, hadded⟩
  · rw [hsame]
    refine ⟨hvalid, fun t ht => h.known t (mem_described_cons ht), hagree, ?_⟩
    have hle : (newIds registry records).card ≤ (newIds registry (record :: records)).card :=
      Finset.card_le_card newIds_subset_cons
    exact (Nat.add_le_add_left hle _).trans h.room
  · have hmem : t ∈ (record :: records).filterMap described := mem_described_self ht
    rw [hadded]
    refine ⟨hvalid, fun t' ht' e he => ?_, hagree, ?_⟩
    · rw [findById, List.find?_append, Option.mem_def, Option.or_eq_some_iff] at he
      rcases he with hold | ⟨-, hone⟩
      · exact h.known t' (mem_described_cons ht') e hold
      · obtain ⟨hid, rfl⟩ : t.1.id = t'.1.id ∧ ⟨t.1, t.2, record.typeHash⟩ = e := by simpa using hone
        exact h.agree t hmem t' (mem_described_cons ht') hid
    · have hin : t.1.id ∈ newIds registry (record :: records) := mem_newIds.mpr ⟨⟨t, hmem, rfl⟩, hnew⟩
      have hle : (newIds (registry ++ [⟨t.1, t.2, record.typeHash⟩]) records).card ≤
          ((newIds registry (record :: records)).erase t.1.id).card :=
        Finset.card_le_card (newIds_append_subset t.1 t.2 record.typeHash)
      have hpos := Finset.card_pos.mpr ⟨_, hin⟩
      have htotal := h.room
      rw [Finset.card_erase_of_mem hin] at hle
      rw [List.length_append, List.length_singleton]
      omega

private theorem resolves_of_fits (h : Fits capacity registry records) :
    ∀ record ∈ records, Resolves (consumeBootstrap capacity records registry) record := by
  induction records generalizing registry with
  | nil => exact fun _ hr => absurd hr List.not_mem_nil
  | cons record records ih => exact List.forall_mem_cons.mpr ⟨h.resolves.consumeBootstrap records, ih h.rest⟩

/-- Records that all resolve afterwards fitted before. -/
theorem fits_of_resolves (h : Reached capacity registry)
    (hall : ∀ record ∈ records, Resolves (consumeBootstrap capacity records registry) record) :
    Fits capacity registry records := by
  have hs := sound_of_reached (h.consumeBootstrap records)
  obtain ⟨added, hadded⟩ := consumeBootstrap_prefix capacity records registry
  have hfound (t : TypeDesc × TypeLayout) (ht : t ∈ records.filterMap described) :
      ∃ e ∈ findById (registry ++ added) t.1.id, sameLayout (some e.layout) (some t.2) = true := by
    obtain ⟨r, hr, hdescribed⟩ := List.mem_filterMap.mp ht
    obtain ⟨t', ht', e, he, hsame⟩ := hall r hr
    obtain rfl := Option.some.inj (hdescribed.symm.trans ht')
    exact ⟨e, hadded ▸ he, sameLayout_iff.mpr hsame⟩
  rw [hadded] at hs
  refine ⟨fun r hr => ?_, fun t ht e he => ?_, fun t ht t' ht' hid => ?_, ?_⟩
  · obtain ⟨t, ht, -⟩ := hall r hr
    obtain ⟨e, he, hsame⟩ := hfound t (List.mem_filterMap.mpr ⟨r, hr, ht⟩)
    obtain ⟨hmem, hid⟩ := of_findById he
    exact ⟨t, ht, validDescriptor_congr hid hsame ▸ hs.valid e hmem⟩
  · obtain ⟨e', he', hsame⟩ := hfound t ht
    obtain rfl := Option.some.inj ((findById_append he added).symm.trans he')
    exact hsame
  · obtain ⟨e, he, hsame⟩ := hfound t ht
    obtain ⟨e', he', hsame'⟩ := hfound t' ht'
    rw [← hid] at he'
    obtain rfl := Option.some.inj (he.symm.trans he')
    obtain ⟨hsize, halign, hhash⟩ := sameLayout_iff.mp hsame
    obtain ⟨hsize', halign', hhash'⟩ := sameLayout_iff.mp hsame'
    exact sameLayout_iff.mpr ⟨hsize.symm.trans hsize', halign.symm.trans halign', hhash.symm.trans hhash'⟩
  · have hle : newIds registry records ⊆ (added.map fun e => e.desc.id).toFinset := fun id hid => by
      obtain ⟨⟨t, ht, rfl⟩, hnone⟩ := mem_newIds.mp hid
      obtain ⟨e, he, -⟩ := hfound t ht
      obtain ⟨hmem, heq⟩ := of_findById he
      rcases List.mem_append.mp hmem with hold | hnew
      · exact absurd (decide_eq_true heq) (List.find?_eq_none.mp hnone e hold)
      · exact List.mem_toFinset.mpr (List.mem_map.mpr ⟨e, hnew, heq⟩)
    have hroom := hs.room
    have hcard := (Finset.card_le_card hle).trans (List.toFinset_card_le _)
    rw [List.length_map] at hcard
    rw [List.length_append] at hroom
    omega

private theorem accepted_selfImage (capacity : Nat) : (selfImage capacity).Accepted := by
  have hvalid : ∀ record ∈ selfRecords, validRecord record = true := by decide
  exact ⟨rfl, rfl, rfl, hvalid⟩

theorem bootstrapSelf_eq (capacity : Nat) (registry : Registry) :
    bootstrapSelf capacity registry = (consumeBootstrap capacity selfRecords registry, .ok) :=
  abixBootstrap_of_accepted rfl (accepted_selfImage capacity)

/-- For every reachable registry and every image that its consumer gets: the bootstrap keeps what is
promised unless it accepts records that do not fit, whose status nobody looks at. -/
theorem bootstrap_promotes_iff (h : Reached capacity registry) {image : BootImage Bootstrap Registry}
    (hconsume : image.consume = some (consumeBootstrap capacity)) :
    Promoted capacity registry image ↔ (image.Accepted → Fits capacity registry image.records.items) := by
  constructor
  · intro hpromoted haccepted
    have hall := hpromoted.registers ((abixBootstrap_ok_iff hconsume).mpr haccepted)
    rw [abixBootstrap_of_accepted hconsume haccepted] at hall
    exact fits_of_resolves h hall
  · intro hfits
    refine ⟨fun hok => ?_, fun hrefused => ?_, ?_⟩
    · have haccepted := (abixBootstrap_ok_iff hconsume).mp hok
      rw [abixBootstrap_of_accepted hconsume haccepted]
      exact resolves_of_fits (hfits haccepted)
    · refine (abixBootstrap_of_not_accepted fun haccepted => hrefused ?_).1
      exact (abixBootstrap_ok_iff hconsume).mpr haccepted
    · rw [bootstrapSelf_eq, bootstrapSelf_eq, consumeBootstrap_again]

theorem bootstrap_promotes_iff_self : Promoted 4 [] (selfImage 4) :=
  (bootstrap_promotes_iff .init rfl).mpr fun _ => ⟨by decide, by decide, by decide, by decide⟩

/-- With room for one type the registry bootstraps itself, and does not have the second one. -/
theorem bootstrap_drops_record : (bootstrapSelf 1 []).2 = .ok ∧
    findById (bootstrapSelf 1 []).1 metadataDesc.id = none ∧ ¬ Promoted 1 [] (selfImage 1) := by
  refine ⟨by decide, by decide, fun h => ?_⟩
  obtain ⟨t, ht, e, he, -⟩ := h.registers (by decide) _ (List.mem_cons_of_mem _ List.mem_cons_self)
  obtain rfl := Option.some.inj ht
  have hnone : findById (abixBootstrap (selfImage 1) []).1 metadataDesc.id = none := by decide
  cases hnone.symm.trans he

end Registry

end Abix.Metadata

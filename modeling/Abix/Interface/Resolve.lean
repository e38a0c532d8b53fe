import Abix.Interface.BoundSlots

/-! The registry over any sequence of additions, and what resolving an interface against it leaves
in a handle that may have been used before. -/
namespace Abix.Interface
open Abix.Blocks Abix.Model
variable {Obj : Type}

/-- A resolved handle, which keeps the signatures beside the entries. A null object is `none`. -/
structure InterfaceRef (Obj : Type) where
  object : Option Obj := none
  interfaceId : InterfaceId := .zero
  version : UInt32 := 0
  methodCount : UInt32 := 0
  entries : Nat → UInt64 := fun _ => 0
  signatures : Nat → InterfaceMethodHash := fun _ => .zero

namespace InterfaceRef

def reset (_ref : InterfaceRef Obj) : InterfaceRef Obj := {}

/-- No signature is checked here. -/
def resolveMethods (maxMethods : Nat) (ref : InterfaceRef Obj) (interfaceId : InterfaceId) (version : UInt32)
    (methods : Counted InterfaceMethod) (object : Option Obj) : InterfaceRef Obj × InterfaceStatus :=
  let ref := ref.reset
  if object = none ∨ methods.isDangling then (ref, .invalidTable)
  else
    match highestSlot maxMethods methods.items 0 with
    | none => (ref, .methodCapacityExceeded)
    | some highest =>
      let entries := writeAll InterfaceMethod.cell InterfaceMethod.entry methods.items ref.entries
      let signatures := writeAll InterfaceMethod.cell InterfaceMethod.signature methods.items ref.signatures
      ({ object, interfaceId, version, methodCount := highest, entries, signatures }, .ok)

def resolve (maxMethods : Nat) (ref : InterfaceRef Obj) (registry : InterfaceRegistry) (object : Option Obj)
    (concreteType : TypeId) (interfaceId : InterfaceId) (version : UInt32) : InterfaceRef Obj × InterfaceStatus :=
  if object = none then (ref.reset, .invalidTable)
  else
    match registry.find concreteType interfaceId version with
    | none =>
      if (registry.available concreteType interfaceId).isSome then (ref.reset, .versionMismatch)
      else (ref.reset, .interfaceNotFound)
    | some impl => ref.resolveMethods maxMethods impl.interfaceId impl.version impl.methods object

def method (ref : InterfaceRef Obj) (slot : UInt32) : UInt64 :=
  if ref.methodCount ≤ slot ∨ ref.entries slot.toNat = 0 then 0 else ref.entries slot.toNat

def bound (ref : InterfaceRef Obj) (slot : UInt32) : Bool := slot < ref.methodCount ∧ ref.entries slot.toNat ≠ 0

def valid (ref : InterfaceRef Obj) : Bool := ref.object.isSome

def signature (ref : InterfaceRef Obj) (slot : UInt32) : InterfaceMethodHash :=
  if slot < ref.methodCount then ref.signatures slot.toNat else .zero

end InterfaceRef

namespace InterfaceRegistry
variable {registry : InterfaceRegistry} {impl : InterfaceImplementation} {concreteType : TypeId}
  {interfaceId : InterfaceId} {version : UInt32}

/-- Any sequence of additions to an empty registry, those that fail included. -/
def addAll (capacity : Nat) (impls : List InterfaceImplementation) : InterfaceRegistry :=
  impls.foldl (fun registry impl => (registry.add capacity impl).1) []

def key (impl : InterfaceImplementation) : TypeId × InterfaceId × UInt32 :=
  (impl.concreteType, impl.interfaceId, impl.version)

/-- The entry provides the interface for the type, in whatever version. -/
def Implements (impl : InterfaceImplementation) (concreteType : TypeId) (interfaceId : InterfaceId) : Prop :=
  impl.concreteType = concreteType ∧ impl.interfaceId = interfaceId

/-- A requested version is met by that version, and version zero by any. -/
def Meets (impl : InterfaceImplementation) (version : UInt32) : Prop := version = 0 ∨ impl.version = version

structure WellFormed (registry : InterfaceRegistry) : Prop where
  nodup : (registry.map key).Nodup
  readable : ∀ impl ∈ registry, impl.methods.isDangling = false

theorem add_cases (capacity : Nat) (registry : InterfaceRegistry) (impl : InterfaceImplementation) :
    (impl.methods.isDangling = false ∧ registry.findExact impl.concreteType impl.interfaceId impl.version = none ∧
      registry.length ≠ capacity ∧ registry.add capacity impl = (registry ++ [impl], .ok)) ∨
    ∃ status, status ≠ .ok ∧ registry.add capacity impl = (registry, status) := by
  simp only [add]
  split
  · exact .inr ⟨.invalidTable, nofun, rfl⟩
  · rename_i hvalid
    obtain ⟨-, hvalid⟩ := not_or.mp hvalid
    obtain ⟨-, hreadable⟩ := not_or.mp hvalid
    split
    · exact .inr ⟨.duplicateImplementation, nofun, rfl⟩
    · rename_i hfresh
      split
      · exact .inr ⟨.capacityExceeded, nofun, rfl⟩
      · rename_i hroom
        exact .inl ⟨by simpa using hreadable, by simpa using hfresh, hroom, rfl⟩

theorem findExact_eq_some (h : registry.findExact concreteType interfaceId version = some impl) :
    impl ∈ registry ∧ Implements impl concreteType interfaceId ∧ impl.version = version := by
  have hkey := List.find?_some h
  simp only [decide_eq_true_eq] at hkey
  exact ⟨List.mem_of_find?_eq_some h, ⟨hkey.1, hkey.2.1⟩, hkey.2.2⟩

theorem findExact_eq_none : registry.findExact concreteType interfaceId version = none ↔
    ∀ impl ∈ registry, Implements impl concreteType interfaceId → impl.version ≠ version := by
  simp [findExact, Implements]

theorem WellFormed.add {capacity : Nat} (h : registry.WellFormed) (impl : InterfaceImplementation) :
    (registry.add capacity impl).1.WellFormed := by
  rcases registry.add_cases capacity impl with ⟨hreadable, hfresh, -, hadd⟩ | ⟨status, -, hadd⟩
  · rw [hadd]
    constructor
    · rw [List.map_append, List.nodup_append]
      refine ⟨h.nodup, List.nodup_singleton _, ?_⟩
      rintro _ hmem _ hlast rfl
      obtain ⟨other, hother, hkey⟩ := List.mem_map.mp hmem
      obtain rfl := List.mem_singleton.mp hlast
      simp only [key, Prod.mk.injEq] at hkey
      exact findExact_eq_none.mp hfresh other hother ⟨hkey.1, hkey.2.1⟩ hkey.2.2
    · intro other hother
      rcases List.mem_append.mp hother with hother | hother
      · exact h.readable other hother
      · exact List.mem_singleton.mp hother ▸ hreadable
  · rwa [hadd]

theorem wellFormed_addAll (capacity : Nat) (impls : List InterfaceImplementation) :
    (addAll capacity impls).WellFormed := by
  induction impls using List.reverseRecOn with
  | nil => exact ⟨List.nodup_nil, nofun⟩
  | append_singleton impls impl ih =>
    rw [addAll, List.foldl_append]
    exact ih.add impl

private theorem findNewest_concat (registry : InterfaceRegistry) (entry : InterfaceImplementation) (concreteType : TypeId)
    (interfaceId : InterfaceId) :
    findNewest (registry ++ [entry]) concreteType interfaceId =
      newer concreteType interfaceId (registry.findNewest concreteType interfaceId) entry := by
  simp [findNewest]

def IsNewest (registry : InterfaceRegistry) (concreteType : TypeId) (interfaceId : InterfaceId) :
    Option InterfaceImplementation → Prop
  | none => ∀ impl ∈ registry, ¬ Implements impl concreteType interfaceId
  | some best => best ∈ registry ∧ Implements best concreteType interfaceId ∧
      ∀ impl ∈ registry, Implements impl concreteType interfaceId → impl.version ≤ best.version

/-- An entry that no other before it exceeds is the newest. -/
theorem isNewest_entry {entry : InterfaceImplementation} (hentry : Implements entry concreteType interfaceId)
    (hmax : ∀ impl ∈ registry, Implements impl concreteType interfaceId → impl.version ≤ entry.version) :
    IsNewest (registry ++ [entry]) concreteType interfaceId (some entry) := by
  refine ⟨by simp, hentry, fun impl himpl himplements => ?_⟩
  rcases List.mem_append.mp himpl with himpl | himpl
  · exact hmax impl himpl himplements
  · exact (List.mem_singleton.mp himpl) ▸ UInt32.le_refl _

private theorem isNewest_newer {best : Option InterfaceImplementation} (entry : InterfaceImplementation)
    (h : IsNewest registry concreteType interfaceId best) :
    IsNewest (registry ++ [entry]) concreteType interfaceId (newer concreteType interfaceId best entry) := by
  unfold newer
  by_cases hother : entry.concreteType ≠ concreteType ∨ entry.interfaceId ≠ interfaceId
  · have hskip : ¬ Implements entry concreteType interfaceId := by
      rintro ⟨htype, hid⟩
      rcases hother with hne | hne
      · exact hne htype
      · exact hne hid
    rw [if_pos hother]
    cases best with
    | none => simpa [IsNewest, hskip, or_imp, forall_and] using h
    | some b => simpa [IsNewest, hskip, or_imp, forall_and] using ⟨.inl h.1, h.2⟩
  · have hentry : Implements entry concreteType interfaceId := by
      obtain ⟨htype, hid⟩ := not_or.mp hother
      exact ⟨not_not.mp htype, not_not.mp hid⟩
    rw [if_neg hother]
    cases best with
    | none => exact isNewest_entry hentry fun impl himpl himplements => absurd himplements (h impl himpl)
    | some b =>
      obtain ⟨hmem, hb, hmax⟩ := h
      by_cases hle : b.version ≤ entry.version
      · simp only [hle, if_true]
        exact isNewest_entry hentry fun impl himpl himplements =>
          UInt32.le_trans (hmax impl himpl himplements) hle
      · simp only [hle, if_false]
        refine ⟨by simp [hmem], hb, fun impl himpl himplements => ?_⟩
        rcases List.mem_append.mp himpl with himpl | himpl
        · exact hmax impl himpl himplements
        · exact (List.mem_singleton.mp himpl) ▸ UInt32.le_of_lt (UInt32.not_le.mp hle)

theorem isNewest_findNewest (registry : InterfaceRegistry) (concreteType : TypeId) (interfaceId : InterfaceId) :
    IsNewest registry concreteType interfaceId (registry.findNewest concreteType interfaceId) := by
  induction registry using List.reverseRecOn with
  | nil => exact nofun
  | append_singleton registry entry ih =>
    rw [findNewest_concat]
    exact isNewest_newer entry ih

theorem available_isSome :
    (registry.available concreteType interfaceId).isSome ↔
      ∃ impl ∈ registry, Implements impl concreteType interfaceId := by
  have hnewest := isNewest_findNewest registry concreteType interfaceId
  rw [available, Option.isSome_map]
  cases hfound : registry.findNewest concreteType interfaceId with
  | none =>
    rw [hfound] at hnewest
    exact iff_of_false nofun fun ⟨impl, himpl, h⟩ => hnewest impl himpl h
  | some best =>
    rw [hfound] at hnewest
    exact iff_of_true rfl ⟨best, hnewest.1, hnewest.2.1⟩

/-- Nothing is found when no entry for the pair meets the requested version. -/
theorem find_eq_none : registry.find concreteType interfaceId version = none ↔
    ∀ impl ∈ registry, Implements impl concreteType interfaceId → ¬ Meets impl version := by
  rw [find]
  split
  · rename_i hversion
    have hnewest := isNewest_findNewest registry concreteType interfaceId
    cases hfound : registry.findNewest concreteType interfaceId with
    | none =>
      rw [hfound] at hnewest
      exact iff_of_true rfl fun impl himpl h => absurd h (hnewest impl himpl)
    | some best =>
      rw [hfound] at hnewest
      exact iff_of_false nofun fun h => h best hnewest.1 hnewest.2.1 (.inl hversion)
  · rename_i hversion
    rw [findExact_eq_none]
    simp [Meets, hversion]

theorem mem_of_find (h : registry.find concreteType interfaceId version = some impl) : impl ∈ registry := by
  rw [find] at h
  split at h
  · have hnewest := isNewest_findNewest registry concreteType interfaceId
    rw [h] at hnewest
    exact hnewest.1
  · exact (findExact_eq_some h).1

structure Answers (capacity : Nat) (registry : InterfaceRegistry) : Prop where
  unique : (registry.map key).Nodup
  refused : ∀ impl, (registry.add capacity impl).2 ≠ .ok → (registry.add capacity impl).1 = registry
  exact : ∀ concreteType interfaceId version, version ≠ 0 →
    match registry.find concreteType interfaceId version with
    | none => ∀ impl ∈ registry, key impl ≠ (concreteType, interfaceId, version)
    | some impl => impl ∈ registry ∧ key impl = (concreteType, interfaceId, version)
  newest : ∀ concreteType interfaceId,
    IsNewest registry concreteType interfaceId (registry.find concreteType interfaceId 0)

private theorem answers_addAll (capacity : Nat) (impls : List InterfaceImplementation) :
    Answers capacity (addAll capacity impls) where
  unique := (wellFormed_addAll capacity impls).nodup
  refused impl hstatus := by
    rcases add_cases capacity (addAll capacity impls) impl with ⟨-, -, -, hadd⟩ | ⟨status, -, hadd⟩
    · rw [hadd] at hstatus
      exact absurd rfl hstatus
    · rw [hadd]
  exact concreteType interfaceId version hversion := by
    rw [find, if_neg hversion]
    cases hfound : (addAll capacity impls).findExact concreteType interfaceId version with
    | none =>
      intro impl himpl hkey
      simp only [key, Prod.mk.injEq] at hkey
      exact findExact_eq_none.mp hfound impl himpl ⟨hkey.1, hkey.2.1⟩ hkey.2.2
    | some impl =>
      obtain ⟨hmem, ⟨htype, hid⟩, hsame⟩ := findExact_eq_some hfound
      exact ⟨hmem, by rw [key, htype, hid, hsame]⟩
  newest concreteType interfaceId := isNewest_findNewest _ concreteType interfaceId

/-- Why nothing was found: there is another version, or there is none at all. -/
def Explains (registry : InterfaceRegistry) (concreteType : TypeId) (interfaceId : InterfaceId) (version : UInt32)
    (status : InterfaceStatus) : Prop :=
  (status = .versionMismatch ↔ (∃ impl ∈ registry, Implements impl concreteType interfaceId) ∧
    ∀ impl ∈ registry, Implements impl concreteType interfaceId → ¬ Meets impl version) ∧
  (status = .interfaceNotFound ↔ ∀ impl ∈ registry, ¬ Implements impl concreteType interfaceId)

theorem explains_of_none {status : InterfaceStatus}
    (hfind : registry.find concreteType interfaceId version = none)
    (hstatus : status = if (registry.available concreteType interfaceId).isSome then .versionMismatch
      else .interfaceNotFound) :
    Explains registry concreteType interfaceId version status := by
  have hunmet := find_eq_none.mp hfind
  by_cases havailable : (registry.available concreteType interfaceId).isSome
  · obtain ⟨impl, himpl, h⟩ := available_isSome.mp havailable
    rw [if_pos havailable] at hstatus
    subst hstatus
    exact ⟨iff_of_true rfl ⟨⟨impl, himpl, h⟩, hunmet⟩, iff_of_false nofun fun hnone => hnone impl himpl h⟩
  · have hnone := mt available_isSome.mpr havailable
    rw [if_neg havailable] at hstatus
    subst hstatus
    exact ⟨iff_of_false nofun fun h => hnone h.1, iff_of_true rfl fun impl himpl h => hnone ⟨impl, himpl, h⟩⟩

theorem explains_of_some {status : InterfaceStatus}
    (hfind : registry.find concreteType interfaceId version = some impl)
    (hmismatch : status ≠ .versionMismatch) (hnotFound : status ≠ .interfaceNotFound) :
    Explains registry concreteType interfaceId version status := by
  have hmet : ¬ ∀ impl ∈ registry, Implements impl concreteType interfaceId → ¬ Meets impl version := by
    rw [← find_eq_none, hfind]
    nofun
  refine ⟨iff_of_false hmismatch fun h => hmet h.2, iff_of_false hnotFound fun h => hmet ?_⟩
  exact fun impl himpl himplements => absurd himplements (h impl himpl)

end InterfaceRegistry

/-- The count is one more than the highest slot, or zero without a method. -/
def Spans (methods : List InterfaceMethod) (count : UInt32) : Prop :=
  (∀ m ∈ methods, m.cell < count.toNat) ∧ (count ≠ 0 → ∃ m ∈ methods, m.cell + 1 = count.toNat)

/-- No slot is the last that 32 bits can name. -/
def Countable (methods : List InterfaceMethod) : Prop := ∀ m ∈ methods, m.cell + 1 < 2 ^ 32

private theorem highestSlot_spec {maxMethods : Nat} {methods : List InterfaceMethod} {highest count : UInt32}
    (h : highestSlot maxMethods methods highest = some count) (hcountable : Countable methods) :
    highest ≤ count ∧ (∀ m ∈ methods, m.cell < count.toNat) ∧
      (count = highest ∨ ∃ m ∈ methods, m.cell + 1 = count.toNat) := by
  induction methods generalizing highest with
  | nil =>
    obtain rfl := Option.some.inj h
    exact ⟨UInt32.le_refl _, nofun, .inl rfl⟩
  | cons m methods ih =>
    rw [highestSlot] at h
    split at h
    · cases h
    · obtain ⟨hle, hbelow, hreached⟩ := ih h fun m hm => hcountable m (List.mem_cons_of_mem _ hm)
      have hsucc : (m.slot + 1).toNat = m.cell + 1 := by
        have hm := hcountable m List.mem_cons_self
        rw [UInt32.toNat_add]
        exact Nat.mod_eq_of_lt hm
      have hcount : highest.toNat ≤ count.toNat ∧ m.cell + 1 ≤ count.toNat := by
        split at hle
        · rename_i hlt
          rw [UInt32.le_iff_toNat_le] at hle
          rw [UInt32.lt_iff_toNat_lt] at hlt
          omega
        · rename_i hnot
          rw [UInt32.le_iff_toNat_le] at hle
          rw [UInt32.not_lt, UInt32.le_iff_toNat_le] at hnot
          omega
      refine ⟨UInt32.le_iff_toNat_le.mpr hcount.1, ?_, ?_⟩
      · rintro other (_ | ⟨_, hother⟩)
        · exact hcount.2
        · exact hbelow other hother
      · rcases hreached with hsame | ⟨other, hother, hlast⟩
        · split at hsame
          · exact .inr ⟨m, List.mem_cons_self, by rw [hsame, hsucc]⟩
          · exact .inl hsame
        · exact .inr ⟨other, List.mem_cons_of_mem _ hother, hlast⟩

private theorem spans_of_countable {maxMethods : Nat} {methods : List InterfaceMethod} {count : UInt32}
    (h : highestSlot maxMethods methods 0 = some count) (hcountable : Countable methods) : Spans methods count := by
  obtain ⟨-, hbelow, hzero | hlast⟩ := highestSlot_spec h hcountable
  · exact ⟨hbelow, fun hne => absurd hzero hne⟩
  · exact ⟨hbelow, fun _ => hlast⟩

theorem Spans.countable {methods : List InterfaceMethod} {count : UInt32} (h : Spans methods count) :
    Countable methods := fun m hm => Nat.lt_of_le_of_lt (h.1 m hm) count.toNat_lt

/-- Slot by slot, the handle holds the entry and the signature of the last method declared for it. -/
def InterfaceRef.Holds (ref : InterfaceRef Obj) (methods : List InterfaceMethod) : Prop :=
  ∀ slot, ref.method slot = ((lastAt InterfaceMethod.cell methods slot.toNat).map InterfaceMethod.entry).getD 0 ∧
    ref.signature slot = ((lastAt InterfaceMethod.cell methods slot.toNat).map InterfaceMethod.signature).getD .zero

def InterfaceRef.Unbound (ref : InterfaceRef Obj) : Prop :=
  ref.valid = false ∧ ∀ slot, ref.bound slot = false ∧ ref.method slot = 0

def InterfaceSlotCache.Unbound (maxMethods : Nat) (cache : InterfaceSlotCache Obj) : Prop :=
  cache.valid = false ∧ ∀ slot, cache.bound maxMethods slot = false ∧ cache.method maxMethods slot = 0

section Resolve
variable {maxMethods : Nat} {ref : InterfaceRef Obj} {cache : InterfaceSlotCache Obj} {registry : InterfaceRegistry}
  {object : Option Obj} {o : Obj} {concreteType : TypeId} {interfaceId : InterfaceId} {version : UInt32}
  {methods : Counted InterfaceMethod} {contract : Signatures maxMethods}

private theorem InterfaceRef.holds_of_spans {object : Option Obj} {methods : List InterfaceMethod} {count : UInt32}
    (hspans : Spans methods count) :
    InterfaceRef.Holds
      { object, interfaceId, version, methodCount := count
        entries := writeAll InterfaceMethod.cell InterfaceMethod.entry methods fun _ => 0
        signatures := writeAll InterfaceMethod.cell InterfaceMethod.signature methods fun _ => .zero } methods := by
  intro slot
  simp only [method, signature, writeAll_apply]
  by_cases hslot : slot < count
  · constructor
    · have hread : ∀ e : UInt64, (if count ≤ slot ∨ e = 0 then 0 else e) = e := fun e => by
        by_cases he : e = 0 <;> simp [he, UInt32.not_le.mpr hslot]
      exact hread _
    · rw [if_pos hslot]
  · have hnone : lastAt InterfaceMethod.cell methods slot.toNat = none := by
      by_contra hsome
      obtain ⟨m, hm⟩ := Option.ne_none_iff_exists'.mp hsome
      obtain ⟨hmem, hcell⟩ := of_lastAt hm
      exact hslot (UInt32.lt_iff_toNat_lt.mpr (hcell ▸ hspans.1 m hmem))
    simp [hnone, hslot]

theorem InterfaceRef.unbound_empty : ({} : InterfaceRef Obj).Unbound :=
  ⟨rfl, fun slot => ⟨by simp [bound], by simp [method]⟩⟩

theorem InterfaceSlotCache.unbound_empty : ({} : InterfaceSlotCache Obj).Unbound maxMethods :=
  ⟨rfl, fun slot => ⟨by simp [bound], by simp [method]⟩⟩

/-- What `resolve_methods` leaves: every method at its slot, or nothing. -/
theorem InterfaceRef.resolveMethods_cases (maxMethods : Nat) (ref : InterfaceRef Obj) (interfaceId : InterfaceId)
    (version : UInt32) (methods : Counted InterfaceMethod) (object : Option Obj) :
    (∃ count, highestSlot maxMethods methods.items 0 = some count ∧
      ref.resolveMethods maxMethods interfaceId version methods object =
        ({ object, interfaceId, version, methodCount := count
           entries := writeAll InterfaceMethod.cell InterfaceMethod.entry methods.items fun _ => 0
           signatures := writeAll InterfaceMethod.cell InterfaceMethod.signature methods.items fun _ => .zero }, .ok)) ∨
    ∃ status, (status = .invalidTable ∧ (object = none ∨ methods.isDangling = true) ∨
        status = .methodCapacityExceeded ∧ ¬ Fits maxMethods methods.items) ∧
      ref.resolveMethods maxMethods interfaceId version methods object = ({}, status) := by
  simp only [resolveMethods, reset]
  split
  · rename_i hrefused
    exact .inr ⟨.invalidTable, .inl ⟨rfl, hrefused⟩, rfl⟩
  · cases hhighest : highestSlot maxMethods methods.items 0 with
    | some count => exact .inl ⟨count, rfl, rfl⟩
    | none =>
      refine .inr ⟨.methodCapacityExceeded, .inr ⟨rfl, ?_⟩, rfl⟩
      rw [← highestSlot_isSome maxMethods methods.items 0, hhighest]
      nofun

/-- The cache is refused for reasons of the table only. -/
theorem InterfaceSlotCache.status_resolveMethods (maxMethods : Nat) (cache : InterfaceSlotCache Obj)
    (methods : Counted InterfaceMethod) (object : Option Obj) (contract : Signatures maxMethods) :
    (cache.resolveMethods maxMethods methods object contract).2 ≠ .versionMismatch ∧
      (cache.resolveMethods maxMethods methods object contract).2 ≠ .interfaceNotFound := by
  have hother : ∀ status ∈ [InterfaceStatus.ok, .invalidTable, .methodCapacityExceeded, .methodNotFound,
      .signatureMismatch], status ≠ .versionMismatch ∧ status ≠ .interfaceNotFound := by decide
  refine hother _ ?_
  simp only [resolveMethods]
  split
  · exact List.mem_cons_of_mem _ List.mem_cons_self
  · split
    · rename_i hfill
      rcases fillSlotEntries_error_cases hfill with rfl | rfl | rfl <;> simp
    · exact List.mem_cons_self

theorem InterfaceRef.resolve_of_some {impl : InterfaceImplementation}
    (hfind : registry.find concreteType interfaceId version = some impl) :
    ref.resolve maxMethods registry (some o) concreteType interfaceId version =
      ref.resolveMethods maxMethods impl.interfaceId impl.version impl.methods (some o) := by
  simp [resolve, hfind]

theorem InterfaceRef.resolve_of_none (hfind : registry.find concreteType interfaceId version = none) :
    ref.resolve maxMethods registry (some o) concreteType interfaceId version =
      ({}, if (registry.available concreteType interfaceId).isSome then .versionMismatch else .interfaceNotFound) := by
  simp only [resolve, hfind, reset, reduceCtorEq, if_false]
  split <;> rfl

theorem InterfaceSlotCache.resolve_of_some {impl : InterfaceImplementation}
    (hfind : registry.find concreteType interfaceId version = some impl) :
    cache.resolve maxMethods registry (some o) concreteType interfaceId version contract =
      cache.resolveMethods maxMethods impl.methods (some o) contract := by
  simp [resolve, hfind]

theorem InterfaceSlotCache.resolve_of_none (hfind : registry.find concreteType interfaceId version = none) :
    cache.resolve maxMethods registry (some o) concreteType interfaceId version contract =
      ({}, if (registry.available concreteType interfaceId).isSome then .versionMismatch else .interfaceNotFound) := by
  simp only [resolve, hfind, reset, reduceCtorEq, if_false]
  split <;> rfl

end Resolve

/-- What resolving an interface for an object promises, of a handle that keeps the signatures and
of a cache that does not, whatever they held before. -/
structure ResolveKeeps (maxMethods : Nat) (registry : InterfaceRegistry) (ref : InterfaceRef Obj)
    (cache : InterfaceSlotCache Obj) (contract : Signatures maxMethods) (o : Obj) (concreteType : TypeId)
    (interfaceId : InterfaceId) (version : UInt32) : Prop where
  explains : registry.Explains concreteType interfaceId version
    (ref.resolve maxMethods registry (some o) concreteType interfaceId version).2
  cacheExplains : registry.Explains concreteType interfaceId version
    (cache.resolve maxMethods registry (some o) concreteType interfaceId version contract).2
  resolved : (ref.resolve maxMethods registry (some o) concreteType interfaceId version).2 = .ok →
    ∃ impl, registry.find concreteType interfaceId version = some impl ∧
      (ref.resolve maxMethods registry (some o) concreteType interfaceId version).1.Holds impl.methods.items ∧
      Spans impl.methods.items
        (ref.resolve maxMethods registry (some o) concreteType interfaceId version).1.methodCount
  refused : (ref.resolve maxMethods registry (some o) concreteType interfaceId version).2 ≠ .ok →
    (ref.resolve maxMethods registry (some o) concreteType interfaceId version).1.Unbound
  cacheRefused : (cache.resolve maxMethods registry (some o) concreteType interfaceId version contract).2 ≠ .ok →
    (cache.resolve maxMethods registry (some o) concreteType interfaceId version contract).1.Unbound maxMethods

section Keeps
variable {maxMethods : Nat} {ref : InterfaceRef Obj} {cache : InterfaceSlotCache Obj} {registry : InterfaceRegistry}
  {o : Obj} {concreteType : TypeId} {interfaceId : InterfaceId} {version : UInt32} {contract : Signatures maxMethods}

theorem InterfaceSlotCache.refused_resolve
    (h : (cache.resolve maxMethods registry (some o) concreteType interfaceId version contract).2 ≠ .ok) :
    (cache.resolve maxMethods registry (some o) concreteType interfaceId version contract).1.Unbound maxMethods := by
  cases hfind : registry.find concreteType interfaceId version with
  | none =>
    rw [resolve_of_none hfind]
    exact unbound_empty
  | some impl =>
    rw [resolve_of_some hfind] at h ⊢
    rcases cache.resolveMethods_cases maxMethods impl.methods (some o) contract with
      ⟨-, -, entries, highest, -, hrun⟩ | ⟨status, -, hrun, -⟩
    · rw [hrun] at h
      exact absurd rfl h
    · rw [hrun]
      exact unbound_empty

theorem InterfaceSlotCache.explains_resolve : registry.Explains concreteType interfaceId version
    (cache.resolve maxMethods registry (some o) concreteType interfaceId version contract).2 := by
  cases hfind : registry.find concreteType interfaceId version with
  | none => exact InterfaceRegistry.explains_of_none hfind (by rw [resolve_of_none hfind])
  | some impl =>
    obtain ⟨hmismatch, hnotFound⟩ := cache.status_resolveMethods maxMethods impl.methods (some o) contract
    rw [resolve_of_some hfind]
    exact InterfaceRegistry.explains_of_some hfind hmismatch hnotFound

theorem InterfaceRef.refused_resolve
    (h : (ref.resolve maxMethods registry (some o) concreteType interfaceId version).2 ≠ .ok) :
    (ref.resolve maxMethods registry (some o) concreteType interfaceId version).1.Unbound := by
  cases hfind : registry.find concreteType interfaceId version with
  | none =>
    rw [resolve_of_none hfind]
    exact unbound_empty
  | some impl =>
    rw [resolve_of_some hfind] at h ⊢
    rcases ref.resolveMethods_cases maxMethods impl.interfaceId impl.version impl.methods (some o) with
      ⟨count, -, hrun⟩ | ⟨status, -, hrun⟩
    · rw [hrun] at h
      exact absurd rfl h
    · rw [hrun]
      exact unbound_empty

theorem InterfaceRef.explains_resolve : registry.Explains concreteType interfaceId version
    (ref.resolve maxMethods registry (some o) concreteType interfaceId version).2 := by
  cases hfind : registry.find concreteType interfaceId version with
  | none => exact InterfaceRegistry.explains_of_none hfind (by rw [resolve_of_none hfind])
  | some impl =>
    rw [resolve_of_some hfind]
    rcases ref.resolveMethods_cases maxMethods impl.interfaceId impl.version impl.methods (some o) with
      ⟨count, -, hrun⟩ | ⟨status, hstatus, hrun⟩
    · rw [hrun]
      exact InterfaceRegistry.explains_of_some hfind nofun nofun
    · rw [hrun]
      rcases hstatus with ⟨rfl, -⟩ | ⟨rfl, -⟩
      · exact InterfaceRegistry.explains_of_some hfind nofun nofun
      · exact InterfaceRegistry.explains_of_some hfind nofun nofun

/-- A table that can be read and fits is accepted as it is. -/
theorem InterfaceRef.resolve_eq_ok (ref : InterfaceRef Obj) (o : Obj) {impl : InterfaceImplementation}
    (hfind : registry.find concreteType interfaceId version = some impl) (hreadable : impl.methods.isDangling = false)
    (hfits : Fits maxMethods impl.methods.items) :
    (ref.resolve maxMethods registry (some o) concreteType interfaceId version).2 = .ok := by
  rw [resolve_of_some hfind]
  rcases ref.resolveMethods_cases maxMethods impl.interfaceId impl.version impl.methods (some o) with
    ⟨count, -, hrun⟩ | ⟨status, ⟨-, hnull | hdangling⟩ | ⟨-, hunfit⟩, hrun⟩
  · rw [hrun]
  · cases hnull
  · cases hreadable.symm.trans hdangling
  · exact absurd hfits hunfit

private theorem InterfaceRef.resolved_resolve
    (hok : (ref.resolve maxMethods registry (some o) concreteType interfaceId version).2 = .ok)
    (hcountable : ∀ impl, registry.find concreteType interfaceId version = some impl →
      Fits maxMethods impl.methods.items → Countable impl.methods.items) :
    ∃ impl, registry.find concreteType interfaceId version = some impl ∧
      (ref.resolve maxMethods registry (some o) concreteType interfaceId version).1.Holds impl.methods.items ∧
      Spans impl.methods.items
        (ref.resolve maxMethods registry (some o) concreteType interfaceId version).1.methodCount := by
  cases hfind : registry.find concreteType interfaceId version with
  | none =>
    rw [resolve_of_none hfind] at hok
    split at hok <;> cases hok
  | some impl =>
    refine ⟨impl, rfl, ?_⟩
    rw [resolve_of_some hfind] at hok ⊢
    rcases ref.resolveMethods_cases maxMethods impl.interfaceId impl.version impl.methods (some o) with
      ⟨count, hhighest, hrun⟩ | ⟨status, hstatus, hrun⟩
    · have hfits := (highestSlot_isSome maxMethods impl.methods.items 0).mp (Option.isSome_of_eq_some hhighest)
      have hspans := spans_of_countable hhighest (hcountable impl hfind hfits)
      rw [hrun]
      exact ⟨holds_of_spans hspans, hspans⟩
    · rw [hrun] at hok
      rcases hstatus with ⟨rfl, -⟩ | ⟨rfl, -⟩ <;> cases hok

end Keeps

/-- A capacity that 32 bits can count admits no method at the last slot. -/
theorem Fits.countable {maxMethods : Nat} {methods : List InterfaceMethod} (h : Fits maxMethods methods)
    (hmax : maxMethods < 2 ^ 32) : Countable methods := fun m hm => Nat.lt_of_le_of_lt (h m hm) hmax

theorem resolveKeeps_of_countable {maxMethods : Nat} {registry : InterfaceRegistry} {concreteType : TypeId}
    {interfaceId : InterfaceId} {version : UInt32} (ref : InterfaceRef Obj) (cache : InterfaceSlotCache Obj)
    (contract : Signatures maxMethods) (o : Obj)
    (hcountable : ∀ impl, registry.find concreteType interfaceId version = some impl →
      Fits maxMethods impl.methods.items → Countable impl.methods.items) :
    ResolveKeeps maxMethods registry ref cache contract o concreteType interfaceId version where
  explains := InterfaceRef.explains_resolve
  cacheExplains := InterfaceSlotCache.explains_resolve
  resolved hok := InterfaceRef.resolved_resolve hok hcountable
  refused := InterfaceRef.refused_resolve
  cacheRefused := InterfaceSlotCache.refused_resolve

/-- With a capacity that 32 bits can count the promise is always kept. -/
theorem resolveKeeps_of_lt {maxMethods : Nat} (hmax : maxMethods < 2 ^ 32) (registry : InterfaceRegistry)
    (ref : InterfaceRef Obj) (cache : InterfaceSlotCache Obj) (contract : Signatures maxMethods) (o : Obj)
    (concreteType : TypeId) (interfaceId : InterfaceId) (version : UInt32) :
    ResolveKeeps maxMethods registry ref cache contract o concreteType interfaceId version :=
  resolveKeeps_of_countable ref cache contract o fun _ _ hfits => hfits.countable hmax

/-- The registry answers as it should, and resolving keeps its promise exactly when the table that
is found does not use the last slot, or does not fit. -/
theorem registry_resolves_iff (capacity maxMethods : Nat) (impls : List InterfaceImplementation)
    (ref : InterfaceRef Obj) (cache : InterfaceSlotCache Obj) (contract : Signatures maxMethods) (o : Obj)
    (concreteType : TypeId) (interfaceId : InterfaceId) (version : UInt32) :
    (InterfaceRegistry.Answers capacity (.addAll capacity impls) ∧
        ResolveKeeps maxMethods (.addAll capacity impls) ref cache contract o concreteType interfaceId version) ↔
      ∀ impl, InterfaceRegistry.find (.addAll capacity impls) concreteType interfaceId version = some impl →
        Fits maxMethods impl.methods.items → Countable impl.methods.items := by
  constructor
  · rintro ⟨-, h⟩ impl hfind hfits
    have hreadable := (InterfaceRegistry.wellFormed_addAll capacity impls).readable impl
      (InterfaceRegistry.mem_of_find hfind)
    have hok := InterfaceRef.resolve_eq_ok ref o hfind hreadable hfits
    obtain ⟨other, hother, -, hspans⟩ := h.resolved hok
    cases hfind.symm.trans hother
    exact hspans.countable
  · intro hcountable
    exact ⟨InterfaceRegistry.answers_addAll capacity impls, resolveKeeps_of_countable ref cache contract o hcountable⟩

def lastSlot : InterfaceRegistry :=
  .addAll 64 [⟨⟨1, 1⟩, ⟨2, 2⟩, .ofList [⟨⟨3, 3⟩, 16, 4294967295⟩] (by decide), 1⟩]

def lastSlotRef : InterfaceRef Unit × InterfaceStatus :=
  InterfaceRef.resolve 4294967296 {} lastSlot (some ()) ⟨2, 2⟩ ⟨1, 1⟩ 1

/-- With a cell for every slot the method is accepted, the count wraps to zero, and the slot is
reported unbound. -/
theorem last_slot_is_not_counted :
    lastSlotRef.2 = .ok ∧ lastSlotRef.1.methodCount = 0 ∧ lastSlotRef.1.method 4294967295 = 0 ∧
      ¬ ResolveKeeps 4294967296 lastSlot ({} : InterfaceRef Unit) {} ⟨[], by decide⟩ () ⟨2, 2⟩ ⟨1, 1⟩ 1 := by
  have hok : lastSlotRef.2 = .ok := by decide
  have hcount : lastSlotRef.1.methodCount = 0 := by decide
  refine ⟨hok, hcount, by decide, fun h => ?_⟩
  obtain ⟨impl, hfind, -, hbelow, -⟩ := h.resolved hok
  have hmem : (⟨⟨3, 3⟩, 16, 4294967295⟩ : InterfaceMethod) ∈ impl.methods.items := by
    obtain rfl := Option.some.inj hfind
    exact List.mem_singleton_self _
  have hlt : (⟨⟨3, 3⟩, 16, 4294967295⟩ : InterfaceMethod).cell < lastSlotRef.1.methodCount.toNat := hbelow _ hmem
  rw [hcount] at hlt
  exact absurd hlt (Nat.not_lt_zero _)

end Abix.Interface

/-! The exported table of a module and the two ways to look a name up in it: a scan in table
order, and a hash index with linear probing that is built for large tables. -/
namespace Abix.Runtime

inductive LookupResult where
  | ok
  | notFound
  | sigMismatch
  | versionMismatch
  | badTable
  deriving DecidableEq, Repr

abbrev CString := List UInt8

structure Entry where
  name : CString
  sig : UInt64
  version : UInt64
  fnptr : UInt64
  nameHash : UInt32
  deriving DecidableEq, Repr

def tableMagic : UInt32 := 0xAB1E7A81

/-- `entries` points to `count` of them. -/
structure Table where
  count : UInt32
  magic : UInt32 := tableMagic
  entries : List Entry
  counted : entries.length = count.toNat
  deriving DecidableEq

/-- The `out` of a lookup without a result. -/
def noIndex : UInt32 := ~~~0

structure HashSlot where
  hash : UInt32
  indexPlus1 : UInt32
  deriving DecidableEq, Repr

def nextPow2 (v : UInt32) : UInt32 :=
  if v = 0 then 1
  else
    let v := v - 1
    let v := v ||| v >>> 1
    let v := v ||| v >>> 2
    let v := v ||| v >>> 4
    let v := v ||| v >>> 8
    let v := v ||| v >>> 16
    v + 1

/-- `slots` is `none` where the pointer is null. -/
structure HashIndex where
  slots : Option (List HashSlot) := none
  capacity : UInt32 := 0
  mask : UInt32 := 0
  deriving DecidableEq, Repr

def HashIndex.valid (idx : HashIndex) : Bool := idx.slots.isSome

/-- How a loop over the slots or the entries can go wrong. -/
inductive Fault where
  | outOfBounds
  | endless
  deriving DecidableEq, Repr

/-- The loop that looks for a free slot. It comes back to where it was after at most
`slots.length` steps, so with that much fuel used up it never ends. -/
def freeSlot (slots : List HashSlot) (mask : UInt32) : Nat → UInt32 → Except Fault UInt32
  | 0, _ => .error .endless
  | fuel + 1, pos =>
    match slots[pos.toNat]? with
    | none => .error .outOfBounds
    | some s => if s.indexPlus1 ≠ 0 then freeSlot slots mask fuel ((pos + 1) &&& mask) else .ok pos

def place (slots : List HashSlot) (mask i : UInt32) (e : Entry) : Except Fault (List HashSlot) :=
  (freeSlot slots mask (slots.length + 1) (e.nameHash &&& mask)).map fun pos =>
    slots.set pos.toNat ⟨e.nameHash, i + 1⟩

def fill (mask : UInt32) : UInt32 → List Entry → List HashSlot → Except Fault (List HashSlot)
  | _, [], slots => .ok slots
  | i, e :: rest, slots => (place slots mask i e).bind (fill mask (i + 1) rest)

/-- `allocated` says that the pool or the allocator had a buffer. It is zeroed either way. -/
def HashIndex.build (t : Table) (allocated : Bool) : Except Fault HashIndex :=
  let capacity := nextPow2 (t.count * 2)
  let mask := capacity - 1
  if allocated then
    (fill mask 0 t.entries (List.replicate capacity.toNat ⟨0, 0⟩)).map fun slots => ⟨some slots, capacity, mask⟩
  else .ok {}

/-- A version is asked for, the entry has one, and it is another. -/
def Conflicts (ver : UInt64) (e : Entry) : Prop := ver ≠ 0 ∧ e.version ≠ 0 ∧ e.version ≠ ver

instance (ver : UInt64) (e : Entry) : Decidable (Conflicts ver e) := instDecidableAnd

def scan (name : CString) (nh : UInt32) (sig ver : UInt64) : UInt32 → List Entry → LookupResult × UInt32
  | _, [] => (.notFound, noIndex)
  | i, e :: rest =>
    if e.nameHash ≠ nh then scan name nh sig ver (i + 1) rest
    else if e.name ≠ name then scan name nh sig ver (i + 1) rest
    else if Conflicts ver e then scan name nh sig ver (i + 1) rest
    else if e.sig ≠ sig then (.sigMismatch, i)
    else (.ok, i)

/-- `name` is `none` where the pointer is null. -/
def findLinear (t : Table) (name : Option CString) (nh : UInt32) (sig ver : UInt64) : LookupResult × UInt32 :=
  match name with
  | none => (.badTable, noIndex)
  | some name => if t.magic ≠ tableMagic then (.badTable, noIndex) else scan name nh sig ver 0 t.entries

def probe (t : Table) (slots : List HashSlot) (mask : UInt32) (name : CString) (nh : UInt32) (sig ver : UInt64) :
    Nat → UInt32 → Except Fault (LookupResult × UInt32)
  | 0, _ => .error .endless
  | fuel + 1, pos =>
    match slots[pos.toNat]? with
    | none => .error .outOfBounds
    | some s =>
      if s.indexPlus1 = 0 then .ok (.notFound, noIndex)
      else if s.hash = nh then
        let i := s.indexPlus1 - 1
        match t.entries[i.toNat]? with
        | none => .error .outOfBounds
        | some e =>
          if e.name ≠ name then probe t slots mask name nh sig ver fuel ((pos + 1) &&& mask)
          else if Conflicts ver e then .ok (.versionMismatch, i)
          else if e.sig ≠ sig then .ok (.sigMismatch, i)
          else .ok (.ok, i)
      else probe t slots mask name nh sig ver fuel ((pos + 1) &&& mask)

def findHash (t : Table) (idx : HashIndex) (name : Option CString) (nh : UInt32) (sig ver : UInt64) :
    Except Fault (LookupResult × UInt32) :=
  match name, idx.slots with
  | some name, some slots =>
    if t.magic ≠ tableMagic then .ok (.badTable, noIndex)
    else probe t slots idx.mask name nh sig ver (slots.length + 1) (nh &&& idx.mask)
  | _, _ => .ok (.badTable, noIndex)

/-- The loop of `lookup_linear` from entry `i` on. A pointer to an entry is its index. -/
def lookupScan (name : CString) (nh : UInt32) (sig : UInt64) : UInt32 → List Entry → Option UInt32
  | _, [] => none
  | i, e :: rest =>
    if e.nameHash ≠ nh then lookupScan name nh sig (i + 1) rest
    else if e.sig ≠ sig then lookupScan name nh sig (i + 1) rest
    else if e.name = name then some i
    else lookupScan name nh sig (i + 1) rest

def lookupLinear (t : Table) (name : Option CString) (nh : UInt32) (sig : UInt64) : Option UInt32 :=
  match name with
  | none => none
  | some name => if t.magic ≠ tableMagic then none else lookupScan name nh sig 0 t.entries

def lookupProbe (t : Table) (slots : List HashSlot) (mask : UInt32) (name : CString) (nh : UInt32) (sig : UInt64) :
    Nat → UInt32 → Except Fault (Option UInt32)
  | 0, _ => .error .endless
  | fuel + 1, pos =>
    match slots[pos.toNat]? with
    | none => .error .outOfBounds
    | some s =>
      if s.indexPlus1 = 0 then .ok none
      else if s.hash = nh then
        match t.entries[(s.indexPlus1 - 1).toNat]? with
        | none => .error .outOfBounds
        | some e =>
          if e.sig = sig ∧ e.name = name then .ok (some (s.indexPlus1 - 1))
          else lookupProbe t slots mask name nh sig fuel ((pos + 1) &&& mask)
      else lookupProbe t slots mask name nh sig fuel ((pos + 1) &&& mask)

def lookupHash (t : Table) (idx : HashIndex) (name : Option CString) (nh : UInt32) (sig : UInt64) :
    Except Fault (Option UInt32) :=
  match name, idx.slots with
  | some name, some slots =>
    if t.magic ≠ tableMagic then .ok none
    else lookupProbe t slots idx.mask name nh sig (slots.length + 1) (nh &&& idx.mask)
  | _, _ => .ok none

def findIndex (t : Table) (idx : HashIndex) (name : Option CString) (nh : UInt32) (sig ver : UInt64) :
    Except Fault (LookupResult × UInt32) :=
  if idx.valid then findHash t idx name nh sig ver else .ok (findLinear t name nh sig ver)

/-- What both lookups have tested of an entry that they return with `ok`. -/
structure Matching (name : CString) (sig ver : UInt64) (e : Entry) : Prop where
  name : e.name = name
  sig : e.sig = sig
  version : ¬ Conflicts ver e

private theorem scan_found {name : CString} {nh : UInt32} {sig ver : UInt64} {i j : UInt32} {es : List Entry}
    (h : scan name nh sig ver i es = (.ok, j)) : ∃ k e, j = i + .ofNat k ∧ es[k]? = some e ∧ Matching name sig ver e := by
  induction es generalizing i with
  | nil => simp [scan] at h
  | cons e rest ih =>
    have hlater (h : scan name nh sig ver (i + 1) rest = (.ok, j)) :
        ∃ k e', j = i + .ofNat k ∧ (e :: rest)[k]? = some e' ∧ Matching name sig ver e' := by
      obtain ⟨k, e', rfl, he, hf⟩ := ih h
      refine ⟨k + 1, e', ?_, he, hf⟩
      rw [UInt32.ofNat_add, UInt32.add_assoc, UInt32.add_comm 1]
      rfl
    rw [scan] at h
    split at h
    · exact hlater h
    · split at h
      · exact hlater h
      · split at h
        · exact hlater h
        · rename_i hname hver
          split at h
          · simp at h
          · rename_i hsig
            obtain ⟨-, rfl⟩ := Prod.mk.inj h
            exact ⟨0, e, (UInt32.add_zero i).symm, rfl, Decidable.not_not.mp hname, Decidable.not_not.mp hsig, hver⟩

private theorem probe_found {t : Table} {slots : List HashSlot} {mask : UInt32} {name : CString} {nh : UInt32} {sig ver : UInt64}
    {fuel : Nat} {pos j : UInt32} (h : probe t slots mask name nh sig ver fuel pos = .ok (.ok, j)) :
    ∃ e, t.entries[j.toNat]? = some e ∧ Matching name sig ver e := by
  induction fuel generalizing pos with
  | zero => cases h
  | succ fuel ih =>
    rw [probe] at h
    split at h
    · cases h
    · split at h
      · simp at h
      · split at h
        · dsimp only at h
          split at h
          · cases h
          · rename_i e he
            split at h
            · exact ih h
            · split at h
              · simp at h
              · split at h
                · simp at h
                · rename_i hname hver hsig
                  obtain rfl := (Prod.mk.inj (Except.ok.inj h)).2
                  exact ⟨e, he, Decidable.not_not.mp hname, Decidable.not_not.mp hsig, hver⟩
        · exact ih h

/-- With an index or without one, an entry that is found passes all tests. -/
theorem findIndex_found {t : Table} {idx : HashIndex} {name : CString} {nh : UInt32} {sig ver : UInt64} {j : UInt32}
    (h : findIndex t idx (some name) nh sig ver = .ok (.ok, j)) :
    ∃ e, t.entries[j.toNat]? = some e ∧ Matching name sig ver e := by
  rw [findIndex] at h
  split at h
  · simp only [findHash] at h
    split at h
    · split at h
      · simp at h
      · rename_i hname _ _
        obtain rfl := Option.some.inj hname
        exact probe_found h
    · simp at h
  · simp only [findLinear] at h
    split at h
    · simp at h
    · obtain ⟨k, e, rfl, he, hf⟩ := scan_found (Except.ok.inj h)
      have hk : k < t.count.toNat := t.counted ▸ (List.getElem?_eq_some_iff.mp he).1
      refine ⟨e, ?_, hf⟩
      rw [UInt32.zero_add, UInt32.toNat_ofNat_of_lt' (Nat.lt_trans hk t.count.toNat_lt)]
      exact he

end Abix.Runtime

import Abix.Runtime.Probes

/-! `find_hash` and `find_linear`. The probe of the index meets the entries of a hash in table
order, so the two differ only where their tests do: the scan passes over an entry of another
version, the probe stops at it. -/
namespace Abix.Runtime
open Abix.Probing

variable {t : Table} {name : CString} {nh : UInt32} {sig ver : UInt64} {slots : List HashSlot}

/-- The tests of `find_hash` on an entry with the hash and the name. -/
def judge (sig ver : UInt64) (i : UInt32) (e : Entry) : LookupResult × UInt32 :=
  if Conflicts ver e then (.versionMismatch, i) else if e.sig ≠ sig then (.sigMismatch, i) else (.ok, i)

def named (name : CString) (nh : UInt32) (e : Entry) : Bool := e.nameHash = nh ∧ e.name = name

/-- What `find_hash` answers at an entry with the hash, unless that has another name. -/
def findAnswer (name : CString) (sig ver : UInt64) (i : UInt32) (e : Entry) : Option (LookupResult × UInt32) :=
  if e.name ≠ name then none else some (judge sig ver i e)

def judgeEntries (name : CString) (nh : UInt32) (sig ver : UInt64) (i : UInt32) (es : List Entry) :
    LookupResult × UInt32 := answerEntries nh (findAnswer name sig ver) (.notFound, noIndex) i es

private theorem probe_eq_probeFor {mask : UInt32} (fuel : Nat) (pos : UInt32) :
    probe t slots mask name nh sig ver fuel pos =
      probeFor t slots mask nh (findAnswer name sig ver) (.notFound, noIndex) fuel pos := by
  induction fuel generalizing pos with
  | zero => rfl
  | succ fuel ih =>
    rw [probe, probeFor]
    cases slots[pos.toNat]? with
    | none => rfl
    | some s =>
      dsimp only
      rw [ih]
      cases t.entries[(s.indexPlus1 - 1).toNat]? with
      | none => rfl
      | some e =>
        by_cases hname : e.name = name
        · simp only [findAnswer, judge, hname, ne_eq, not_true_eq_false, if_false]
          split
          · rfl
          · split
            · split
              · rfl
              · split <;> rfl
            · rfl
        · simp only [findAnswer, hname, ne_eq, not_false_eq_true, if_true]
          rfl

/-- `find_hash` on a built index is a scan of the entries with its own tests. -/
theorem findHash_eq {idx : HashIndex} {k : Nat} (hslots : idx.slots = some slots) (hm : idx.mask.toNat = 2 ^ k - 1)
    (hk : k ≤ 32) (hroom : t.entries.length < 2 ^ k) (hb : Built idx.mask k slots (slotsOf 0 t.entries))
    (hmagic : t.magic = tableMagic) :
    findHash t idx (some name) nh sig ver = .ok (judgeEntries name nh sig ver 0 t.entries) := by
  calc findHash t idx (some name) nh sig ver
      = probe t slots idx.mask name nh sig ver (slots.length + 1) (nh &&& idx.mask) := by simp [findHash, hslots, hmagic]
    _ = probeFor t slots idx.mask nh (findAnswer name sig ver) (.notFound, noIndex) (slots.length + 1)
        (nh &&& idx.mask) := probe_eq_probeFor _ _
    _ = .ok (judgeEntries name nh sig ver 0 t.entries) := probeFor_eq hm hk hroom hb

private theorem scan_ne_versionMismatch (i : UInt32) (es : List Entry) : (scan name nh sig ver i es).1 ≠ .versionMismatch := by
  induction es generalizing i with
  | nil => simp [scan]
  | cons e rest ih =>
    rw [scan]
    split
    · exact ih _
    · split
      · exact ih _
      · split
        · exact ih _
        · split <;> simp

/-- The two orders of tests agree unless the first entry of the hash and the name is of another
version. -/
theorem judgeEntries_eq_scan_iff (i : UInt32) (es : List Entry) :
    judgeEntries name nh sig ver i es = scan name nh sig ver i es ↔
      ∀ e ∈ es.find? (named name nh), ¬ Conflicts ver e := by
  induction es generalizing i with
  | nil => simp [judgeEntries, answerEntries, scan]
  | cons e rest ih =>
    by_cases he : named name nh e = true
    · have hboth : e.nameHash = nh ∧ e.name = name := by simpa [named] using he
      rw [judgeEntries, answerEntries, if_pos hboth.1, findAnswer, if_neg (not_not.mpr hboth.2), Option.getD_some,
        List.find?_cons_of_pos he, scan, if_neg (not_not.mpr hboth.1), if_neg (not_not.mpr hboth.2), judge]
      by_cases hc : Conflicts ver e
      · rw [if_pos hc, if_pos hc]
        constructor
        · intro h
          exact absurd (congrArg Prod.fst h).symm (scan_ne_versionMismatch _ _)
        · intro h
          exact absurd hc (h e rfl)
      · rw [if_neg hc, if_neg hc]
        simp [hc]
    · have hskip : scan name nh sig ver i (e :: rest) = scan name nh sig ver (i + 1) rest := by
        rw [scan]
        by_cases hh : e.nameHash = nh
        · have hn : e.name ≠ name := fun hn => he (by simp [named, hh, hn])
          rw [if_neg (not_not.mpr hh), if_pos hn]
        · rw [if_pos hh]
      have hpass : judgeEntries name nh sig ver i (e :: rest) = judgeEntries name nh sig ver (i + 1) rest := by
        rw [judgeEntries, answerEntries]
        by_cases hh : e.nameHash = nh
        · have hn : e.name ≠ name := fun hn => he (by simp [named, hh, hn])
          rw [if_pos hh, findAnswer, if_pos hn, Option.getD_none, judgeEntries]
        · rw [if_neg hh, judgeEntries]
      rw [hpass, hskip, List.find?_cons_of_neg he, ih]

/-- For a table with the right magic and up to `2 ^ 30` entries the index is built, and its lookup
gives the scan's result and index exactly when the first entry with the hash and the name is not of
another version than the one asked for. `find_index` then does not depend on there being an index. -/
theorem find_hash_eq_find_linear_iff (t : Table) (hmagic : t.magic = tableMagic) (hcount : t.count.toNat ≤ 2 ^ 30) :
    HashIndex.build t false = .ok {} ∧ ∃ idx, HashIndex.build t true = .ok idx ∧ idx.valid = true ∧
      ∀ (name : CString) (nh : UInt32) (sig ver : UInt64),
        (findHash t idx (some name) nh sig ver = .ok (findLinear t (some name) nh sig ver) ↔
          ∀ e ∈ t.entries.find? (named name nh), ¬ Conflicts ver e) ∧
        (findIndex t idx (some name) nh sig ver = findIndex t {} (some name) nh sig ver ↔
          ∀ e ∈ t.entries.find? (named name nh), ¬ Conflicts ver e) := by
  obtain ⟨idx, slots, k, hbuild, hslots, -, hm, hk, hroom, hb⟩ := build_eq t hcount
  have hvalid : idx.valid = true := by rw [HashIndex.valid, hslots, Option.isSome_some]
  refine ⟨rfl, idx, hbuild, hvalid, fun name nh sig ver => ?_⟩
  have hhash : findHash t idx (some name) nh sig ver = .ok (findLinear t (some name) nh sig ver) ↔
      ∀ e ∈ t.entries.find? (named name nh), ¬ Conflicts ver e := by
    have hlinear : findLinear t (some name) nh sig ver = scan name nh sig ver 0 t.entries := by
      simp [findLinear, hmagic]
    rw [findHash_eq hslots hm (by omega) hroom hb hmagic, hlinear, Except.ok.injEq, judgeEntries_eq_scan_iff]
  refine ⟨hhash, ?_⟩
  rw [findIndex, if_pos hvalid]
  exact hhash

private def twoVersions : Table where
  count := 2
  entries := [⟨[102], 7, 1, 16, 5⟩, ⟨[102], 7, 2, 32, 5⟩]
  counted := rfl

theorem find_hash_eq_find_linear_iff_first : ∃ idx, HashIndex.build twoVersions true = .ok idx ∧
    findHash twoVersions idx (some [102]) 5 7 1 = .ok (.ok, 0) := by
  obtain ⟨-, idx, hbuild, -, h⟩ := find_hash_eq_find_linear_iff twoVersions rfl (by decide)
  exact ⟨idx, hbuild, (h [102] 5 7 1).1.mpr (by decide)⟩

/-- The scan goes on to the entry of version 2, the probe stops at the entry of version 1. -/
theorem find_hash_stops_at_first_version : ∃ idx, HashIndex.build twoVersions true = .ok idx ∧
    findHash twoVersions idx (some [102]) 5 7 2 = .ok (.versionMismatch, 0) ∧
    findLinear twoVersions (some [102]) 5 7 2 = (.ok, 1) ∧
    findIndex twoVersions idx (some [102]) 5 7 2 ≠ findIndex twoVersions {} (some [102]) 5 7 2 := by
  refine ⟨⟨some [⟨0, 0⟩, ⟨5, 1⟩, ⟨5, 2⟩, ⟨0, 0⟩], 4, 3⟩, ?_, ?_, ?_, ?_⟩
  · decide
  · decide
  · decide
  · decide

end Abix.Runtime

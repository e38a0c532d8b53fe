import Abix.Runtime.Slots

/-! What a probe for a hash comes to in a built index: the answer that the entries with the hash give
in table order. -/
namespace Abix.Runtime
open Abix.Probing

variable {α : Type}

/-- A probe that asks the entries with the hash, and stops at the first that has an answer. -/
def probeFor (t : Table) (slots : List HashSlot) (mask nh : UInt32) (answer : UInt32 → Entry → Option α)
    (missing : α) : Nat → UInt32 → Except Fault α
  | 0, _ => .error .endless
  | fuel + 1, pos =>
    match slots[pos.toNat]? with
    | none => .error .outOfBounds
    | some s =>
      if s.indexPlus1 = 0 then .ok missing
      else if s.hash = nh then
        match t.entries[(s.indexPlus1 - 1).toNat]? with
        | none => .error .outOfBounds
        | some e =>
          match answer (s.indexPlus1 - 1) e with
          | none => probeFor t slots mask nh answer missing fuel (step mask pos)
          | some a => .ok a
      else probeFor t slots mask nh answer missing fuel (step mask pos)

def answerSlots (t : Table) (nh : UInt32) (answer : UInt32 → Entry → Option α) (missing : α) :
    List HashSlot → Except Fault α
  | [] => .ok missing
  | s :: rest =>
    if s.hash = nh then
      match t.entries[(s.indexPlus1 - 1).toNat]? with
      | none => .error .outOfBounds
      | some e =>
        match answer (s.indexPlus1 - 1) e with
        | none => answerSlots t nh answer missing rest
        | some a => .ok a
    else answerSlots t nh answer missing rest

def answerEntries (nh : UInt32) (answer : UInt32 → Entry → Option α) (missing : α) : UInt32 → List Entry → α
  | _, [] => missing
  | i, e :: rest =>
    if e.nameHash = nh then (answer i e).getD (answerEntries nh answer missing (i + 1) rest)
    else answerEntries nh answer missing (i + 1) rest

section Answers
variable {t : Table} {slots : List HashSlot} {mask nh : UInt32} {answer : UInt32 → Entry → Option α} {missing : α}

private theorem probeFor_eq_answerSlots {p q : UInt32} {ps : List UInt32} (h : Path (step mask) (taken slots) p ps q)
    (hq : q.toNat < slots.length) {fuel : Nat} (hfuel : ps.length < fuel) :
    probeFor t slots mask nh answer missing fuel p = answerSlots t nh answer missing (items (taken slots) ps) := by
  induction h generalizing fuel with
  | free hp =>
    obtain ⟨fuel, rfl⟩ := Nat.exists_eq_succ_of_ne_zero (Nat.ne_of_gt hfuel)
    have hzero := taken_eq_none.mp hp _ (List.getElem?_eq_getElem hq)
    simp [probeFor, List.getElem?_eq_getElem hq, hzero, items, answerSlots]
  | @taken p q ps s hp ht ih =>
    obtain ⟨fuel, rfl⟩ := Nat.exists_eq_succ_of_ne_zero (Nat.ne_of_gt (Nat.zero_lt_of_lt hfuel))
    obtain ⟨hs, hne⟩ := taken_eq_some.mp hp
    have hrest := ih hq (Nat.lt_of_succ_lt_succ hfuel)
    rw [items, List.filterMap_cons_some hp, ← items, answerSlots, ← hrest, probeFor, hs]
    simp only [hne, if_false]

theorem answerSlots_filter (l : List HashSlot) :
    answerSlots t nh answer missing (l.filter fun s => s.hash = nh) = answerSlots t nh answer missing l := by
  induction l with
  | nil => rfl
  | cons s rest ih =>
    by_cases hs : s.hash = nh
    · rw [List.filter_cons_of_pos (by simpa using hs), answerSlots, answerSlots, ih]
    · rw [List.filter_cons_of_neg (by simpa using hs), ih, answerSlots, if_neg hs]

private theorem answerSlots_slotsOf {i : UInt32} {es : List Entry} (h : t.entries.drop i.toNat = es)
    (hi : i.toNat + es.length < 2 ^ 32) :
    answerSlots t nh answer missing (slotsOf i es) = .ok (answerEntries nh answer missing i es) := by
  induction es generalizing i with
  | nil => rfl
  | cons e rest ih =>
    rw [List.length_cons] at hi
    have hnext : (i + 1).toNat = i.toNat + 1 := by
      rw [UInt32.toNat_add]
      exact Nat.mod_eq_of_lt (show i.toNat + 1 < 2 ^ 32 by omega)
    have he : t.entries[i.toNat]? = some e := by
      rw [← List.head?_drop, h, List.head?_cons]
    have hdrop : t.entries.drop (i + 1).toNat = rest := by
      rw [hnext, ← List.tail_drop, h, List.tail_cons]
    have hrest := ih hdrop (by omega)
    rw [slotsOf, answerSlots, UInt32.add_sub_cancel, he, answerEntries, hrest]
    by_cases hh : e.nameHash = nh
    · rw [if_pos hh, if_pos hh]
      dsimp only
      cases answer i e <;> rfl
    · rw [if_neg hh, if_neg hh]

/-- A probe of a built index that has room comes to the answer of the entries. -/
theorem probeFor_eq {k : Nat} (hm : mask.toNat = 2 ^ k - 1) (hk : k ≤ 32) (hroom : t.entries.length < 2 ^ k)
    (hb : Built mask k slots (slotsOf 0 t.entries)) :
    probeFor t slots mask nh answer missing (slots.length + 1) (nh &&& mask) =
      .ok (answerEntries nh answer missing 0 t.entries) := by
  have hfree : slots.countP (fun s => s.indexPlus1 ≠ 0) < slots.length := by
    rw [hb.used, length_slotsOf, hb.length]
    exact hroom
  obtain ⟨ps, q, hpath, hshort⟩ := exists_path hm hk hb.length hfree (nh &&& mask)
  have hq : q.toNat < slots.length := hb.length ▸ (path_inside hm hk hpath (home_lt hm nh)).1
  have horder := hb.holds.ordered _ _ _ hpath (fun s => s.hash = nh) fun s hs => by rw [of_decide_eq_true hs]
  have hbound : t.entries.length < 2 ^ 32 := Nat.lt_of_lt_of_le hroom (Nat.pow_le_pow_right Nat.two_pos hk)
  calc probeFor t slots mask nh answer missing (slots.length + 1) (nh &&& mask)
      = answerSlots t nh answer missing (items (taken slots) ps) := probeFor_eq_answerSlots hpath hq (by omega)
    _ = answerSlots t nh answer missing (slotsOf 0 t.entries) := by
      rw [← answerSlots_filter, horder, answerSlots_filter]
    _ = .ok (answerEntries nh answer missing 0 t.entries) := answerSlots_slotsOf rfl (by simpa using hbound)

end Answers

end Abix.Runtime

import Mathlib.Logic.Function.Iterate
import Mathlib.Data.List.Basic

/-! Open addressing along any probe sequence. `next` leads from a position to the one probed
after it; a new item goes to the first free position on the way from its home. -/
namespace Abix.Probing

variable {Pos α : Type} {next : Pos → Pos} {slots : Pos → Option α} {p q q' : Pos} {ps ps' : List Pos} {x : α}

/-- The occupied positions from `p` on, up to the first free one, `q`. -/
inductive Path (next : Pos → Pos) (slots : Pos → Option α) : Pos → List Pos → Pos → Prop
  | free {p : Pos} : slots p = none → Path next slots p [] p
  | taken {p q : Pos} {ps : List Pos} {x : α} :
      slots p = some x → Path next slots (next p) ps q → Path next slots p (p :: ps) q

theorem Path.unique (h : Path next slots p ps q) (h' : Path next slots p ps' q') : ps = ps' ∧ q = q' := by
  induction h generalizing ps' q' with
  | free hp =>
    cases h' with
    | free => exact ⟨rfl, rfl⟩
    | taken hp' => cases hp.symm.trans hp'
  | taken hp _ ih =>
    cases h' with
    | free hp' => cases hp.symm.trans hp'
    | taken _ ht =>
      obtain ⟨rfl, rfl⟩ := ih ht
      exact ⟨rfl, rfl⟩

theorem Path.stop (h : Path next slots p ps q) : slots q = none := by
  induction h with
  | free hp => exact hp
  | taken _ _ ih => exact ih

theorem Path.occupied (h : Path next slots p ps q) : ∀ r ∈ ps, slots r ≠ none := by
  induction h with
  | free => simp
  | taken hp _ ih =>
    intro r hr
    rcases List.mem_cons.mp hr with rfl | hr
    · simp [hp]
    · exact ih r hr

/-- The path goes the same way from every position on it. -/
theorem Path.from_mem (h : Path next slots p ps q) {r : Pos} (hr : r ∈ ps) :
    ∃ rs, Path next slots r rs q ∧ rs.length ≤ ps.length := by
  induction h with
  | free => cases hr
  | taken hp ht ih =>
    rcases List.mem_cons.mp hr with rfl | hr
    · exact ⟨_, .taken hp ht, Nat.le_refl _⟩
    · obtain ⟨rs, hrs, hle⟩ := ih hr
      exact ⟨rs, hrs, Nat.le_trans hle (Nat.le_succ _)⟩

theorem Path.nodup (h : Path next slots p ps q) : ps.Nodup := by
  induction h with
  | free => exact List.nodup_nil
  | @taken p q ps x hp ht ih =>
    refine List.nodup_cons.mpr ⟨fun hmem => ?_, ih⟩
    obtain ⟨rs, hrs, hle⟩ := ht.from_mem hmem
    obtain ⟨rfl, -⟩ := hrs.unique (.taken hp ht)
    exact absurd hle (by simp)

/-- The path ends when some iterate of `next` is free. -/
theorem Path.exists_of_iterate (n : Nat) (h : slots (next^[n] p) = none) :
    ∃ ps q, Path next slots p ps q ∧ ps.length ≤ n := by
  induction n generalizing p with
  | zero => exact ⟨[], p, .free h, Nat.le_refl _⟩
  | succ n ih =>
    cases hp : slots p with
    | none => exact ⟨[], p, .free hp, Nat.zero_le _⟩
    | some x =>
      obtain ⟨ps, q, hps, hle⟩ := ih (p := next p) h
      exact ⟨p :: ps, q, .taken hp hps, Nat.succ_le_succ hle⟩

section Update
variable [DecidableEq Pos]

/-- A path that ends elsewhere does not see the new item. -/
theorem Path.update_of_ne (h : Path next slots p ps q') (hq : slots q = none) (hne : q' ≠ q) :
    Path next (Function.update slots q (some x)) p ps q' := by
  induction h with
  | free hp => exact .free (by rw [Function.update_of_ne hne, hp])
  | @taken p q' ps y hp _ ih =>
    have hpq : p ≠ q := by
      rintro rfl
      cases hp.symm.trans hq
    exact .taken (by rw [Function.update_of_ne hpq, hp]) (ih hne)

/-- A path that ended at the new item goes on from there. -/
theorem Path.update_self (h : Path next slots p ps q)
    (ht : Path next (Function.update slots q (some x)) (next q) ps' q') :
    Path next (Function.update slots q (some x)) p (ps ++ q :: ps') q' := by
  induction h with
  | free => exact .taken (Function.update_self ..) ht
  | @taken p q ps y hp hrest ih =>
    have hpq : p ≠ q := by
      rintro rfl
      cases hp.symm.trans hrest.stop
    exact .taken (by rw [Function.update_of_ne hpq, hp]) (ih ht)

end Update

def items (slots : Pos → Option α) (ps : List Pos) : List α := ps.filterMap slots

/-- A table that took in the items `xs`, in that order: every probe ends, an item lies on the
path from its home, and the items of one home are met in the order of their insertion. -/
structure Holds (next : Pos → Pos) (home : α → Pos) (slots : Pos → Option α) (xs : List α) : Prop where
  ends : ∀ p, ∃ ps q, Path next slots p ps q
  placed : ∀ p x, slots p = some x → ∃ ps q, Path next slots (home x) ps q ∧ p ∈ ps
  ordered : ∀ p ps q, Path next slots p ps q → ∀ P : α → Bool, (∀ x, P x = true → home x = p) →
    (items slots ps).filter P = xs.filter P

theorem holds_empty (next : Pos → Pos) (home : α → Pos) : Holds next home (fun _ => none) [] := by
  refine ⟨fun p => ⟨[], p, .free rfl⟩, fun _ _ h => (nomatch h), fun p ps q h P _ => ?_⟩
  cases h with
  | free => rfl
  | taken hp => cases hp

section Insert
variable [DecidableEq Pos] {home : α → Pos} {xs : List α}

theorem items_update (hq : q ∉ ps) : items (Function.update slots q (some x)) ps = items slots ps := by
  refine List.filterMap_congr fun r hr => Function.update_of_ne ?_ _ _
  rintro rfl
  exact hq hr

/-- What a probe sees of an insertion: nothing, or the new item and what lies behind it. -/
theorem Path.insert (h : Path next slots p ps q') (hq : slots q = none)
    (hends : ∀ p, ∃ ps q', Path next (Function.update slots q (some x)) p ps q') :
    (q' ≠ q ∧ Path next (Function.update slots q (some x)) p ps q') ∨
      q' = q ∧ ∃ rest r, Path next (Function.update slots q (some x)) p (ps ++ q :: rest) r := by
  by_cases hne : q' = q
  · subst hne
    obtain ⟨rest, r, hrest⟩ := hends (next q')
    exact .inr ⟨rfl, rest, r, h.update_self hrest⟩
  · exact .inl ⟨hne, h.update_of_ne hq hne⟩

/-- Nothing behind the first free position has its home where the path began. -/
theorem Holds.behind (hold : Holds next home slots xs) {rest : List Pos} {r : Pos} {P : α → Bool}
    (h : Path next slots p ps q) (h' : Path next (Function.update slots q (some x)) p (ps ++ q :: rest) r)
    (hP : ∀ x, P x = true → home x = p) : (items (Function.update slots q (some x)) rest).filter P = [] := by
  have hnodup := List.nodup_append.mp h'.nodup
  obtain ⟨hqrest, -⟩ := List.nodup_cons.mp hnodup.2.1
  rw [items_update hqrest, List.filter_eq_nil_iff]
  intro y hy hPy
  obtain ⟨s, hs, hsy⟩ := List.mem_filterMap.mp hy
  obtain ⟨ps', q', hpath, hmem⟩ := hold.placed s y hsy
  rw [hP y hPy] at hpath
  obtain ⟨rfl, -⟩ := hpath.unique h
  exact hnodup.2.2 s hmem s (List.mem_cons_of_mem _ hs) rfl

/-- Putting an item into the first free position from its home. -/
theorem Holds.insert (hold : Holds next home slots xs) (h : Path next slots (home x) ps q)
    (hends : ∀ p, ∃ ps q', Path next (Function.update slots q (some x)) p ps q') :
    Holds next home (Function.update slots q (some x)) (xs ++ [x]) := by
  refine ⟨hends, fun p y hy => ?_, fun p ps₁ q₁ h₁ P hP => ?_⟩
  · by_cases hp : p = q
    · subst hp
      obtain rfl : x = y := by simpa using hy
      rcases h.insert h.stop hends with ⟨hne, -⟩ | ⟨-, rest, r, hpath⟩
      · exact absurd rfl hne
      · exact ⟨_, _, hpath, by simp⟩
    · rw [Function.update_of_ne hp] at hy
      obtain ⟨ps', q', hpath, hmem⟩ := hold.placed p y hy
      rcases hpath.insert h.stop hends with ⟨-, hpath⟩ | ⟨-, rest, r, hpath⟩
      · exact ⟨_, _, hpath, hmem⟩
      · exact ⟨_, _, hpath, List.mem_append_left _ hmem⟩
  · obtain ⟨ps₀, q₀, h₀⟩ := hold.ends p
    have hold₀ := hold.ordered p ps₀ q₀ h₀ P hP
    have hq₀ : q ∉ ps₀ := fun hmem => h₀.occupied q hmem h.stop
    rw [List.filter_append]
    rcases h₀.insert (x := x) h.stop hends with ⟨hne, hpath⟩ | ⟨rfl, rest, r, hpath⟩
    · obtain ⟨rfl, -⟩ := hpath.unique h₁
      -- the new item is not on this path, so its home is elsewhere
      have hPx : P x = false := by
        by_contra hPx
        rw [← hP x (by simpa using hPx)] at h₀
        exact hne (h₀.unique h).2
      rw [items_update hq₀, hold₀]
      simp [hPx]
    · obtain ⟨rfl, -⟩ := hpath.unique h₁
      have hbehind := hold.behind h₀ hpath hP
      have hsplit : items (Function.update slots q₀ (some x)) (ps₀ ++ q₀ :: rest) =
          items slots ps₀ ++ x :: items (Function.update slots q₀ (some x)) rest := by
        rw [← items_update (x := x) hq₀]
        simp [items]
      rw [hsplit, List.filter_append, hold₀, List.filter_cons, hbehind, List.filter_cons, List.filter_nil]

end Insert

end Abix.Probing

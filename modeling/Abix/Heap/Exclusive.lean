import Mathlib.Logic.Equiv.Basic

/-! Cells of a heap with one owner each. An owner's content is what its cell holds; allocating, writing,
releasing and swapping change it for the owners they name and for no other. -/
namespace Abix.Heap
variable {V Addr Cell : Type} {heap : Addr → Option Cell} {owner : V → Option Addr} {v : V} {a : Addr} {c : Cell}

/-- An owner's cell is in use, and a cell in use has exactly one owner. -/
structure Exclusive (heap : Addr → Option Cell) (owner : V → Option Addr) : Prop where
  live : ∀ v a, owner v = some a → (heap a).isSome
  unique : ∀ v u a, owner v = some a → owner u = some a → v = u
  owned : ∀ a, (heap a).isSome → ∃ v, owner v = some a

def content (heap : Addr → Option Cell) (owner : V → Option Addr) (v : V) : Option Cell := (owner v).bind heap

namespace Exclusive

theorem exists_cell (h : Exclusive heap owner) (ha : owner v = some a) : ∃ c, heap a = some c :=
  Option.isSome_iff_exists.mp (h.live v a ha)

theorem empty : Exclusive (fun _ : Addr => (none : Option Cell)) (fun _ : V => none) :=
  ⟨nofun, nofun, nofun⟩

theorem comp (h : Exclusive heap owner) (e : Equiv.Perm V) : Exclusive heap (owner ∘ e) where
  live v := h.live (e v)
  unique v u a hv hu := e.injective (h.unique _ _ a hv hu)
  owned a ha := by
    obtain ⟨v, hv⟩ := h.owned a ha
    exact ⟨e.symm v, by simpa using hv⟩

variable [DecidableEq Addr]

theorem write (h : Exclusive heap owner) (ha : owner v = some a) (c : Cell) :
    Exclusive (Function.update heap a (some c)) owner := by
  have hsome (b : Addr) : (Function.update heap a (some c) b).isSome = (heap b).isSome := by
    by_cases hb : b = a
    · subst hb
      simp [h.live v b ha]
    · rw [Function.update_of_ne hb]
  exact ⟨fun u b hu => (hsome b).trans (h.live u b hu), h.unique, fun b hb => h.owned b ((hsome b).symm.trans hb)⟩

theorem content_write (h : Exclusive heap owner) [DecidableEq V] (ha : owner v = some a) (c : Cell) :
    content (Function.update heap a (some c)) owner = Function.update (content heap owner) v (some c) := by
  funext u
  by_cases hu : u = v
  · subst hu
    simp [content, ha]
  · rw [Function.update_of_ne hu]
    cases ho : owner u with
    | none => simp [content, ho]
    | some b =>
      have hb : b ≠ a := by
        rintro rfl
        exact hu (h.unique u v b ho ha)
      simp [content, ho, Function.update_of_ne hb]

variable [DecidableEq V]

theorem fill (h : Exclusive heap owner) (hv : owner v = none) (ha : heap a = none) (c : Cell) :
    Exclusive (Function.update heap a (some c)) (Function.update owner v (some a)) := by
  have hother (u : V) (b : Addr) (hu : owner u = some b) : u ≠ v ∧ b ≠ a := by
    constructor
    · rintro rfl
      rw [hv] at hu
      cases hu
    · rintro rfl
      have hlive := h.live u b hu
      rw [ha] at hlive
      cases hlive
  have hcase (u : V) (b : Addr) (hu : Function.update owner v (some a) u = some b) :
      (u = v ∧ b = a) ∨ owner u = some b := by
    by_cases huv : u = v
    · rw [huv, Function.update_self] at hu
      exact .inl ⟨huv, (Option.some.inj hu).symm⟩
    · rw [Function.update_of_ne huv] at hu
      exact .inr hu
  refine ⟨fun u b hu => ?_, fun u w b hu hw => ?_, fun b hb => ?_⟩
  · rcases hcase u b hu with ⟨-, rfl⟩ | hu
    · simp
    · rw [Function.update_of_ne (hother u b hu).2]
      exact h.live u b hu
  · rcases hcase u b hu with ⟨huv, hb⟩ | hu' <;> rcases hcase w b hw with ⟨hwv, hb'⟩ | hw'
    · exact huv.trans hwv.symm
    · exact absurd hb (hother w b hw').2
    · exact absurd hb' (hother u b hu').2
    · exact h.unique u w b hu' hw'
  · by_cases hba : b = a
    · exact ⟨v, by rw [Function.update_self, hba]⟩
    · rw [Function.update_of_ne hba] at hb
      obtain ⟨u, hu⟩ := h.owned b hb
      exact ⟨u, by rw [Function.update_of_ne (hother u b hu).1, hu]⟩

theorem content_fill (h : Exclusive heap owner) (ha : heap a = none) (c : Cell) :
    content (Function.update heap a (some c)) (Function.update owner v (some a)) =
      Function.update (content heap owner) v (some c) := by
  funext u
  by_cases hu : u = v
  · subst hu
    simp [content]
  · simp only [content, Function.update_of_ne hu]
    cases ho : owner u with
    | none => rfl
    | some b =>
      have hb : b ≠ a := by
        rintro rfl
        have hlive := h.live u b ho
        rw [ha] at hlive
        cases hlive
      simp [Function.update_of_ne hb]

theorem release (h : Exclusive heap owner) (ha : owner v = some a) :
    Exclusive (Function.update heap a none) (Function.update owner v none) := by
  have hcase (u : V) (b : Addr) (hu : Function.update owner v none u = some b) : owner u = some b ∧ b ≠ a := by
    by_cases huv : u = v
    · rw [huv, Function.update_self] at hu
      cases hu
    · rw [Function.update_of_ne huv] at hu
      refine ⟨hu, ?_⟩
      rintro rfl
      exact huv (h.unique u v b hu ha)
  refine ⟨fun u b hu => ?_, fun u w b hu hw => h.unique u w b (hcase u b hu).1 (hcase w b hw).1, fun b hb => ?_⟩
  · rw [Function.update_of_ne (hcase u b hu).2]
    exact h.live u b (hcase u b hu).1
  · have hba : b ≠ a := by
      rintro rfl
      simp at hb
    rw [Function.update_of_ne hba] at hb
    obtain ⟨u, hu⟩ := h.owned b hb
    refine ⟨u, ?_⟩
    rw [Function.update_of_ne, hu]
    rintro rfl
    exact hba (Option.some.inj (hu.symm.trans ha))

theorem content_release (h : Exclusive heap owner) (ha : owner v = some a) :
    content (Function.update heap a none) (Function.update owner v none) =
      Function.update (content heap owner) v none := by
  funext u
  by_cases hu : u = v
  · subst hu
    simp [content]
  · simp only [content, Function.update_of_ne hu]
    cases ho : owner u with
    | none => rfl
    | some b =>
      have hb : b ≠ a := by
        rintro rfl
        exact hu (h.unique u v b ho ha)
      simp [Function.update_of_ne hb]

end Exclusive
end Abix.Heap

import Mathlib.Data.Nat.Digits.Lemmas
import Mathlib.Data.List.TakeWhile

/-! Decimal numerals as bytes of text, and taking apart a text that ends in numerals. -/
namespace Abix.Text
variable {α : Type}

def isDigit (b : UInt8) : Bool := 48 ≤ b ∧ b ≤ 57

def digitByte (d : Nat) : UInt8 := UInt8.ofNat (48 + d)

/-- The digits of a number, the least significant first; zero has one. -/
def digitBytes (n : Nat) : List UInt8 := if n = 0 then [48] else (Nat.digits 10 n).map digitByte

def numeral (n : Nat) : List UInt8 := (digitBytes n).reverse

def valueOf (bs : List UInt8) : Nat := Nat.ofDigits 10 (bs.reverse.map fun b => b.toNat - 48)

theorem valueOf_eq_foldl (bs : List UInt8) : valueOf bs = bs.foldl (fun n b => b.toNat - 48 + 10 * n) 0 := by
  rw [valueOf, Nat.ofDigits_eq_foldr, List.foldr_map, List.foldr_reverse]
  rfl

theorem toNat_digitByte {d : Nat} (h : d < 10) : (digitByte d).toNat = 48 + d := by
  rw [digitByte, UInt8.toNat_ofNat']
  omega

theorem isDigit_digitByte {d : Nat} (h : d < 10) : isDigit (digitByte d) = true := by
  have hvalue := toNat_digitByte h
  simp only [isDigit, UInt8.le_iff_toNat_le, hvalue]
  simp
  omega

theorem isDigit_of_mem_numeral {n : Nat} {b : UInt8} (h : b ∈ numeral n) : isDigit b = true := by
  rw [numeral, List.mem_reverse, digitBytes] at h
  split at h
  · obtain rfl := List.mem_singleton.mp h
    decide
  · obtain ⟨d, hd, rfl⟩ := List.mem_map.mp h
    exact isDigit_digitByte (Nat.digits_lt_base (by decide) hd)

theorem numeral_ne_nil (n : Nat) : numeral n ≠ [] := by
  rw [numeral, digitBytes, Ne, List.reverse_eq_nil_iff]
  split
  · nofun
  · rename_i hn
    simpa [Nat.digits_eq_nil_iff_eq_zero] using hn

theorem valueOf_numeral (n : Nat) : valueOf (numeral n) = n := by
  rw [valueOf, numeral, List.reverse_reverse, digitBytes]
  split
  · rename_i hn
    subst hn
    rfl
  · have hdigits : ∀ d ∈ Nat.digits 10 n, ((fun b : UInt8 => b.toNat - 48) ∘ digitByte) d = d := fun d hd => by
      have hvalue := toNat_digitByte (Nat.digits_lt_base (by decide : 1 < 10) hd)
      simp only [Function.comp, hvalue]
      omega
    rw [List.map_map, List.map_congr_left hdigits, List.map_id', Nat.ofDigits_digits]

theorem numeral_injective : Function.Injective numeral := fun m n h => by
  rw [← valueOf_numeral m, h, valueOf_numeral]

theorem length_numeral_le {n k : Nat} (hk : 0 < k) (h : n < 10 ^ k) : (numeral n).length ≤ k := by
  rw [numeral, List.length_reverse, digitBytes]
  split
  · exact hk
  · rw [List.length_map]
    exact (Nat.digits_length_le_iff (by decide) n).mpr h

/-- A string of digits spells no number that needs more of them. -/
theorem valueOf_lt {bs : List UInt8} (h : ∀ b ∈ bs, isDigit b = true) : valueOf bs < 10 ^ bs.length := by
  have hlt := Nat.ofDigits_lt_base_pow_length (b := 10) (l := bs.reverse.map fun b => b.toNat - 48) (by decide)
    fun d hd => by
      obtain ⟨b, hb, rfl⟩ := List.mem_map.mp hd
      have hdigit := h b (List.mem_reverse.mp hb)
      simp only [isDigit, decide_eq_true_eq, UInt8.le_iff_toNat_le] at hdigit
      have htop : b.toNat ≤ 57 := hdigit.2
      omega
  simpa [valueOf] using hlt

/-- A numeral is a string of digits, and no string of digits for the same number is shorter. -/
structure IsShortest (bs : List UInt8) (n : Nat) : Prop where
  ne_nil : bs ≠ []
  digits : ∀ b ∈ bs, isDigit b = true
  value : valueOf bs = n
  shortest : ∀ cs, cs ≠ [] → (∀ c ∈ cs, isDigit c = true) → valueOf cs = n → bs.length ≤ cs.length

theorem isShortest_numeral (n : Nat) : IsShortest (numeral n) n where
  ne_nil := numeral_ne_nil n
  digits _ := isDigit_of_mem_numeral
  value := valueOf_numeral n
  shortest cs hne hdigits hvalue := by
    refine length_numeral_le (List.length_pos_of_ne_nil hne) ?_
    rw [← hvalue]
    exact valueOf_lt hdigits

/-- Two lists that end in items of a kind, after a last item that is not, are taken apart alike. -/
theorem append_inj_of_trailing {p : α → Bool} {xs xs' ys ys' : List α} (h : xs ++ ys = xs' ++ ys')
    (hys : ∀ y ∈ ys, p y = true) (hys' : ∀ y ∈ ys', p y = true) (hxs : ∀ x, xs.getLast? = some x → p x = false)
    (hxs' : ∀ x, xs'.getLast? = some x → p x = false) : xs = xs' ∧ ys = ys' := by
  have htail : ∀ xs ys : List α, (∀ y ∈ ys, p y = true) → (∀ x, xs.getLast? = some x → p x = false) →
      ((xs ++ ys).reverse.takeWhile p).reverse = ys := by
    intro xs ys hys hxs
    have hnone : xs.reverse.takeWhile p = [] := by
      cases hreverse : xs.reverse with
      | nil => rfl
      | cons x rest =>
        rw [List.takeWhile_cons_of_neg]
        rw [hxs x (by rw [← List.head?_reverse, hreverse, List.head?_cons])]
        decide
    rw [List.reverse_append, List.takeWhile_append_of_pos (fun y hy => hys y (List.mem_reverse.mp hy)), hnone,
      List.append_nil, List.reverse_reverse]
  have hsame : ys = ys' := by rw [← htail xs ys hys hxs, h, htail xs' ys' hys' hxs']
  subst hsame
  exact ⟨List.append_cancel_right h, rfl⟩

def isNumeric (segment : List UInt8) : Bool := !segment.isEmpty && segment.all isDigit

theorem isNumeric_iff {segment : List UInt8} :
    isNumeric segment = true ↔ segment ≠ [] ∧ ∀ b ∈ segment, isDigit b = true := by
  rw [isNumeric, Bool.and_eq_true, Bool.not_eq_true', List.isEmpty_eq_false_iff, List.all_eq_true]

theorem isNumeric_numeral (n : Nat) : isNumeric (numeral n) = true :=
  isNumeric_iff.mpr ⟨numeral_ne_nil n, fun _ => isDigit_of_mem_numeral⟩

def joined (sep : α) (text : List α) (fields : List (List α)) : List α :=
  text ++ fields.flatMap fun field => sep :: field

theorem splitOn_joined [DecidableEq α] {sep : α} {text : List α} {fields : List (List α)}
    (h : ∀ field ∈ fields, sep ∉ field) : (joined sep text fields).splitOn sep = text.splitOn sep ++ fields := by
  induction fields generalizing text with
  | nil => simp [joined]
  | cons field fields ih =>
    have hrest : (joined sep (text ++ sep :: field) fields).splitOn sep =
        (text ++ sep :: field).splitOn sep ++ fields := ih fun f hf => h f (List.mem_cons_of_mem field hf)
    have hfield := h field List.mem_cons_self
    rw [joined, List.append_assoc] at hrest
    rw [joined, List.flatMap_cons, hrest, List.splitOn_append_cons_self, List.splitOn_eq_singleton hfield,
      List.append_assoc]
    rfl

/-- Where the last segment of the text is not numeric, the numerals that follow can be told from it. -/
theorem joined_inj {sep : UInt8} (hsep : isDigit sep = false) {text text' : List UInt8}
    {fields fields' : List (List UInt8)} (h : joined sep text fields = joined sep text' fields')
    (hfields : ∀ field ∈ fields, isNumeric field = true) (hfields' : ∀ field ∈ fields', isNumeric field = true)
    (htext : ∀ segment, (text.splitOn sep).getLast? = some segment → isNumeric segment = false)
    (htext' : ∀ segment, (text'.splitOn sep).getLast? = some segment → isNumeric segment = false) :
    text = text' ∧ fields = fields' := by
  have hfree : ∀ field, isNumeric field = true → sep ∉ field := by
    intro field hnumeric hmem
    cases hsep.symm.trans ((isNumeric_iff.mp hnumeric).2 sep hmem)
  have hsplit := congrArg (List.splitOn sep) h
  rw [splitOn_joined fun f hf => hfree f (hfields f hf), splitOn_joined fun f hf => hfree f (hfields' f hf)] at hsplit
  obtain ⟨hsegments, hsame⟩ := append_inj_of_trailing hsplit hfields hfields' htext htext'
  refine ⟨?_, hsame⟩
  calc text = [sep].intercalate (text.splitOn sep) := (List.intercalate_splitOn sep).symm
    _ = [sep].intercalate (text'.splitOn sep) := by rw [hsegments]
    _ = text' := List.intercalate_splitOn sep

end Abix.Text

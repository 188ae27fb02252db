import HintQuality.Decimal.Reader
import Mathlib.Algebra.Order.Ring.Nat
import Mathlib.Data.List.Basic
import Mathlib.Tactic.SplitIfs
/-!
# Integers in decimal

The decimal text of an integer is read back as the double nearest to that integer (`readFloat?_intText`), and no two
integers share one (`intText_injective`). The digits of a number are below ten, stand for the number, and are at least
as many as its size wants (`ofDigits_digits`, `pow_length_digits_le`).
-/

namespace HintQuality

namespace Text

/-! ## Digits -/

/-- Induction over a number digit by digit. -/
theorem digits_induct {P : Nat → Prop} (small : ∀ n < 10, P n) (more : ∀ n, 10 ≤ n → P (n / 10) → P n) (n : Nat) :
    P n :=
  if h : n < 10 then small n h else more n (by omega) (digits_induct small more (n / 10))
termination_by n

theorem digits_go (n : Nat) (tail : List Nat) : digits.go n tail = digits.go n [] ++ tail := by
  induction n using digits_induct generalizing tail with
  | small n h =>
    unfold digits.go
    simp [h]
  | more n h ih =>
    have hn : ¬n < 10 := by omega
    rw [digits.go, digits.go.eq_def n []]
    simp only [if_neg hn]
    rw [ih, ih [n % 10], List.append_assoc]
    rfl

theorem digits_of_lt {n : Nat} (h : n < 10) : digits n = [n] := by
  rw [digits, digits.go, if_pos h]

theorem digits_of_le {n : Nat} (h : 10 ≤ n) : digits n = digits (n / 10) ++ [n % 10] := by
  rw [digits, digits.go, if_neg (by omega), digits_go]
  rfl

theorem lt_of_mem_digits {n d : Nat} (hd : d ∈ digits n) : d < 10 := by
  induction n using digits_induct with
  | small n h =>
    rw [digits_of_lt h, List.mem_singleton] at hd
    omega
  | more n h ih =>
    rw [digits_of_le h, List.mem_append, List.mem_singleton] at hd
    rcases hd with hd | rfl
    · exact ih hd
    · omega

theorem digits_ne_nil (n : Nat) : digits n ≠ [] := by
  rcases Nat.lt_or_ge n 10 with h | h
  · simp [digits_of_lt h]
  · simp [digits_of_le h]

/-- The digits of a number denote it. -/
theorem ofDigits_digits (n : Nat) : ofDigits 10 (digits n) = n := by
  induction n using digits_induct with
  | small n h => simp [digits_of_lt h, ofDigits]
  | more n h ih =>
    rw [ofDigits] at ih
    rw [digits_of_le h, ofDigits, List.foldl_append, ih]
    simp only [List.foldl_cons, List.foldl_nil]
    omega

theorem pow_length_digits_le {n : Nat} (hn : 0 < n) : 10 ^ ((digits n).length - 1) ≤ n := by
  induction n using digits_induct with
  | small n h =>
    rw [digits_of_lt h]
    exact hn
  | more n h ih =>
    have hrest := ih (by omega)
    have hlen : 0 < (digits (n / 10)).length := List.length_pos_iff.2 (digits_ne_nil _)
    obtain ⟨k, hk⟩ := Nat.exists_eq_succ_of_ne_zero (Nat.ne_of_gt hlen)
    rw [hk, Nat.succ_sub_one] at hrest
    rw [digits_of_le h, List.length_append, List.length_singleton, Nat.add_sub_cancel, hk, Nat.pow_succ]
    omega

theorem lt_pow_length_digits (n : Nat) : n < 10 ^ (digits n).length := by
  induction n using digits_induct with
  | small n h =>
    rw [digits_of_lt h]
    exact h
  | more n h ih =>
    rw [digits_of_le h, List.length_append, List.length_singleton, Nat.pow_succ]
    omega

theorem digit?_digitChar : ∀ d < 10, digit? (digitChar d) = some d := by
  decide

/-! ## Trimming -/

/-- A text without blanks at its ends is not trimmed. -/
theorem trimBy_eq_self {p : Char → Bool} {cs : List Char} (h : ∀ c ∈ cs, p c = false) : trimBy p cs = cs := by
  have hnone : ∀ cs : List Char, (∀ c ∈ cs, p c = false) → cs.dropWhile p = cs := by
    intro cs h
    cases cs with
    | nil => rfl
    | cons c cs => exact List.dropWhile_cons_of_neg (by simp [h c List.mem_cons_self])
  rw [trimBy, hnone cs h, hnone cs.reverse (by simpa using h), List.reverse_reverse]

end Text

namespace Decimal

open Text

/-- Digits up to the end of a text are all read. -/
theorem spanDigits_map : ∀ {ds : List Nat}, (∀ d ∈ ds, d < 10) → spanDigits (ds.map digitChar) = (ds, [])
  | [], _ => rfl
  | [d], h => by
    simp only [List.map_cons, List.map_nil, spanDigits, digit?_digitChar d (h d List.mem_cons_self)]
  | d :: d' :: ds, h => by
    have hrest : spanDigits ((d' :: ds).map digitChar) = (d' :: ds, []) :=
      spanDigits_map fun x hx => h x (List.mem_cons_of_mem _ hx)
    have hd' : digitChar d' ≠ '_' := by
      have : ∀ d < 10, digitChar d ≠ '_' := by decide
      exact this d' (h d' (by simp))
    rw [List.map_cons] at hrest
    simp only [List.map_cons, spanDigits, digit?_digitChar d (h d List.mem_cons_self), if_neg hd', hrest]

/-- The characters of decimal digits are no white space, no signs and no letters. -/
theorem digitChar_ne : ∀ d < 10, isMargin (digitChar d) = false ∧ digitChar d ≠ '-' ∧ digitChar d ≠ '+' ∧
    (digitChar d).toLower ≠ 'n' := by
  decide

variable (n : Nat)

theorem spanSign_digits : spanSign ((digits n).map digitChar) = (false, (digits n).map digitChar) := by
  obtain ⟨d, ds, hds⟩ := List.exists_cons_of_ne_nil (digits_ne_nil n)
  obtain ⟨-, hminus, hplus, -⟩ := digitChar_ne d (lt_of_mem_digits (n := n) (by simp [hds]))
  rw [hds, List.map_cons]
  unfold spanSign
  split
  · rename_i h
    exact absurd (List.cons.inj h).1 hminus
  · rename_i h
    exact absurd (List.cons.inj h).1 hplus
  · rfl

/-- Digits do not spell the name of an infinity or of no number. -/
theorem digits_ne_name (name : String) (h : 'n' ∈ name.toList) :
    String.ofList (((digits n).map digitChar).map Char.toLower) ≠ name := by
  rintro rfl
  rw [String.toList_ofList, List.map_map] at h
  obtain ⟨d, hd, hn⟩ := List.mem_map.1 h
  exact (digitChar_ne d (lt_of_mem_digits hd)).2.2.2 hn

theorem readDecimal?_digits : readDecimal? ((digits n).map digitChar) = some (toFloat n 0) := by
  have hspan : spanDigits ((digits n).map digitChar) = (digits n, []) := spanDigits_map fun d hd => lt_of_mem_digits hd
  have hempty : (digits n).isEmpty = false := by simp [digits_ne_nil]
  simp [readDecimal?, hspan, hempty, readExponent?, ofDigits_digits]

theorem isMargin_digits {c : Char} (hc : c ∈ (digits n).map digitChar) : isMargin c = false := by
  obtain ⟨d, hd, rfl⟩ := List.mem_map.1 hc
  exact (digitChar_ne d (lt_of_mem_digits hd)).1

theorem return_not_mem_intText (i : Int) : '\r' ∉ (intText i).toList := by
  have hdigits : '\r' ∉ (digits i.natAbs).map digitChar := by
    intro h
    have := isMargin_digits _ h
    revert this
    decide
  unfold intText
  split_ifs <;> simpa [natText] using hdigits

/-- The characters of an integer that are digits are its digits. -/
theorem filterMap_intText (i : Int) : (intText i).toList.filterMap digit? = digits i.natAbs := by
  have hdigits : ((digits i.natAbs).map digitChar).filterMap digit? = digits i.natAbs := by
    rw [List.filterMap_map]
    refine (List.filterMap_congr fun d hd => ?_).trans List.filterMap_some
    exact digit?_digitChar d (lt_of_mem_digits hd)
  unfold intText
  split_ifs with h
  · have hminus : digit? '-' = none := by decide
    simp [natText, hdigits, hminus]
  · rw [natText, String.toList_ofList, hdigits]

theorem minus_mem_intText_iff (i : Int) : '-' ∈ (intText i).toList ↔ i < 0 := by
  unfold intText
  split_ifs with h
  · simp [h]
  · have hdigits : '-' ∉ (natText i.natAbs).toList := by
      rw [natText, String.toList_ofList]
      intro hmem
      obtain ⟨d, hd, hchar⟩ := List.mem_map.1 hmem
      exact (digitChar_ne d (lt_of_mem_digits hd)).2.1 hchar
    simp [h, hdigits]

/-- Integers of the same decimal text are the same. -/
theorem intText_injective : Function.Injective intText := by
  intro i j h
  have habs : i.natAbs = j.natAbs := by
    rw [← ofDigits_digits i.natAbs, ← ofDigits_digits j.natAbs, ← filterMap_intText, ← filterMap_intText, h]
  have hsign : i < 0 ↔ j < 0 := by rw [← minus_mem_intText_iff, ← minus_mem_intText_iff, h]
  omega

/-- The decimal text of an integer is read as the double nearest to it. -/
theorem readFloat?_intText (i : Int) : readFloat? (intText i) = some (ofInt i) := by
  have hinf := digits_ne_name i.natAbs "inf" (by decide)
  have hinfinity := digits_ne_name i.natAbs "infinity" (by decide)
  have hnan := digits_ne_name i.natAbs "nan" (by decide)
  unfold intText ofInt
  split_ifs with h
  · have htext : ("-" ++ natText i.natAbs).toList = '-' :: (digits i.natAbs).map digitChar := by simp [natText]
    have htrim : trimBy isMargin ('-' :: (digits i.natAbs).map digitChar) = '-' :: (digits i.natAbs).map digitChar := by
      refine trimBy_eq_self fun c hc => ?_
      rcases List.mem_cons.1 hc with rfl | hc
      · decide
      · exact isMargin_digits _ hc
    simp only [readFloat?, htext, htrim, spanSign, hinf, hinfinity, hnan, readDecimal?_digits]
    rfl
  · have htrim := trimBy_eq_self fun c hc => isMargin_digits i.natAbs hc
    simp only [readFloat?, natText, String.toList_ofList, htrim, spanSign_digits, hinf, hinfinity, hnan,
      readDecimal?_digits]
    rfl

end Decimal

end HintQuality

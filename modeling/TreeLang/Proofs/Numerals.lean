import TreeLang.Json.Token
import Mathlib.Data.List.TakeWhile

/-! Numerals as they are printed. The text of a number is read back as that number, and it
is a number of the JSON grammar: an optional minus sign and digits without leading zero. -/
namespace TreeLang.Decimal

theorem isDigit_eq (c : Char) : isDigit c = c.isDigit := rfl

theorem all_isDigit_toDigits (n : Nat) : (Nat.toDigits 10 n).all isDigit := by
  rw [List.all_eq_true]
  intro c member
  rw [isDigit_eq]
  exact Nat.isDigit_of_mem_toDigits (by decide) (by decide) member

theorem value_toDigits (n : Nat) : value (Nat.toDigits 10 n) = n := by
  have same : value (Nat.toDigits 10 n) = Nat.ofDigitChars 10 (Nat.toDigits 10 n) 0 :=
    Nat.ofDigitChars_eq_foldl.symm
  rw [same, Nat.ofDigitChars_ten_toDigits]

theorem natural?_toDigits (n : Nat) : natural? (Nat.toDigits 10 n) = some n := by
  rw [natural?, if_pos ⟨Nat.toDigits_ne_nil, all_isDigit_toDigits n⟩, value_toDigits]

/-- Only zero starts with the digit zero. -/
theorem head?_toDigits {n : Nat} (positive : 0 < n) : (Nat.toDigits 10 n).head? ≠ some '0' := by
  induction n using Nat.strongRecOn with
  | ind n rec =>
    by_cases single : n < 10
    · rw [Nat.toDigits_of_lt_base single]
      simp only [List.head?_cons, ne_eq, Option.some.injEq, Nat.digitChar_eq_zero]
      omega
    · have shorter := rec (n / 10) (by omega) (by omega)
      rw [Nat.toDigits_of_base_le (by decide) (by omega), List.head?_append]
      cases head : (Nat.toDigits 10 (n / 10)).head? with
      | none => exact absurd (List.head?_eq_none_iff.mp head) Nat.toDigits_ne_nil
      | some c =>
        rw [head] at shorter
        exact shorter

theorem toList_text_ofNat (n : Nat) : (text (.ofNat n)).toList = Nat.toDigits 10 n := by
  rw [text, Nat.toList_repr]

theorem toList_text_negSucc (n : Nat) :
    (text (.negSucc n)).toList = '-' :: Nat.toDigits 10 (n + 1) := by
  rw [text, String.toList_append, Nat.toList_repr]
  rfl

/-- Digits alone have no sign. -/
theorem integer?_of_digits {spelling : List Char} (digits : spelling.all isDigit) :
    integer? spelling = (natural? spelling).map Int.ofNat := by
  unfold integer?
  split
  · simp [isDigit] at digits
  · simp [isDigit] at digits
  · rfl

theorem integer?_toDigits (n : Nat) : integer? (Nat.toDigits 10 n) = some (n : Int) := by
  rw [integer?_of_digits (all_isDigit_toDigits n), natural?_toDigits]
  rfl

theorem integer?_text (k : Int) : integer? (text k).toList = some k := by
  cases k with
  | ofNat n => rw [toList_text_ofNat, integer?_toDigits]; rfl
  | negSucc n => rw [toList_text_negSucc, integer?, natural?_toDigits]; rfl

theorem word?_toInt (n : Int64) : word? n.toInt = some n := by
  rw [word?, if_pos ⟨n.minValue_le_toInt, n.toInt_le⟩, Int64.ofInt_toInt]

theorem readWord?_wordText (n : Int64) : readWord? (wordText n) = some n := by
  rw [readWord?, wordText, integer?_text, Option.bind_some, word?_toInt]

/-- No text of a number is a negative zero. -/
theorem text_ne_negative_zero (k : Int) : text k ≠ "-0" := by
  intro same
  have read : integer? (text k).toList = some 0 := by rw [same]; rfl
  rw [integer?_text] at read
  obtain rfl : k = 0 := Option.some.inj read
  exact absurd same (by decide)

end TreeLang.Decimal

namespace TreeLang.Json

theorem isUnsignedNumber_toDigits (n : Nat) : isUnsignedNumber (Nat.toDigits 10 n) := by
  by_cases zero : n = 0
  · subst zero
    rfl
  · have head := Decimal.head?_toDigits (Nat.pos_of_ne_zero zero)
    have digits := Decimal.all_isDigit_toDigits n
    have filled : Nat.toDigits 10 n ≠ [] := Nat.toDigits_ne_nil
    generalize Nat.toDigits 10 n = run at head digits filled
    have taken := List.takeWhile_eq_self_iff.mpr (List.all_eq_true.mp digits)
    have dropped := List.dropWhile_eq_nil_iff.mpr (List.all_eq_true.mp digits)
    unfold isUnsignedNumber
    split
    · simp at head
    · simp [taken, dropped, filled, isNumberTail, isExponent]

theorem isNumber_text (k : Int) : isNumber (Decimal.text k).toList := by
  cases k with
  | ofNat n =>
    rw [Decimal.toList_text_ofNat]
    have digits := Decimal.all_isDigit_toDigits n
    have unsigned := isUnsignedNumber_toDigits n
    generalize Nat.toDigits 10 n = run at digits unsigned
    unfold isNumber
    split
    · simp [Decimal.isDigit] at digits
    · exact unsigned
  | negSucc n =>
    rw [Decimal.toList_text_negSucc]
    exact isUnsignedNumber_toDigits (n + 1)

end TreeLang.Json

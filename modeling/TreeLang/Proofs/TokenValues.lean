import TreeLang.Console
import TreeLang.Datum
import TreeLang.Proofs.Spelling
import Mathlib.Data.List.Induction
import Mathlib.Data.Nat.Digits.Defs
import Mathlib.Data.Set.List

/-! The values of tokens. A numeral has a sign or none, and then digits; its number is that of the
digits in base ten, with the sign. A token is read as an integer if it is a numeral and its number
fits into 64 bits, and as a truth value if it is one of two words or can be read as an integer; all
else is refused. What is printed for a scalar is read back as this scalar. -/
namespace TreeLang

namespace Decimal

/-! ### Numerals -/

inductive Sign where
  | missing
  | plus
  | minus

def Sign.spelling : Sign → List Char
  | missing => []
  | plus => ['+']
  | minus => ['-']

def glyph (digit : Fin 10) : Char := digit.val.digitChar

/-- The number of digits in base ten, the most significant first. -/
def magnitude (digits : List (Fin 10)) : Nat := Nat.ofDigits 10 (digits.reverse.map Fin.val)

/-- A sign or none, and at least one digit. -/
structure Numeral where
  sign : Sign
  digits : List (Fin 10)
  filled : digits ≠ []

namespace Numeral

def text (numeral : Numeral) : String :=
  String.ofList (numeral.sign.spelling ++ numeral.digits.map glyph)

def number (numeral : Numeral) : Int :=
  match numeral.sign with
  | .minus => -magnitude numeral.digits
  | _ => magnitude numeral.digits

end Numeral

variable {spelling : List Char} {token : String} {k : Int} {n : Int64}

theorem toNat_glyph (d : Fin 10) : (glyph d).toNat = 48 + d := by
  revert d
  decide

theorem isDigit_glyph (d : Fin 10) : isDigit (glyph d) = true := by
  revert d
  decide

theorem exists_glyph {c : Char} (digit : isDigit c) : ∃ d, glyph d = c := by
  have range : 48 ≤ c.toNat ∧ c.toNat ≤ 57 := by
    simpa [isDigit, Char.le_def, UInt32.le_iff_toNat_le] using digit
  refine ⟨⟨c.toNat - 48, by omega⟩, Char.toNat_inj.mp ?_⟩
  rw [toNat_glyph]
  simp only
  omega

/-- Reading digit by digit gives the number in base ten. -/
theorem value_glyphs (digits : List (Fin 10)) : value (digits.map glyph) = magnitude digits := by
  induction digits using List.reverseRecOn with
  | nil => rfl
  | append_singleton digits d ih =>
    have last : digit (glyph d) = d := by
      rw [digit, toNat_glyph]
      change 48 + d.val - 48 = d.val
      omega
    have first : value (digits.map glyph ++ [glyph d]) = 10 * value (digits.map glyph) + d := by
      rw [value, List.foldl_append, List.foldl_cons, List.foldl_nil, last, value]
    rw [List.map_append, List.map_singleton, first, ih]
    simp only [magnitude, List.reverse_append, List.reverse_singleton, List.singleton_append, List.map_cons,
      Nat.ofDigits_cons]
    omega

theorem natural?_eq_some_iff_glyphs {m : Nat} : natural? spelling = some m ↔
    ∃ digits, digits ≠ [] ∧ digits.map glyph = spelling ∧ magnitude digits = m := by
  rw [natural?_eq_some_iff]
  constructor
  · rintro ⟨filled, all, rfl⟩
    have each : ∀ c ∈ spelling, c ∈ Set.range glyph :=
      fun c member => exists_glyph (List.all_eq_true.mp all c member)
    obtain ⟨digits, rfl⟩ : spelling ∈ Set.range (List.map glyph) := by
      rw [Set.range_list_map]
      exact each
    exact ⟨digits, by simpa using filled, rfl, (value_glyphs digits).symm⟩
  · rintro ⟨digits, filled, rfl, rfl⟩
    refine ⟨by simpa using filled, ?_, (value_glyphs digits).symm⟩
    simp [isDigit_glyph]

/-- A spelling is read as a number exactly if it is a numeral of this number. -/
theorem integer?_eq_some_iff : integer? spelling = some k ↔
    ∃ numeral : Numeral, numeral.text.toList = spelling ∧ numeral.number = k := by
  constructor
  · intro read
    unfold integer? at read
    split at read
    all_goals
      obtain ⟨m, natural, rfl⟩ := Option.map_eq_some_iff.mp read
      obtain ⟨digits, filled, spelt, rfl⟩ := natural?_eq_some_iff_glyphs.mp natural
    · exact ⟨⟨.plus, digits, filled⟩, by simpa [Numeral.text, Sign.spelling] using spelt, rfl⟩
    · exact ⟨⟨.minus, digits, filled⟩, by simpa [Numeral.text, Sign.spelling] using spelt, rfl⟩
    · exact ⟨⟨.missing, digits, filled⟩, by simpa [Numeral.text, Sign.spelling] using spelt, rfl⟩
  · rintro ⟨⟨sign, digits, filled⟩, rfl, rfl⟩
    have natural : natural? (digits.map glyph) = some (magnitude digits) :=
      natural?_eq_some_iff_glyphs.mpr ⟨digits, filled, rfl, rfl⟩
    rw [Numeral.text, String.toList_ofList]
    cases sign with
    | missing =>
      have digit : (digits.map glyph).all isDigit := (natural?_eq_some_iff.mp natural).2.1
      rw [Sign.spelling, List.nil_append, integer?_of_digits digit, natural]
      rfl
    | plus =>
      rw [Sign.spelling, List.singleton_append, integer?, natural]
      rfl
    | minus =>
      rw [Sign.spelling, List.singleton_append, integer?, natural]
      rfl

theorem readWord?_eq_some_iff : readWord? token = some n ↔
    ∃ numeral : Numeral, numeral.text = token ∧ numeral.number = n.toInt := by
  simp only [readWord?, Option.bind_eq_some_iff, word?_eq_some_iff, integer?_eq_some_iff, String.toList_inj]
  constructor
  · rintro ⟨_, numeral, rfl⟩
    exact numeral
  · rintro numeral
    exact ⟨_, numeral, rfl⟩

end Decimal

/-! ### Tokens -/

variable {token : String} {n : Int64} {b : Bool}

theorem intOfToken_eq_ok_iff : intOfToken token = .ok n ↔ Decimal.readWord? token = some n := by
  rw [intOfToken]
  cases Decimal.readWord? token <;> simp

/-- The two words are no numerals, so it does not matter that they are looked for first. -/
theorem boolOfToken_eq_ok_iff : boolOfToken token = .ok b ↔
    token = "true" ∧ b = true ∨ token = "false" ∧ b = false ∨
      ∃ n, intOfToken token = .ok n ∧ b = (n != 0) := by
  simp only [intOfToken_eq_ok_iff]
  by_cases yes : token = "true"
  · have word : Decimal.readWord? token = none := by
      rw [yes]
      decide
    simp [boolOfToken, yes, yes ▸ word, eq_comm]
  · by_cases no : token = "false"
    · have word : Decimal.readWord? token = none := by
        rw [no]
        decide
      simp [boolOfToken, no, no ▸ word, eq_comm]
    · simp only [boolOfToken, if_neg yes, if_neg no]
      cases Decimal.readWord? token <;> simp [yes, no, eq_comm]

theorem intOfToken_ok_or_refused (token : String) :
    (∃ n, intOfToken token = .ok n) ∨ intOfToken token = .error (.typeMismatch "integer input" token) := by
  rw [intOfToken]
  cases Decimal.readWord? token <;> simp

theorem boolOfToken_ok_or_refused (token : String) :
    (∃ b, boolOfToken token = .ok b) ∨ boolOfToken token = .error (.typeMismatch "boolean input" token) := by
  rw [boolOfToken]
  by_cases yes : token = "true"
  · simp [yes]
  · by_cases no : token = "false"
    · simp [no]
    · rw [if_neg yes, if_neg no]
      cases Decimal.readWord? token <;> simp

theorem intOfToken_text (heap : Heap) (n : Int64) : intOfToken (heap.text (.int n)) = .ok n :=
  intOfToken_eq_ok_iff.mpr (Decimal.readWord?_wordText n)

theorem boolOfToken_text (heap : Heap) (b : Bool) : boolOfToken (heap.text (.bool b)) = .ok b := by
  rw [boolOfToken_eq_ok_iff]
  cases b with
  | false => exact .inr (.inl ⟨rfl, rfl⟩)
  | true => exact .inl ⟨rfl, rfl⟩

/-- A token is read as an integer exactly if it is a numeral whose number has 64 bits, and the
integer is this number. It is read as a truth value exactly if it is the word for this value, or is
read as an integer, which is true when not zero. Any other token is refused for its type. So a
scalar that was printed can be read again. -/
theorem token_values :
    (∀ token (k : Int), (∃ n, intOfToken token = .ok n ∧ n.toInt = k) ↔
      (∃ numeral : Decimal.Numeral, numeral.text = token ∧ numeral.number = k) ∧
        -9223372036854775808 ≤ k ∧ k ≤ 9223372036854775807) ∧
    (∀ token b, boolOfToken token = .ok b ↔ token = "true" ∧ b = true ∨ token = "false" ∧ b = false ∨
      ∃ n, intOfToken token = .ok n ∧ b = (n != 0)) ∧
    (∀ token, (∃ n, intOfToken token = .ok n) ∨
      intOfToken token = .error (.typeMismatch "integer input" token)) ∧
    (∀ token, (∃ b, boolOfToken token = .ok b) ∨
      boolOfToken token = .error (.typeMismatch "boolean input" token)) ∧
    (∀ (heap : Heap) n, intOfToken (heap.text (.int n)) = .ok n) ∧
    ∀ (heap : Heap) b, boolOfToken (heap.text (.bool b)) = .ok b := by
  refine ⟨fun token k => ?_, fun token b => boolOfToken_eq_ok_iff, intOfToken_ok_or_refused,
    boolOfToken_ok_or_refused, intOfToken_text, boolOfToken_text⟩
  simp only [intOfToken_eq_ok_iff, Decimal.readWord?_eq_some_iff]
  constructor
  · rintro ⟨n, numeral, rfl⟩
    exact ⟨numeral, n.minValue_le_toInt, n.toInt_le⟩
  · rintro ⟨⟨numeral, spelt, rfl⟩, low, high⟩
    have fits : (Int64.ofInt numeral.number).toInt = numeral.number :=
      Int64.toInt_ofInt_of_le low (Int.lt_add_one_of_le high)
    exact ⟨Int64.ofInt numeral.number, ⟨numeral, spelt, fits.symm⟩, fits⟩

/-- The least number has no positive counterpart. -/
example : intOfToken "-09223372036854775808" = .ok Int64.minValue ∧
    intOfToken "9223372036854775808" = .error (.typeMismatch "integer input" "9223372036854775808") :=
  ⟨by rfl, by rfl⟩

end TreeLang

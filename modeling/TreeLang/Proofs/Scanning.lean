import TreeLang.Json.Token
import TreeLang.Json.Writer
import Mathlib.Data.List.TakeWhile

/-! What the scanner makes of written text, token by token. A number or a word ends where a
character of another class follows, so that each token is looked at in front of the text
that comes after it. -/
namespace TreeLang.Json

/-! ### Steps of the scanner -/

namespace Scanner

/-- The tokens found by a scanner that takes the rest of a text. -/
def finish? (scanner : Scanner) (rest : List Char) : Option (List Token) := do
  let scanner ← rest.foldlM Scanner.advance? scanner
  let scanner ← scanner.close?
  return scanner.tokens.reverse

theorem finish?_nil (scanner : Scanner) :
    scanner.finish? [] = scanner.close?.map (·.tokens.reverse) := by
  cases closed : scanner.close? <;> simp [finish?, closed]

theorem finish?_cons (scanner : Scanner) (c : Char) (rest : List Char) :
    scanner.finish? (c :: rest) = (scanner.advance? c).bind (·.finish? rest) := by
  simp only [finish?, List.foldlM_cons, bind_assoc]
  rfl

end Scanner

/-- From a mode the scanner takes the whole text and finds these tokens in it. -/
def Mode.Scans (mode : Mode) (text : List Char) (tokens : List Token) : Prop :=
  ∀ found, Scanner.finish? ⟨found, mode⟩ text = some (found.reverse ++ tokens)

namespace Mode.Scans

variable {mode next : Mode} {c : Char} {text rest : List Char} {token : Token}
  {tokens : List Token}

theorem nil : Mode.between.Scans [] [] := by
  intro found
  simp [Scanner.finish?_nil, Scanner.close?]

theorem step (later : next.Scans rest tokens)
    (takes : ∀ found, Scanner.advance? ⟨found, mode⟩ c = some ⟨found, next⟩) :
    mode.Scans (c :: rest) tokens := by
  intro found
  rw [Scanner.finish?_cons, takes, Option.bind_some, later]

theorem emit (later : Mode.between.Scans rest tokens)
    (takes : ∀ found, Scanner.advance? ⟨found, mode⟩ c = some ⟨token :: found, .between⟩) :
    mode.Scans (c :: rest) (token :: tokens) := by
  intro found
  rw [Scanner.finish?_cons, takes, Option.bind_some, later, List.reverse_cons,
    List.append_assoc, List.singleton_append]

/-- A token that ends where something else begins, or with the text. -/
theorem close (later : Mode.between.Scans rest tokens)
    (closes : ∀ found, Scanner.close? ⟨found, mode⟩ = some ⟨token :: found, .between⟩)
    (ends : ∀ found, ∀ c ∈ rest.head?, Scanner.advance? ⟨found, mode⟩ c =
      (Scanner.close? ⟨found, mode⟩).bind (·.start? c)) :
    mode.Scans rest (token :: tokens) := by
  intro found
  have after := later (token :: found)
  rw [List.reverse_cons, List.append_assoc, List.singleton_append] at after
  rw [← after]
  cases rest with
  | nil =>
    rw [Scanner.finish?_nil, Scanner.finish?_nil, closes]
    rfl
  | cons c rest =>
    rw [Scanner.finish?_cons, Scanner.finish?_cons, ends found c rfl, closes]
    rfl

section Run

/-! Numbers and words are runs of characters of one class. -/

variable (build : List Char → Mode) (inside : Char → Bool)
  (advances : ∀ found taken c, Scanner.advance? ⟨found, build taken⟩ c =
    if inside c then some ⟨found, build (c :: taken)⟩
    else (Scanner.close? ⟨found, build taken⟩).bind (·.start? c))

include advances

theorem collect {taken : List Char} (within : text.all inside)
    (later : (build (text.reverse ++ taken)).Scans rest tokens) :
    (build taken).Scans (text ++ rest) tokens := by
  induction text generalizing taken with
  | nil => exact later
  | cons c text rec =>
    simp only [List.all_cons, Bool.and_eq_true] at within
    rw [List.reverse_cons, List.append_assoc] at later
    apply (rec within.2 later).step
    intro found
    rw [advances, if_pos within.1]
    rfl

theorem run (later : Mode.between.Scans rest tokens)
    (starts : ∀ found, Scanner.start? ⟨found, .between⟩ c = some ⟨found, build [c]⟩)
    (within : text.all inside)
    (closes : ∀ found,
      Scanner.close? ⟨found, build (c :: text).reverse⟩ = some ⟨token :: found, .between⟩)
    (ends : ∀ c ∈ rest.head?, inside c = false) :
    Mode.between.Scans (c :: text ++ rest) (token :: tokens) := by
  have closed : (build (c :: text).reverse).Scans rest (token :: tokens) := by
    apply later.close closes
    intro found d first
    rw [advances, ends d first]
    rfl
  rw [List.reverse_cons] at closed
  exact (collect build inside advances within closed).step starts

end Run

end Mode.Scans

/-! ### Numbers and words -/

theorem isNumberChar_of_isDigit {c : Char} (digit : Decimal.isDigit c) : isNumberChar c := by
  simp [isNumberChar, digit]

theorem all_isNumberChar_of_isDigits {run : List Char} (digits : isDigits run) :
    run.all isNumberChar := by
  simp only [isDigits, Bool.and_eq_true] at digits
  exact List.all_eq_true.mpr fun c member =>
    isNumberChar_of_isDigit (List.all_eq_true.mp digits.2 c member)

theorem all_isNumberChar_of_isExponent {run : List Char} (exponent : isExponent run) :
    run.all isNumberChar := by
  have mark {c : Char} (letter : (c == 'e' || c == 'E') = true) : isNumberChar c := by
    simp only [Bool.or_eq_true, beq_iff_eq] at letter
    rcases letter with rfl | rfl <;> decide
  unfold isExponent at exponent
  split at exponent
  · rfl
  all_goals
    simp only [Bool.and_eq_true] at exponent
    simp only [List.all_cons, mark exponent.1, all_isNumberChar_of_isDigits exponent.2]
    decide

/-- The digits in front of a run, and what is left. -/
theorem all_isNumberChar_of_dropWhile {run : List Char}
    (left : (run.dropWhile Decimal.isDigit).all isNumberChar) : run.all isNumberChar := by
  rw [← List.takeWhile_append_dropWhile (p := Decimal.isDigit) (l := run), List.all_append,
    Bool.and_eq_true]
  constructor
  · rw [List.all_eq_true]
    intro c member
    exact isNumberChar_of_isDigit (List.mem_takeWhile_imp member)
  · exact left

theorem all_isNumberChar_of_isNumberTail {run : List Char} (tail : isNumberTail run) :
    run.all isNumberChar := by
  unfold isNumberTail at tail
  split at tail
  · simp only [Bool.and_eq_true] at tail
    have rest := all_isNumberChar_of_dropWhile (all_isNumberChar_of_isExponent tail.2)
    simp only [List.all_cons, rest]
    decide
  · exact all_isNumberChar_of_isExponent tail

theorem all_isNumberChar_of_isUnsignedNumber {run : List Char} (number : isUnsignedNumber run) :
    run.all isNumberChar := by
  unfold isUnsignedNumber at number
  split at number
  · simp only [List.all_cons, all_isNumberChar_of_isNumberTail number]
    decide
  · simp only [Bool.and_eq_true] at number
    exact all_isNumberChar_of_dropWhile (all_isNumberChar_of_isNumberTail number.2)

theorem all_isNumberChar_of_isNumber {run : List Char} (number : isNumber run) :
    run.all isNumberChar := by
  unfold isNumber at number
  split at number
  · simp only [List.all_cons, all_isNumberChar_of_isUnsignedNumber number]
    decide
  · exact all_isNumberChar_of_isUnsignedNumber number

theorem isDigit_head_of_isUnsignedNumber {c : Char} {run : List Char}
    (number : isUnsignedNumber (c :: run)) : Decimal.isDigit c := by
  unfold isUnsignedNumber at number
  split at number
  case h_1 same =>
    obtain ⟨rfl, -⟩ := List.cons.inj same
    decide
  case h_2 =>
    by_contra other
    simp [other] at number

theorem isLetter_head_of_isNumber {c : Char} {run : List Char} (number : isNumber (c :: run)) :
    isLetter c = false := by
  unfold isNumber at number
  split at number
  case h_1 same =>
    obtain ⟨rfl, -⟩ := List.cons.inj same
    decide
  case h_2 =>
    have digit := isDigit_head_of_isUnsignedNumber number
    simp only [Decimal.isDigit, isLetter, Bool.and_eq_true, decide_eq_true_eq,
      Bool.and_eq_false_iff, decide_eq_false_iff_not] at digit ⊢
    left
    intro letter
    exact absurd (Char.le_trans letter digit.2) (by decide)

/-- A number or a word in front of the text ends there. -/
def Delimited (text : List Char) : Prop :=
  ∀ c ∈ text.head?, isLetter c = false ∧ isNumberChar c = false

namespace Mode.Scans

variable {text rest : List Char} {token : Token} {tokens : List Token}

theorem word (c : Char) (text : List Char) (later : Mode.between.Scans rest tokens)
    (delimited : Delimited rest) (letters : (c :: text).all isLetter)
    (meant : wordToken? (String.ofList (c :: text)) = some token) :
    Mode.between.Scans (c :: text ++ rest) (token :: tokens) := by
  simp only [List.all_cons, Bool.and_eq_true] at letters
  apply run .word isLetter (fun _ _ _ => rfl) later
  case starts =>
    intro found
    unfold Scanner.start?
    split
    all_goals first | exact absurd letters.1 (by decide) | simp [letters.1]
  case within => exact letters.2
  case closes =>
    intro found
    simp only [Scanner.close?, List.reverse_reverse, meant]
    rfl
  case ends => exact fun d first => (delimited d first).1

theorem number (later : Mode.between.Scans rest tokens) (delimited : Delimited rest)
    (numeral : isNumber text) :
    Mode.between.Scans (text ++ rest) (.number (String.ofList text) :: tokens) := by
  cases text with
  | nil => exact absurd numeral (by decide)
  | cons c text =>
    have marks := all_isNumberChar_of_isNumber numeral
    have plain := isLetter_head_of_isNumber numeral
    simp only [List.all_cons, Bool.and_eq_true] at marks
    apply run .number isNumberChar (fun _ _ _ => rfl) later
    case starts =>
      intro found
      unfold Scanner.start?
      split
      all_goals first | exact absurd marks.1 (by decide) | simp [plain, marks.1]
    case within => exact marks.2
    case closes =>
      intro found
      simp only [Scanner.close?, List.reverse_reverse, numeral]
      rfl
    case ends => exact fun d first => (delimited d first).2

end Mode.Scans

/-! ### String literals -/

theorem hexDigit?_hexDigit {n : Nat} (small : n < 16) : hexDigit? (hexDigit n) = some n := by
  revert n
  decide

/-- The codes that are no surrogates stand for themselves. -/
theorem assemble_unit {c : Char} (control : c.toNat < 0x20) (later : List Piece) :
    assemble (.unit c.toNat :: later) = (assemble later).map (c :: ·) := by
  have low : isLowSurrogate c.toNat = false := by simp [isLowSurrogate]; omega
  have high : isHighSurrogate c.toNat = false := by simp [isHighSurrogate]; omega
  rw [assemble.eq_def]
  simp [low, high, Char.ofNat_toNat]

namespace Mode.Scans

variable {rest : List Char} {tokens : List Token}

/-- A character with a short escape. -/
theorem shortEscape {c mark : Char} {pieces : List Piece} (meant : escaped? mark = some c)
    (short : mark ≠ 'u') (later : (Mode.string (.char c :: pieces)).Scans rest tokens) :
    (Mode.string pieces).Scans ('\\' :: mark :: rest) tokens := by
  have inner : (Mode.escape pieces).Scans (mark :: rest) tokens :=
    later.step fun found => by simp [Scanner.advance?, short, meant]
  exact inner.step fun found => rfl

/-- A UTF-16 unit by its four hexadecimal digits. -/
theorem unitEscape {first second third last : Char} {a b c d code : Nat} {pieces : List Piece}
    (ha : hexDigit? first = some a) (hb : hexDigit? second = some b)
    (hc : hexDigit? third = some c) (hd : hexDigit? last = some d)
    (spelled : 16 * (16 * (16 * a + b) + c) + d = code)
    (later : (Mode.string (.unit code :: pieces)).Scans rest tokens) :
    (Mode.string pieces).Scans ('\\' :: 'u' :: first :: second :: third :: last :: rest)
      tokens := by
  have three : (Mode.unit pieces 3 (16 * (16 * a + b) + c)).Scans (last :: rest) tokens :=
    later.step fun found => by simp [Scanner.advance?, hd, spelled]
  have two : (Mode.unit pieces 2 (16 * a + b)).Scans (third :: last :: rest) tokens :=
    three.step fun found => by simp [Scanner.advance?, hc]
  have one : (Mode.unit pieces 1 a).Scans (second :: third :: last :: rest) tokens :=
    two.step fun found => by simp [Scanner.advance?, hb]
  have zero : (Mode.unit pieces 0 0).Scans (first :: second :: third :: last :: rest) tokens :=
    one.step fun found => by simp [Scanner.advance?, ha]
  have marked :
      (Mode.escape pieces).Scans ('u' :: first :: second :: third :: last :: rest) tokens :=
    zero.step fun found => rfl
  exact marked.step fun found => rfl

end Mode.Scans

/-- Inside a literal the scanner takes what is written as pieces that spell the characters. -/
def Spells (written chars : List Char) : Prop :=
  ∃ taken : List Piece,
    (∀ later, assemble (taken ++ later) = (assemble later).map (chars ++ ·)) ∧
    ∀ {pieces rest tokens}, (Mode.string (taken.reverse ++ pieces)).Scans rest tokens →
      (Mode.string pieces).Scans (written ++ rest) tokens

theorem Spells.nil : Spells [] [] :=
  ⟨[], fun later => by simp, fun later => later⟩

theorem Spells.append {written chars written' chars' : List Char} (front : Spells written chars)
    (back : Spells written' chars') : Spells (written ++ written') (chars ++ chars') := by
  obtain ⟨taken, spelled, scanned⟩ := front
  obtain ⟨taken', spelled', scanned'⟩ := back
  refine ⟨taken ++ taken', ?_, ?_⟩
  · intro later
    rw [List.append_assoc, spelled, spelled', Option.map_map]
    congr 1
    funext rest
    simp
  · intro pieces rest tokens later
    rw [List.append_assoc]
    apply scanned
    apply scanned'
    rwa [← List.append_assoc, ← List.reverse_append]

theorem spells_short {c mark : Char} (meant : escaped? mark = some c) (short : mark ≠ 'u') :
    Spells ['\\', mark] [c] :=
  ⟨[.char c], fun _ => rfl, fun later => later.shortEscape meant short⟩

theorem escape_spells (c : Char) : Spells (escape c) [c] := by
  unfold escape
  split_ifs with quote backslash back feed line return' tab control
  · exact spells_short (by rw [quote]; rfl) (by decide)
  · exact spells_short (by rw [backslash]; rfl) (by decide)
  · exact spells_short (by rw [back]; rfl) (by decide)
  · exact spells_short (by rw [feed]; rfl) (by decide)
  · exact spells_short (by rw [line]; rfl) (by decide)
  · exact spells_short (by rw [return']; rfl) (by decide)
  · exact spells_short (by rw [tab]; rfl) (by decide)
  · have sixteens : 16 * (16 * (16 * 0 + 0) + c.toNat / 16) + c.toNat % 16 = c.toNat := by omega
    exact ⟨[.unit c.toNat], assemble_unit control, fun later =>
      later.unitEscape (by decide) (by decide) (hexDigit?_hexDigit (by omega))
        (hexDigit?_hexDigit (by omega)) sixteens⟩
  · refine ⟨[.char c], fun _ => rfl, fun later => later.step fun found => ?_⟩
    simp [Scanner.advance?, quote, backslash, control]

theorem flatMap_escape_spells (chars : List Char) : Spells (chars.flatMap escape) chars := by
  induction chars with
  | nil => exact .nil
  | cons c chars rec =>
    rw [List.flatMap_cons]
    exact (escape_spells c).append rec

theorem Mode.Scans.quote {rest : List Char} {tokens : List Token}
    (later : Mode.between.Scans rest tokens) (text : Text) :
    Mode.between.Scans (Json.quote text rest) (.string text :: tokens) := by
  cases text with
  | none =>
    have closed : (Mode.string [.unit 0xD800]).Scans ('"' :: rest) (.string none :: tokens) :=
      later.emit fun found => rfl
    have lone : (Mode.string []).Scans ("\\ud800\"".toList ++ rest) (.string none :: tokens) :=
      closed.unitEscape (a := 13) (b := 8) (c := 0) (d := 0) (by decide) (by decide) (by decide)
        (by decide) (by decide)
    exact lone.step fun _ => rfl
  | some text =>
    obtain ⟨taken, spelled, scanned⟩ := flatMap_escape_spells text.toList
    have whole : textOf (taken.reverse ++ []) = some text := by
      have alone := spelled []
      rw [List.append_nil] at alone
      simp [textOf, alone, assemble, String.ofList_toList]
    have closed : (Mode.string (taken.reverse ++ [])).Scans ('"' :: rest)
        (.string (some text) :: tokens) := later.emit fun found => by rw [← whole]; rfl
    exact (scanned closed).step fun _ => rfl

/-! ### White space -/

/-- Whether a character may stand between any two tokens. -/
def isSpace (c : Char) : Bool := c == ' ' || c == '\t' || c == '\r' || c == '\n'

theorem Mode.Scans.spaces {rest spaces : List Char} {tokens : List Token}
    (later : Mode.between.Scans rest tokens) (blank : spaces.all isSpace) :
    Mode.between.Scans (spaces ++ rest) tokens := by
  induction spaces with
  | nil => exact later
  | cons c spaces rec =>
    simp only [List.all_cons, Bool.and_eq_true] at blank
    apply (rec blank.2).step
    intro found
    have space := blank.1
    simp only [isSpace, Bool.or_eq_true, beq_iff_eq] at space
    rcases space with ((rfl | rfl) | rfl) | rfl <;> rfl

theorem Mode.Scans.key {rest spaces : List Char} {tokens : List Token}
    (later : Mode.between.Scans rest tokens) (key : Text) (blank : spaces.all isSpace) :
    Mode.between.Scans (Json.quote key (':' :: (spaces ++ rest)))
      (.string key :: .colon :: tokens) := by
  have marked : Mode.between.Scans (':' :: (spaces ++ rest)) (.colon :: tokens) :=
    (later.spaces blank).emit fun _ => rfl
  exact marked.quote key

theorem Delimited.spaces {rest spaces : List Char} (delimited : Delimited rest)
    (blank : spaces.all isSpace) : Delimited (spaces ++ rest) := by
  cases spaces with
  | nil => exact delimited
  | cons c spaces =>
    simp only [List.all_cons, Bool.and_eq_true] at blank
    intro d first
    obtain rfl : c = d := by simpa using first
    have space := blank.1
    simp only [isSpace, Bool.or_eq_true, beq_iff_eq] at space
    rcases space with ((rfl | rfl) | rfl) | rfl <;> decide

theorem delimited_cons {c : Char} {rest : List Char}
    (mark : isLetter c = false ∧ isNumberChar c = false) : Delimited (c :: rest) := by
  intro d first
  obtain rfl : c = d := by simpa using first
  exact mark

end TreeLang.Json

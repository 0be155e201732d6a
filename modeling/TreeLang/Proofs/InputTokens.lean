import TreeLang.Proofs.SideBySide

/-! What a program sees of its input. A console takes its input line by line, ahead of what the
program asks for, but all that can be read from it is a sequence of tokens; for a text these are
its words, however they are spread over lines. So a run depends on the tokens that it read, and on
nothing else of the input. -/
namespace TreeLang

/-! ### The words of a text and of its lines -/

namespace Text

/-- A blank ends a word, whatever comes before and after it. -/
theorem wordsFrom_append_blank {blank : Char} (isBlank : isBlank blank = true)
    (run front rest : List Char) :
    wordsFrom run (front ++ blank :: rest) = wordsFrom run front ++ wordsFrom [] rest := by
  induction front generalizing run with
  | nil => simp only [List.nil_append, wordsFrom, isBlank, if_true]
  | cons c front ih =>
    simp only [List.cons_append, wordsFrom]
    split
    · rw [ih, List.append_assoc]
    · exact ih _

end Text

namespace Line

/-- The bytes of characters. -/
def encode (text : List Char) : Line := text.flatMap String.utf8EncodeChar

theorem encode_append (front rest : List Char) :
    encode (front ++ rest) = encode front ++ encode rest :=
  List.flatMap_append

theorem encode_cons (c : Char) (rest : List Char) :
    encode (c :: rest) = String.utf8EncodeChar c ++ encode rest :=
  List.flatMap_cons

theorem encode_ne_nil {text : List Char} (some : text ≠ []) : encode text ≠ [] := by
  cases text with
  | nil => contradiction
  | cons c rest =>
    rw [encode_cons]
    exact List.append_ne_nil_of_left_ne_nil String.utf8EncodeChar_ne_nil _

/-- A byte of a character is the code of that character, or no code of any. -/
theorem code_or_large (c : Char) :
    ∀ byte ∈ String.utf8EncodeChar c, byte.toNat = c.toNat ∨ 128 ≤ byte.toNat := by
  simp only [String.utf8EncodeChar, Char.toNat_val]
  repeat' split
  all_goals simp [UInt8.toNat_ofNat']; omega

theorem newline_notMem {c : Char} (other : c ≠ '\n') : newline ∉ String.utf8EncodeChar c := by
  intro inside
  rcases code_or_large c newline inside with same | large
  · exact other (Char.ext (UInt32.toNat_inj.mp same.symm))
  · contradiction

theorem decode_encode (text : List Char) :
    decodeText? (encode text) = some (String.ofList text) := by
  have bytes : (⟨(encode text).toArray⟩ : ByteArray) = (String.ofList text).toByteArray := by
    refine ByteArray.ext ?_
    rw [String.toByteArray_ofList]
    exact List.data_toByteArray.symm
  rw [decodeText?, bytes, String.fromUTF8?, dif_pos (String.ofList text).isValidUTF8]
  rfl

end Line

theorem toList_loop (bytes : ByteArray) (start : Nat) (front : List UInt8) :
    ByteArray.toList.loop bytes start front = front.reverse ++ bytes.data.toList.drop start := by
  fun_induction ByteArray.toList.loop bytes start front with
  | case1 start front inside ih =>
    have there : start < bytes.data.toList.length := inside
    rw [ih, List.drop_eq_getElem_cons there]
    simp [ByteArray.get!, getElem!_pos bytes.data start inside]
  | case2 start front outside =>
    rw [List.drop_eq_nil_of_le (Nat.le_of_not_lt outside), List.append_nil]

theorem utf8_eq_encode (text : String) : text.toUTF8.toList = Line.encode text.toList := by
  have bytes : text.toUTF8.data.toList = Line.encode text.toList := by
    conv => lhs; rw [String.toUTF8_eq_toByteArray, ← String.ofList_toList (s := text)]
    exact List.toList_data_toByteArray
  rw [ByteArray.toList, toList_loop, bytes]
  rfl

/-- Bytes other than newlines go into the unfinished line. -/
theorem linesFrom_append {bytes : List UInt8} (plain : newline ∉ bytes) (run : Line)
    (rest : List UInt8) :
    linesFrom run (bytes ++ rest) = linesFrom (bytes.reverse ++ run) rest := by
  induction bytes generalizing run with
  | nil => rfl
  | cons byte bytes ih =>
    obtain ⟨other, plain⟩ := not_or.mp fun h => plain (List.mem_cons.mpr h)
    rw [List.cons_append, linesFrom, if_neg (Ne.symm other), ih plain]
    simp

/-- The lines of a text are texts, and their words are its words. -/
theorem linesFrom_encode (text run : List Char) :
    ∃ lines : List (List Char),
      linesFrom (Line.encode run).reverse (Line.encode text) = lines.map Line.encode ∧
      lines.flatMap (Text.wordsFrom []) = Text.wordsFrom [] (run ++ text) := by
  induction text generalizing run with
  | nil =>
    by_cases empty : run = []
    · subst empty
      exact ⟨[], rfl, rfl⟩
    · have some : (Line.encode run).reverse.isEmpty = false := by
        simpa using Line.encode_ne_nil empty
      refine ⟨[run], ?_, by simp⟩
      rw [show Line.encode [] = [] from rfl, linesFrom, some, List.reverse_reverse]
      rfl
  | cons c text ih =>
    rw [Line.encode_cons]
    by_cases ends : c = '\n'
    · subst ends
      obtain ⟨lines, cut, words⟩ := ih []
      refine ⟨run :: lines, ?_, ?_⟩
      · rw [show String.utf8EncodeChar '\n' = [newline] from rfl, List.singleton_append, linesFrom,
          if_pos rfl, List.reverse_reverse, List.map_cons, ← cut]
        rfl
      · rw [List.flatMap_cons, words, Text.wordsFrom_append_blank (by decide), List.nil_append]
    · obtain ⟨lines, cut, words⟩ := ih (run ++ [c])
      refine ⟨lines, ?_, ?_⟩
      · rw [linesFrom_append (Line.newline_notMem ends), ← cut, Line.encode_append,
          List.reverse_append, Line.encode_cons, List.reverse_append]
        rfl
      · rw [words, List.append_assoc, List.singleton_append]

/-! ### What can be read from a console -/

/-- The tokens of a line; a line that is no text has none. -/
def Line.tokens (line : Line) : List String :=
  match decodeText? line with
  | none => []
  | some text => Text.words text

/-- A line that is text. -/
def Line.Legible (line : Line) : Prop := (decodeText? line).isSome

namespace Console

variable {console after : Console} {failure : Failure} {token : String} {pending : List String}
  {lines rest : List Line}

/-- The tokens that have not been read: those taken from the input already, and those to come. -/
def unread (console : Console) : List String :=
  console.pending ++ console.lines.flatMap Line.tokens

def Legible (console : Console) : Prop := ∀ line ∈ console.lines, line.Legible

/-- What can be read from a text is its words. -/
theorem unread_ofText (text : String) : (ofText text).unread = Text.words text := by
  obtain ⟨lines, cut, words⟩ := linesFrom_encode text.toList []
  have tokens (line : List Char) : (Line.encode line).tokens = Text.wordsFrom [] line := by
    simp only [Line.tokens, Line.decode_encode, Text.words, String.toList_ofList]
  rw [ofText, ofBytes, utf8_eq_encode, unread, List.nil_append]
  calc (linesFrom [] (Line.encode text.toList)).flatMap Line.tokens
    _ = (lines.map Line.encode).flatMap Line.tokens := congrArg _ cut
    _ = lines.flatMap (Text.wordsFrom []) := by simp only [List.flatMap_map, tokens]
    _ = Text.words text := words

theorem legible_ofText (text : String) : (ofText text).Legible := by
  obtain ⟨lines, cut, -⟩ := linesFrom_encode text.toList []
  intro line there
  rw [ofText, ofBytes, utf8_eq_encode] at there
  obtain ⟨characters, -, rfl⟩ := List.mem_map.mp (cut ▸ there)
  rw [Line.Legible, Line.decode_encode]
  rfl

/-- The line that is taken is the first with tokens. -/
theorem nextLine_ok (next : nextLine lines = (.ok (token, pending), rest)) :
    lines.flatMap Line.tokens = token :: pending ++ rest.flatMap Line.tokens := by
  fun_induction nextLine lines with
  | case1 => cases next
  | case2 => cases next
  | case3 line lines text decoded none ih =>
    rw [List.flatMap_cons, ih next, Line.tokens, decoded]
    simp only [none, List.nil_append]
  | case4 line lines text decoded first others words =>
    cases next
    rw [List.flatMap_cons, Line.tokens, decoded]
    simp only [words]

theorem nextLine_suffix (lines : List Line) : (nextLine lines).2 <:+ lines := by
  fun_induction nextLine lines with
  | case1 => exact List.suffix_refl _
  | case2 => exact List.suffix_cons _ _
  | case3 line lines text decoded none ih => exact ih.trans (List.suffix_cons _ _)
  | case4 => exact List.suffix_cons _ _

/-- Text gives out only at its end. -/
theorem nextLine_error (legible : ∀ line ∈ lines, line.Legible)
    (next : nextLine lines = (.error failure, rest)) :
    failure = .endOfInput ∧ lines.flatMap Line.tokens = [] := by
  fun_induction nextLine lines with
  | case1 =>
    cases next
    exact ⟨rfl, rfl⟩
  | case2 line lines invalid =>
    have valid := legible line List.mem_cons_self
    rw [Line.Legible, invalid] at valid
    contradiction
  | case3 line lines text decoded none ih =>
    obtain ⟨last, empty⟩ := ih (fun line there => legible line (List.mem_cons_of_mem _ there)) next
    rw [List.flatMap_cons, empty, Line.tokens, decoded]
    exact ⟨last, by simp only [none, List.append_nil]⟩
  | case4 => cases next

theorem readToken_cases (console : Console) :
    (∃ token pending, console.pending = token :: pending ∧
      console.readToken = (.ok token, { console with pending })) ∨
    (∃ token pending rest, console.pending = [] ∧
      nextLine console.lines = (.ok (token, pending), rest) ∧
      console.readToken = (.ok token, { console with pending, lines := rest })) ∨
    ∃ failure rest, console.pending = [] ∧ nextLine console.lines = (.error failure, rest) ∧
      console.readToken = (.error failure, { console with lines := rest }) := by
  unfold readToken
  split
  next token pending front => exact .inl ⟨token, pending, front, rfl⟩
  next none =>
    split
    next token pending rest next => exact .inr (.inl ⟨token, pending, rest, none, next, rfl⟩)
    next failure rest next => exact .inr (.inr ⟨failure, rest, none, next, rfl⟩)

theorem lines_readToken (console : Console) : console.readToken.2.lines <:+ console.lines := by
  have suffix := nextLine_suffix console.lines
  rcases console.readToken_cases with ⟨_, _, -, read⟩ | ⟨_, _, _, -, next, read⟩ |
    ⟨_, _, -, next, read⟩
  · simp only [read, List.suffix_refl]
  · rw [read]
    rwa [next] at suffix
  · rw [read]
    rwa [next] at suffix

@[simp] theorem output_readToken (console : Console) :
    console.readToken.2.output = console.output := by
  rcases console.readToken_cases with ⟨_, _, -, read⟩ | ⟨_, _, _, -, -, read⟩ |
    ⟨_, _, -, -, read⟩ <;> rw [read]

theorem Legible.readToken (legible : console.Legible) : console.readToken.2.Legible :=
  fun line there => legible line (console.lines_readToken.mem there)

/-- A token that is read is the first of those that were unread. -/
theorem unread_of_ok (read : console.readToken = (.ok token, after)) :
    console.unread = token :: after.unread := by
  rcases console.readToken_cases with ⟨_, _, front, taken⟩ | ⟨_, _, _, empty, next, taken⟩ |
    ⟨_, _, -, -, taken⟩
  · cases taken.symm.trans read
    rw [unread, front]
    rfl
  · cases taken.symm.trans read
    rw [unread, empty, nextLine_ok next]
    rfl
  · cases taken.symm.trans read

/-- Reading from text fails only when there is no token left. -/
theorem of_error (legible : console.Legible) (read : console.readToken = (.error failure, after)) :
    failure = .endOfInput ∧ console.unread = [] := by
  rcases console.readToken_cases with ⟨_, _, -, taken⟩ | ⟨_, _, _, -, -, taken⟩ |
    ⟨_, _, empty, next, taken⟩
  · cases taken.symm.trans read
  · cases taken.symm.trans read
  · cases taken.symm.trans read
    obtain ⟨last, nothing⟩ := nextLine_error legible next
    rw [unread, empty, nothing]
    exact ⟨last, rfl⟩

theorem readToken_of_unread (legible : console.Legible)
    (tokens : console.unread = token :: pending) :
    ∃ after, console.readToken = (.ok token, after) ∧ after.unread = pending := by
  rcases read : console.readToken with ⟨failure | first, after⟩
  · cases tokens.symm.trans (of_error legible read).2
  · cases tokens.symm.trans (unread_of_ok read)
    exact ⟨after, rfl, rfl⟩

theorem unread_readToken (console : Console) : console.readToken.2.unread <:+ console.unread := by
  rcases console.readToken_cases with ⟨_, _, -, read⟩ | ⟨_, _, _, -, -, read⟩ |
    ⟨_, _, empty, -, read⟩
  · rw [unread_of_ok read, read]
    exact List.suffix_cons _ _
  · rw [unread_of_ok read, read]
    exact List.suffix_cons _ _
  · have still : console.readToken.2.pending = [] := by rw [read, empty]
    obtain ⟨front, whole⟩ := console.lines_readToken
    rw [unread, unread, still, empty, ← whole, List.flatMap_append]
    exact List.suffix_append _ _

end Console

/-! ### Two inputs that start with the same tokens -/

/-- The second run has the same tokens before it as the first, up to those that the first leaves
unread. -/
def Twin.tokens (left left' : List String) : Twin where
  names := .same
  alike v w := w.resolved = v.resolved ∧ w.console.output = v.console.output ∧
    v.console.Legible ∧ w.console.Legible ∧
    ∃ ahead, v.console.unread = ahead ++ left ∧ w.console.unread = ahead ++ left'
  later v w := w.console.unread <:+ v.console.unread
  fine v := left <:+ v.console.unread
  final failure v := failure ≠ .endOfInput ∧ left <:+ v.console.unread
  refl _ := List.suffix_refl _
  trans earlier later := later.trans earlier
  fine_of_later later fine := fine.trans later
  fine_of_final final := final.2
  later_print _ _ := List.suffix_refl _
  later_read v := v.console.unread_readToken
  prints line alike := by
    obtain ⟨resolved, output, legible, legible', tokens⟩ := alike
    exact ⟨resolved, by simp only [Console.writeLine, output], legible, legible', tokens⟩
  reads := by
    intro v w token console read fine alike
    obtain ⟨resolved, output, legible, legible', ahead, here, there⟩ := alike
    rw [Console.unread_of_ok read] at here
    cases ahead with
    | nil =>
      -- The first run would have read one token more than it did.
      rw [List.nil_append] at here
      have shorter : left.length ≤ console.unread.length := fine.length_le
      rw [← here, List.length_cons] at shorter
      omega
    | cons first ahead =>
      injection here with same here
      subst same
      obtain ⟨console', read', there⟩ := Console.readToken_of_unread legible' there
      have kept := legible.readToken
      have kept' := legible'.readToken
      have same := (w.console.output_readToken.trans output).trans v.console.output_readToken.symm
      rw [read] at kept same
      rw [read'] at kept' same
      exact ⟨console', read', resolved, same, kept, kept', ahead, here, there⟩
  readFails := by
    intro v w failure console read final alike
    exact absurd (Console.of_error alike.2.2.1 read).1 final.1

theorem Twin.tokens_settles (left left' : List String) :
    (Twin.tokens left left').Settles fun _ => True where
  known _ alike := congrArg (Resolutions.get? · _) alike.1
  settled _ _ alike := ⟨congrArg (Resolutions.settle · _ _) alike.1, alike.2⟩
  later _ _ _ := List.suffix_refl _

namespace Interpreter

variable {interpreter : Interpreter} {fuel : Nat} {program : Program Slot}

/-- Two interpreters that differ in their consoles alone. -/
theorem run_follows_tokens (left left' : List String) (interpreter : Interpreter)
    (console : Console) (fuel : Nat) (program : Program Slot) :
    let other := { interpreter with state := { interpreter.state with console } }
    let twin := Twin.tokens left left'
    twin.later interpreter.state.world (interpreter.run fuel program).2.state.world ∧
    ∀ world, twin.alike interpreter.state.world world →
      other.state = twin.state interpreter.state world →
      twin.Shares (interpreter.run fuel program).1 (interpreter.run fuel program).2.state.world →
      Follows twin (interpreter.run fuel program) (other.run fuel program) := by
  have functions : interpreter.context.registry.Every fun _ => True :=
    interpreter.context.registry.every_of_forall fun _ => trivial
  have given : program.Every fun _ => True :=
    fun function _ => function.every_of_forall fun _ => trivial
  exact run_follows (Twin.tokens left left') interpreter _ program fuel rfl rfl (Nat.le_refl _)
    (.inl rfl) functions given (Twin.tokens_settles left left').typesOn

/-- What a run leaves unread is the end of what was unread before. -/
theorem unread_run (interpreter : Interpreter) (fuel : Nat) (program : Program Slot) :
    (interpreter.run fuel program).2.state.console.unread <:+ interpreter.state.console.unread :=
  (run_follows_tokens [] [] interpreter interpreter.state.console fuel program).1

/-- A run on another console, whose tokens start with those that this run reads. -/
theorem run_of_unread {read left : List String} {console : Console}
    (legible : interpreter.state.console.Legible) (legible' : console.Legible)
    (output : console.output = interpreter.state.console.output)
    (reads : interpreter.state.console.unread =
      read ++ (interpreter.run fuel program).2.state.console.unread)
    (unread : console.unread = read ++ left)
    (ended : (interpreter.run fuel program).1 ≠ .unfinished)
    (supplied : (interpreter.run fuel program).1 ≠ .failure .endOfInput) :
    let other := { interpreter with state := { interpreter.state with console } }
    (other.run fuel program).1 = (interpreter.run fuel program).1 ∧
    (other.run fuel program).2.output = (interpreter.run fuel program).2.output ∧
    (other.run fuel program).2.state.console.unread = left := by
  have start : ({ interpreter.state with console } : State) =
      (Twin.tokens (interpreter.run fuel program).2.state.console.unread left).state
        interpreter.state ⟨interpreter.state.resolved, console⟩ := by
    rw [Twin.state_same rfl]
  have shares : (Twin.tokens (interpreter.run fuel program).2.state.console.unread left).Shares
      (interpreter.run fuel program).1 (interpreter.run fuel program).2.state.world := by
    cases answer : (interpreter.run fuel program).1 with
    | value done => exact List.suffix_refl _
    | failure problem =>
      exact ⟨fun last => supplied (answer.trans (congrArg _ last)), List.suffix_refl _⟩
    | unfinished => exact absurd answer ended
  obtain ⟨answer, world, alike, state⟩ :=
    (run_follows_tokens _ left interpreter console fuel program).2
      ⟨interpreter.state.resolved, console⟩ ⟨rfl, output, legible, legible', read, reads, unread⟩
      start shares
  obtain ⟨-, output, -, -, ahead, here, there⟩ := alike
  rw [Twin.state_same rfl] at state
  have nothing : ahead = [] := List.self_eq_append_left.mp here
  refine ⟨answer, (congrArg (·.console.output) state).trans output, ?_⟩
  rw [state, there, nothing, List.nil_append]

/-- A run that ends, and not because its input gave out, has read some number of tokens. It ends in
the same way, with the same output, on every text that starts with these tokens, whatever the
white space between them and whatever follows. -/
theorem run_of_tokens_read (program : Program Unit) (maxCallDepth fuel : Nat) (input : String) :
    let (placed, fresh) :=
      (Interpreter.start (.ofText input) maxCallDepth).placeProgram program
    let first := fresh.run fuel placed
    first.1 ≠ .unfinished → first.1 ≠ .failure .endOfInput →
    ∃ count ≤ (Text.words input).length,
      first.2.state.console.unread = (Text.words input).drop count ∧
      ∀ input', (Text.words input').take count = (Text.words input).take count →
        let (placed', fresh') :=
          (Interpreter.start (.ofText input') maxCallDepth).placeProgram program
        let second := fresh'.run fuel placed'
        second.1 = first.1 ∧ second.2.output = first.2.output ∧
        second.2.state.console.unread = (Text.words input').drop count := by
  let placed := ((Interpreter.start (.ofText input) maxCallDepth).placeProgram program).1
  let fresh := ((Interpreter.start (.ofText input) maxCallDepth).placeProgram program).2
  intro ended supplied
  have words : fresh.state.console.unread = Text.words input := Console.unread_ofText input
  obtain ⟨read, whole⟩ := fresh.unread_run fuel placed
  rw [words] at whole
  have count : read.length ≤ (Text.words input).length := by
    rw [← whole, List.length_append]
    exact Nat.le_add_right _ _
  have unread : (fresh.run fuel placed).2.state.console.unread =
      (Text.words input).drop read.length := by
    rw [← whole, List.drop_left]
  refine ⟨read.length, count, unread, fun input' same => ?_⟩
  have start : (Console.ofText input').unread = read ++ (Text.words input').drop read.length := by
    rw [← whole, List.take_left] at same
    rw [Console.unread_ofText]
    exact (List.take_append_drop read.length _).symm.trans (congrArg (· ++ _) same)
  exact run_of_unread (Console.legible_ofText input) (Console.legible_ofText input') rfl
    (words.trans whole.symm) start ended supplied

/-- Reads a length and as many truth values, and then divides by the length less two. -/
def fill : Program Unit where
  functions := [
    ⟨"main", [], [
      .declare ⟨"n", .int, ()⟩,
      .call "read" [.var "n"],
      .declare ⟨"xs", .array .bool (.var "n"), ()⟩,
      .call "read" [.var "xs"],
      .call "print" [.var "xs"],
      .call "print" [.arith .div (.int 1) (.arith .sub (.var "n") (.int 2))]], .void⟩]

theorem run_of_tokens_read_fill :
    let (placed, fresh) := (Interpreter.start (.ofText "2 true\n\n 0 rest") 5).placeProgram fill
    let (placed', fresh') := (Interpreter.start (.ofText "\t2\ntrue  0\r\n") 5).placeProgram fill
    let first := fresh.run 9 placed
    let second := fresh'.run 9 placed'
    first.1.failure? = some .divisionByZero ∧ first.2.output = "[true, false]\n" ∧
    first.2.state.console.unread = ["rest"] ∧
    second.1 = first.1 ∧ second.2.output = first.2.output := by
  have same := run_of_tokens_read fill 5 9 "2 true\n\n 0 rest"
  have failed : (((Interpreter.start (.ofText "2 true\n\n 0 rest") 5).placeProgram fill).2.run 9
      ((Interpreter.start (.ofText "2 true\n\n 0 rest") 5).placeProgram fill).1).1.failure? =
        some .divisionByZero := by
    decide +kernel
  have printed : (((Interpreter.start (.ofText "2 true\n\n 0 rest") 5).placeProgram fill).2.run 9
      ((Interpreter.start (.ofText "2 true\n\n 0 rest") 5).placeProgram fill).1).2.output =
        "[true, false]\n" := by
    decide +kernel
  have left : (((Interpreter.start (.ofText "2 true\n\n 0 rest") 5).placeProgram fill).2.run 9
      ((Interpreter.start (.ofText "2 true\n\n 0 rest") 5).placeProgram
        fill).1).2.state.console.unread = ["rest"] := by
    decide +kernel
  generalize (Interpreter.start (.ofText "2 true\n\n 0 rest") 5).placeProgram fill = tree
    at same failed printed left ⊢
  have ended : (tree.2.run 9 tree.1).1 ≠ .unfinished := by
    intro unfinished
    rw [unfinished] at failed
    contradiction
  have supplied : (tree.2.run 9 tree.1).1 ≠ .failure .endOfInput := by
    intro last
    rw [last] at failed
    contradiction
  obtain ⟨count, -, unread, follows⟩ := same ended supplied
  have three : count = 3 := by
    have length : 1 = 4 - count := (congrArg List.length (left.symm.trans unread)).trans
      List.length_drop
    omega
  subst three
  obtain ⟨answer, output, -⟩ := follows "\t2\ntrue  0\r\n" (by decide +kernel)
  exact ⟨failed, printed, left, answer, output⟩

end Interpreter

end TreeLang

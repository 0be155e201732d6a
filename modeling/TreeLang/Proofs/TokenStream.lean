import TreeLang.Proofs.InputTokens
import Mathlib.Data.List.SplitBy

/-! What is read from a console and what is written to it. The bytes of the input are cut after each
newline. A line that is text gives its tokens, which stand between blanks, and any other line one
failure; after the last line the input has ended for good. Reads get these results one by one, in
whatever order they come with writes, and whatever lines have been looked at ahead. -/
namespace TreeLang

/-! ### Tokens and lines -/

namespace Text

/-- What stands between blanks, as far as anything does. -/
def tokens (text : String) : List String :=
  ((text.toList.splitOnP isBlank).filter fun piece => !piece.isEmpty).map String.ofList

theorem wordsFrom_eq (run rest : List Char) :
    wordsFrom run rest =
      (((rest.splitOnP isBlank).modifyHead (run.reverse ++ ·)).filter fun piece => !piece.isEmpty).map
        String.ofList := by
  induction rest generalizing run with
  | nil => cases run <;> simp [wordsFrom, closeRun]
  | cons c rest ih =>
    rw [wordsFrom, List.splitOnP_cons_eq_if_modifyHead]
    split
    · have none : (rest.splitOnP isBlank).modifyHead (([] : List Char).reverse ++ ·) = rest.splitOnP isBlank := by
        cases rest.splitOnP isBlank <;> rfl
      rw [ih [], none]
      cases run <;> simp [closeRun]
    · rw [ih (c :: run), List.modifyHead_modifyHead]
      congr 3
      funext piece
      simp

theorem words_eq_tokens (text : String) : words text = tokens text := by
  rw [words, wordsFrom_eq, tokens]
  cases text.toList.splitOnP isBlank <;> rfl

end Text

/-- Bytes are valid if they are those of a text. -/
theorem decodeText?_eq_some_iff {bytes : List UInt8} {text : String} :
    decodeText? bytes = some text ↔ bytes = Line.encode text.toList := by
  constructor
  · intro decoded
    rw [decodeText?, String.fromUTF8?] at decoded
    split at decoded
    · cases decoded
      rw [← utf8_eq_encode, ByteArray.toList, toList_loop]
      simp [String.fromUTF8, String.toUTF8]
    · contradiction
  · rintro rfl
    rw [Line.decode_encode, String.ofList_toList]

namespace Line

/-- What the reads of a line give: its tokens in order, or one failure. -/
def results (line : Line) : List (Except Failure String) :=
  match decodeText? line with
  | none => [.error (.console "stream did not contain valid UTF-8")]
  | some text => (Text.tokens text).map .ok

theorem kind_of_failure {line : Line} {failure : Failure} (failed : .error failure ∈ line.results) :
    failure.kind = .console := by
  unfold results at failed
  split at failed
  · cases List.mem_singleton.mp failed
    rfl
  · obtain ⟨token, -, same⟩ := List.mem_map.mp failed
    contradiction

/-- A newline neither makes text of a line nor unmakes it. -/
theorem decode_append_newline (line : Line) :
    decodeText? (line ++ [newline]) = (decodeText? line).map (· ++ "\n") := by
  have last : encode ['\n'] = [newline] := rfl
  refine Option.ext fun text => ?_
  simp only [Option.map_eq_some_iff, decodeText?_eq_some_iff]
  constructor
  · intro bytes
    rcases List.eq_nil_or_concat text.toList with none | ⟨front, c, characters⟩
    · rw [none] at bytes
      cases line <;> contradiction
    · rw [characters, List.concat_eq_append, encode_append] at bytes
      -- The last byte belongs to the last character, which therefore is the newline.
      have ends : c = '\n' := by
        by_contra other
        refine newline_notMem other ?_
        have own : encode [c] = String.utf8EncodeChar c := by simp [encode]
        have some : encode [c] ≠ [] := encode_ne_nil (List.cons_ne_nil c [])
        have same := congrArg List.getLast? bytes
        rw [List.getLast?_concat, List.getLast?_append_of_ne_nil _ some] at same
        rw [← own]
        exact List.mem_of_getLast? same.symm
      subst ends
      rw [last] at bytes
      refine ⟨String.ofList front, ?_, ?_⟩
      · rw [String.toList_ofList]
        exact (List.append_cancel_right_eq ..).mp bytes
      · apply String.toList_inj.mp
        simp [characters]
  · rintro ⟨front, rfl, rfl⟩
    rw [String.toList_append, encode_append]
    rfl

theorem results_append_newline (line : Line) : (line ++ [newline]).results = line.results := by
  rw [results, results, decode_append_newline]
  cases decodeText? line with
  | none => rfl
  | some text =>
    have blank : Text.isBlank '\n' = true := by decide
    have same : Text.words (text ++ "\n") = Text.words text := by
      have ended := Text.wordsFrom_append_blank blank [] text.toList []
      rw [Text.words, String.toList_append]
      simpa [Text.wordsFrom, Text.closeRun, Text.words] using ended
    simp only [Option.map_some, ← Text.words_eq_tokens, same]

end Line

/-- Bytes cut after each newline. -/
def cutLines (input : List UInt8) : List Line := input.splitBy fun byte _ => byte != newline

theorem cutLines_of_plain {bytes : List UInt8} (some : bytes ≠ []) (plain : newline ∉ bytes.dropLast) :
    cutLines bytes = [bytes] := by
  refine List.splitBy_of_isChain some (List.isChain_iff_getElem.mpr fun i inside => ?_)
  have here : i < bytes.dropLast.length := by
    rw [List.length_dropLast]
    omega
  have member : bytes[i] ∈ bytes.dropLast := by
    rw [← List.getElem_dropLast here]
    exact List.getElem_mem here
  simp only [bne_iff_ne, ne_eq]
  rintro same
  exact plain (same ▸ member)

theorem cutLines_append_newline (line : Line) (plain : newline ∉ line) (rest : List UInt8) :
    cutLines (line ++ newline :: rest) = (line ++ [newline]) :: cutLines rest := by
  have whole : line ++ newline :: rest = (line ++ [newline]) ++ rest := by simp
  have apart : ∀ x ∈ (line ++ [newline]).getLast?, ∀ y ∈ rest.head?, (x != newline) = false := by simp
  rw [whole, cutLines, List.splitBy_append apart]
  change cutLines (line ++ [newline]) ++ cutLines rest = _
  rw [cutLines_of_plain (by simp) (by simpa using plain), List.singleton_append]

/-- Lines give the same with their newlines and without. -/
theorem results_linesFrom (run : Line) (bytes : List UInt8) (plain : newline ∉ run) :
    (linesFrom run bytes).flatMap Line.results = (cutLines (run.reverse ++ bytes)).flatMap Line.results := by
  induction bytes generalizing run with
  | nil =>
    by_cases empty : run = []
    · subst empty
      rfl
    · have last : newline ∉ run.reverse.dropLast := fun member =>
        plain (List.mem_reverse.mp (List.dropLast_subset _ member))
      rw [linesFrom, List.append_nil, cutLines_of_plain (by simpa using empty) last]
      simp [empty]
  | cons byte bytes ih =>
    rw [linesFrom]
    split
    next ends =>
      subst ends
      rw [cutLines_append_newline _ (by simpa using plain), List.flatMap_cons, List.flatMap_cons,
        Line.results_append_newline, ih [] List.not_mem_nil]
      rfl
    next other =>
      have longer : newline ∉ byte :: run := by
        rw [List.mem_cons, not_or]
        exact ⟨Ne.symm other, plain⟩
      rw [ih (byte :: run) longer, List.reverse_cons, List.append_assoc]
      rfl

namespace Console

variable {console last later : Console} {lines : List Line}

/-! ### Reads -/

/-- What the reads give until the input ends. -/
def results (console : Console) : List (Except Failure String) :=
  console.pending.map .ok ++ console.lines.flatMap Line.results

theorem results_ofBytes (input : List UInt8) : (ofBytes input).results = (cutLines input).flatMap Line.results :=
  results_linesFrom [] input List.not_mem_nil

/-- Of a text nothing gets lost between its lines. -/
theorem results_of_text {input : List UInt8} {text : String} (decoded : decodeText? input = some text) :
    (cutLines input).flatMap Line.results = (Text.tokens text).map .ok := by
  obtain ⟨lines, cut, words⟩ := linesFrom_encode text.toList []
  have each (line : List Char) : Line.results (Line.encode line) = (Text.wordsFrom [] line).map .ok := by
    rw [Line.results, Line.decode_encode]
    simp only [← Text.words_eq_tokens, Text.words, String.toList_ofList]
  rw [decodeText?_eq_some_iff] at decoded
  rw [← results_ofBytes, ofBytes, results, decoded]
  change (linesFrom (Line.encode []).reverse (Line.encode text.toList)).flatMap Line.results = _
  rw [cut, List.flatMap_map, ← Text.words_eq_tokens, Text.words, ← List.nil_append text.toList, ← words, List.map_flatMap]
  simp only [each]

/-- One turn of the search for a token: none is at hand, and the next line is text, whose tokens are
taken in. -/
inductive Turn : Console → Console → Prop
  | line {console : Console} {line : Line} {rest : List Line} {text : String} (none : console.pending = [])
      (next : console.lines = line :: rest) (decoded : decodeText? line = some text) :
      Turn console { console with lines := rest, pending := Text.tokens text }

/-- What is taken where the search has stopped: the first token at hand, or a failure in place of a
line that is no text. -/
def taken (console : Console) : Except Failure String × Console :=
  match console.pending, console.lines with
  | token :: pending, _ => (.ok token, { console with pending })
  | [], [] => (.error .endOfInput, console)
  | [], _ :: rest => (.error (.console "stream did not contain valid UTF-8"), { console with lines := rest })

/-- Every turn uses up a line. -/
theorem Turn.shortens (turn : Turn console later) : later.lines.length < console.lines.length := by
  obtain ⟨-, next, -⟩ := turn
  rw [next]
  exact Nat.lt_succ_self _

theorem turns_end : WellFounded fun later console => Turn console later :=
  Subrelation.wf Turn.shortens (measure fun console : Console => console.lines.length).wf

theorem Turn.readToken_eq (turn : Turn console later) : console.readToken = later.readToken := by
  obtain ⟨none, next, decoded⟩ := turn
  rw [← Text.words_eq_tokens]
  simp only [readToken, none, next, nextLine, decoded]
  cases Text.words _ <;> rfl

theorem Turn.results_eq (turn : Turn console later) : console.results = later.results := by
  obtain ⟨none, next, decoded⟩ := turn
  simp only [results, none, next, List.flatMap_cons, Line.results, decoded, List.map_nil, List.nil_append]

theorem readToken_of_stopped (stopped : ∀ later, ¬ Turn console later) : console.readToken = console.taken := by
  unfold readToken taken
  cases pending : console.pending with
  | cons token rest => rfl
  | nil =>
    cases lines : console.lines with
    | nil =>
      rw [nextLine]
      simp only [← lines, ← pending]
    | cons line rest =>
      cases decoded : decodeText? line with
      | none => simp only [nextLine, decoded]
      | some text => exact absurd (.line pending lines decoded) (stopped _)

theorem results_of_stopped (stopped : ∀ later, ¬ Turn console later) :
    console.taken.1 = console.results.headD (.error .endOfInput) ∧
    console.taken.2.results = console.results.tail := by
  unfold taken
  cases pending : console.pending with
  | cons token rest => simp only [results, pending, List.map_cons, List.cons_append, List.headD_cons, List.tail_cons, and_self]
  | nil =>
    cases lines : console.lines with
    | nil => simp [results, pending, lines]
    | cons line rest =>
      cases decoded : decodeText? line with
      | none => simp [results, pending, lines, Line.results, decoded]
      | some text => exact absurd (.line pending lines decoded) (stopped _)

/-- The search stops, and what is read is what is taken there. -/
theorem exists_stopped (console : Console) :
    ∃ last, Relation.ReflTransGen Turn console last ∧ (∀ later, ¬ Turn last later) ∧
      console.readToken = last.taken ∧ console.results = last.results := by
  induction console using turns_end.induction with
  | _ console ih =>
    by_cases moves : ∃ later, Turn console later
    · obtain ⟨later, turn⟩ := moves
      obtain ⟨last, turns, stopped, read, same⟩ := ih later turn
      exact ⟨last, turns.head turn, stopped, turn.readToken_eq.trans read, turn.results_eq.trans same⟩
    · have stopped : ∀ later, ¬ Turn console later := not_exists.mp moves
      exact ⟨console, .refl, stopped, readToken_of_stopped stopped, rfl⟩

/-- A read gets the first of the results, and the others are left. -/
theorem readToken_results (console : Console) :
    console.readToken.1 = console.results.headD (.error .endOfInput) ∧
    console.readToken.2.results = console.results.tail := by
  obtain ⟨last, -, stopped, read, same⟩ := console.exists_stopped
  rw [read, same]
  exact results_of_stopped stopped

/-- The console after some reads. -/
def after (console : Console) (reads : Nat) : Console := (fun console => console.readToken.2)^[reads] console

theorem after_succ (console : Console) (reads : Nat) : console.after (reads + 1) = console.readToken.2.after reads := rfl

theorem results_after (console : Console) (reads : Nat) : (console.after reads).results = console.results.drop reads := by
  induction reads generalizing console with
  | zero => rfl
  | succ reads ih => rw [after_succ, ih, console.readToken_results.2, List.drop_tail]

/-- Read by read, until the input has ended and ever after. -/
theorem readToken_after (console : Console) (reads : Nat) :
    (console.after reads).readToken.1 = console.results.getD reads (.error .endOfInput) := by
  rw [(console.after reads).readToken_results.1, results_after, List.headD_eq_head?_getD, List.head?_drop,
    List.getD_eq_getElem?_getD]

/-! ### Reads and writes in any order -/

/-- What can be done with a console. -/
inductive Op where
  | read
  | write (line : String)
  | flush
  deriving DecidableEq

def Op.line? : Op → Option String
  | write line => some line
  | _ => none

/-- Does one thing after the other, and collects what is read. Nothing that was written is held
back, so there is nothing to flush. -/
def session : List Op → Console → List (Except Failure String) × Console
  | [], console => ([], console)
  | .read :: ops, console =>
    let (result, console) := console.readToken
    let (results, console) := session ops console
    (result :: results, console)
  | .write line :: ops, console => session ops (console.writeLine line)
  | .flush :: ops, console => session ops console

theorem session_read (ops : List Op) (console : Console) :
    session (.read :: ops) console =
      (console.readToken.1 :: (session ops console.readToken.2).1, (session ops console.readToken.2).2) := rfl

theorem session_results (ops : List Op) (console : Console) :
    (session ops console).1 =
      (List.range (ops.count .read)).map fun reads => console.results.getD reads (.error .endOfInput) := by
  induction ops generalizing console with
  | nil => rfl
  | cons op ops ih =>
    cases op with
    | read =>
      obtain ⟨first, others⟩ := console.readToken_results
      have later (reads : Nat) : console.results.tail.getD reads (.error .endOfInput) =
          console.results.getD (reads + 1) (.error .endOfInput) := by
        simp only [List.getD_eq_getElem?_getD, List.getElem?_tail]
      rw [session_read, ih, first, others, List.count_cons_self, List.range_succ_eq_map, List.map_cons, List.map_map]
      simp only [later]
      congr 1
      simp [List.headD_eq_head?_getD, List.getD_eq_getElem?_getD, List.head?_eq_getElem?]
    | write line =>
      rw [session, ih, List.count_cons_of_ne (by simp)]
      rfl
    | flush => rw [session, ih, List.count_cons_of_ne (by simp)]

theorem session_output (ops : List Op) (console : Console) :
    (session ops console).2.output =
      console.output ++ String.join ((ops.filterMap Op.line?).map (· ++ "\n")) := by
  induction ops generalizing console with
  | nil => simp [session]
  | cons op ops ih =>
    cases op with
    | read =>
      rw [session_read, ih, output_readToken]
      rfl
    | write line =>
      rw [session, ih]
      simp [writeLine, Op.line?, String.join_cons, String.append_assoc]
    | flush =>
      rw [session, ih]
      rfl

/-- A read that gets no token fails on the console's account. -/
theorem kind_of_stream_failure {lines : List Line} {reads : Nat} {failure : Failure}
    (failed : (lines.flatMap Line.results).getD reads (.error .endOfInput) = .error failure) :
    failure.kind = .console := by
  rw [List.getD_eq_getElem?_getD] at failed
  cases found : (lines.flatMap Line.results)[reads]? with
  | none =>
    rw [found] at failed
    cases failed
    rfl
  | some result =>
    rw [found, Option.getD_some] at failed
    subst failed
    obtain ⟨line, -, member⟩ := List.mem_flatMap.mp (List.mem_of_getElem? found)
    exact Line.kind_of_failure member

/-- Whatever bytes are given, and however reads, writes and flushes follow each other. The reads get,
line after line, the tokens of each line that is text and one failure for each that is not, and once
these are used up, that the input has ended; all failures are of the console's kind. Of a text these
are its tokens. The output is what was written, each line with its newline. The search for a token
comes to a stop, from whatever console, and what is read is what it has found there. -/
theorem session_reads (input : List UInt8) (ops : List Op) :
    let stream := (cutLines input).flatMap Line.results
    (session ops (ofBytes input)).1 =
      (List.range (ops.count .read)).map (fun reads => stream.getD reads (.error .endOfInput)) ∧
    (∀ failure, .error failure ∈ (session ops (ofBytes input)).1 → failure.kind = .console) ∧
    (∀ text, decodeText? input = some text → stream = (Text.tokens text).map .ok) ∧
    (session ops (ofBytes input)).2.output = String.join ((ops.filterMap Op.line?).map (· ++ "\n")) ∧
    (WellFounded fun later console => Turn console later) ∧
    ∀ console, ∃ last, Relation.ReflTransGen Turn console last ∧ (∀ later, ¬ Turn last later) ∧
      console.readToken = last.taken := by
  intro stream
  have results : (session ops (ofBytes input)).1 =
      (List.range (ops.count .read)).map fun reads => stream.getD reads (.error .endOfInput) := by
    rw [session_results, results_ofBytes]
  refine ⟨results, ?_, fun text decoded => results_of_text decoded, ?_, turns_end, fun console => ?_⟩
  · intro failure member
    rw [results] at member
    obtain ⟨reads, -, failed⟩ := List.mem_map.mp member
    exact kind_of_stream_failure failed
  · rw [session_output]
    exact String.empty_append
  · obtain ⟨last, turns, stopped, read, -⟩ := console.exists_stopped
    exact ⟨last, turns, stopped, read⟩

/-- A blank line, a line that is no text, and a last line without a newline, whose tokens stand around
an em space. -/
theorem session_reads_broken :
    let input := "12\n \n".toUTF8.toList ++ [255, newline] ++ "no\u2003end".toUTF8.toList
    let ops : List Op := [.read, .write "a", .read, .flush, .read, .write "", .read, .read, .read]
    let broken : Except Failure String := .error (.console "stream did not contain valid UTF-8")
    (session ops (ofBytes input)).1 =
      [.ok "12", broken, .ok "no", .ok "end", .error .endOfInput, .error .endOfInput] ∧
    (session ops (ofBytes input)).2.output = "a\n\n" := by
  intro input ops broken
  obtain ⟨results, -, -, output, -⟩ := session_reads input ops
  refine ⟨results.trans ?_, output.trans ?_⟩
  · decide +kernel
  · decide +kernel

end Console

end TreeLang

import TreeLang.Json.Reader
import TreeLang.Proofs.Scanning

/-! Documents read back from their text. The text of a document, however its lines are
broken, is scanned into the tokens of the document, and these are built up to the document
again. Strings and nesting are arbitrary; numbers have to keep to the grammar, as those of every
document do that was read from a text. -/
namespace TreeLang.Json

/-! ### Tokens of a document -/

namespace Document

mutual
/-- The tokens of a document, put in front of others. -/
def tokens (document : Document) (rest : List Token) : List Token :=
  match document with
  | null => .null :: rest
  | bool value => .bool value :: rest
  | number literal => .number literal :: rest
  | string text => .string text :: rest
  | array [] => .openArray :: .closeArray :: rest
  | array (first :: others) =>
    .openArray :: first.tokens (elementTokens others (.closeArray :: rest))
  | object [] => .openObject :: .closeObject :: rest
  | object ((key, value) :: others) =>
    .openObject :: .string key :: .colon :: value.tokens
      (memberTokens others (.closeObject :: rest))
termination_by structural document

/-- The tokens of elements that follow another one. -/
def elementTokens (elements : List Document) (rest : List Token) : List Token :=
  match elements with
  | [] => rest
  | element :: others => .comma :: element.tokens (elementTokens others rest)
termination_by structural elements

/-- The tokens of members that follow another one. -/
def memberTokens (members : List (Text × Document)) (rest : List Token) : List Token :=
  match members with
  | [] => rest
  | (key, value) :: others =>
    .comma :: .string key :: .colon :: value.tokens (memberTokens others rest)
termination_by structural members
end

mutual
/-- Every number keeps to the grammar. -/
def Numeric : Document → Prop
  | number literal => isNumber literal.toList
  | array elements => NumericElements elements
  | object members => NumericMembers members
  | _ => True
termination_by structural document => document

def NumericElements : List Document → Prop
  | [] => True
  | element :: others => element.Numeric ∧ NumericElements others
termination_by structural elements => elements

def NumericMembers : List (Text × Document) → Prop
  | [] => True
  | (_, value) :: others => value.Numeric ∧ NumericMembers others
termination_by structural members => members
end

end Document

/-- A layout puts only white space between tokens. -/
structure Layout.Blank (layout : Layout) : Prop where
  lineBreak : ∀ level, (layout.lineBreak level).all isSpace
  afterColon : layout.afterColon.all isSpace

theorem Layout.compact_blank : Layout.compact.Blank where
  lineBreak _ := rfl
  afterColon := rfl

theorem Layout.pretty_blank : Layout.pretty.Blank where
  lineBreak level := by simp [Layout.pretty, isSpace]
  afterColon := rfl

namespace Document

section Writing

variable {layout : Layout} (blank : layout.Blank)

theorem delimited_writeElements (level : Nat) (elements : List Document) {rest : List Char}
    (delimited : Delimited rest) : Delimited (writeElements layout level elements rest) := by
  cases elements with
  | nil => exact delimited
  | cons element others => exact delimited_cons (by decide)

theorem delimited_writeMembers (level : Nat) (members : List (Text × Document)) {rest : List Char}
    (delimited : Delimited rest) : Delimited (writeMembers layout level members rest) := by
  cases members with
  | nil => exact delimited
  | cons member others => exact delimited_cons (by decide)

include blank

mutual
/-- The text of a document is scanned into its tokens. -/
theorem write_scans (document : Document) (numeric : document.Numeric) (level : Nat)
    {rest : List Char} {after : List Token} (delimited : Delimited rest)
    (later : Mode.between.Scans rest after) :
    Mode.between.Scans (document.write layout level rest) (document.tokens after) := by
  match document with
  | .null => exact later.word 'n' "ull".toList delimited (by decide) rfl
  | .bool true => exact later.word 't' "rue".toList delimited (by decide) rfl
  | .bool false => exact later.word 'f' "alse".toList delimited (by decide) rfl
  | .number literal =>
    have scanned := later.number delimited numeric
    rwa [String.ofList_toList] at scanned
  | .string text => exact later.quote text
  | .array [] =>
    have closed : Mode.between.Scans (']' :: rest) (.closeArray :: after) :=
      later.emit fun _ => rfl
    exact closed.emit fun _ => rfl
  | .array (first :: others) =>
    obtain ⟨numericFirst, numericOthers⟩ := numeric
    have closed : Mode.between.Scans (']' :: rest) (.closeArray :: after) :=
      later.emit fun _ => rfl
    have ended : Delimited (layout.lineBreak level ++ ']' :: rest) :=
      (delimited_cons (by decide)).spaces (blank.lineBreak level)
    have scanned := write_scans first numericFirst (level + 1)
      (delimited_writeElements (level + 1) others ended)
      (writeElements_scans others numericOthers (level + 1) ended
        (closed.spaces (blank.lineBreak level)))
    exact (scanned.spaces (blank.lineBreak (level + 1))).emit fun _ => rfl
  | .object [] =>
    have closed : Mode.between.Scans ('\x7d' :: rest) (.closeObject :: after) :=
      later.emit fun _ => rfl
    exact closed.emit fun _ => rfl
  | .object ((key, value) :: others) =>
    obtain ⟨numericValue, numericOthers⟩ := numeric
    have closed : Mode.between.Scans ('\x7d' :: rest) (.closeObject :: after) :=
      later.emit fun _ => rfl
    have ended : Delimited (layout.lineBreak level ++ '\x7d' :: rest) :=
      (delimited_cons (by decide)).spaces (blank.lineBreak level)
    have scanned := write_scans value numericValue (level + 1)
      (delimited_writeMembers (level + 1) others ended)
      (writeMembers_scans others numericOthers (level + 1) ended
        (closed.spaces (blank.lineBreak level)))
    have member := scanned.key key blank.afterColon
    exact (member.spaces (blank.lineBreak (level + 1))).emit fun _ => rfl
termination_by structural document

theorem writeElements_scans (elements : List Document) (numeric : NumericElements elements)
    (level : Nat) {rest : List Char} {after : List Token} (delimited : Delimited rest)
    (later : Mode.between.Scans rest after) :
    Mode.between.Scans (writeElements layout level elements rest)
      (elementTokens elements after) := by
  match elements with
  | [] => exact later
  | element :: others =>
    have scanned := write_scans element numeric.1 level
      (delimited_writeElements level others delimited)
      (writeElements_scans others numeric.2 level delimited later)
    exact (scanned.spaces (blank.lineBreak level)).emit fun _ => rfl
termination_by structural elements

theorem writeMembers_scans (members : List (Text × Document)) (numeric : NumericMembers members)
    (level : Nat) {rest : List Char} {after : List Token} (delimited : Delimited rest)
    (later : Mode.between.Scans rest after) :
    Mode.between.Scans (writeMembers layout level members rest) (memberTokens members after) := by
  match members with
  | [] => exact later
  | (key, value) :: others =>
    have scanned := write_scans value numeric.1 level
      (delimited_writeMembers level others delimited)
      (writeMembers_scans others numeric.2 level delimited later)
    have member := scanned.key key blank.afterColon
    exact (member.spaces (blank.lineBreak level)).emit fun _ => rfl
termination_by structural members
end

end Writing

end Document

/-! ### Building -/

namespace Builder

/-- The builder takes the tokens and has the document then. -/
def Builds (builder : Builder) (tokens : List Token) (document : Document) : Prop :=
  (tokens.foldlM accept? builder).bind result? = some document

theorem Builds.step {builder next : Builder} {token : Token} {tokens : List Token}
    {document : Document} (later : next.Builds tokens document)
    (accepts : builder.accept? token = some next) : builder.Builds (token :: tokens) document := by
  rw [Builds, List.foldlM_cons, accepts]
  exact later

/-- No document starts with the end of an array, so the first element of an array is read
as any other. -/
theorem Builds.element {frames : List Frame} {first whole : Document} {tokens : List Token}
    (later : (value (.array [] :: frames)).Builds (first.tokens tokens) whole) :
    (element frames).Builds (first.tokens tokens) whole := by
  match first with
  | .null | .bool _ | .number _ | .string _ => exact later
  | .array [] | .array (_ :: _) => exact later
  | .object [] | .object ((_, _) :: _) => exact later

end Builder

namespace Document

open Builder (complete)

mutual
/-- From the tokens of a document the builder completes the document. -/
theorem tokens_builds (document : Document) {frames : List Frame} {rest : List Token}
    {whole : Document} (later : (complete document frames).Builds rest whole) :
    (Builder.value frames).Builds (document.tokens rest) whole := by
  match document with
  | .null | .bool _ | .number _ | .string _ => exact later.step rfl
  | .array [] =>
    have closed : (Builder.element frames).Builds (.closeArray :: rest) whole := later.step rfl
    exact closed.step rfl
  | .array (first :: others) =>
    have closed : (Builder.nextElement (others.reverse ++ [first]) frames).Builds
        (.closeArray :: rest) whole := by
      apply later.step
      simp [Builder.accept?]
    have opened : (Builder.value (.array [] :: frames)).Builds
        (first.tokens (elementTokens others (.closeArray :: rest))) whole :=
      tokens_builds first (elementTokens_builds others closed)
    exact opened.element.step rfl
  | .object [] =>
    have closed : (Builder.firstKey frames).Builds (.closeObject :: rest) whole := later.step rfl
    exact closed.step rfl
  | .object ((key, value) :: others) =>
    have closed : (Builder.nextMember (others.reverse ++ [(key, value)]) frames).Builds
        (.closeObject :: rest) whole := by
      apply later.step
      simp [Builder.accept?]
    have valued : (Builder.value (.object [] key :: frames)).Builds
        (value.tokens (memberTokens others (.closeObject :: rest))) whole :=
      tokens_builds value (memberTokens_builds others closed)
    have marked : (Builder.colon [] key frames).Builds (.colon :: _) whole := valued.step rfl
    have keyed : (Builder.firstKey frames).Builds (.string key :: _) whole := marked.step rfl
    exact keyed.step rfl
termination_by structural document

theorem elementTokens_builds (elements : List Document) {done : List Document}
    {frames : List Frame} {rest : List Token} {whole : Document}
    (later : (Builder.nextElement (elements.reverse ++ done) frames).Builds rest whole) :
    (Builder.nextElement done frames).Builds (elementTokens elements rest) whole := by
  match elements with
  | [] => exact later
  | element :: others =>
    rw [List.reverse_cons, List.append_assoc] at later
    have opened : (Builder.value (.array done :: frames)).Builds
        (element.tokens (elementTokens others rest)) whole :=
      tokens_builds element (elementTokens_builds others later)
    exact opened.step rfl
termination_by structural elements

theorem memberTokens_builds (members : List (Text × Document)) {done : List (Text × Document)}
    {frames : List Frame} {rest : List Token} {whole : Document}
    (later : (Builder.nextMember (members.reverse ++ done) frames).Builds rest whole) :
    (Builder.nextMember done frames).Builds (memberTokens members rest) whole := by
  match members with
  | [] => exact later
  | (key, value) :: others =>
    rw [List.reverse_cons, List.append_assoc] at later
    have valued : (Builder.value (.object done key :: frames)).Builds
        (value.tokens (memberTokens others rest)) whole :=
      tokens_builds value (memberTokens_builds others later)
    have marked : (Builder.colon done key frames).Builds (.colon :: _) whole := valued.step rfl
    have keyed : (Builder.nextKey done frames).Builds (.string key :: _) whole := marked.step rfl
    exact keyed.step rfl
termination_by structural members
end

/-- A document is read back from its text in any layout. -/
theorem read?_write {layout : Layout} (blank : layout.Blank) {document : Document}
    (numeric : document.Numeric) :
    read? (String.ofList (document.write layout 0 [])) = some document := by
  have ended : Delimited [] := by simp [Delimited]
  have scanned := write_scans blank document numeric 0 ended .nil []
  have built : (Builder.value []).Builds (document.tokens []) document := tokens_builds document rfl
  have same : scan? (document.write layout 0 []) = some (document.tokens []) := scanned
  rw [read?, String.toList_ofList, same]
  exact built

theorem read?_compact {document : Document} (numeric : document.Numeric) :
    read? document.compact = some document := read?_write Layout.compact_blank numeric

theorem read?_pretty {document : Document} (numeric : document.Numeric) :
    read? document.pretty = some document := read?_write Layout.pretty_blank numeric

end Document

/-! ### What is read is JSON

The numbers of a document that was read from a text keep to the grammar, since the scanner lets no
other through. -/

theorem foldlM_invariant {α β : Type} {step? : β → α → Option β} {before : β → Prop}
    {given : α → Prop} (step : ∀ {b a c}, before b → given a → step? b a = some c → before c)
    {items : List α} (every : ∀ item ∈ items, given item) {start last : β} (first : before start)
    (folded : items.foldlM step? start = some last) : before last := by
  induction items generalizing start with
  | nil =>
    cases folded
    exact first
  | cons item rest ih =>
    obtain ⟨here, others⟩ := List.forall_mem_cons.mp every
    obtain ⟨next, taken, folded⟩ := Option.bind_eq_some_iff.mp folded
    exact ih others (step first here taken) folded

def Token.Numeric : Token → Prop
  | .number literal => isNumber literal.toList
  | _ => True

namespace Scanner

/-- Every number found so far keeps to the grammar. -/
def Numeric (scanner : Scanner) : Prop := ∀ token ∈ scanner.tokens, token.Numeric

variable {scanner after : Scanner}

theorem Numeric.emit (numeric : scanner.Numeric) {token : Token} (found : token.Numeric) :
    (scanner.emit token).Numeric :=
  List.forall_mem_cons.mpr ⟨found, numeric⟩

theorem Numeric.close? (numeric : scanner.Numeric) (closed : scanner.close? = some after) :
    after.Numeric := by
  unfold Scanner.close? at closed
  split at closed
  · cases closed
    exact numeric
  next run =>
    obtain ⟨token, word, rfl⟩ := Option.map_eq_some_iff.mp closed
    refine numeric.emit ?_
    unfold wordToken? at word
    split_ifs at word <;> cases word <;> trivial
  next run =>
    obtain ⟨number, same⟩ := Option.ite_none_right_eq_some.mp closed
    cases same
    exact numeric.emit (by rwa [Token.Numeric, String.toList_ofList])
  · contradiction

theorem Numeric.start? (numeric : scanner.Numeric) {c : Char}
    (taken : scanner.start? c = some after) : after.Numeric := by
  unfold Scanner.start? at taken
  -- A bracket, a comma or a colon is found at once, and nothing else is.
  split at taken
  all_goals try split_ifs at taken
  all_goals cases taken
  all_goals first | exact numeric | exact numeric.emit trivial

theorem Numeric.advance? (numeric : scanner.Numeric) {c : Char}
    (taken : scanner.advance? c = some after) : after.Numeric := by
  have closes (taken : scanner.close?.bind (·.start? c) = some after) : after.Numeric := by
    obtain ⟨closed, ends, starts⟩ := Option.bind_eq_some_iff.mp taken
    exact (numeric.close? ends).start? starts
  unfold Scanner.advance? at taken
  split at taken
  next => exact numeric.start? taken
  next run =>
    split_ifs at taken
    · cases taken
      exact numeric
    · exact closes taken
  next run =>
    split_ifs at taken
    · cases taken
      exact numeric
    · exact closes taken
  next pieces =>
    split_ifs at taken <;> cases taken
    · exact numeric.emit trivial
    · exact numeric
    · exact numeric
  next pieces =>
    split_ifs at taken
    · cases taken
      exact numeric
    · obtain ⟨d, -, rfl⟩ := Option.map_eq_some_iff.mp taken
      exact numeric
  next pieces digits code =>
    obtain ⟨d, -, rfl⟩ := Option.map_eq_some_iff.mp taken
    split_ifs <;> exact numeric

end Scanner

theorem scan?_numeric {text : List Char} {tokens : List Token}
    (scanned : scan? text = some tokens) : ∀ token ∈ tokens, token.Numeric := by
  obtain ⟨scanner, folded, closed⟩ := Option.bind_eq_some_iff.mp scanned
  obtain ⟨last, closes, same⟩ := Option.bind_eq_some_iff.mp closed
  cases same
  have start : Scanner.Numeric {} := nofun
  have every : ∀ c ∈ text, True := fun _ _ => trivial
  have numeric : scanner.Numeric :=
    foldlM_invariant (fun numeric _ taken => numeric.advance? taken) every start folded
  exact fun token there => numeric.close? closes token (List.mem_reverse.mp there)

namespace Document

theorem numericElements_iff {elements : List Document} :
    NumericElements elements ↔ ∀ element ∈ elements, element.Numeric := by
  induction elements with
  | nil => exact iff_of_true trivial nofun
  | cons element others ih => rw [NumericElements, ih, List.forall_mem_cons]

theorem numericMembers_iff {members : List (Text × Document)} :
    NumericMembers members ↔ ∀ member ∈ members, member.2.Numeric := by
  induction members with
  | nil => exact iff_of_true trivial nofun
  | cons member others ih => rw [NumericMembers, ih, List.forall_mem_cons]

end Document

/-- Every number in what a frame holds keeps to the grammar. -/
def Frame.Numeric : Frame → Prop
  | .array done => ∀ element ∈ done, element.Numeric
  | .object done _ => ∀ member ∈ done, member.2.Numeric

namespace Builder

def Numeric : Builder → Prop
  | value frames | element frames | firstKey frames => ∀ frame ∈ frames, frame.Numeric
  | nextElement done frames =>
    (∀ element ∈ done, element.Numeric) ∧ ∀ frame ∈ frames, frame.Numeric
  | nextKey done frames | colon done _ frames | nextMember done frames =>
    (∀ member ∈ done, member.2.Numeric) ∧ ∀ frame ∈ frames, frame.Numeric
  | finished document => document.Numeric

variable {builder next : Builder} {token : Token} {frames : List Frame} {document : Document}

theorem complete_numeric (numeric : document.Numeric) (around : ∀ frame ∈ frames, frame.Numeric) :
    (complete document frames).Numeric := by
  match frames, around with
  | [], _ => exact numeric
  | .array done :: frames, around =>
    obtain ⟨here, outside⟩ := List.forall_mem_cons.mp around
    exact ⟨List.forall_mem_cons.mpr ⟨numeric, here⟩, outside⟩
  | .object done key :: frames, around =>
    obtain ⟨here, outside⟩ := List.forall_mem_cons.mp around
    exact ⟨List.forall_mem_cons.mpr ⟨numeric, here⟩, outside⟩

theorem start?_numeric (around : ∀ frame ∈ frames, frame.Numeric) (found : token.Numeric)
    (taken : start? frames token = some next) : next.Numeric := by
  cases token with
  | null | bool | string =>
    cases taken
    exact complete_numeric trivial around
  | number literal =>
    cases taken
    exact complete_numeric found around
  | openArray | openObject =>
    cases taken
    exact around
  | closeArray | closeObject | comma | colon => contradiction

theorem accept?_numeric (numeric : builder.Numeric) (found : token.Numeric)
    (taken : builder.accept? token = some next) : next.Numeric := by
  unfold accept? at taken
  split at taken
  next frames => exact start?_numeric numeric found taken
  next frames =>
    cases taken
    exact complete_numeric trivial numeric
  next frames _ =>
    have empty : (Frame.array []).Numeric := fun _ there => nomatch there
    exact start?_numeric (List.forall_mem_cons.mpr ⟨empty, numeric⟩) found taken
  next frames =>
    cases taken
    exact complete_numeric trivial numeric
  next frames text =>
    cases taken
    exact ⟨nofun, numeric⟩
  next done frames text =>
    cases taken
    exact numeric
  next done key frames =>
    cases taken
    exact List.forall_mem_cons.mpr ⟨numeric.1, numeric.2⟩
  next done frames =>
    cases taken
    exact List.forall_mem_cons.mpr ⟨numeric.1, numeric.2⟩
  next done frames =>
    cases taken
    refine complete_numeric (Document.numericElements_iff.mpr ?_) numeric.2
    exact fun element there => numeric.1 element (List.mem_reverse.mp there)
  next done frames =>
    cases taken
    exact numeric
  next done frames =>
    cases taken
    refine complete_numeric (Document.numericMembers_iff.mpr ?_) numeric.2
    exact fun member there => numeric.1 member (List.mem_reverse.mp there)
  next => contradiction

end Builder

/-- The numbers of a document that was read keep to the grammar. -/
theorem Document.read?_numeric {text : String} {document : Document}
    (read : Document.read? text = some document) : document.Numeric := by
  obtain ⟨tokens, scanned, built⟩ := Option.bind_eq_some_iff.mp read
  obtain ⟨builder, folded, ended⟩ := Option.bind_eq_some_iff.mp built
  have start : (Builder.value []).Numeric := nofun
  have numeric : builder.Numeric :=
    foldlM_invariant Builder.accept?_numeric (scan?_numeric scanned) start folded
  cases builder with
  | finished document =>
    cases ended
    exact numeric
  | _ => contradiction

end TreeLang.Json

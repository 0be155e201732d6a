import TreeLang.Json.Token

/-! Documents from tokens. The builder takes one token at a time and keeps the unfinished
arrays and objects around it, so that nesting is limited by nothing here: the limit is with the
readers of trees, in `TreeLang.Form.Reader`. Which texts are documents is assumed behaviour of
the JSON library, see `TreeLang.Json.Document`. -/
namespace TreeLang.Json

/-- An unfinished array or object. What it holds so far is in reverse. -/
inductive Frame where
  | array (done : List Document)
  | object (done : List (Text × Document)) (key : Text)

/-- What the builder has and what it waits for. -/
inductive Builder where
  /-- A value. -/
  | value (frames : List Frame)
  /-- The first element of an array, or its end. -/
  | element (frames : List Frame)
  /-- The first key of an object, or its end. -/
  | firstKey (frames : List Frame)
  /-- A key after a comma. -/
  | nextKey (done : List (Text × Document)) (frames : List Frame)
  /-- The colon after a key. -/
  | colon (done : List (Text × Document)) (key : Text) (frames : List Frame)
  /-- A comma or the end of an array. -/
  | nextElement (done : List Document) (frames : List Frame)
  /-- A comma or the end of an object. -/
  | nextMember (done : List (Text × Document)) (frames : List Frame)
  /-- Nothing more. -/
  | finished (document : Document)

namespace Builder

/-- Puts a finished value where it belongs. -/
def complete (document : Document) : List Frame → Builder
  | [] => finished document
  | .array done :: frames => nextElement (document :: done) frames
  | .object done key :: frames => nextMember ((key, document) :: done) frames

/-- Takes the first token of a value. -/
def start? (frames : List Frame) : Token → Option Builder
  | .null => some (complete .null frames)
  | .bool b => some (complete (.bool b) frames)
  | .number literal => some (complete (.number literal) frames)
  | .string text => some (complete (.string text) frames)
  | .openArray => some (element frames)
  | .openObject => some (firstKey frames)
  | _ => none

def accept? : Builder → Token → Option Builder
  | value frames, token => start? frames token
  | element frames, .closeArray => some (complete (.array []) frames)
  | element frames, token => start? (.array [] :: frames) token
  | firstKey frames, .closeObject => some (complete (.object []) frames)
  | firstKey frames, .string text => some (colon [] text frames)
  | nextKey done frames, .string text => some (colon done text frames)
  | colon done key frames, .colon => some (value (.object done key :: frames))
  | nextElement done frames, .comma => some (value (.array done :: frames))
  | nextElement done frames, .closeArray => some (complete (.array done.reverse) frames)
  | nextMember done frames, .comma => some (nextKey done frames)
  | nextMember done frames, .closeObject => some (complete (.object done.reverse) frames)
  | _, _ => none

def result? : Builder → Option Document
  | finished document => some document
  | _ => none

end Builder

def Document.ofTokens? (tokens : List Token) : Option Document := do
  let builder ← tokens.foldlM Builder.accept? (.value [])
  builder.result?

/-- Reads a text that holds one JSON value and otherwise white space only. -/
def Document.read? (text : String) : Option Document :=
  (scan? text.toList).bind Document.ofTokens?

end TreeLang.Json

import TreeLang.Json.Document

/-! JSON text of documents, compact on one line or laid out with two blanks for each level
of nesting. All functions put their text in front of a given rest. Escapes and layout are
assumed behaviour of the JSON library, see `TreeLang.Json.Document`. -/
namespace TreeLang.Json

def hexDigit (n : Nat) : Char := Nat.digitChar n

/-- A character inside a string literal: only quotes, backslashes and control characters
below the blank are escaped. -/
def escape (c : Char) : List Char :=
  if c = '"' then ['\\', '"']
  else if c = '\\' then ['\\', '\\']
  else if c = '\x08' then ['\\', 'b']
  else if c = '\x0c' then ['\\', 'f']
  else if c = '\n' then ['\\', 'n']
  else if c = '\r' then ['\\', 'r']
  else if c = '\t' then ['\\', 't']
  else if c.toNat < 0x20 then
    ['\\', 'u', '0', '0', hexDigit (c.toNat / 16), hexDigit (c.toNat % 16)]
  else [c]

/-- A string literal. One that spells no text is written with a lone surrogate. -/
def quote (text : Text) (rest : List Char) : List Char :=
  match text with
  | some text => '"' :: (text.toList.flatMap escape ++ '"' :: rest)
  | none => "\"\\ud800\"".toList ++ rest

structure Layout where
  /-- What separates the items of an array or object at a level of nesting. -/
  lineBreak : Nat → List Char
  afterColon : List Char

def Layout.compact : Layout where
  lineBreak _ := []
  afterColon := []

def Layout.pretty : Layout where
  lineBreak level := '\n' :: List.replicate (2 * level) ' '
  afterColon := [' ']

namespace Document

mutual
def write (layout : Layout) (level : Nat) (document : Document) (rest : List Char) : List Char :=
  match document with
  | null => "null".toList ++ rest
  | bool true => "true".toList ++ rest
  | bool false => "false".toList ++ rest
  | number literal => literal.toList ++ rest
  | string text => quote text rest
  | array [] => '[' :: ']' :: rest
  | array (first :: others) =>
    '[' :: (layout.lineBreak (level + 1) ++
      first.write layout (level + 1) (writeElements layout (level + 1) others
        (layout.lineBreak level ++ ']' :: rest)))
  | object [] => '\x7b' :: '\x7d' :: rest
  | object ((key, value) :: others) =>
    '\x7b' :: (layout.lineBreak (level + 1) ++ quote key (':' :: (layout.afterColon ++
      value.write layout (level + 1) (writeMembers layout (level + 1) others
        (layout.lineBreak level ++ '\x7d' :: rest)))))
termination_by structural document

/-- Elements that follow another one. -/
def writeElements (layout : Layout) (level : Nat) (elements : List Document) (rest : List Char) :
    List Char :=
  match elements with
  | [] => rest
  | element :: others =>
    ',' :: (layout.lineBreak level ++
      element.write layout level (writeElements layout level others rest))
termination_by structural elements

/-- Members that follow another one. -/
def writeMembers (layout : Layout) (level : Nat) (members : List (Text × Document))
    (rest : List Char) : List Char :=
  match members with
  | [] => rest
  | (key, value) :: others =>
    ',' :: (layout.lineBreak level ++ quote key (':' :: (layout.afterColon ++
      value.write layout level (writeMembers layout level others rest))))
termination_by structural members
end

def compact (document : Document) : String := String.ofList (document.write .compact 0 [])

def pretty (document : Document) : String := String.ofList (document.write .pretty 0 [])

end Document

end TreeLang.Json

/-! JSON values as they are written: members keep their order and may repeat a key, and
numbers keep their spelling.

Programs are stored with the help of a JSON library, which is not code of the repository. The
modules under `TreeLang.Json` write out what it is documented to do; that it does so is assumed. -/
namespace TreeLang.Json

/-- The text of a string literal; `none` if its escapes leave a surrogate without partner,
so that it spells no text. -/
abbrev Text := Option String

inductive Document where
  | null
  | bool (value : Bool)
  | number (literal : String)
  | string (text : Text)
  | array (elements : List Document)
  | object (members : List (Text × Document))

namespace Document

mutual
/-- How deep arrays and objects nest, the outermost counted. -/
def depth : Document → Nat
  | array elements => depths elements + 1
  | object members => memberDepths members + 1
  | _ => 0
termination_by structural document => document

def depths : List Document → Nat
  | [] => 0
  | element :: rest => max element.depth (depths rest)
termination_by structural elements => elements

def memberDepths : List (Text × Document) → Nat
  | [] => 0
  | (_, value) :: rest => max value.depth (memberDepths rest)
termination_by structural members => members
end

end Document

end TreeLang.Json

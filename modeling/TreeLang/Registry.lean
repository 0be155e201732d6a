import TreeLang.Failure
import TreeLang.Tree

/-! Functions by signature. A signature is the name followed by one tag for each
parameter, or by `void` if there is none, all joined by underscores. A declaration takes
the tags from its parameter types and a call from its arguments; a call resolves to the
function with exactly its signature. -/
namespace TreeLang

/-- The functions that every program has. -/
inductive Builtin where
  | print
  | read
  deriving DecidableEq

namespace Builtin

def name : Builtin → String
  | print => "print"
  | read => "read"

def all : List Builtin := [print, read]

def ofName? (name : String) : Option Builtin := all.find? (·.name == name)

end Builtin

/-- Joins a name and the spellings of tags. -/
def joinSignature (name : String) (tags : List String) : String :=
  match tags with
  | [] => name ++ "_void"
  | tags => tags.foldl (fun text tag => text ++ "_" ++ tag) name

def signature (name : String) (tags : List Tag) : String := joinSignature name (tags.map Tag.text)

/-- The signature under which a function is registered. -/
def FunctionDef.signature {δ : Type} (function : FunctionDef δ) : String :=
  TreeLang.signature function.name (function.params.map (·.ty.tag))

/-- Registered functions, the latest first. -/
structure Registry (δ : Type) where
  entries : List (String × FunctionDef δ) := []

namespace Registry

variable {δ : Type}

def empty : Registry δ := {}

def size (registry : Registry δ) : Nat := registry.entries.length

def get? (registry : Registry δ) (signature : String) : Option (FunctionDef δ) :=
  registry.entries.lookup signature

def resolve (registry : Registry δ) (signature : String) : Except Failure (FunctionDef δ) :=
  match registry.get? signature with
  | some function => .ok function
  | none => .error (.noMatchingFunction signature)

/-- Why a function cannot be added: it has the name of a built-in function, a parameter
that cannot hold a value, or a signature that is taken. -/
def refusal? (registry : Registry δ) (function : FunctionDef δ) : Option Failure :=
  if (Builtin.ofName? function.name).isSome then
    some (.builtinRedefined function.name)
  else
    match function.params.find? fun param => !param.ty.isStorable with
    | some param => some (.voidParameter function.name param.name)
    | none =>
      if (registry.get? function.signature).isSome then
        some (.duplicateFunction function.signature)
      else
        none

def register (registry : Registry δ) (function : FunctionDef δ) : Except Failure (Registry δ) :=
  match registry.refusal? function with
  | some failure => .error failure
  | none => .ok { registry with entries := (function.signature, function) :: registry.entries }

/-- Adds functions in order up to the first that is refused. -/
def registerAll (registry : Registry δ) :
    List (FunctionDef δ) → Registry δ × Except Failure Unit
  | [] => (registry, .ok ())
  | function :: rest =>
    match registry.register function with
    | .ok registry => registry.registerAll rest
    | .error failure => (registry, .error failure)

/-- The signatures in the order of registration. -/
def registered (registry : Registry δ) : List String := (registry.entries.map (·.1)).reverse

/-- The signatures in code point order. -/
def sorted (registry : Registry δ) : List String :=
  registry.registered.mergeSort fun a b => decide (¬ b < a)

end Registry

end TreeLang

import TreeLang.Heap

/-! Names and the cells they denote. An environment is a stack of scopes that is never
empty: a name denotes its binding in the innermost scope that has one. A scope forest
keeps scopes alive independently of any stack, each with the chain of its ancestors. -/
namespace TreeLang

structure Scope where
  bindings : List (String × Ref) := []
  deriving DecidableEq

namespace Scope

def find? (scope : Scope) (name : String) : Option Ref := scope.bindings.lookup name

def size (scope : Scope) : Nat := scope.bindings.length

/-- Adds a binding; a scope binds a name at most once. -/
def declare (scope : Scope) (name : String) (ref : Ref) : Except Failure Scope :=
  match scope.find? name with
  | some _ => .error (.duplicateVariable name)
  | none => .ok { scope with bindings := (name, ref) :: scope.bindings }

end Scope

structure Env where
  inner : Scope := {}
  outer : List Scope := []
  deriving DecidableEq

namespace Env

/-- One scope without names. -/
def empty : Env := {}

/-- The scopes, innermost first. -/
def scopes (env : Env) : List Scope := env.inner :: env.outer

def depth (env : Env) : Nat := env.scopes.length

def pushScope (env : Env) : Env := { inner := {}, outer := env.inner :: env.outer }

/-- Drops the innermost scope; the last one stays. -/
def popScope (env : Env) : Env :=
  match env.outer with
  | [] => env
  | inner :: outer => { inner, outer }

def declare (env : Env) (name : String) (ref : Ref) : Except Failure Env :=
  (env.inner.declare name ref).map fun inner => { env with inner }

def find? (env : Env) (name : String) : Option Ref := env.scopes.findSome? (·.find? name)

def lookup (env : Env) (name : String) : Except Failure Ref :=
  match env.find? name with
  | some ref => .ok ref
  | none => .error (.undefinedVariable name)

end Env

/-- Scopes in the order of their creation. Beside each stands its chain: itself, its
parent, and so on outward. -/
structure ScopeForest where
  scopes : Array Scope := #[]
  chains : Array (List Nat) := #[]

namespace ScopeForest

def size (forest : ScopeForest) : Nat := forest.scopes.size

def get? (forest : ScopeForest) (index : Nat) : Option Scope := forest.scopes[index]?

def chain (forest : ScopeForest) (index : Nat) : List Nat := forest.chains.getD index []

def hasParent (forest : ScopeForest) (index : Nat) : Bool := 1 < (forest.chain index).length

/-- Adds an empty scope inside the scopes of a chain. -/
def grow (forest : ScopeForest) (parents : List Nat) : ScopeForest where
  scopes := forest.scopes.push {}
  chains := forest.chains.push (forest.size :: parents)

def root (forest : ScopeForest) : ScopeForest := forest.grow []

def child (forest : ScopeForest) (parent : Nat) : ScopeForest := forest.grow (forest.chain parent)

def declare (forest : ScopeForest) (index : Nat) (name : String) (ref : Ref) :
    Except Failure ScopeForest :=
  ((forest.scopes.getD index {}).declare name ref).map fun scope =>
    { forest with scopes := forest.scopes.setIfInBounds index scope }

/-- The binding of a name in the nearest scope of the chain. -/
def find? (forest : ScopeForest) (index : Nat) (name : String) : Option Ref :=
  (forest.chain index).findSome? fun i => (forest.get? i).bind (·.find? name)

end ScopeForest

end TreeLang

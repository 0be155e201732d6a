import TreeLang.Text.Decimal

/-! Why an operation of the language can fail. Each cause belongs to one of seven kinds,
and `Failure.message` is the only place that knows the wording. -/
namespace TreeLang

inductive Failure where
  | duplicateVariable (name : String)
  | duplicateFunction (signature : String)
  | builtinRedefined (name : String)
  | undefinedVariable (name : String)
  | noMatchingFunction (signature : String)
  | typeMismatch (expected got : String)
  | voidParameter (function parameter : String)
  | notAddressable (operation : String)
  | missingValue
  | returnMismatch (function expected got : String)
  | invalidArraySize (size : Int64)
  | indexOutOfBounds (index : Int64) (length : Nat)
  | divisionByZero
  | missingReturn (function : String)
  | returnInExpression
  | callDepthExceeded (limit : Nat)
  | console (problem : String)
  | endOfInput
  deriving DecidableEq

inductive Failure.Kind where
  | duplicateDefinition
  | unresolvedName
  | typeMismatch
  | arityOrSize
  | controlFlowMisuse
  | stackOverflow
  | console
  deriving DecidableEq

namespace Failure

def kind : Failure → Kind
  | duplicateVariable _ | duplicateFunction _ | builtinRedefined _ => .duplicateDefinition
  | undefinedVariable _ | noMatchingFunction _ => .unresolvedName
  | typeMismatch .. | voidParameter .. | notAddressable _ | missingValue
  | returnMismatch .. => .typeMismatch
  | invalidArraySize _ | indexOutOfBounds .. | divisionByZero => .arityOrSize
  | missingReturn _ | returnInExpression => .controlFlowMisuse
  | callDepthExceeded _ => .stackOverflow
  | console _ | endOfInput => .console

def message : Failure → String
  | duplicateVariable name => "variable " ++ name ++ " already exists in this scope"
  | duplicateFunction signature => "function " ++ signature ++ " already exists"
  | builtinRedefined name => "cannot redefine built-in function " ++ name
  | undefinedVariable name => "undefined variable: " ++ name
  | noMatchingFunction signature => "no function matches signature " ++ signature
  | typeMismatch expected got => "type error: expected " ++ expected ++ ", got " ++ got
  | voidParameter function parameter =>
    "parameter " ++ parameter ++ " of function " ++ function ++ " cannot have type void"
  | notAddressable operation => operation ++ " requires a variable, got a value"
  | missingValue => "expression produced no value"
  | returnMismatch function expected got =>
    "function " ++ function ++ " must return " ++ expected ++ ", returned " ++ got
  | invalidArraySize size => "cannot declare array of size " ++ Decimal.wordText size
  | indexOutOfBounds index length =>
    "index " ++ Decimal.wordText index ++ " out of bounds for length " ++ length.repr
  | divisionByZero => "division by zero"
  | missingReturn function => "missing return statement in function " ++ function
  | returnInExpression => "return used where a value is expected"
  | callDepthExceeded limit => "stack overflow: call depth exceeded " ++ limit.repr
  | console problem => "IO error: " ++ problem
  | endOfInput => "IO error: end of input"

/-- The message as it is reported to the user of a program. -/
def report (failure : Failure) : String := "Runtime error: " ++ failure.message

end Failure

end TreeLang

import SmallPascal.Tree

/-!
# Values

What a name can be bound to: an integer, a boolean or a routine. Routines are values like others;
they can be assigned and called through another name, and then keep the name they were declared
with.

Operands are integers or booleans, and a boolean counts as 1 or 0; a routine is no operand, whatever
the operator. Arithmetic is that of 64-bit words and wraps around, division drops the fraction.
-/

namespace SmallPascal

/-- What a name can be bound to. -/
inductive Value where
  | integer (n : Int64)
  | boolean (b : Bool)
  | routine (r : Routine)

/-- The sort of a value. -/
inductive ValueType where
  | integer
  | boolean
  | routine (kind : RoutineKind)
deriving DecidableEq

/-- What an error calls a sort of values. -/
def ValueType.describe : ValueType → String
  | integer => "integer"
  | boolean => "boolean"
  | routine .function => "function"
  | routine .procedure => "procedure"

/-- How a routine is shown. -/
def Routine.label (r : Routine) : String :=
  "<" ++ (ValueType.routine r.kind).describe ++ " " ++ r.name ++ ">"

namespace Value

/-- The sort of a value. -/
def type : Value → ValueType
  | integer _ => .integer
  | boolean _ => .boolean
  | routine r => .routine r.kind

/-- How a value is shown. -/
def text : Value → String
  | integer n => toString n.toInt
  | boolean true => "TRUE"
  | boolean false => "FALSE"
  | routine r => r.label

/-- Whether a value counts as true: every routine does, and every integer but zero. -/
def toBool : Value → Bool
  | integer n => n != 0
  | boolean b => b
  | routine _ => true

/-- The routine a value is, if it is one. -/
def routine? : Value → Option Routine
  | routine r => some r
  | _ => none

end Value

/-! ## Why a run stops -/

/-- Why a program or an expression has no result. -/
inductive RuntimeError where
  | undefinedVariable (name : String)
  | undefinedFunction (name : String)
  /-- A call of a name that is bound, but to no routine. -/
  | notCallable (name : String) (type : ValueType)
  | arityMismatch (routine : String) (expected got : Nat)
  /-- A routine as an operand. -/
  | routineOperand (kind : RoutineKind)
  /-- A statement or a declaration where a value is needed. -/
  | statementOperand
  | divisionByZero
  /-- A call that gives no value, where a value is needed. -/
  | noReturnValue (name : String)
  | callDepthExceeded (limit : Nat)
deriving DecidableEq

/-- The wording of a runtime error. -/
def RuntimeError.message : RuntimeError → String
  | undefinedVariable name => s!"Undefined variable: {name}"
  | undefinedFunction name => s!"Undefined function: {name}"
  | notCallable name type => s!"Value is not callable: {name} is {type.describe}"
  | arityMismatch routine expected got =>
    s!"Wrong number of arguments for {routine}: expected {expected}, got {got}"
  | routineOperand kind =>
    s!"Type error: expected integer, got {(ValueType.routine kind).describe}"
  | statementOperand => "Type error: expected expression, got statement"
  | divisionByZero => "Division by zero"
  | noReturnValue name => s!"Call to {name} produced no value"
  | callDepthExceeded limit => s!"Call depth limit exceeded (max: {limit} frames)"

/-! ## Operators -/

/-- A value as an integer. -/
def Value.toInteger : Value → Except RuntimeError Int64
  | integer n => .ok n
  | boolean b => .ok (if b then 1 else 0)
  | routine r => .error (.routineOperand r.kind)

/-- What an operator makes of its operand. A plus sign leaves it as it is. -/
def UnaryOp.apply (op : UnaryOp) (v : Value) : Except RuntimeError Value := do
  let n ← v.toInteger
  match op with
  | plus => return v
  | minus => return .integer (-n)
  | not => return .boolean (!v.toBool)

/-- What an operator makes of its operands. Both are checked, the left one first. -/
def BinaryOp.apply (op : BinaryOp) (left right : Value) : Except RuntimeError Value := do
  let l ← left.toInteger
  let r ← right.toInteger
  match op with
  | add => return .integer (l + r)
  | sub => return .integer (l - r)
  | mul => return .integer (l * r)
  | div => if r = 0 then throw .divisionByZero else return .integer (l / r)
  | and => return .boolean (left.toBool && right.toBool)
  | or => return .boolean (left.toBool || right.toBool)
  | eq => return .boolean (l = r)
  | notEq => return .boolean (l ≠ r)
  | lt => return .boolean (l < r)
  | ltEq => return .boolean (l ≤ r)
  | gt => return .boolean (r < l)
  | gtEq => return .boolean (r ≤ l)

end SmallPascal

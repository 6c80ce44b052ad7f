import SmallPascal.Token

/-!
# Trees

Programs as data. One type of node covers expressions, statements and declarations, because a tree
may also come from outside and then puts any node anywhere; what a grammatical tree looks like is a
property of trees, not their type. A block has two lists, declarations and statements, and a
routine or a program is a block with a heading.

The binary operators fall into six tiers. A tier with a smaller number binds tighter, and operators
of one tier group to the left.
-/

namespace SmallPascal

/-- Operators with one operand. -/
inductive UnaryOp where
  | plus
  | minus
  | not
deriving DecidableEq

/-- Operators with two operands. -/
inductive BinaryOp where
  | add
  | sub
  | mul
  | div
  | and
  | or
  | eq
  | notEq
  | lt
  | ltEq
  | gt
  | gtEq
deriving DecidableEq

/-- The types a declaration can name. -/
inductive TypeName where
  | integer
  | boolean
deriving DecidableEq

/-- Whether a routine is declared to give a value. -/
inductive RoutineKind where
  | function
  | procedure
deriving DecidableEq

/-- A formal parameter. -/
structure Param where
  name : String
  type : TypeName
deriving DecidableEq

/-- A node of a tree. -/
inductive Node where
  | number (value : Int64)
  | boolean (value : Bool)
  | var (name : String)
  | unary (op : UnaryOp) (operand : Node)
  | binary (op : BinaryOp) (left right : Node)
  | assign (target : String) (value : Node)
  | compound (children : List Node)
  /-- The empty statement. -/
  | noOp
  | varDecl (name : String) (type : TypeName)
  | typeSpec (type : TypeName)
  | param (param : Param)
  | block (declarations body : List Node)
  | routine (name : String) (kind : RoutineKind) (params : List Param)
      (returnType : Option TypeName) (declarations body : List Node)
  | call (name : String) (args : List Node)
  | program (name : String) (declarations body : List Node)

/-- Declarations and the statements they stand before. -/
structure Block where
  declarations : List Node
  body : List Node

/-- A declared function or procedure. -/
structure Routine where
  name : String
  kind : RoutineKind
  params : List Param
  returnType : Option TypeName
  block : Block

/-- A named block that runs by itself. -/
structure Program where
  name : String
  block : Block

/-- A routine as a declaration. -/
def Routine.node (r : Routine) : Node :=
  .routine r.name r.kind r.params r.returnType r.block.declarations r.block.body

/-- A program as a node. -/
def Program.node (p : Program) : Node :=
  .program p.name p.block.declarations p.block.body

namespace UnaryOp

/-- The sign an operator is written with. -/
def symbol : UnaryOp → Symbol
  | plus => .plus
  | minus => .minus
  | not => .not

/-- The operator that a sign stands for in front of an operand. -/
def ofSymbol? : Symbol → Option UnaryOp
  | .plus => some plus
  | .minus => some minus
  | .not => some not
  | _ => none

/-- A sign stands for an operator with one operand if the operator is written with it. -/
theorem ofSymbol?_eq_some_iff {s : Symbol} {op : UnaryOp} :
    ofSymbol? s = some op ↔ s = op.symbol := by
  cases s <;> cases op <;> decide

/-- Operators with one operand are told apart by their signs. -/
theorem symbol_inj {a b : UnaryOp} : a.symbol = b.symbol ↔ a = b := by
  rw [← ofSymbol?_eq_some_iff, ofSymbol?_eq_some_iff.2 rfl, Option.some_inj]

end UnaryOp

namespace BinaryOp

/-- The sign an operator is written with. -/
def symbol : BinaryOp → Symbol
  | add => .plus
  | sub => .minus
  | mul => .times
  | div => .divide
  | and => .and
  | or => .or
  | eq => .equal
  | notEq => .notEqual
  | lt => .less
  | ltEq => .lessEqual
  | gt => .greater
  | gtEq => .greaterEqual

/-- The operator that a sign stands for between two operands. -/
def ofSymbol? : Symbol → Option BinaryOp
  | .plus => some add
  | .minus => some sub
  | .times => some mul
  | .divide => some div
  | .and => some and
  | .or => some or
  | .equal => some eq
  | .notEqual => some notEq
  | .less => some lt
  | .lessEqual => some ltEq
  | .greater => some gt
  | .greaterEqual => some gtEq
  | _ => none

/-- How loosely an operator binds. -/
def tier : BinaryOp → Nat
  | mul | div => 0
  | add | sub => 1
  | lt | ltEq | gt | gtEq => 2
  | and => 3
  | or => 4
  | eq | notEq => 5

/-- The number of tiers. -/
@[simp] def tierCount : Nat := 6

/-- The tiers of the operators are the numbers below `tierCount`. -/
theorem tier_lt (op : BinaryOp) : op.tier < tierCount := by
  cases op <;> decide

/-- A sign stands for an operator with two operands if the operator is written with it. -/
theorem ofSymbol?_eq_some_iff {s : Symbol} {op : BinaryOp} :
    ofSymbol? s = some op ↔ s = op.symbol := by
  cases s <;> cases op <;> decide

/-- Operators with two operands are told apart by their signs. -/
theorem symbol_inj {a b : BinaryOp} : a.symbol = b.symbol ↔ a = b := by
  rw [← ofSymbol?_eq_some_iff, ofSymbol?_eq_some_iff.2 rfl, Option.some_inj]

end BinaryOp

namespace TypeName

/-- The word a type is written with. -/
def keyword : TypeName → Keyword
  | integer => .integer
  | boolean => .boolean

/-- The type that a word names. -/
def ofKeyword? : Keyword → Option TypeName
  | .integer => some integer
  | .boolean => some boolean
  | _ => none

/-- A word names a type if the type is written with it. -/
theorem ofKeyword?_eq_some_iff {k : Keyword} {t : TypeName} :
    ofKeyword? k = some t ↔ k = t.keyword := by
  cases k <;> cases t <;> decide

end TypeName

namespace RoutineKind

/-- The word that opens a declaration. -/
def keyword : RoutineKind → Keyword
  | function => .function
  | procedure => .procedure

/-- What a word declares. -/
def ofKeyword? : Keyword → Option RoutineKind
  | .function => some function
  | .procedure => some procedure
  | _ => none

/-- A word opens a routine of a kind if the kind is written with it. -/
theorem ofKeyword?_eq_some_iff {k : Keyword} {r : RoutineKind} :
    ofKeyword? k = some r ↔ k = r.keyword := by
  cases k <;> cases r <;> decide

end RoutineKind

end SmallPascal

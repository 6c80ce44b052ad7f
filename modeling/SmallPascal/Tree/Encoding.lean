import SmallPascal.Json
import SmallPascal.Tree

/-!
# Trees as JSON

A node is an alternative, tagged by its kind. What it carries is a record, but for literals, which
carry themselves, and the empty statement, which carries nothing. The fields of operations and
assignments have to be named; all other records may be arrays as well.

Reading is a step (`Node.ofJsonStep?`) from a reader of the nodes inside to a reader of a node,
repeated as often as the value is deep.
-/

namespace SmallPascal

/-- The tag of an operator. -/
def UnaryOp.tag : UnaryOp → String
  | plus => "Plus"
  | minus => "Minus"
  | not => "Not"

/-- The operator of a tag. -/
def UnaryOp.ofTag? : String → Option UnaryOp
  | "Plus" => some plus
  | "Minus" => some minus
  | "Not" => some not
  | _ => none

/-- The tag of an operator. -/
def BinaryOp.tag : BinaryOp → String
  | add => "Add"
  | sub => "Sub"
  | mul => "Mul"
  | div => "Div"
  | and => "And"
  | or => "Or"
  | eq => "Eq"
  | notEq => "NotEq"
  | lt => "Lt"
  | ltEq => "LtEq"
  | gt => "Gt"
  | gtEq => "GtEq"

/-- The operator of a tag. -/
def BinaryOp.ofTag? : String → Option BinaryOp
  | "Add" => some add
  | "Sub" => some sub
  | "Mul" => some mul
  | "Div" => some div
  | "And" => some and
  | "Or" => some or
  | "Eq" => some eq
  | "NotEq" => some notEq
  | "Lt" => some lt
  | "LtEq" => some ltEq
  | "Gt" => some gt
  | "GtEq" => some gtEq
  | _ => none

/-- The tag of a type. -/
def TypeName.tag : TypeName → String
  | integer => "Integer"
  | boolean => "Boolean"

/-- The type of a tag. -/
def TypeName.ofTag? : String → Option TypeName
  | "Integer" => some integer
  | "Boolean" => some boolean
  | _ => none

/-- The tag of a kind of routines. -/
def RoutineKind.tag : RoutineKind → String
  | function => "Function"
  | procedure => "Procedure"

/-- The kind of routines of a tag. -/
def RoutineKind.ofTag? : String → Option RoutineKind
  | "Function" => some function
  | "Procedure" => some procedure
  | _ => none

namespace Json

/-! ## Records without nodes inside -/

/-- A name that is used or declared. -/
def ofName (name : String) : Json :=
  .object [("name", .string name)]

/-- A type. -/
def ofType (type : TypeName) : Json :=
  .object [("name", .string type.tag)]

/-- A name with its type. -/
def ofTypedName (name : String) (type : TypeName) : Json :=
  .object [("var", ofName name), ("type_spec", ofType type)]

/-- Reads a name. -/
def name? (j : Json) : Option String :=
  match j.fields? ["name"] with
  | some [some name] => name.string?
  | _ => none

/-- Reads a type. -/
def type? (j : Json) : Option TypeName :=
  match j.fields? ["name"] with
  | some [some name] => name.tag?.bind TypeName.ofTag?
  | _ => none

/-- Reads a name with its type. -/
def typedName? (j : Json) : Option (String × TypeName) :=
  match j.fields? ["var", "type_spec"] with
  | some [some var, some type] => do return (← var.name?, ← type.type?)
  | _ => none

/-- Reads a formal parameter. -/
def param? (j : Json) : Option Param :=
  j.typedName?.map fun (name, type) => ⟨name, type⟩

/-- Reads the type of a result, which may be missing or null. -/
def returnType? : Option Json → Option (Option TypeName)
  | none => some none
  | some .null => some none
  | some j => j.type?.map some

/-! ## Records around nodes -/

/-- Statements in brackets, given as JSON. -/
def ofCompound (children : List Json) : Json :=
  .object [("children", .array children)]

/-- A block, given the JSON of its declarations and of its statements. -/
def ofBlock (declarations body : List Json) : Json :=
  .object [("declarations", .array declarations), ("body", ofCompound body)]

/-- Reads statements in brackets. -/
def compound? (node? : Json → Option Node) (j : Json) : Option (List Node) :=
  match j.fields? ["children"] with
  | some [some children] => children.listOf? node?
  | _ => none

/-- Reads a block. -/
def block? (node? : Json → Option Node) (j : Json) : Option Block :=
  match j.fields? ["declarations", "body"] with
  | some [some declarations, some body] => do
    return ⟨← declarations.listOf? node?, ← body.compound? node?⟩
  | _ => none

/-- Reads a routine. -/
def routine? (node? : Json → Option Node) (j : Json) : Option Routine :=
  match j.fields? ["name", "kind", "params", "return_type", "block"] with
  | some [some name, some kind, some params, returnType, some block] => do
    return ⟨← name.string?, ← kind.tag?.bind RoutineKind.ofTag?, ← params.listOf? param?,
      ← returnType? returnType, ← block.block? node?⟩
  | _ => none

/-- Reads a program. -/
def program? (node? : Json → Option Node) (j : Json) : Option Program :=
  match j.fields? ["name", "block"] with
  | some [some name, some block] => do return ⟨← name.string?, ← block.block? node?⟩
  | _ => none

/-- Reads a call. -/
def call? (node? : Json → Option Node) (j : Json) : Option Node :=
  match j.fields? ["name", "args"] with
  | some [some name, some args] => do return .call (← name.string?) (← args.listOf? node?)
  | _ => none

/-- Reads an operation with one operand. -/
def unary? (node? : Json → Option Node) (j : Json) : Option Node :=
  match j.namedFields? ["op", "operand"] with
  | some [some op, some operand] => do
    return .unary (← op.tag?.bind UnaryOp.ofTag?) (← node? operand)
  | _ => none

/-- Reads an operation with two operands. -/
def binary? (node? : Json → Option Node) (j : Json) : Option Node :=
  match j.namedFields? ["op", "left", "right"] with
  | some [some op, some left, some right] => do
    return .binary (← op.tag?.bind BinaryOp.ofTag?) (← node? left) (← node? right)
  | _ => none

/-- Reads an assignment. -/
def assign? (node? : Json → Option Node) (j : Json) : Option Node :=
  match j.namedFields? ["target", "value"] with
  | some [some target, some value] => do return .assign (← target.name?) (← node? value)
  | _ => none

end Json

namespace Node

mutual

/-- A node as JSON. -/
def toJson : Node → Json
  | .number n => .variant "Num" (.integer n.toInt)
  | .boolean b => .variant "Boolean" (.bool b)
  | .var name => .variant "Var" (.ofName name)
  | .unary op operand =>
    .variant "UnaryOp" (.object [("op", .string op.tag), ("operand", operand.toJson)])
  | .binary op left right =>
    .variant "BinaryOp"
      (.object [("op", .string op.tag), ("left", left.toJson), ("right", right.toJson)])
  | .assign target value =>
    .variant "Assign" (.object [("target", .ofName target), ("value", value.toJson)])
  | .compound children => .variant "Compound" (.ofCompound (toJsonAll children))
  | .noOp => .string "NoOp"
  | .varDecl name type => .variant "VarDecl" (.ofTypedName name type)
  | .typeSpec type => .variant "Type" (.ofType type)
  | .param p => .variant "Param" (.ofTypedName p.name p.type)
  | .block declarations body =>
    .variant "Block" (.ofBlock (toJsonAll declarations) (toJsonAll body))
  | .routine name kind params returnType declarations body =>
    .variant "FunctionDecl"
      (.object [("name", .string name), ("kind", .string kind.tag),
        ("params", .array (params.map fun p => .ofTypedName p.name p.type)),
        ("return_type", (returnType.map Json.ofType).getD .null),
        ("block", .ofBlock (toJsonAll declarations) (toJsonAll body))])
  | .call name args =>
    .variant "Call" (.object [("name", .string name), ("args", .array (toJsonAll args))])
  | .program name declarations body =>
    .variant "Program"
      (.object [("name", .string name),
        ("block", .ofBlock (toJsonAll declarations) (toJsonAll body))])

/-- Nodes as JSON, in their order. -/
def toJsonAll : List Node → List Json
  | [] => []
  | n :: rest => n.toJson :: toJsonAll rest

end

/-- Reads a node, given how the nodes inside are read. -/
def ofJsonStep? (node? : Json → Option Node) (j : Json) : Option Node :=
  match j.variant? with
  | some ("Num", some content) => content.int64?.map .number
  | some ("Boolean", some content) => content.bool?.map .boolean
  | some ("Var", some content) => content.name?.map .var
  | some ("UnaryOp", some content) => content.unary? node?
  | some ("BinaryOp", some content) => content.binary? node?
  | some ("Assign", some content) => content.assign? node?
  | some ("Compound", some content) => (content.compound? node?).map .compound
  | some ("VarDecl", some content) => content.typedName?.map fun (name, type) => .varDecl name type
  | some ("Type", some content) => content.type?.map .typeSpec
  | some ("Param", some content) => content.param?.map .param
  | some ("Block", some content) =>
    (content.block? node?).map fun b => .block b.declarations b.body
  | some ("FunctionDecl", some content) => (content.routine? node?).map Routine.node
  | some ("Call", some content) => content.call? node?
  | some ("Program", some content) => (content.program? node?).map Program.node
  | _ => if j.tag? = some "NoOp" then some .noOp else none

/-- Reads a node in which nodes nest no deeper than a bound. -/
def ofJsonWithin? : Nat → Json → Option Node
  | 0, _ => none
  | n + 1, j => ofJsonStep? (ofJsonWithin? n) j

/-- The node that a JSON value gives. -/
def ofJson? (j : Json) : Option Node :=
  ofJsonWithin? j.depth j

end Node

/-- A program as JSON. -/
def Program.toJson (p : Program) : Json :=
  .object [("name", .string p.name),
    ("block", .ofBlock (Node.toJsonAll p.block.declarations) (Node.toJsonAll p.block.body))]

/-- The program that a JSON value gives. -/
def Program.ofJson? (j : Json) : Option Program :=
  j.program? Node.ofJson?

end SmallPascal

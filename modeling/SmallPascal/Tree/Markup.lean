import SmallPascal.Markup
import SmallPascal.Tree

/-!
# Trees as markup

Each kind of node has its element: an operator is tagged by its sign, a heading becomes a name, and
the statements of a block stand in an element of their own behind its declarations
(`Node.markup`).

The text of a tree is written without building its element (`Node.toXml`). A node opens and closes
its own elements on a writer, and in between its parts write themselves (`Node.writeXml`). Nothing
but the order of these calls makes an opening line meet its closing line, and a writer on which
nothing is open refuses to close.
-/

namespace SmallPascal

/-! ## The element of a node -/

namespace Markup

/-- A name that is used or declared. -/
def ofName (name : String) : Markup :=
  .leaf "var" name

/-- A type. -/
def ofType (type : TypeName) : Markup :=
  .leaf "type" type.keyword.spelling

/-- A formal parameter. -/
def ofParam (p : Param) : Markup :=
  .element "param" none [ofName p.name, ofType p.type]

/-- A block, given the elements of its declarations and of its statements. -/
def ofBlock (declarations body : List Markup) : Markup :=
  .element "block" none (declarations ++ [.element "compound" none body])

/-- The tag of a routine. -/
def routineTag : RoutineKind → String
  | .function => "function"
  | .procedure => "procedure"

end Markup

open Markup

mutual

/-- A node as markup. -/
def Node.markup : Node → Markup
  | .number n => .leaf "integer" (toString n.toInt)
  | .boolean b => .leaf "boolean" (if b then "TRUE" else "FALSE")
  | .var name => ofName name
  | .unary op operand => .element op.symbol.spelling none [operand.markup]
  | .binary op left right => .element op.symbol.spelling none [left.markup, right.markup]
  | .assign target value => .element ":=" none [ofName target, value.markup]
  | .compound children => .element "compound" none (Node.markupAll children)
  | .noOp => .empty "noop"
  | .varDecl name type => .element "vardecl" none [ofName name, ofType type]
  | .typeSpec type => ofType type
  | .param p => ofParam p
  | .block declarations body => ofBlock (Node.markupAll declarations) (Node.markupAll body)
  | .routine name kind params returnType declarations body =>
    .element (routineTag kind) (some name)
      (params.map ofParam ++ returnType.toList.map ofType ++
        [ofBlock (Node.markupAll declarations) (Node.markupAll body)])
  | .call name args => .element "call" (some name) (Node.markupAll args)
  | .program name declarations body =>
    .element "program" (some name) [ofBlock (Node.markupAll declarations) (Node.markupAll body)]

/-- Nodes as markup, in their order. -/
def Node.markupAll : List Node → List Markup
  | [] => []
  | n :: rest => n.markup :: Node.markupAll rest

end

/-! ## Writing a node -/

namespace Markup.Writer

/-- Writes a name that is used or declared. -/
def name (w : Writer) (name : String) : Writer :=
  w.leaf "var" name

/-- Writes a type. -/
def type (w : Writer) (type : TypeName) : Writer :=
  w.leaf "type" type.keyword.spelling

/-- Writes a formal parameter. -/
def param (w : Writer) (p : Param) : Option Writer :=
  (((w.enter "param" none).name p.name).type p.type).leave? "param"

/-- Writes the type of a result, if there is one. -/
def result (w : Writer) : Option TypeName → Writer
  | none => w
  | some type => w.type type

/-- Writes statements in brackets, given how to write the statements. -/
def compound (w : Writer) (body : Writer → Option Writer) : Option Writer := do
  let behind ← body (w.enter "compound" none)
  behind.leave? "compound"

/-- Writes a block, given how to write its declarations and its statements. -/
def block (w : Writer) (declarations body : Writer → Option Writer) : Option Writer := do
  let declared ← declarations (w.enter "block" none)
  let behind ← declared.compound body
  behind.leave? "block"

end Markup.Writer

mutual

/-- Writes a node. -/
def Node.writeXml : Node → Writer → Option Writer
  | .number n, w => some (w.leaf "integer" (toString n.toInt))
  | .boolean b, w => some (w.leaf "boolean" (if b then "TRUE" else "FALSE"))
  | .var name, w => some (w.name name)
  | .unary op operand, w => do
    let behind ← operand.writeXml (w.enter op.symbol.spelling none)
    behind.leave? op.symbol.spelling
  | .binary op left right, w => do
    let between ← left.writeXml (w.enter op.symbol.spelling none)
    let behind ← right.writeXml between
    behind.leave? op.symbol.spelling
  | .assign target value, w => do
    let behind ← value.writeXml ((w.enter ":=" none).name target)
    behind.leave? ":="
  | .compound children, w => w.compound (Node.writeXmlAll children)
  | .noOp, w => some (w.empty "noop")
  | .varDecl name type, w => (((w.enter "vardecl" none).name name).type type).leave? "vardecl"
  | .typeSpec type, w => some (w.type type)
  | .param p, w => w.param p
  | .block declarations body, w =>
    w.block (Node.writeXmlAll declarations) (Node.writeXmlAll body)
  | .routine name kind params returnType declarations body, w => do
    let headed ← params.foldlM Writer.param (w.enter (routineTag kind) (some name))
    let behind ← (headed.result returnType).block (Node.writeXmlAll declarations)
      (Node.writeXmlAll body)
    behind.leave? (routineTag kind)
  | .call name args, w => do
    let behind ← Node.writeXmlAll args (w.enter "call" (some name))
    behind.leave? "call"
  | .program name declarations body, w => do
    let behind ← (w.enter "program" (some name)).block (Node.writeXmlAll declarations)
      (Node.writeXmlAll body)
    behind.leave? "program"

/-- Writes nodes one after the other. -/
def Node.writeXmlAll : List Node → Writer → Option Writer
  | [], w => some w
  | n :: rest, w => do
    let behind ← n.writeXml w
    Node.writeXmlAll rest behind

end

/-- The text of a node by itself. -/
def Node.toXml (n : Node) : String :=
  ((n.writeXml .start).map Writer.text).getD ""

end SmallPascal

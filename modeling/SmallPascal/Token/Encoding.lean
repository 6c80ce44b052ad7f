import SmallPascal.Json
import SmallPascal.Token

/-!
# Tokens as JSON

A token is a record of its kind, its lexeme, its line and its column. A kind is an alternative: a
numeral carries its value and an identifier its name, every other kind is just a tag.
-/

namespace SmallPascal

/-- The tag of a reserved word. -/
def Keyword.tag : Keyword → String
  | program => "Program"
  | beginBlock => "Begin"
  | endBlock => "End"
  | varSection => "Var"
  | integer => "Integer"
  | boolean => "Boolean"
  | function => "Function"
  | procedure => "Procedure"
  | trueLiteral => "True"
  | falseLiteral => "False"

/-- The tag of a sign. -/
def Symbol.tag : Symbol → String
  | assign => "Assign"
  | equal => "Equal"
  | notEqual => "NotEqual"
  | lessEqual => "LessEqual"
  | greaterEqual => "GreaterEqual"
  | and => "And"
  | or => "Or"
  | plus => "Plus"
  | minus => "Minus"
  | times => "Multiply"
  | divide => "Divide"
  | less => "Less"
  | greater => "Greater"
  | not => "Not"
  | leftParen => "LeftParen"
  | rightParen => "RightParen"
  | semicolon => "Semi"
  | colon => "Colon"
  | comma => "Comma"
  | dot => "Dot"

namespace Token

/-- The kind of a tag that carries nothing. -/
def Kind.ofTag? (tag : String) : Option Kind :=
  if tag = "Eof" then some .endOfInput
  else ((Keyword.all.find? fun k => k.tag = tag).map Kind.keyword).or
    ((Symbol.all.find? fun s => s.tag = tag).map Kind.symbol)

/-- A kind as JSON. -/
def Kind.toJson : Kind → Json
  | .integer n => .variant "IntegerConst" (.integer n.toInt)
  | .identifier name => .variant "Identifier" (.string name)
  | .keyword k => .string k.tag
  | .symbol s => .string s.tag
  | .endOfInput => .string "Eof"

/-- The kind that a JSON value gives. -/
def Kind.ofJson? (j : Json) : Option Kind :=
  match j.variant? with
  | some ("IntegerConst", some content) => content.int64?.map Kind.integer
  | some ("Identifier", some content) => content.string?.map Kind.identifier
  | _ => j.tag?.bind Kind.ofTag?

/-- A token as JSON. -/
def toJson (t : Token) : Json :=
  .object [("kind", t.kind.toJson), ("lexeme", .string t.lexeme),
    ("line", .integer t.position.line), ("column", .integer t.position.column)]

/-- The token that a JSON value gives. -/
def ofJson? (j : Json) : Option Token :=
  match j.fields? ["kind", "lexeme", "line", "column"] with
  | some [some kind, some lexeme, some line, some column] => do
    return ⟨← Kind.ofJson? kind, ← lexeme.string?, ⟨← line.count?, ← column.count?⟩⟩
  | _ => none

end Token

end SmallPascal

import SmallPascal.Evaluation
import SmallPascal.Grammar

/-!
# From text to result

Programs and expressions run on their own, in a session in which nothing else has been run. Whatever
can go wrong between a text and the result of running it is an `Error`, which knows the stage at
which it arises.
-/

namespace SmallPascal

/-! ## Errors -/

/-- Where an error arises. -/
inductive Stage where
  /-- When a text is cut into tokens. -/
  | lex
  /-- When tokens are read as a tree. -/
  | parse
  /-- When a tree is run. -/
  | runtime
deriving DecidableEq

/-- Why a text has no result. -/
inductive Error where
  | source (e : SyntaxError)
  | run (e : RuntimeError)
deriving DecidableEq

namespace Error

/-- An error from cutting a text into tokens. -/
def ofLexical (e : LexicalError) : Error :=
  .source (.lexical e)

/-- Where an error arises. -/
def stage : Error → Stage
  | source (.lexical _) => .lex
  | source _ => .parse
  | run _ => .runtime

/-- The wording of an error. -/
def message : Error → String
  | source e => e.message
  | run e => e.message

end Error

/-! ## Running a text -/

/-- The version of the language that this library runs. -/
def version : String := "0.1.0"

/-- The tree of a program that is given by its lines. -/
def parseLines (lines : List String) : Except SyntaxError Program :=
  Program.ofSource (.ofLines lines)

/-- The tree of an expression that is given by its lines. -/
def parseExpressionLines (lines : List String) : Except SyntaxError Node :=
  Node.ofSource (.ofLines lines)

/-- Runs a program. -/
def Program.run (p : Program) (settings : Settings) : Run Outcome :=
  ((Session.new settings).runProgram p).1

/-- Runs an expression. -/
def Node.eval (n : Node) (settings : Settings) : Run Value :=
  ((Session.new settings).runExpression n).1

/-- Runs a program that is given by its lines, with the standard settings. -/
def runLines (lines : List String) : Except Error Outcome := do
  let p ← (parseLines lines).mapError .source
  (p.run {}).result.mapError .run

end SmallPascal

import SmallPascal.Progress
import SmallPascal.Token.Cursor
import SmallPascal.Tree

/-!
# The grammar

A rule of the grammar reads from the tokens that a text has left, and behind them stands the ending
of the text: the end mark, or the lexical error at which the tokens stop. A rule that fails also
says how many items, the ending included, it has left unread, because reading may go on from there.

Rules look at items in two ways. Looking at an item does not read it (`glance`, `refuse`); an item
that is taken and then turns out to be wrong has been read (`expect`, `reject`). The difference
shows in what a failure leaves unread, and it is why an unreadable item is sometimes read and
sometimes not.

A text is a program, or an expression, if the tokens it can be cut into are, and nothing but the end
mark follows. Reading starts from a cursor and says where it stopped, on failure too, so that one
text can be read piece by piece: what a rule has read stays read, what it has only looked at does
not.
-/

namespace SmallPascal

/-! ## Why tokens are no program

A syntax error names what the grammar wants, what stands there instead, and where. A text whose
tokens cannot be read fails in the same way as the token that is asked for, so a lexical error is
one of the causes. -/

/-- What the grammar wants at a place. -/
inductive Expectation where
  | kind (kind : Token.Kind)
  | identifier
  | type
  | expression
deriving DecidableEq

/-- What a syntax error calls an expectation. -/
def Expectation.describe : Expectation → String
  | kind k => k.describe
  | identifier => "identifier"
  | type => "type"
  | expression => "expression"

/-- Why a text is no program. -/
inductive SyntaxError where
  /-- A token that is needed cannot be read. -/
  | lexical (error : LexicalError)
  /-- A token that does not fit. -/
  | unexpectedToken (expected : Expectation) (found : Token.Kind) (position : Position)
  /-- A statement list that goes on with a name. -/
  | missingSeparator (name : String) (position : Position)
deriving DecidableEq

/-- How the wording of a syntax error begins. -/
def SyntaxError.heading (position : Position) : String :=
  s!"Syntax error at line {position.line}, column {position.column}: "

/-- The wording of a syntax error. -/
def SyntaxError.message : SyntaxError → String
  | .lexical error => error.message
  | .unexpectedToken expected found position =>
    heading position ++ s!"expected {expected.describe}, found {found.describe}"
  | .missingSeparator name position =>
    heading position ++ s!"missing `;` or END before `{name}`"

/-- The name of a program that has no heading. -/
def Program.defaultName : String := "main"

namespace Grammar

/-! ## Parts of rules -/

section

/-- How a text ends: with the end mark, or with an item that cannot be read. -/
abbrev Ending := Except LexicalError Token

/-- Why a rule fails, and how many items, the ending included, it leaves unread. -/
structure Failure where
  error : SyntaxError
  unread : Nat

/-- What a rule gives: a failure, or a result and fewer than `bound` tokens. -/
abbrev Parse (bound : Nat) (α : Type) := Progress Failure Token bound α

variable {α : Type} {bound : Nat}

/-- Fails on the next item, which has been read. -/
def reject (ending : Ending) (expected : Expectation) : List Token → Parse bound α
  | t :: rest => .fail ⟨.unexpectedToken expected t.kind t.position, rest.length + 1⟩
  | [] =>
    match ending with
    | .ok mark => .fail ⟨.unexpectedToken expected mark.kind mark.position, 0⟩
    | .error e => .fail ⟨.lexical e, 0⟩

/-- Fails on the next item, which stays unread. -/
def refuse (ending : Ending) (expected : Expectation) : List Token → Parse bound α
  | t :: rest => .fail ⟨.unexpectedToken expected t.kind t.position, rest.length + 2⟩
  | [] =>
    match ending with
    | .ok mark => .fail ⟨.unexpectedToken expected mark.kind mark.position, 1⟩
    | .error e => .fail ⟨.lexical e, 1⟩

/-- Goes on with a rule that has looked at the next item and found nothing to read there. -/
def glance (ending : Ending) (ts : List Token) (otherwise : Parse bound α) : Parse bound α :=
  match ts, ending with
  | [], .error e => .fail ⟨.lexical e, 1⟩
  | _, _ => otherwise

/-- Reads a token of the given kind. -/
def expect (ending : Ending) (kind : Token.Kind) : (ts : List Token) → Parse ts.length Unit
  | t :: rest =>
    if t.kind = kind then .done () rest
    else reject ending (.kind kind) (t :: rest)
  | [] => reject ending (.kind kind) []

/-- Reads a name. -/
def identifier (ending : Ending) : (ts : List Token) → Parse ts.length String
  | t :: rest =>
    match t.kind with
    | .identifier name => .done name rest
    | _ => reject ending .identifier (t :: rest)
  | [] => reject ending .identifier []

/-- Reads a part that a token of the given kind opens, if that token stands in front. -/
def optionally (ending : Ending) (opening : Token.Kind) (absent : α) (ts : List Token)
    (part : (rest : List Token) → rest.length < ts.length → Parse (rest.length + 1) α) :
    Parse (ts.length + 1) α :=
  match ts with
  | [] => glance ending [] (.done absent [])
  | t :: rest =>
    if t.kind = opening then (part rest (by simp)).weaken
    else .done absent (t :: rest)

/-- Reads the ending, which has to be the end mark, behind the tokens of a whole text. -/
def finish (ending : Ending) (a : α) : List Token → Except Failure α
  | t :: rest => .error ⟨.unexpectedToken (.kind .endOfInput) t.kind t.position, rest.length + 1⟩
  | [] =>
    match ending with
    | .ok _ => .ok a
    | .error e => .error ⟨.lexical e, 0⟩

end

/-! ## Expressions

An expression with the operators of the first `n + 1` tiers is a chain of expressions with those of
the first `n`, joined from the left by the operators of tier `n`; with no operators left it is a
factor. Whether a name is a variable or a call is decided by the item behind it, so an item that
cannot be read behind a name is noticed before the name is read.

Recursion ends because a rule either reads a token or hands the same tokens to a rule with fewer
tiers. -/

/-- The operator of a tier that a token stands for. -/
def operatorOf? (tier : Nat) (t : Token) : Option BinaryOp :=
  match t.kind with
  | .symbol s => (BinaryOp.ofSymbol? s).filter fun op => op.tier = tier
  | _ => none

/-- What the first token of an operand tells of it. -/
inductive Opening where
  | literal (node : Node)
  | group
  | sign (op : UnaryOp)
  | identifier (name : String)

/-- What an operand that begins with a token of the given kind is. -/
def Opening.ofKind? : Token.Kind → Option Opening
  | .integer n => some (.literal (.number n))
  | .keyword .trueLiteral => some (.literal (.boolean true))
  | .keyword .falseLiteral => some (.literal (.boolean false))
  | .symbol .leftParen => some .group
  | .symbol s => (UnaryOp.ofSymbol? s).map .sign
  | .identifier name => some (.identifier name)
  | _ => none

namespace Opening

@[simp] theorem ofKind?_integer (n : Int64) :
    ofKind? (.integer n) = some (.literal (.number n)) := rfl

@[simp] theorem ofKind?_identifier (name : String) :
    ofKind? (.identifier name) = some (.identifier name) := rfl

@[simp] theorem ofKind?_endOfInput : ofKind? .endOfInput = none := rfl

/-- Of the words, only those for truth values open an operand. -/
@[simp] theorem ofKind?_keyword (k : Keyword) :
    ofKind? (.keyword k) =
      if k = .trueLiteral then some (.literal (.boolean true))
      else if k = .falseLiteral then some (.literal (.boolean false)) else none := by
  cases k <;> rfl

/-- Of the signs, only the opening parenthesis and the operators with one operand do. -/
@[simp] theorem ofKind?_symbol (s : Symbol) :
    ofKind? (.symbol s) =
      if s = .leftParen then some .group else (UnaryOp.ofSymbol? s).map .sign := by
  cases s <;> rfl

end Opening

mutual

/-- Reads an expression with the operators of the first `tiers` tiers. -/
def expressionWithin (ending : Ending) (tiers : Nat) (ts : List Token) : Parse ts.length Node :=
  match tiers with
  | 0 => factor ending ts
  | tier + 1 =>
    (expressionWithin ending tier ts).bind fun left rest _ => operations ending tier left rest
termination_by 10 * ts.length + tiers + 1

/-- Joins to `left` the operations of a tier that follow. -/
def operations (ending : Ending) (tier : Nat) (left : Node) (ts : List Token) :
    Parse (ts.length + 1) Node :=
  match ts with
  | [] => glance ending [] (.done left [])
  | t :: rest =>
    match operatorOf? tier t with
    | none => .done left (t :: rest)
    | some op =>
      ((expressionWithin ending tier rest).bind fun right rest' _ =>
        operations ending tier (.binary op left right) rest').weaken
termination_by 10 * ts.length + tier + 1

/-- Reads an operand: a literal, a name, a call, an expression in parentheses or an operand with a
sign in front. -/
def factor (ending : Ending) (ts : List Token) : Parse ts.length Node :=
  match ts with
  | [] => refuse ending .expression []
  | t :: rest =>
    match Opening.ofKind? t.kind with
    | none => refuse ending .expression (t :: rest)
    | some (.literal node) => .done node rest
    | some .group =>
      ((expressionWithin ending BinaryOp.tierCount rest).bind fun node rest' _ =>
        ((expect ending (.symbol .rightParen) rest').map fun _ => node).weaken).weaken
    | some (.sign op) => ((factor ending rest).map (.unary op)).weaken
    | some (.identifier name) =>
      match rest with
      | [] =>
        match ending with
        | .ok _ => .done (.var name) []
        | .error e => .fail ⟨.lexical e, 2⟩
      | u :: rest' =>
        if u.kind = .symbol .leftParen then
          ((arguments ending rest').map (.call name)).weaken
        else .done (.var name) (u :: rest')
termination_by 10 * ts.length

/-- Reads the arguments of a call behind its opening parenthesis, and the closing one. -/
def arguments (ending : Ending) (ts : List Token) : Parse ts.length (List Node) :=
  match ts with
  | [] => refuse ending .expression []
  | t :: rest =>
    if t.kind = .symbol .rightParen then .done [] rest
    else
      (expressionWithin ending BinaryOp.tierCount (t :: rest)).bind fun arg rest' shorter =>
        have : rest'.length < rest.length + 1 := by simpa only [List.length_cons] using shorter
        ((moreArguments ending rest').map (arg :: ·)).weaken
termination_by 10 * ts.length + 9

/-- Reads the arguments behind the first, each with the comma in front of it, and the closing
parenthesis. -/
def moreArguments (ending : Ending) (ts : List Token) : Parse ts.length (List Node) :=
  match ts with
  | [] => glance ending [] (reject ending (.kind (.symbol .rightParen)) [])
  | t :: rest =>
    if t.kind = .symbol .comma then
      ((expressionWithin ending BinaryOp.tierCount rest).bind fun arg rest' _ =>
        ((moreArguments ending rest').map (arg :: ·)).weaken).weaken
    else (expect ending (.symbol .rightParen) (t :: rest)).map fun _ => []
termination_by 10 * ts.length

end

/-- Reads an expression. -/
def expression (ending : Ending) (ts : List Token) : Parse ts.length Node :=
  expressionWithin ending BinaryOp.tierCount ts

/-! ## Statements

A statement is a block in brackets, a call, an assignment or nothing at all; which of them is
decided by the next item and, behind a name, by the one after. Since a statement may be empty, a
list of statements goes on only behind a semicolon, and a name that follows the list is reported as
a missing separator. -/

/-- Reads an assignment behind its target. -/
def assignment (ending : Ending) (target : String) (ts : List Token) : Parse ts.length Node :=
  (expect ending (.symbol .assign) ts).bind fun _ rest _ =>
    ((expression ending rest).map (.assign target)).weaken

mutual

/-- Reads statements in brackets. -/
def compound (ending : Ending) (ts : List Token) : Parse ts.length (List Node) :=
  (expect ending (.keyword .beginBlock) ts).bind fun _ rest _ =>
    (statements ending rest).bind fun children rest' _ =>
      ((expect ending (.keyword .endBlock) rest').map fun _ => children).weaken
termination_by 3 * ts.length

/-- Reads statements that semicolons separate. -/
def statements (ending : Ending) (ts : List Token) : Parse (ts.length + 1) (List Node) :=
  (statement ending ts).bind fun first rest _ =>
    match rest with
    | [] => glance ending [] (.done [first] [])
    | t :: rest' =>
      match t.kind with
      | .symbol .semicolon =>
        ((statements ending rest').map (first :: ·)).weaken
      | .identifier name => .fail ⟨.missingSeparator name t.position, rest'.length + 2⟩
      | _ => .done [first] (t :: rest')
termination_by 3 * ts.length + 2
decreasing_by
  · omega
  · simp only [List.length_cons] at *; omega

/-- Reads a statement. -/
def statement (ending : Ending) (ts : List Token) : Parse (ts.length + 1) Node :=
  match ts with
  | [] => glance ending [] (.done .noOp [])
  | t :: rest =>
    match t.kind with
    | .keyword .beginBlock =>
      ((compound ending (t :: rest)).map .compound).weaken
    | .identifier name =>
      match rest with
      | [] =>
        match ending with
        | .ok _ => (assignment ending name []).weaken
        | .error e => .fail ⟨.lexical e, 2⟩
      | u :: rest' =>
        if u.kind = .symbol .leftParen then
          ((arguments ending rest').map (.call name)).weaken
        else (assignment ending name (u :: rest')).weaken
    | _ => .done .noOp (t :: rest)
termination_by 3 * ts.length + 1

end

/-! ## Declarations and programs

A block is a section of variables, the routines, and statements in brackets. A declaration of
several names gives one node for each of them. Only a function may name the type of its result; a
program without a heading has the name `Program.defaultName`. -/

/-- Reads a type. -/
def typeName (ending : Ending) (ts : List Token) : Parse ts.length TypeName :=
  match ts with
  | [] => refuse ending .type []
  | t :: rest =>
    match t.kind with
    | .keyword k =>
      match TypeName.ofKeyword? k with
      | some type => .done type rest
      | none => refuse ending .type (t :: rest)
    | _ => refuse ending .type (t :: rest)

/-- Reads names that commas separate. -/
def names (ending : Ending) (ts : List Token) : Parse ts.length (List String) :=
  (identifier ending ts).bind fun first rest _ =>
    optionally ending (.symbol .comma) [first] rest fun rest' _ =>
      ((names ending rest').map (first :: ·)).weaken
termination_by ts.length

/-- Reads names and the type they share. -/
def nameGroup (ending : Ending) (ts : List Token) : Parse ts.length (List String × TypeName) :=
  (names ending ts).bind fun vars rest _ =>
    ((expect ending (.symbol .colon) rest).bind fun _ rest' _ =>
      ((typeName ending rest').map (vars, ·)).weaken).weaken

/-- Reads the declarations of a section of variables. -/
def variableSection (ending : Ending) (ts : List Token) : Parse ts.length (List Node) :=
  (nameGroup ending ts).bind fun (vars, type) rest _ =>
    ((expect ending (.symbol .semicolon) rest).bind fun _ rest' _ =>
      let nodes := vars.map (Node.varDecl · type)
      match rest' with
      | [] => glance ending [] (.done nodes [])
      | t :: rest'' =>
        match t.kind with
        | .identifier _ =>
          ((variableSection ending (t :: rest'')).map (nodes ++ ·)).weaken
        | _ => .done nodes (t :: rest'')).weaken
termination_by ts.length
decreasing_by simp only [List.length_cons] at *; omega

/-- Reads the formal parameters of a routine. -/
def parameters (ending : Ending) (ts : List Token) : Parse ts.length (List Param) :=
  (nameGroup ending ts).bind fun (vars, type) rest _ =>
    let params := vars.map (Param.mk · type)
    optionally ending (.symbol .semicolon) params rest fun rest' _ =>
      ((parameters ending rest').map (params ++ ·)).weaken
termination_by ts.length

/-- Reads the parameters of a routine in their parentheses, if it has any. -/
def parameterPart (ending : Ending) (ts : List Token) : Parse (ts.length + 1) (List Param) :=
  optionally ending (.symbol .leftParen) [] ts fun rest _ =>
    ((parameters ending rest).bind fun params rest' _ =>
      ((expect ending (.symbol .rightParen) rest').map fun _ => params).weaken).weaken

/-- Reads the type of a result, if the routine is a function and names it. -/
def resultPart (ending : Ending) (kind : RoutineKind) (ts : List Token) :
    Parse (ts.length + 1) (Option TypeName) :=
  match kind with
  | .procedure => .done none ts
  | .function =>
    optionally ending (.symbol .colon) none ts fun rest _ =>
      ((typeName ending rest).map some).weaken

/-- Reads the section of variables, if there is one. -/
def variablePart (ending : Ending) (ts : List Token) : Parse (ts.length + 1) (List Node) :=
  optionally ending (.keyword .varSection) [] ts fun rest _ => (variableSection ending rest).weaken

/-- The heading of a routine: its name, its parameters and the type of its result. -/
def heading (ending : Ending) (kind : RoutineKind) (ts : List Token) :
    Parse ts.length (String × List Param × Option TypeName) :=
  (identifier ending ts).bind fun name rest _ =>
    (parameterPart ending rest).bind fun params rest' _ =>
      (resultPart ending kind rest').bind fun returnType rest'' _ =>
        ((expect ending (.symbol .semicolon) rest'').map fun _ =>
          (name, params, returnType)).weaken

mutual

/-- Reads a block. -/
def block (ending : Ending) (ts : List Token) : Parse (ts.length + 1) Block :=
  (variablePart ending ts).bind fun vars rest _ =>
    (routines ending rest).bind fun rs rest' _ =>
      ((compound ending rest').map fun body => ⟨vars ++ rs.map Routine.node, body⟩).weaken
termination_by 2 * ts.length + 1

/-- Reads routines, as long as there are any. -/
def routines (ending : Ending) (ts : List Token) : Parse (ts.length + 1) (List Routine) :=
  match ts with
  | [] => glance ending [] (.done [] [])
  | t :: rest =>
    match t.kind with
    | .keyword k =>
      match RoutineKind.ofKeyword? k with
      | some kind =>
        ((routine ending kind rest).bind fun r rest' _ =>
          (routines ending rest').map (r :: ·)).weaken
      | none => .done [] (t :: rest)
    | _ => .done [] (t :: rest)
termination_by 2 * ts.length

/-- Reads a routine behind the word that opens it. -/
def routine (ending : Ending) (kind : RoutineKind) (ts : List Token) : Parse ts.length Routine :=
  (heading ending kind ts).bind fun (name, params, returnType) rest _ =>
    (block ending rest).bind fun b rest' _ =>
      ((expect ending (.symbol .semicolon) rest').map fun _ =>
        ⟨name, kind, params, returnType, b⟩).weaken
termination_by 2 * ts.length

end

/-- Reads the heading of a program, if there is one, and gives the name of the program. -/
def programHeading (ending : Ending) (ts : List Token) : Parse (ts.length + 1) String :=
  optionally ending (.keyword .program) Program.defaultName ts fun rest _ =>
    ((identifier ending rest).bind fun name rest' _ =>
      ((expect ending (.symbol .semicolon) rest').map fun _ => name).weaken).weaken

/-- Reads a program up to its final dot. -/
def program (ending : Ending) (ts : List Token) : Parse (ts.length + 1) Program :=
  (programHeading ending ts).bind fun name rest _ =>
    (block ending rest).bind fun b rest' _ =>
      ((expect ending (.symbol .dot) rest').map fun _ => ⟨name, b⟩).weaken

/-! ## From text to tree -/

/-- Reads a whole stream by a rule: what the rule reads, and then the end mark. -/
def whole {α : Type} (rule : Ending → (ts : List Token) → Parse (ts.length + 1) α)
    (s : TokenStream) : Except Failure α :=
  match (rule s.ending s.tokens).toExcept with
  | .ok (a, rest) => finish s.ending a rest
  | .error f => .error f

end Grammar

namespace Cursor

/-- Reads everything in front of a cursor by a rule, and moves over the items that were read. -/
def parse {α : Type}
    (rule : Grammar.Ending → (ts : List Token) → Grammar.Parse (ts.length + 1) α)
    (c : Cursor) : Except SyntaxError α × Cursor :=
  match Grammar.whole rule c.stream with
  | .ok a => (.ok a, c.stream.stop)
  | .error f => (.error f.error, c.skip (c.stream.tokens.length + 1 - f.unread))

/-- Reads a program. -/
def parseProgram : Cursor → Except SyntaxError Program × Cursor :=
  parse Grammar.program

/-- Reads an expression. -/
def parseExpression : Cursor → Except SyntaxError Node × Cursor :=
  parse fun ending ts => (Grammar.expression ending ts).weaken

end Cursor

/-- The program that a text spells. -/
def Program.ofSource (source : Cursor) : Except SyntaxError Program :=
  source.parseProgram.1

/-- The expression that a text spells. -/
def Node.ofSource (source : Cursor) : Except SyntaxError Node :=
  source.parseExpression.1

end SmallPascal

import SmallPascal.Grammar

/-!
# The grammar

The rules of the language as derivations: `Derivation s` has a constructor for each production of
the nonterminal `s`, `Derivation.yield` is the sequence of token kinds that a derivation derives,
and `Derivation.tree` is the tree it stands for. A part that may be missing and a part that may be
repeated have a production for each way to go on.

```
program         := programHeading block DOT
programHeading  := (PROGRAM ID SEMI)?
block           := variablePart routines compound
variablePart    := (VAR variableSection)?
variableSection := (nameGroup SEMI)+
routines        := routine*
routine         := (FUNCTION | PROCEDURE) ID parameterPart resultPart SEMI block SEMI
parameterPart   := (LEFT_PAREN parameters RIGHT_PAREN)?
parameters      := nameGroup (SEMI nameGroup)*
resultPart      := (COLON type)?                      of a function; empty for a procedure
nameGroup       := names COLON type
names           := ID (COMMA ID)*
compound        := BEGIN statements END
statements      := statement (SEMI statement)*
statement       := compound | ID LEFT_PAREN arguments RIGHT_PAREN | ID ASSIGN expression | empty
expression n+1  := expression n (operator-of-tier-n expression n)*
expression 0    := (PLUS | MINUS | NOT) expression 0 | INTEGER_CONST | TRUE | FALSE
                 | LEFT_PAREN expression RIGHT_PAREN | ID LEFT_PAREN arguments RIGHT_PAREN | ID
arguments       := (expression (COMMA expression)*)?
```

An `expression` without a number has the operators of all tiers.
-/

namespace SmallPascal.Grammar

/-- What the grammar has rules for. -/
inductive Nonterminal where
  | program
  | programHeading
  | block
  | variablePart
  | variableSection
  | routines
  | routine
  | parameterPart
  | parameters
  | resultPart (kind : RoutineKind)
  | nameGroup
  | names
  | compound
  | statements
  | statement
  /-- An expression with the operators of the first `tiers` tiers. -/
  | expression (tiers : Nat)
  /-- The operations of a tier behind the first operand. -/
  | operations (tier : Nat)
  | arguments
  /-- The arguments behind the first. -/
  | moreArguments

/-- The word for a truth value. -/
def literalKeyword : Bool → Keyword
  | true => .trueLiteral
  | false => .falseLiteral

/-- The derivations of a nonterminal. -/
inductive Derivation : Nonterminal → Type where
  | program (heading : Derivation .programHeading) (block : Derivation .block) :
    Derivation .program
  | noHeading : Derivation .programHeading
  | heading (name : String) : Derivation .programHeading
  | block (vars : Derivation .variablePart) (routines : Derivation .routines)
    (body : Derivation .compound) : Derivation .block
  | noVariables : Derivation .variablePart
  | someVariables (groups : Derivation .variableSection) : Derivation .variablePart
  | lastVariables (group : Derivation .nameGroup) : Derivation .variableSection
  | moreVariables (group : Derivation .nameGroup) (more : Derivation .variableSection) :
    Derivation .variableSection
  | noRoutines : Derivation .routines
  | moreRoutines (first : Derivation .routine) (more : Derivation .routines) :
    Derivation .routines
  | routine (kind : RoutineKind) (name : String) (params : Derivation .parameterPart)
    (result : Derivation (.resultPart kind)) (block : Derivation .block) : Derivation .routine
  | noParameters : Derivation .parameterPart
  | someParameters (groups : Derivation .parameters) : Derivation .parameterPart
  | lastParameters (group : Derivation .nameGroup) : Derivation .parameters
  | moreParameters (group : Derivation .nameGroup) (more : Derivation .parameters) :
    Derivation .parameters
  | noResult {kind : RoutineKind} : Derivation (.resultPart kind)
  | result (type : TypeName) : Derivation (.resultPart .function)
  | nameGroup (names : Derivation .names) (type : TypeName) : Derivation .nameGroup
  | lastName (name : String) : Derivation .names
  | moreNames (name : String) (more : Derivation .names) : Derivation .names
  | compound (statements : Derivation .statements) : Derivation .compound
  | lastStatement (statement : Derivation .statement) : Derivation .statements
  | moreStatements (statement : Derivation .statement) (more : Derivation .statements) :
    Derivation .statements
  | emptyStatement : Derivation .statement
  | compoundStatement (compound : Derivation .compound) : Derivation .statement
  | callStatement (name : String) (args : Derivation .arguments) : Derivation .statement
  | assignment (target : String) (value : Derivation (.expression BinaryOp.tierCount)) :
    Derivation .statement
  | number (value : Int64) : Derivation (.expression 0)
  | boolean (value : Bool) : Derivation (.expression 0)
  | var (name : String) : Derivation (.expression 0)
  | call (name : String) (args : Derivation .arguments) : Derivation (.expression 0)
  | group (inner : Derivation (.expression BinaryOp.tierCount)) : Derivation (.expression 0)
  | sign (op : UnaryOp) (operand : Derivation (.expression 0)) : Derivation (.expression 0)
  | chain {tier : Nat} (first : Derivation (.expression tier))
    (more : Derivation (.operations tier)) : Derivation (.expression (tier + 1))
  | noOperation {tier : Nat} : Derivation (.operations tier)
  | operation {tier : Nat} (op : BinaryOp) (tier_eq : op.tier = tier)
    (right : Derivation (.expression tier)) (more : Derivation (.operations tier)) :
    Derivation (.operations tier)
  | noArguments : Derivation .arguments
  | someArguments (first : Derivation (.expression BinaryOp.tierCount))
    (more : Derivation .moreArguments) : Derivation .arguments
  | noMoreArguments : Derivation .moreArguments
  | moreArguments (next : Derivation (.expression BinaryOp.tierCount))
    (more : Derivation .moreArguments) : Derivation .moreArguments

/-- What a nonterminal stands for. Operations stand for what they make of the operand in front of
them. -/
abbrev Nonterminal.Value : Nonterminal → Type
  | program => Program
  | programHeading => String
  | block => Block
  | variablePart | variableSection => List Node
  | routines => List Routine
  | routine => Routine
  | parameterPart | parameters => List Param
  | resultPart _ => Option TypeName
  | nameGroup => List String × TypeName
  | names => List String
  | compound | statements => List Node
  | statement => Node
  | expression _ => Node
  | operations _ => Node → Node
  | arguments | moreArguments => List Node

namespace Derivation

/-- The kinds of token that a derivation derives. -/
@[simp] def yield {s : Nonterminal} : Derivation s → List Token.Kind
  | program h b => h.yield ++ (b.yield ++ [.symbol .dot])
  | noHeading => []
  | heading x => [.keyword .program, .identifier x, .symbol .semicolon]
  | block vs rs c => vs.yield ++ (rs.yield ++ c.yield)
  | noVariables => []
  | someVariables gs => .keyword .varSection :: gs.yield
  | lastVariables g => g.yield ++ [.symbol .semicolon]
  | moreVariables g gs => g.yield ++ (.symbol .semicolon :: gs.yield)
  | noRoutines => []
  | moreRoutines r rs => r.yield ++ rs.yield
  | routine kind x ps ret b =>
    .keyword kind.keyword :: .identifier x :: (ps.yield ++ (ret.yield ++
      (.symbol .semicolon :: (b.yield ++ [.symbol .semicolon]))))
  | noParameters => []
  | someParameters gs => .symbol .leftParen :: (gs.yield ++ [.symbol .rightParen])
  | lastParameters g => g.yield
  | moreParameters g gs => g.yield ++ (.symbol .semicolon :: gs.yield)
  | noResult => []
  | result type => [.symbol .colon, .keyword type.keyword]
  | nameGroup xs type => xs.yield ++ [.symbol .colon, .keyword type.keyword]
  | lastName x => [.identifier x]
  | moreNames x xs => .identifier x :: .symbol .comma :: xs.yield
  | compound ss => .keyword .beginBlock :: (ss.yield ++ [.keyword .endBlock])
  | lastStatement s => s.yield
  | moreStatements s ss => s.yield ++ (.symbol .semicolon :: ss.yield)
  | emptyStatement => []
  | compoundStatement c => c.yield
  | callStatement f args =>
    .identifier f :: .symbol .leftParen :: (args.yield ++ [.symbol .rightParen])
  | assignment x e => .identifier x :: .symbol .assign :: e.yield
  | number n => [.integer n]
  | boolean b => [.keyword (literalKeyword b)]
  | var x => [.identifier x]
  | call f args => .identifier f :: .symbol .leftParen :: (args.yield ++ [.symbol .rightParen])
  | group e => .symbol .leftParen :: (e.yield ++ [.symbol .rightParen])
  | sign op e => .symbol op.symbol :: e.yield
  | chain e es => e.yield ++ es.yield
  | noOperation => []
  | operation op _ e es => .symbol op.symbol :: (e.yield ++ es.yield)
  | noArguments => []
  | someArguments e es => e.yield ++ es.yield
  | noMoreArguments => []
  | moreArguments e es => .symbol .comma :: (e.yield ++ es.yield)

/-- What a derivation stands for. A list of names that share a type gives a declaration for each
of them, and the operations of a tier group to the left. -/
def tree {s : Nonterminal} : Derivation s → s.Value
  | program h b => ⟨h.tree, b.tree⟩
  | noHeading => Program.defaultName
  | heading x => x
  | block vs rs c => ⟨vs.tree ++ rs.tree.map Routine.node, c.tree⟩
  | noVariables => []
  | someVariables gs => gs.tree
  | lastVariables g => g.tree.1.map (Node.varDecl · g.tree.2)
  | moreVariables g gs => g.tree.1.map (Node.varDecl · g.tree.2) ++ gs.tree
  | noRoutines => []
  | moreRoutines r rs => r.tree :: rs.tree
  | routine kind x ps ret b => ⟨x, kind, ps.tree, ret.tree, b.tree⟩
  | noParameters => []
  | someParameters gs => gs.tree
  | lastParameters g => g.tree.1.map (Param.mk · g.tree.2)
  | moreParameters g gs => g.tree.1.map (Param.mk · g.tree.2) ++ gs.tree
  | noResult => none
  | result type => some type
  | nameGroup xs type => (xs.tree, type)
  | lastName x => [x]
  | moreNames x xs => x :: xs.tree
  | compound ss => ss.tree
  | lastStatement s => [s.tree]
  | moreStatements s ss => s.tree :: ss.tree
  | emptyStatement => .noOp
  | compoundStatement c => .compound c.tree
  | callStatement f args => .call f args.tree
  | assignment x e => .assign x e.tree
  | number n => .number n
  | boolean b => .boolean b
  | var x => .var x
  | call f args => .call f args.tree
  | group e => e.tree
  | sign op e => .unary op e.tree
  | chain e es => es.tree e.tree
  | noOperation => id
  | operation op _ e es => fun left => es.tree (.binary op left e.tree)
  | noArguments => []
  | someArguments e es => e.tree :: es.tree
  | noMoreArguments => []
  | moreArguments e es => e.tree :: es.tree

/-- A block with nothing in it. -/
def emptyBlock : Derivation .block :=
  block noVariables noRoutines (compound (lastStatement emptyStatement))

/-- A name as an expression. -/
def name (x : String) : (tiers : Nat) → Derivation (.expression tiers)
  | 0 => var x
  | tier + 1 => chain (name x tier) noOperation

/-- What a derivation derives as a whole text: the end mark stands behind it. -/
def sentence {s : Nonterminal} (d : Derivation s) : List Token.Kind :=
  d.yield ++ [.endOfInput]

end Derivation

/-- Some sentence of a nonterminal begins like this. -/
def Viable (s : Nonterminal) (ks : List Token.Kind) : Prop :=
  ∃ d : Derivation s, ks <+: d.sentence

/-- What a beginning of a sentence begins with is itself one. -/
theorem Viable.of_isPrefix {s : Nonterminal} {ks ls : List Token.Kind} (h : Viable s ls)
    (hks : ks <+: ls) : Viable s ks := by
  obtain ⟨d, hd⟩ := h
  exact ⟨d, hks.trans hd⟩

end SmallPascal.Grammar

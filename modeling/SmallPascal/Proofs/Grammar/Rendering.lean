import SmallPascal.Proofs.Grammar.Layout
import SmallPascal.Proofs.Grammar.WellFormed

/-!
# Writing trees

How a well-formed tree is written, as kinds of token: one variable and one parameter a group, the
heading of a program always, and parentheses around an operation where its operator does not fit
(`Node.expressionKinds`). Beside those that are needed, any number of pairs may stand around every
expression; `Parens` says how many.

What is written derives from the grammar, and the derivation has the tree that was written
(`spells_program`, `spells_expression`). `Spells` says that of a nonterminal, a value and kinds; it
has a lemma for each production that is used, and the theorems about trees follow the constructors
of well-formed trees. For an operation the derivation of the left operand is taken apart: the
grammar has operators of one tier in a row, the tree has them nested to the left, and the new
operator goes to the end of the row (`Derivation.snoc`).
-/

namespace SmallPascal

/-- How many pairs of parentheses stand around each expression of a tree beside those that it
needs. A path of child numbers leads to the expression. -/
abbrev Parens := List Nat → Nat

namespace Parens

/-- No parentheses that are not needed. -/
def none : Parens := fun _ => 0

/-- The parentheses within a child. -/
def child (x : Parens) (i : Nat) : Parens := fun path => x (i :: path)

end Parens

/-! ## The parts of a text -/

namespace Rendering

/-- Kinds with so many pairs of parentheses around them. -/
def enclose : Nat → List Token.Kind → List Token.Kind
  | 0, ks => ks
  | n + 1, ks => .symbol .leftParen :: (enclose n ks ++ [.symbol .rightParen])

/-- A name with arguments. -/
def callKinds (name : String) (args : List (List Token.Kind)) : List Token.Kind :=
  .identifier name :: .symbol .leftParen ::
    ([.symbol .comma].intercalate args ++ [.symbol .rightParen])

/-- Statements in brackets. -/
def compoundKinds (body : List (List Token.Kind)) : List Token.Kind :=
  .keyword .beginBlock :: ([.symbol .semicolon].intercalate body ++ [.keyword .endBlock])

/-- A name with its type. -/
def typedKinds (name : String) (type : TypeName) : List Token.Kind :=
  [.identifier name, .symbol .colon, .keyword type.keyword]

/-- The parameters of a routine in their parentheses, if it has any. -/
def parameterKinds (params : List Param) : List Token.Kind :=
  if params = [] then []
  else
    .symbol .leftParen ::
      ([.symbol .semicolon].intercalate (params.map fun p => typedKinds p.name p.type) ++
        [.symbol .rightParen])

/-- The type of a result, if it is named. -/
def resultKinds : Option TypeName → List Token.Kind
  | none => []
  | some type => [.symbol .colon, .keyword type.keyword]

/-- The word that opens a section of variables, in front of declarations that begin with one. -/
def sectionKinds : List Node → List Token.Kind
  | .varDecl _ _ :: _ => [.keyword .varSection]
  | _ => []

/-- Declarations, and statements in brackets. -/
def blockKinds (declarations : List Node) (declared body : List (List Token.Kind)) :
    List Token.Kind :=
  sectionKinds declarations ++ (declared.flatten ++ compoundKinds body)

end Rendering

open Rendering

mutual

/-- How an expression is written where operators of the first `tiers` tiers may stand: an operation
needs parentheses if its operator is of another tier. Its right operand has to bind tighter than
the operator, its left one as tight. -/
def Node.expressionKinds (x : Parens) (tiers : Nat) : Node → List Token.Kind
  | .number n => enclose (x []) [.integer n]
  | .boolean b => enclose (x []) [.keyword (Grammar.literalKeyword b)]
  | .var name => enclose (x []) [.identifier name]
  | .unary op operand =>
    enclose (x []) (.symbol op.symbol :: operand.expressionKinds (x.child 0) 0)
  | .binary op left right =>
    enclose (x [] + if op.tier < tiers then 0 else 1)
      (left.expressionKinds (x.child 0) (op.tier + 1) ++
        .symbol op.symbol :: right.expressionKinds (x.child 1) op.tier)
  | .call name args => enclose (x []) (callKinds name (Node.expressionKindsFrom x 0 args))
  | _ => []

/-- Expressions that are the children with the numbers from `i` on. -/
def Node.expressionKindsFrom (x : Parens) (i : Nat) : List Node → List (List Token.Kind)
  | [] => []
  | e :: es =>
    e.expressionKinds (x.child i) BinaryOp.tierCount :: Node.expressionKindsFrom x (i + 1) es

end

mutual

/-- How a statement is written. -/
def Node.statementKinds (x : Parens) : Node → List Token.Kind
  | .assign target value =>
    .identifier target :: .symbol .assign ::
      value.expressionKinds (x.child 0) BinaryOp.tierCount
  | .call name args => callKinds name (Node.expressionKindsFrom x 0 args)
  | .compound children => compoundKinds (Node.statementKindsFrom x 0 children)
  | _ => []

/-- Statements that are the children with the numbers from `i` on. -/
def Node.statementKindsFrom (x : Parens) (i : Nat) : List Node → List (List Token.Kind)
  | [] => []
  | s :: ss => s.statementKinds (x.child i) :: Node.statementKindsFrom x (i + 1) ss

end

mutual

/-- How a declaration is written. -/
def Node.declarationKinds (x : Parens) : Node → List Token.Kind
  | .varDecl name type => typedKinds name type ++ [.symbol .semicolon]
  | .routine name kind params returnType declarations body =>
    .keyword kind.keyword :: .identifier name :: (parameterKinds params ++
      (resultKinds returnType ++ (.symbol .semicolon :: (blockKinds declarations
        (Node.declarationKindsFrom (x.child 0) 0 declarations)
        (Node.statementKindsFrom (x.child 1) 0 body) ++ [.symbol .semicolon]))))
  | _ => []

/-- Declarations that are the children with the numbers from `i` on. -/
def Node.declarationKindsFrom (x : Parens) (i : Nat) : List Node → List (List Token.Kind)
  | [] => []
  | d :: ds => d.declarationKinds (x.child i) :: Node.declarationKindsFrom x (i + 1) ds

end

/-- How a block is written. -/
def Block.kinds (x : Parens) (b : Block) : List Token.Kind :=
  blockKinds b.declarations (Node.declarationKindsFrom (x.child 0) 0 b.declarations)
    (Node.statementKindsFrom (x.child 1) 0 b.body)

/-- How a program is written, with its heading. -/
def Program.kinds (x : Parens) (p : Program) : List Token.Kind :=
  .keyword .program :: .identifier p.name :: .symbol .semicolon ::
    (p.block.kinds x ++ [.symbol .dot])

open Token.Kind

namespace Grammar

/-! ## Derivations of what is written -/

/-- Kinds of which there are tokens, and that are derived from a nonterminal as `a`. -/
def Spells (s : Nonterminal) (a : s.Value) (ks : List Token.Kind) : Prop :=
  ∃ d : Derivation s, d.tree = a ∧ d.yield = ks ∧ AreWritable ks

namespace Derivation

variable {tier : Nat}

/-- One more operation behind the others of its tier. -/
def snoc (op : BinaryOp) (right : Derivation (.expression tier)) (tier_eq : op.tier = tier) :
    Derivation (.operations tier) → Derivation (.operations tier)
  | noOperation => operation op tier_eq right noOperation
  | operation op' tier_eq' right' more =>
    operation op' tier_eq' right' (snoc op right tier_eq more)
termination_by more => sizeOf more
decreasing_by
  rw [operation.sizeOf_spec]
  omega

section

variable {op : BinaryOp} {right : Derivation (.expression tier)} (tier_eq : op.tier = tier)
  (more : Derivation (.operations tier))

/-- The operation that is put behind the others is written behind them. -/
theorem yield_snoc :
    (snoc op right tier_eq more).yield = more.yield ++ .symbol op.symbol :: right.yield := by
  fun_induction snoc op right tier_eq more with
  | case1 => simp
  | case2 op' tier_eq' right' more ih => simp [ih]

/-- The operation that is put behind the others is done last. -/
theorem tree_snoc (left : Node) :
    (snoc op right tier_eq more).tree left = .binary op (more.tree left) right.tree := by
  fun_induction snoc op right tier_eq more generalizing left with
  | case1 => rfl
  | case2 op' tier_eq' right' more ih => exact ih (.binary op' left right'.tree)

end

end Derivation

section

variable {tiers tiers' n : Nat} {e l r a s : Node} {args body : List Node} {name : String}
  {ks ls rs : List Token.Kind} {op : BinaryOp}

/-! ### Expressions -/

/-- What stands where few operators may stand may stand where more of them may. -/
theorem Spells.raise (h : Spells (.expression tiers) e ks) (hle : tiers ≤ tiers') :
    Spells (.expression tiers') e ks := by
  induction hle with
  | refl => exact h
  | step _ ih =>
    obtain ⟨d, htree, hyield, hw⟩ := ih
    exact ⟨.chain d .noOperation, htree, by simpa using hyield, hw⟩

/-- Every expression may stand in parentheses, and is an operand then. -/
theorem Spells.group (h : Spells (.expression BinaryOp.tierCount) e ks) :
    Spells (.expression 0) e (.symbol .leftParen :: (ks ++ [.symbol .rightParen])) := by
  obtain ⟨d, rfl, rfl, hw⟩ := h
  exact ⟨.group d, rfl, rfl, by simpa using hw⟩

/-- Parentheses may stand around every expression, and with parentheses it may stand everywhere. -/
theorem Spells.enclose (h : Spells (.expression tiers) e ks) (htiers : tiers ≤ BinaryOp.tierCount)
    (hn : n = 0 → tiers ≤ tiers') : Spells (.expression tiers') e (enclose n ks) := by
  have hgroup : ∀ n, Spells (.expression 0) e (Rendering.enclose (n + 1) ks) := by
    intro n
    induction n with
    | zero => exact (h.raise htiers).group
    | succ n ih => exact (ih.raise (Nat.zero_le _)).group
  cases n with
  | zero => exact h.raise (hn rfl)
  | succ n => exact (hgroup n).raise (Nat.zero_le _)

/-- An operand may stand in any parentheses and everywhere. -/
theorem Spells.factor (h : Spells (.expression 0) e ks) (n tiers : Nat) :
    Spells (.expression tiers) e (Rendering.enclose n ks) :=
  h.enclose (Nat.zero_le _) fun _ => Nat.zero_le _

/-- An operator with one operand is written in front of it. -/
theorem Spells.unary (h : Spells (.expression 0) e ks) (op : UnaryOp) :
    Spells (.expression 0) (.unary op e) (.symbol op.symbol :: ks) := by
  obtain ⟨d, rfl, rfl, hw⟩ := h
  exact ⟨.sign op d, rfl, rfl, by simpa using hw⟩

/-- An operation is put behind those that its left operand is made of. -/
theorem Spells.binary (hl : Spells (.expression (op.tier + 1)) l ls)
    (hr : Spells (.expression op.tier) r rs) :
    Spells (.expression (op.tier + 1)) (.binary op l r) (ls ++ .symbol op.symbol :: rs) := by
  obtain ⟨dl, rfl, rfl, hwl⟩ := hl
  obtain ⟨dr, rfl, rfl, hwr⟩ := hr
  cases dl with
  | chain first more =>
    refine ⟨.chain first (.snoc op dr rfl more), Derivation.tree_snoc rfl more _, ?_, ?_⟩
    · simp [Derivation.yield_snoc rfl more]
    · exact areWritable_append.2 ⟨hwl, areWritable_cons.2 ⟨isWritable_symbol _, hwr⟩⟩

/-- A call is written as the name and, in parentheses, its arguments. -/
theorem Spells.call (hname : IsName name) (h : Spells .arguments args ks) :
    Spells (.expression 0) (.call name args)
      (.identifier name :: .symbol .leftParen :: (ks ++ [.symbol .rightParen])) := by
  obtain ⟨d, rfl, rfl, hw⟩ := h
  exact ⟨.call name d, rfl, rfl, by simpa using ⟨hname, hw⟩⟩

/-- Arguments are written as the first one and the others behind it. -/
theorem Spells.someArguments (h : Spells (.expression BinaryOp.tierCount) a ks)
    (hmore : Spells .moreArguments args ls) : Spells .arguments (a :: args) (ks ++ ls) := by
  obtain ⟨d, rfl, rfl, hw⟩ := h
  obtain ⟨more, rfl, rfl, hwmore⟩ := hmore
  exact ⟨.someArguments d more, rfl, rfl, areWritable_append.2 ⟨hw, hwmore⟩⟩

/-- Every further argument is written behind a comma. -/
theorem Spells.moreArguments (h : Spells (.expression BinaryOp.tierCount) a ks)
    (hmore : Spells .moreArguments args ls) :
    Spells .moreArguments (a :: args) (.symbol .comma :: (ks ++ ls)) := by
  obtain ⟨d, rfl, rfl, hw⟩ := h
  obtain ⟨more, rfl, rfl, hwmore⟩ := hmore
  exact ⟨.moreArguments d more, rfl, rfl, by simpa using ⟨hw, hwmore⟩⟩

/-! ### Statements -/

/-- An assignment is written as its target, its sign and the assigned expression. -/
theorem Spells.assignment (hname : IsName name) (h : Spells (.expression BinaryOp.tierCount) e ks) :
    Spells .statement (.assign name e) (.identifier name :: .symbol .assign :: ks) := by
  obtain ⟨d, rfl, rfl, hw⟩ := h
  exact ⟨.assignment name d, rfl, rfl, by simpa using ⟨hname, hw⟩⟩

/-- A call may stand as a statement. -/
theorem Spells.callStatement (hname : IsName name) (h : Spells .arguments args ks) :
    Spells .statement (.call name args)
      (.identifier name :: .symbol .leftParen :: (ks ++ [.symbol .rightParen])) := by
  obtain ⟨d, rfl, rfl, hw⟩ := h
  exact ⟨.callStatement name d, rfl, rfl, by simpa using ⟨hname, hw⟩⟩

/-- Statements in brackets are written between BEGIN and END. -/
theorem Spells.compound (h : Spells .statements body ks) :
    Spells .compound body (.keyword .beginBlock :: (ks ++ [.keyword .endBlock])) := by
  obtain ⟨d, rfl, rfl, hw⟩ := h
  exact ⟨.compound d, rfl, rfl, by simpa using hw⟩

/-- Statements in brackets may stand as a statement. -/
theorem Spells.compoundStatement (h : Spells .compound body ks) :
    Spells .statement (.compound body) ks := by
  obtain ⟨d, rfl, rfl, hw⟩ := h
  exact ⟨.compoundStatement d, rfl, rfl, hw⟩

/-- The last statement of a list is written without a semicolon behind it. -/
theorem Spells.lastStatement (h : Spells .statement s ks) : Spells .statements [s] ks := by
  obtain ⟨d, rfl, rfl, hw⟩ := h
  exact ⟨.lastStatement d, rfl, rfl, hw⟩

/-- Every other statement is written with a semicolon behind it. -/
theorem Spells.moreStatements (h : Spells .statement s ks) (hmore : Spells .statements body ls) :
    Spells .statements (s :: body) (ks ++ .symbol .semicolon :: ls) := by
  obtain ⟨d, rfl, rfl, hw⟩ := h
  obtain ⟨more, rfl, rfl, hwmore⟩ := hmore
  exact ⟨.moreStatements d more, rfl, rfl, by simpa using ⟨hw, hwmore⟩⟩

end

section

variable {vars : List Node} {params : List Param} {routines : List Routine} {body : List Node}
  {name : String} {type : TypeName} {ks ls rs : List Token.Kind}

/-! ### Declarations -/

/-- The last variable of a section is written with its type and a semicolon. -/
theorem Spells.lastVariables (hname : IsName name) :
    Spells .variableSection [.varDecl name type] (typedKinds name type ++ [.symbol .semicolon]) :=
  ⟨.lastVariables (.nameGroup (.lastName name) type), rfl, rfl, by simpa [typedKinds] using hname⟩

/-- Every other variable of a section is written in the same way. -/
theorem Spells.moreVariables (hname : IsName name) (h : Spells .variableSection vars ks) :
    Spells .variableSection (.varDecl name type :: vars)
      (typedKinds name type ++ .symbol .semicolon :: ks) := by
  obtain ⟨d, rfl, rfl, hw⟩ := h
  exact ⟨.moreVariables (.nameGroup (.lastName name) type) d, rfl, rfl,
    by simpa [typedKinds] using ⟨hname, hw⟩⟩

/-- A section of variables is written behind VAR. -/
theorem Spells.someVariables (h : Spells .variableSection vars ks) :
    Spells .variablePart vars (.keyword .varSection :: ks) := by
  obtain ⟨d, rfl, rfl, hw⟩ := h
  exact ⟨.someVariables d, rfl, rfl, by simpa using hw⟩

/-- The last parameter is written with its type. -/
theorem Spells.lastParameters (hname : IsName name) :
    Spells .parameters [⟨name, type⟩] (typedKinds name type) :=
  ⟨.lastParameters (.nameGroup (.lastName name) type), rfl, rfl, by simpa [typedKinds] using hname⟩

/-- Every other parameter is written with its type and a semicolon. -/
theorem Spells.moreParameters (hname : IsName name) (h : Spells .parameters params ks) :
    Spells .parameters (⟨name, type⟩ :: params)
      (typedKinds name type ++ .symbol .semicolon :: ks) := by
  obtain ⟨d, rfl, rfl, hw⟩ := h
  exact ⟨.moreParameters (.nameGroup (.lastName name) type) d, rfl, rfl,
    by simpa [typedKinds] using ⟨hname, hw⟩⟩

/-- Parameters are written in parentheses. -/
theorem Spells.someParameters (h : Spells .parameters params ks) :
    Spells .parameterPart params (.symbol .leftParen :: (ks ++ [.symbol .rightParen])) := by
  obtain ⟨d, rfl, rfl, hw⟩ := h
  exact ⟨.someParameters d, rfl, rfl, by simpa using hw⟩

/-- A routine is written as its word, its name, its parameters, the type of its result and its
block, with a semicolon behind the heading and one behind the block. -/
theorem Spells.routine {kind : RoutineKind} {returnType : Option TypeName} {b : Block}
    (hname : IsName name) (hparams : Spells .parameterPart params ks)
    (hresult : Spells (.resultPart kind) returnType ls) (hblock : Spells .block b rs) :
    Spells .routine ⟨name, kind, params, returnType, b⟩
      (.keyword kind.keyword :: .identifier name ::
        (ks ++ (ls ++ (.symbol .semicolon :: (rs ++ [.symbol .semicolon]))))) := by
  obtain ⟨dp, rfl, rfl, hwp⟩ := hparams
  obtain ⟨dr, rfl, rfl, hwr⟩ := hresult
  obtain ⟨db, rfl, rfl, hwb⟩ := hblock
  exact ⟨.routine kind name dp dr db, rfl, rfl, by simpa using ⟨hname, hwp, hwr, hwb⟩⟩

/-- Routines are written one after the other. -/
theorem Spells.moreRoutines {r : Routine} (h : Spells .routine r ks)
    (hmore : Spells .routines routines ls) : Spells .routines (r :: routines) (ks ++ ls) := by
  obtain ⟨d, rfl, rfl, hw⟩ := h
  obtain ⟨more, rfl, rfl, hwmore⟩ := hmore
  exact ⟨.moreRoutines d more, rfl, rfl, areWritable_append.2 ⟨hw, hwmore⟩⟩

/-- A block is written as its variables, its routines and its statements. -/
theorem Spells.block (hvars : Spells .variablePart vars ks)
    (hroutines : Spells .routines routines ls) (hbody : Spells .compound body rs) :
    Spells .block ⟨vars ++ routines.map Routine.node, body⟩ (ks ++ (ls ++ rs)) := by
  obtain ⟨dv, rfl, rfl, hwv⟩ := hvars
  obtain ⟨dr, rfl, rfl, hwr⟩ := hroutines
  obtain ⟨dc, rfl, rfl, hwc⟩ := hbody
  exact ⟨.block dv dr dc, rfl, rfl, by simpa using ⟨hwv, hwr, hwc⟩⟩

/-- A program is written with its heading and a dot at the end. -/
theorem Spells.program {p : Program} (hname : IsName p.name) (h : Spells .block p.block ks) :
    Spells .program p (.keyword .program :: .identifier p.name :: .symbol .semicolon ::
      (ks ++ [.symbol .dot])) := by
  obtain ⟨name, block⟩ := p
  obtain ⟨d, rfl, rfl, hw⟩ := h
  exact ⟨.program (.heading name) d, rfl, rfl, by simpa using ⟨hname, hw⟩⟩

end

/-! ## Trees that are written -/

/-- Behind the first of separated parts each has the separator in front. -/
theorem intercalate_cons {α : Type} (sep : α) (ks : List α) (kss : List (List α)) :
    [sep].intercalate (ks :: kss) = ks ++ kss.flatMap (sep :: ·) := by
  induction kss generalizing ks with
  | nil => simp
  | cons ls kss ih => simp [ih]

section

variable {args : List Node} {x : Parens}

/-- If each argument is written in a way that spells it, so are those behind the first. -/
theorem spells_moreArguments
    (h : ∀ a ∈ args, ∀ x tiers, Spells (.expression tiers) a (a.expressionKinds x tiers))
    (i : Nat) :
    Spells .moreArguments args
      ((Node.expressionKindsFrom x i args).flatMap (.symbol .comma :: ·)) := by
  induction args generalizing i with
  | nil => exact ⟨.noMoreArguments, rfl, rfl, areWritable_nil⟩
  | cons a args ih =>
    obtain ⟨ha, hargs⟩ := List.forall_mem_cons.1 h
    exact (ha _ _).moreArguments (ih hargs (i + 1))

/-- If each argument is written in a way that spells it, so are all of them. -/
theorem spells_arguments
    (h : ∀ a ∈ args, ∀ x tiers, Spells (.expression tiers) a (a.expressionKinds x tiers))
    (i : Nat) :
    Spells .arguments args ([.symbol .comma].intercalate (Node.expressionKindsFrom x i args)) := by
  cases args with
  | nil => exact ⟨.noArguments, rfl, rfl, areWritable_nil⟩
  | cons a args =>
    obtain ⟨ha, hargs⟩ := List.forall_mem_cons.1 h
    rw [Node.expressionKindsFrom, intercalate_cons]
    exact (ha _ _).someArguments (spells_moreArguments hargs (i + 1))

end

/-- An expression is derived from what is written for it, wherever it stands. -/
theorem spells_expression {e : Node} (h : e.IsExpression) (x : Parens) (tiers : Nat) :
    Spells (.expression tiers) e (e.expressionKinds x tiers) := by
  induction h generalizing x tiers with
  | @number n hn => exact Spells.factor ⟨.number n, rfl, rfl, by simpa using hn⟩ _ _
  | boolean b => exact Spells.factor ⟨.boolean b, rfl, rfl, by simp⟩ _ _
  | @var name hname => exact Spells.factor ⟨.var name, rfl, rfl, by simpa using hname⟩ _ _
  | unary op _ ih => exact ((ih _ _).unary op).factor _ _
  | binary op _ _ ihl ihr =>
    -- Without parentheses the operation stands where operators of its own tier may.
    refine ((ihl _ _).binary (ihr _ _)).enclose op.tier_lt fun hn => ?_
    by_cases htier : op.tier < tiers
    · exact htier
    · simp [htier] at hn
  | call hname _ ih => exact (Spells.call hname (spells_arguments ih 0)).factor _ _

/-- If each statement is written in a way that spells it, so is a list of them. -/
theorem spells_statements {body : List Node} {x : Parens}
    (h : ∀ s ∈ body, ∀ x, Spells .statement s (s.statementKinds x)) (hne : body ≠ []) (i : Nat) :
    Spells .statements body
      ([.symbol .semicolon].intercalate (Node.statementKindsFrom x i body)) := by
  induction body generalizing i with
  | nil => exact absurd rfl hne
  | cons s body ih =>
    obtain ⟨hs, hbody⟩ := List.forall_mem_cons.1 h
    cases body with
    | nil =>
      rw [Node.statementKindsFrom, Node.statementKindsFrom, List.intercalate_singleton]
      exact (hs _).lastStatement
    | cons t body =>
      have hmore := ih hbody (List.cons_ne_nil _ _) (i + 1)
      rw [Node.statementKindsFrom] at hmore ⊢
      rw [Node.statementKindsFrom, List.intercalate_cons_cons, List.append_assoc]
      exact (hs _).moreStatements hmore

/-- A statement is derived from what is written for it. -/
theorem spells_statement {s : Node} (h : s.IsStatement) (x : Parens) :
    Spells .statement s (s.statementKinds x) := by
  induction h generalizing x with
  | noOp => exact ⟨.emptyStatement, rfl, rfl, areWritable_nil⟩
  | assign hname hvalue => exact .assignment hname (spells_expression hvalue _ _)
  | call hname hargs =>
    exact .callStatement hname (spells_arguments (fun a ha => spells_expression (hargs a ha)) 0)
  | compound hne _ ih => exact (spells_statements ih hne 0).compound.compoundStatement

/-- Statements in brackets are spelled as they are written. -/
theorem spells_compound {body : List Node} (h : Node.IsStatement (.compound body)) (x : Parens) :
    Spells .compound body (compoundKinds (Node.statementKindsFrom x 0 body)) := by
  cases h with
  | compound hne hbody =>
    exact (spells_statements (fun s hs => spells_statement (hbody s hs)) hne 0).compound

/-- A section of variables is spelled as it is written, a declaration for each name. -/
theorem spells_variableSection {vars : List Node} {x : Parens} (h : ∀ v ∈ vars, v.IsVariable)
    (hne : vars ≠ []) (i : Nat) :
    Spells .variableSection vars (Node.declarationKindsFrom x i vars).flatten := by
  induction vars generalizing i with
  | nil => exact absurd rfl hne
  | cons v vars ih =>
    obtain ⟨⟨hname, type⟩, hvars⟩ := List.forall_mem_cons.1 h
    cases vars with
    | nil =>
      rw [Node.declarationKindsFrom, Node.declarationKindsFrom, List.flatten_singleton]
      exact .lastVariables hname
    | cons w vars =>
      rw [Node.declarationKindsFrom, List.flatten_cons, Node.declarationKinds, List.append_assoc]
      exact .moreVariables hname (ih hvars (List.cons_ne_nil _ _) (i + 1))

/-- Routines do not belong to the section of variables. -/
theorem spells_variablePart {vars : List Node} {x : Parens} (h : ∀ v ∈ vars, v.IsVariable)
    (routines : List Routine) (i : Nat) :
    Spells .variablePart vars (sectionKinds (vars ++ routines.map Routine.node) ++
      (Node.declarationKindsFrom x i vars).flatten) := by
  cases vars with
  | nil =>
    -- The declarations begin with a routine, or there are none.
    have hnone : sectionKinds (routines.map Routine.node) = [] := by cases routines <;> rfl
    rw [List.nil_append, hnone]
    exact ⟨.noVariables, rfl, rfl, areWritable_nil⟩
  | cons v vars =>
    have hsection := spells_variableSection (x := x) h (List.cons_ne_nil _ _) i
    obtain ⟨⟨hname, type⟩, -⟩ := List.forall_mem_cons.1 h
    exact hsection.someVariables

/-- Parameters are spelled as they are written, a type for each name. -/
theorem spells_parameters {params : List Param} (h : ∀ p ∈ params, IsName p.name)
    (hne : params ≠ []) :
    Spells .parameters params
      ([.symbol .semicolon].intercalate (params.map fun p => typedKinds p.name p.type)) := by
  induction params with
  | nil => exact absurd rfl hne
  | cons p params ih =>
    obtain ⟨hp, hparams⟩ := List.forall_mem_cons.1 h
    cases params with
    | nil => exact .lastParameters hp
    | cons q params =>
      rw [List.map_cons, List.map_cons, List.intercalate_cons_cons, List.append_assoc]
      exact .moreParameters hp (ih hparams (List.cons_ne_nil _ _))

/-- Parameters are spelled in their parentheses, and not at all where there are none. -/
theorem spells_parameterPart {params : List Param} (h : ∀ p ∈ params, IsName p.name) :
    Spells .parameterPart params (parameterKinds params) := by
  unfold parameterKinds
  split
  · next hnil => exact hnil ▸ ⟨.noParameters, rfl, rfl, areWritable_nil⟩
  · next hne => exact (spells_parameters h hne).someParameters

/-- The type of a result is spelled where a function has one. -/
theorem spells_resultPart {kind : RoutineKind} {returnType : Option TypeName}
    (h : kind = .procedure → returnType = none) :
    Spells (.resultPart kind) returnType (resultKinds returnType) := by
  cases returnType with
  | none => exact ⟨.noResult, rfl, rfl, areWritable_nil⟩
  | some type =>
    cases kind with
    | procedure => exact absurd (h rfl) (Option.some_ne_none type)
    | function => exact ⟨.result type, rfl, rfl, by simp [resultKinds]⟩

/-- If each routine is written in a way that spells it, so are all of them. -/
theorem spells_routines {routines : List Routine} {x : Parens}
    (h : ∀ r ∈ routines, ∀ x, Spells .routine r (r.node.declarationKinds x)) (i : Nat) :
    Spells .routines routines
      (Node.declarationKindsFrom x i (routines.map Routine.node)).flatten := by
  induction routines generalizing i with
  | nil => exact ⟨.noRoutines, rfl, rfl, areWritable_nil⟩
  | cons r routines ih =>
    obtain ⟨hr, hroutines⟩ := List.forall_mem_cons.1 h
    exact (hr _).moreRoutines (ih hroutines (i + 1))

/-- Declarations are written in their order, and those behind others are counted on from them. -/
theorem declarationKindsFrom_append (x : Parens) (i : Nat) (ds es : List Node) :
    Node.declarationKindsFrom x i (ds ++ es) =
      Node.declarationKindsFrom x i ds ++ Node.declarationKindsFrom x (i + ds.length) es := by
  induction ds generalizing i with
  | nil => rfl
  | cons d ds ih =>
    rw [List.cons_append, Node.declarationKindsFrom, ih, Node.declarationKindsFrom,
      List.cons_append, List.length_cons, Nat.add_right_comm, Nat.add_assoc]

/-- A block is derived from what is written for it. -/
theorem spells_block {b : Block} (h : b.WellFormed) (x : Parens) : Spells .block b (b.kinds x) := by
  induction h generalizing x with
  | @mk vars routines body hvars hheadings _ hbody ih =>
    have hroutines : ∀ r ∈ routines, ∀ x, Spells .routine r (r.node.declarationKinds x) := by
      intro r hr x
      obtain ⟨hname, hparams, hresult⟩ := hheadings r hr
      exact .routine hname (spells_parameterPart hparams) (spells_resultPart hresult) (ih r hr x)
    rw [Block.kinds, blockKinds, declarationKindsFrom_append, List.flatten_append,
      List.append_assoc, ← List.append_assoc]
    exact .block (spells_variablePart hvars routines 0) (spells_routines hroutines _)
      (spells_compound hbody _)

/-- A program is derived from what is written for it. -/
theorem spells_program {p : Program} (h : p.WellFormed) (x : Parens) :
    Spells .program p (p.kinds x) :=
  .program h.isName (spells_block h.block x)

end Grammar

end SmallPascal

import SmallPascal.Proofs.Grammar.Source
import SmallPascal.Proofs.Token.Layout

/-!
# Well-formed trees

A tree may hold any node anywhere. Those that a text can spell are built from expressions,
statements and declarations where the grammar has them, their numbers are not negative, their names
are names of the language, a procedure gives no result, and a list of statements is never empty,
because the empty statement is one (`Node.IsExpression`, `Node.IsStatement`, `Block.WellFormed`).

Every tree that is read is well-formed (`program_wellFormed`, `expression_isExpression`). That is a
property of derivations: what a derivation stands for is well-formed if its kinds can be written
(`Derivation.wellFormed`), and the kinds of tokens that have been read can.
-/

namespace SmallPascal

/-- Whether a node is an expression all through. -/
inductive Node.IsExpression : Node → Prop where
  | number {n : Int64} (nonneg : 0 ≤ n.toInt) : IsExpression (.number n)
  | boolean (b : Bool) : IsExpression (.boolean b)
  | var {name : String} (isName : IsName name) : IsExpression (.var name)
  | unary (op : UnaryOp) {operand : Node} (isExpression : IsExpression operand) :
    IsExpression (.unary op operand)
  | binary (op : BinaryOp) {left right : Node} (isExpression_left : IsExpression left)
    (isExpression_right : IsExpression right) : IsExpression (.binary op left right)
  | call {name : String} {args : List Node} (isName : IsName name)
    (areExpressions : ∀ a ∈ args, IsExpression a) : IsExpression (.call name args)

/-- Whether a node is a statement all through. -/
inductive Node.IsStatement : Node → Prop where
  | noOp : IsStatement .noOp
  | assign {target : String} {value : Node} (isName : IsName target)
    (isExpression : value.IsExpression) : IsStatement (.assign target value)
  | call {name : String} {args : List Node} (isName : IsName name)
    (areExpressions : ∀ a ∈ args, a.IsExpression) : IsStatement (.call name args)
  | compound {children : List Node} (ne_nil : children ≠ [])
    (areStatements : ∀ s ∈ children, IsStatement s) : IsStatement (.compound children)

/-- Whether a node declares a variable. -/
inductive Node.IsVariable : Node → Prop where
  | varDecl {name : String} (isName : IsName name) (type : TypeName) :
    IsVariable (.varDecl name type)

/-- Whether the heading of a routine can be written. -/
structure Routine.HeadingWellFormed (r : Routine) : Prop where
  isName : IsName r.name
  params : ∀ p ∈ r.params, IsName p.name
  returnType : r.kind = .procedure → r.returnType = none

/-- Variables, then routines, and statements in brackets. -/
inductive Block.WellFormed : Block → Prop where
  | mk {vars : List Node} {routines : List Routine} {body : List Node}
    (areVariables : ∀ v ∈ vars, v.IsVariable)
    (headings : ∀ r ∈ routines, r.HeadingWellFormed)
    (blocks : ∀ r ∈ routines, WellFormed r.block)
    (isStatement : Node.IsStatement (.compound body)) :
    WellFormed ⟨vars ++ routines.map Routine.node, body⟩

/-- A name and a block that can be written. -/
structure Program.WellFormed (p : Program) : Prop where
  isName : IsName p.name
  block : p.block.WellFormed

/-- The name of a program without a heading is a name. -/
theorem Program.isName_defaultName : IsName Program.defaultName := by
  decide

/-! ## Kinds that have been read -/

namespace Token.Kind

@[simp] theorem isWritable_integer {n : Int64} : IsWritable (.integer n) ↔ 0 ≤ n.toInt := Iff.rfl

@[simp] theorem isWritable_identifier {name : String} :
    IsWritable (.identifier name) ↔ IsName name := Iff.rfl

@[simp] theorem isWritable_keyword (k : Keyword) : IsWritable (.keyword k) := trivial

@[simp] theorem isWritable_symbol (s : Symbol) : IsWritable (.symbol s) := trivial

/-- There are tokens of all these kinds. -/
def AreWritable (ks : List Token.Kind) : Prop :=
  ∀ k ∈ ks, k.IsWritable

@[simp] theorem areWritable_nil : AreWritable [] := nofun

@[simp] theorem areWritable_cons {k : Token.Kind} {ks : List Token.Kind} :
    AreWritable (k :: ks) ↔ k.IsWritable ∧ AreWritable ks :=
  List.forall_mem_cons

@[simp] theorem areWritable_append {ks ls : List Token.Kind} :
    AreWritable (ks ++ ls) ↔ AreWritable ks ∧ AreWritable ls :=
  List.forall_mem_append

end Token.Kind

/-- What a lexeme denotes can be written. -/
theorem Denotes.isWritable {lexeme : List Char} {k : Token.Kind} (h : Denotes lexeme k) :
    k.IsWritable := by
  cases h with
  | integer _ hvalue =>
    rw [Token.Kind.IsWritable, hvalue]
    exact Int.natCast_nonneg _
  | keyword k => trivial
  | identifier h => exact h
  | symbol s => trivial

/-- Every token that is read can be written. -/
theorem Cursor.isWritable_of_mem_stream (c : Cursor) :
    ∀ t ∈ c.stream.tokens, t.kind.IsWritable := by
  fun_induction stream c with
  | case1 => simp
  | case2 => simp
  | case3 c t behind hnext hkind s ih =>
    refine List.forall_mem_cons.2 ⟨?_, ih⟩
    rcases next_eq_ok hnext with ⟨-, rfl, -⟩ | ⟨_, _, _, -, -, -, hdenotes, -⟩
    · exact absurd rfl hkind
    · exact hdenotes.isWritable

open Token.Kind

namespace Grammar

/-! ## Trees of derivations -/

/-- The values of a nonterminal that are well-formed. Operations make expressions of
expressions. -/
def Nonterminal.WellFormed : (s : Nonterminal) → s.Value → Prop
  | program, p => p.WellFormed
  | programHeading, name => IsName name
  | block, b => b.WellFormed
  | variablePart, vars | variableSection, vars => ∀ v ∈ vars, v.IsVariable
  | routines, rs => ∀ r ∈ rs, r.HeadingWellFormed ∧ r.block.WellFormed
  | routine, r => r.HeadingWellFormed ∧ r.block.WellFormed
  | parameterPart, params | parameters, params => ∀ p ∈ params, IsName p.name
  | resultPart kind, returnType => kind = .procedure → returnType = none
  | nameGroup, group => ∀ x ∈ group.1, IsName x
  | names, xs => ∀ x ∈ xs, IsName x
  | compound, body | statements, body => Node.IsStatement (.compound body)
  | statement, s => s.IsStatement
  | expression _, e => e.IsExpression
  | operations _, f => ∀ left, left.IsExpression → (f left).IsExpression
  | arguments, args | moreArguments, args => ∀ a ∈ args, a.IsExpression

/-- A declaration of several names gives declarations of variables. -/
theorem forall_isVariable_map {names : List String} (h : ∀ x ∈ names, IsName x)
    (type : TypeName) : ∀ v ∈ names.map (Node.varDecl · type), v.IsVariable :=
  List.forall_mem_map.2 fun x hx => .varDecl (h x hx) type

/-- A declaration of several parameters gives parameters with these names. -/
theorem forall_isName_map {names : List String} (h : ∀ x ∈ names, IsName x)
    (type : TypeName) : ∀ p ∈ names.map (Param.mk · type), IsName p.name :=
  List.forall_mem_map.2 h

/-- What a derivation stands for is well-formed, if there are tokens of its kinds. -/
theorem Derivation.wellFormed {s : Nonterminal} (d : Derivation s)
    (h : AreWritable d.yield) : s.WellFormed d.tree := by
  induction d with
  | program heading block ihh ihb =>
    simp only [yield, areWritable_append] at h
    exact ⟨ihh h.1, ihb h.2.1⟩
  | noHeading => exact Program.isName_defaultName
  | heading name => exact h (.identifier name) (.tail _ (.head _))
  | block vars routines body ihv ihr ihc =>
    simp only [yield, areWritable_append] at h
    have hroutines := ihr h.2.1
    exact .mk (ihv h.1) (fun r hr => (hroutines r hr).1) (fun r hr => (hroutines r hr).2)
      (ihc h.2.2)
  | noVariables => exact nofun
  | someVariables groups ih =>
    simp only [yield, areWritable_cons] at h
    exact ih h.2
  | lastVariables group ih =>
    simp only [yield, areWritable_append] at h
    exact forall_isVariable_map (ih h.1) _
  | moreVariables group more ih ihmore =>
    simp only [yield, areWritable_append, areWritable_cons] at h
    exact List.forall_mem_append.2 ⟨forall_isVariable_map (ih h.1) _, ihmore h.2.2⟩
  | noRoutines => exact nofun
  | moreRoutines first more ih ihmore =>
    simp only [yield, areWritable_append] at h
    exact List.forall_mem_cons.2 ⟨ih h.1, ihmore h.2⟩
  | routine kind name params result block ihp ihr ihb =>
    simp only [yield, areWritable_append, areWritable_cons] at h
    exact ⟨⟨h.2.1, ihp h.2.2.1, ihr h.2.2.2.1⟩, ihb h.2.2.2.2.2.1⟩
  | noParameters => exact nofun
  | someParameters groups ih =>
    simp only [yield, areWritable_append, areWritable_cons] at h
    exact ih h.2.1
  | lastParameters group ih => exact forall_isName_map (ih h) _
  | moreParameters group more ih ihmore =>
    simp only [yield, areWritable_append, areWritable_cons] at h
    exact List.forall_mem_append.2 ⟨forall_isName_map (ih h.1) _, ihmore h.2.2⟩
  | noResult => exact fun _ => rfl
  | result type => exact nofun
  | nameGroup names type ih =>
    simp only [yield, areWritable_append] at h
    exact ih h.1
  | lastName name => exact List.forall_mem_singleton.2 (h (.identifier name) (.head _))
  | moreNames name more ih =>
    simp only [yield, areWritable_cons] at h
    exact List.forall_mem_cons.2 ⟨h.1, ih h.2.2⟩
  | compound statements ih =>
    simp only [yield, areWritable_append, areWritable_cons] at h
    exact ih h.2.1
  | lastStatement statement ih =>
    exact .compound (List.cons_ne_nil _ _) (List.forall_mem_singleton.2 (ih h))
  | moreStatements statement more ih ihmore =>
    simp only [yield, areWritable_append, areWritable_cons] at h
    cases ihmore h.2.2 with
    | compound _ hmore =>
      exact .compound (List.cons_ne_nil _ _) (List.forall_mem_cons.2 ⟨ih h.1, hmore⟩)
  | emptyStatement => exact .noOp
  | compoundStatement compound ih => exact ih h
  | callStatement name args ih =>
    simp only [yield, areWritable_append, areWritable_cons] at h
    exact .call h.1 (ih h.2.2.1)
  | assignment target value ih =>
    simp only [yield, areWritable_cons] at h
    exact .assign h.1 (ih h.2.2)
  | number n => exact .number (h (.integer n) (.head _))
  | boolean b => exact .boolean b
  | var name => exact .var (h (.identifier name) (.head _))
  | call name args ih =>
    simp only [yield, areWritable_append, areWritable_cons] at h
    exact .call h.1 (ih h.2.2.1)
  | group inner ih =>
    simp only [yield, areWritable_append, areWritable_cons] at h
    exact ih h.2.1
  | sign op operand ih =>
    simp only [yield, areWritable_cons] at h
    exact .unary op (ih h.2)
  -- Operators are joined to what stands on their left: their tree is a function of an expression.
  | chain first more ih ihmore =>
    simp only [yield, areWritable_append] at h
    exact ihmore h.2 _ (ih h.1)
  | noOperation => exact fun _ hleft => hleft
  | operation op _ right more ih ihmore =>
    simp only [yield, areWritable_append, areWritable_cons] at h
    exact fun left hleft => ihmore h.2.2 _ (.binary op hleft (ih h.2.1))
  | noArguments => exact nofun
  | someArguments first more ih ihmore =>
    simp only [yield, areWritable_append] at h
    exact List.forall_mem_cons.2 ⟨ih h.1, ihmore h.2⟩
  | noMoreArguments => exact nofun
  | moreArguments next more ih ihmore =>
    simp only [yield, areWritable_append, areWritable_cons] at h
    exact List.forall_mem_cons.2 ⟨ih h.2.1, ihmore h.2.2⟩

/-! ## Trees that are read -/

/-- A sentence that has been read can be written. -/
theorem areWritable_of_complete {s : Nonterminal} {c : Cursor} {ts : List Token}
    {d : Derivation s} (h : c.stream.complete = .ok ts) (hd : kinds ts = d.sentence) :
    AreWritable d.yield := by
  cases hending : c.stream.ending with
  | error e =>
    rw [TokenStream.complete, hending] at h
    cases h
  | ok mark =>
    rw [TokenStream.complete, hending] at h
    obtain rfl : c.stream.tokens ++ [mark] = ts := Except.ok.inj h
    rw [kinds_append, kinds_cons, kinds_nil, Cursor.stream_mark_kind hending] at hd
    rw [← List.append_cancel_right hd]
    exact List.forall_mem_map.2 c.isWritable_of_mem_stream

/-- A program that is read is well-formed. -/
theorem program_wellFormed {c : Cursor} {p : Program} (h : Program.ofSource c = .ok p) :
    p.WellFormed := by
  obtain ⟨ts, hts, d, hd, rfl⟩ := (whole_eq_ok_iff program_describes rfl).1 (parse_eq_ok_iff.1 h)
  exact d.wellFormed (areWritable_of_complete hts hd)

/-- An expression that is read is one all through. -/
theorem expression_isExpression {c : Cursor} {e : Node} (h : Node.ofSource c = .ok e) :
    e.IsExpression := by
  obtain ⟨ts, hts, d, hd, rfl⟩ := (whole_eq_ok_iff wholeExpression_describes
    (expression_follow_endOfInput _)).1 (parse_eq_ok_iff.1 h)
  exact d.wellFormed (areWritable_of_complete hts hd)

end Grammar

end SmallPascal

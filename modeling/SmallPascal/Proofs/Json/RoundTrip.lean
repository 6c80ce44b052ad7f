import SmallPascal.Proofs.Json.Loosening
import SmallPascal.Token.Encoding
import SmallPascal.Tree.Encoding

/-!
# Trees and tokens through JSON

What is written as JSON is read back as it was, also from a loosened form of it
(`ofJson?_of_loosens`). There is a lemma for each record, which supposes that the parts of it are
read back; the theorem for nodes follows the tree, and goes down one level of the bound of the
reader with every node.
-/

namespace SmallPascal

namespace Json

variable {d : Nat}

/-! ## Tags -/

/-- An operator with one operand is read from its tag. -/
theorem reads_unaryOp (op : UnaryOp) :
    Reads d (fun j => j.tag?.bind UnaryOp.ofTag?) (.string op.tag) op :=
  .tag (by cases op <;> rfl)

/-- An operator with two operands is read from its tag. -/
theorem reads_binaryOp (op : BinaryOp) :
    Reads d (fun j => j.tag?.bind BinaryOp.ofTag?) (.string op.tag) op :=
  .tag (by cases op <;> rfl)

/-- A type is read from its tag. -/
theorem reads_typeName (type : TypeName) :
    Reads d (fun j => j.tag?.bind TypeName.ofTag?) (.string type.tag) type :=
  .tag (by cases type <;> rfl)

/-- A kind of routine is read from its tag. -/
theorem reads_routineKind (kind : RoutineKind) :
    Reads d (fun j => j.tag?.bind RoutineKind.ofTag?) (.string kind.tag) kind :=
  .tag (by cases kind <;> rfl)

/-! ## Records without nodes inside -/

/-- A name is read from the record that holds it. -/
theorem reads_name (name : String) : Reads d name? (.ofName name) name := by
  refine .record (by decide : ["name"].Nodup) fun members hkeeps => ?_
  obtain ⟨j, hj, hname⟩ := hkeeps.field "name" (.string name) (by simp) (by decide)
  simp [name?, fields?, namedFields?, hj, hname]

/-- A type is read from the record that holds it. -/
theorem reads_type (type : TypeName) : Reads d type? (.ofType type) type := by
  refine .record (by decide : ["name"].Nodup) fun members hkeeps => ?_
  obtain ⟨j, hj, htype⟩ := hkeeps.field "name" (reads_typeName type) (by simp) (by decide)
  simp [type?, fields?, namedFields?, hj, htype]

/-- A name and its type are read from the record that holds both. -/
theorem reads_typedName (name : String) (type : TypeName) :
    Reads d typedName? (.ofTypedName name type) (name, type) := by
  refine .record (by decide : ["var", "type_spec"].Nodup) fun members hkeeps => ?_
  obtain ⟨var, hvar, hname⟩ := hkeeps.field "var" (reads_name name) (by simp) (by decide)
  obtain ⟨spec, hspec, htype⟩ := hkeeps.field "type_spec" (reads_type type) (by simp) (by decide)
  simp [typedName?, fields?, namedFields?, hvar, hname, hspec, htype]

/-- A formal parameter is read from what it is written as. -/
theorem reads_param (p : Param) : Reads d param? (.ofTypedName p.name p.type) p :=
  (reads_typedName p.name p.type).map fun e => (⟨e.1, e.2⟩ : Param)

/-- Formal parameters are read in their order. -/
theorem reads_params : (params : List Param) →
    Reads d (listOf? param?) (.array (params.map fun p => .ofTypedName p.name p.type)) params
  | [] => .listOf_nil
  | p :: rest => (reads_param p).listOf_cons (reads_params rest)

/-- The type of a result is read as it was, also if it was null and is left out. -/
theorem reads_returnType {members members' : List (String × Json)}
    (hkeeps : Keeps d members members') (returnType : Option TypeName)
    (hmem : ("return_type", (returnType.map ofType).getD .null) ∈ members) :
    returnType? (member? "return_type" members') = some returnType := by
  obtain ⟨j, hj, hloose, hdepth⟩ | ⟨-, hnull, hout⟩ := hkeeps _ _ hmem
  · rw [hj]
    cases returnType with
    | none =>
      cases hloose
      rfl
    | some type =>
      have htype := reads_type type j hloose hdepth
      obtain ⟨members, rfl, -⟩ := hloose.keeps (by decide : ["name"].Nodup)
      exact congrArg (Option.map some) htype
  · rw [hout]
    cases returnType with
    | none => rfl
    | some type => cases hnull

/-! ## Records around nodes -/

section

variable {node? : Json → Option Node}

/-- Statements in brackets are read if the statements are. -/
theorem reads_compound {children : List Json} {nodes : List Node}
    (h : Reads d (listOf? node?) (.array children) nodes) :
    Reads d (compound? node?) (.ofCompound children) nodes := by
  refine .record (by decide : ["children"].Nodup) fun members hkeeps => ?_
  obtain ⟨j, hj, hnodes⟩ := hkeeps.field "children" h (by simp) (by decide)
  simp [compound?, fields?, namedFields?, hj, hnodes]

/-- A block is read if its declarations and its statements are. -/
theorem reads_block {declarations body : List Json} {b : Block}
    (hdeclarations : Reads d (listOf? node?) (.array declarations) b.declarations)
    (hbody : Reads d (listOf? node?) (.array body) b.body) :
    Reads d (block? node?) (.ofBlock declarations body) b := by
  refine .record (by decide : ["declarations", "body"].Nodup) fun members hkeeps => ?_
  obtain ⟨first, hfirst, hdecls⟩ :=
    hkeeps.field "declarations" hdeclarations (by simp) (by decide)
  obtain ⟨second, hsecond, hstatements⟩ :=
    hkeeps.field "body" (reads_compound hbody) (by simp) (by decide)
  simp [block?, fields?, namedFields?, hfirst, hdecls, hsecond, hstatements]

/-- A routine is read if its block is, with or without the type of a result. -/
theorem reads_routine {block : Json} (r : Routine)
    (h : Reads d (block? node?) block r.block) :
    Reads d (routine? node?)
      (.object [("name", .string r.name), ("kind", .string r.kind.tag),
        ("params", .array (r.params.map fun p => .ofTypedName p.name p.type)),
        ("return_type", (r.returnType.map ofType).getD .null), ("block", block)]) r := by
  refine .record (by decide : ["name", "kind", "params", "return_type", "block"].Nodup)
    fun members hkeeps => ?_
  obtain ⟨name, hname, hname'⟩ := hkeeps.field "name" (.string r.name) (by simp) (by decide)
  obtain ⟨kind, hkind, hkind'⟩ :=
    hkeeps.field "kind" (reads_routineKind r.kind) (by simp) (by decide)
  obtain ⟨params, hparams, hparams'⟩ :=
    hkeeps.field "params" (reads_params r.params) (by simp) (by decide)
  have hreturn := reads_returnType hkeeps r.returnType (by simp)
  obtain ⟨b, hb, hblock⟩ := hkeeps.field "block" h (by simp) (by decide)
  simp [routine?, fields?, namedFields?, hname, hname', hkind, hkind', hparams, hparams', hreturn,
    hb, hblock]

/-- A program is read if its block is. -/
theorem reads_program {block : Json} (p : Program) (h : Reads d (block? node?) block p.block) :
    Reads d (program? node?) (.object [("name", .string p.name), ("block", block)]) p := by
  refine .record (by decide : ["name", "block"].Nodup) fun members hkeeps => ?_
  obtain ⟨name, hname, hname'⟩ := hkeeps.field "name" (.string p.name) (by simp) (by decide)
  obtain ⟨b, hb, hblock⟩ := hkeeps.field "block" h (by simp) (by decide)
  simp [program?, fields?, namedFields?, hname, hname', hb, hblock]

/-- A call is read if its arguments are. -/
theorem reads_call {args : List Json} {nodes : List Node} (name : String)
    (h : Reads d (listOf? node?) (.array args) nodes) :
    Reads d (call? node?) (.object [("name", .string name), ("args", .array args)])
      (.call name nodes) := by
  refine .record (by decide : ["name", "args"].Nodup) fun members hkeeps => ?_
  obtain ⟨first, hfirst, hname⟩ := hkeeps.field "name" (.string name) (by simp) (by decide)
  obtain ⟨second, hsecond, hargs⟩ := hkeeps.field "args" h (by simp) (by decide)
  simp [call?, fields?, namedFields?, hfirst, hname, hsecond, hargs]

/-- An operator with one operand is read if the operand is. -/
theorem reads_unary {operand : Json} {n : Node} (op : UnaryOp) (h : Reads d node? operand n) :
    Reads d (unary? node?) (.object [("op", .string op.tag), ("operand", operand)])
      (.unary op n) := by
  refine .record (by decide : ["op", "operand"].Nodup) fun members hkeeps => ?_
  obtain ⟨first, hfirst, hop⟩ := hkeeps.field "op" (reads_unaryOp op) (by simp) (by decide)
  obtain ⟨second, hsecond, hn⟩ := hkeeps.field "operand" h (by simp) (by decide)
  simp [unary?, namedFields?, hfirst, hop, hsecond, hn]

/-- An operator with two operands is read if both are. -/
theorem reads_binary {left right : Json} {l r : Node} (op : BinaryOp) (hl : Reads d node? left l)
    (hr : Reads d node? right r) :
    Reads d (binary? node?) (.object [("op", .string op.tag), ("left", left), ("right", right)])
      (.binary op l r) := by
  refine .record (by decide : ["op", "left", "right"].Nodup) fun members hkeeps => ?_
  obtain ⟨first, hfirst, hop⟩ := hkeeps.field "op" (reads_binaryOp op) (by simp) (by decide)
  obtain ⟨second, hsecond, hleft⟩ := hkeeps.field "left" hl (by simp) (by decide)
  obtain ⟨third, hthird, hright⟩ := hkeeps.field "right" hr (by simp) (by decide)
  simp [binary?, namedFields?, hfirst, hop, hsecond, hleft, hthird, hright]

/-- An assignment is read if the assigned expression is. -/
theorem reads_assign {value : Json} {n : Node} (target : String) (h : Reads d node? value n) :
    Reads d (assign? node?) (.object [("target", .ofName target), ("value", value)])
      (.assign target n) := by
  refine .record (by decide : ["target", "value"].Nodup) fun members hkeeps => ?_
  obtain ⟨first, hfirst, htarget⟩ :=
    hkeeps.field "target" (reads_name target) (by simp) (by decide)
  obtain ⟨second, hsecond, hn⟩ := hkeeps.field "value" h (by simp) (by decide)
  simp [assign?, namedFields?, hfirst, htarget, hsecond, hn]

end

end Json

open Json (Reads)

/-! ## Nodes and programs -/

namespace Node

variable {d : Nat}

/-- A node is read as the content of its alternative is, one level below. -/
theorem reads_variant {tag : String} {content : Json} {read : Json → Option Node} {n : Node}
    (h : Reads d read content n) (htag : tag ∉ Json.fieldNames)
    (hstep : ∀ j, ofJsonStep? (ofJsonWithin? d) (.variant tag j) = read j) :
    Reads (d + 1) (ofJsonWithin? (d + 1)) (.variant tag content) n :=
  .variant htag fun j hj hd => by rw [ofJsonWithin?, hstep, h j hj hd]

/-- The empty statement, which has no fields, is read from its tag alone. -/
theorem reads_noOp : Reads (d + 1) (ofJsonWithin? (d + 1)) (.string "NoOp") .noOp := by
  intro j hj _
  cases hj
  rfl

mutual

/-- A node is read back from what is written for it. -/
theorem readsWithin (d : Nat) (n : Node) : Reads d (ofJsonWithin? d) n.toJson n := by
  cases d with
  | zero => exact .zero
  | succ d =>
    cases n with
    | number v => exact reads_variant ((Reads.int64 v).map Node.number) (by decide) fun _ => rfl
    | boolean b => exact reads_variant ((Reads.bool b).map Node.boolean) (by decide) fun _ => rfl
    | var name => exact reads_variant ((Json.reads_name name).map Node.var) (by decide) fun _ => rfl
    | unary op operand =>
      exact reads_variant (Json.reads_unary op (readsWithin d operand)) (by decide) fun _ => rfl
    | binary op left right =>
      exact reads_variant (Json.reads_binary op (readsWithin d left) (readsWithin d right))
        (by decide) fun _ => rfl
    | assign target value =>
      exact reads_variant (Json.reads_assign target (readsWithin d value)) (by decide) fun _ => rfl
    | compound children =>
      exact reads_variant ((Json.reads_compound (readsWithinAll d children)).map Node.compound)
        (by decide) fun _ => rfl
    | noOp => exact reads_noOp
    | varDecl name type =>
      exact reads_variant ((Json.reads_typedName name type).map fun e => Node.varDecl e.1 e.2)
        (by decide) fun _ => rfl
    | typeSpec type =>
      exact reads_variant ((Json.reads_type type).map Node.typeSpec) (by decide) fun _ => rfl
    | param p => exact reads_variant ((Json.reads_param p).map Node.param) (by decide) fun _ => rfl
    | block declarations body =>
      have hblock : Reads d (Json.block? (ofJsonWithin? d)) _ ⟨declarations, body⟩ :=
        Json.reads_block (readsWithinAll d declarations) (readsWithinAll d body)
      exact reads_variant (hblock.map fun b => Node.block b.declarations b.body) (by decide)
        fun _ => rfl
    | routine name kind params returnType declarations body =>
      have hblock : Reads d (Json.block? (ofJsonWithin? d)) _ ⟨declarations, body⟩ :=
        Json.reads_block (readsWithinAll d declarations) (readsWithinAll d body)
      have hroutine :=
        Json.reads_routine ⟨name, kind, params, returnType, ⟨declarations, body⟩⟩ hblock
      exact reads_variant (hroutine.map Routine.node) (by decide) fun _ => rfl
    | call name args =>
      exact reads_variant (Json.reads_call name (readsWithinAll d args)) (by decide) fun _ => rfl
    | program name declarations body =>
      have hblock : Reads d (Json.block? (ofJsonWithin? d)) _ ⟨declarations, body⟩ :=
        Json.reads_block (readsWithinAll d declarations) (readsWithinAll d body)
      have hprogram := Json.reads_program ⟨name, ⟨declarations, body⟩⟩ hblock
      exact reads_variant (hprogram.map Program.node) (by decide) fun _ => rfl

/-- The same for nodes in an array. -/
theorem readsWithinAll (d : Nat) : (nodes : List Node) →
    Reads d (Json.listOf? (ofJsonWithin? d)) (.array (toJsonAll nodes)) nodes
  | [] => .listOf_nil
  | n :: rest => (readsWithin d n).listOf_cons (readsWithinAll d rest)

end

/-- Every node is read back from what it is written as, and from each loosened form of that. -/
theorem readsBack (n : Node) : Reads d ofJson? n.toJson n :=
  fun j hj _ => readsWithin j.depth n j hj (Nat.le_refl _)

/-- The same for nodes in an array. -/
theorem readsBackAll : (nodes : List Node) →
    Reads d (Json.listOf? ofJson?) (.array (toJsonAll nodes)) nodes
  | [] => .listOf_nil
  | n :: rest => (readsBack n).listOf_cons (readsBackAll rest)

end Node

/-- Every program is read back from what it is written as. -/
theorem Program.readsBack {d : Nat} (p : Program) : Json.Reads d ofJson? p.toJson p :=
  Json.reads_program p (Json.reads_block (Node.readsBackAll p.block.declarations)
    (Node.readsBackAll p.block.body))

/-! ## Tokens -/

namespace Token

/-- Every kind of token is read back from what it is written as. -/
theorem Kind.readsBack (k : Kind) (d : Nat) : Reads d Kind.ofJson? k.toJson k := by
  cases k with
  | integer n =>
    exact .variant_of_forall (by decide) fun _ => (Reads.int64 n).map Kind.integer
  | identifier name =>
    exact .variant_of_forall (by decide) fun _ => (Reads.string name).map Kind.identifier
  | keyword k =>
    intro j hj _
    cases hj
    cases k <;> rfl
  | symbol s =>
    intro j hj _
    cases hj
    cases s <;> rfl
  | endOfInput =>
    intro j hj _
    cases hj
    rfl

/-- The place of a token is told in numbers of 64 bits. -/
structure Fits (t : Token) : Prop where
  line_lt : t.position.line < 18446744073709551616
  column_lt : t.position.column < 18446744073709551616

/-- Every token whose position fits the words that hold it is read back from what it is written
as. -/
theorem readsBack {d : Nat} (t : Token) (h : t.Fits) : Reads d ofJson? t.toJson t := by
  refine .record (by decide : ["kind", "lexeme", "line", "column"].Nodup) fun members hkeeps => ?_
  obtain ⟨kind, hkind, hkind'⟩ :=
    hkeeps.field "kind" (t.kind.readsBack d) (by simp) (by decide)
  obtain ⟨lexeme, hlexeme, hlexeme'⟩ :=
    hkeeps.field "lexeme" (.string t.lexeme) (by simp) (by decide)
  obtain ⟨line, hline, hline'⟩ := hkeeps.field "line" (.count h.line_lt) (by simp) (by decide)
  obtain ⟨column, hcolumn, hcolumn'⟩ :=
    hkeeps.field "column" (.count h.column_lt) (by simp) (by decide)
  simp [ofJson?, Json.fields?, Json.namedFields?, hkind, hkind', hlexeme, hlexeme', hline, hline',
    hcolumn, hcolumn']

end Token

/-- Trees and tokens are read back from what is written for them, also if that is loosened. So what
is written for one of them is not a loosened form of what is written for another one, let alone the
same. -/
theorem ofJson?_of_loosens :
    (∀ n : Node, (∀ j, n.toJson.Loosens j → Node.ofJson? j = some n) ∧
      ∀ m : Node, n.toJson.Loosens m.toJson → n = m) ∧
    (∀ p : Program, (∀ j, p.toJson.Loosens j → Program.ofJson? j = some p) ∧
      ∀ q : Program, p.toJson.Loosens q.toJson → p = q) ∧
    (∀ k : Token.Kind, (∀ j, k.toJson.Loosens j → Token.Kind.ofJson? j = some k) ∧
      ∀ l : Token.Kind, k.toJson.Loosens l.toJson → k = l) ∧
    (∀ t : Token, t.Fits → (∀ j, t.toJson.Loosens j → Token.ofJson? j = some t) ∧
      ∀ u : Token, u.Fits → t.toJson.Loosens u.toJson → t = u) := by
  refine ⟨fun n => ?_, fun p => ?_, fun k => ?_, fun t ht => ?_⟩
  · exact ⟨fun _ => Reads.of_loosens fun _ => n.readsBack, fun m =>
      Reads.eq_of_loosens (fun _ => n.readsBack) fun _ => m.readsBack⟩
  · exact ⟨fun _ => Reads.of_loosens fun _ => p.readsBack, fun q =>
      Reads.eq_of_loosens (fun _ => p.readsBack) fun _ => q.readsBack⟩
  · exact ⟨fun _ => Reads.of_loosens k.readsBack, fun l =>
      Reads.eq_of_loosens k.readsBack l.readsBack⟩
  · exact ⟨fun _ => Reads.of_loosens fun _ => t.readsBack ht, fun u hu =>
      Reads.eq_of_loosens (fun _ => t.readsBack ht) fun _ => u.readsBack hu⟩

/-- A procedure is read without its result type, which is null, and with a member in front that is
no field. -/
theorem ofJson?_of_loosens_procedure :
    let procedure := Node.routine "P" .procedure [] none [] []
    let loose := Json.variant "FunctionDecl" (.object [("comment", .integer 1),
      ("name", .string "P"), ("kind", .string "Procedure"), ("params", .array []),
      ("block", .ofBlock [] [])])
    procedure.toJson.Loosens loose ∧ Node.ofJson? loose = some procedure := by
  intro procedure loose
  have hloose : procedure.toJson.Loosens loose :=
    .variant _ (.record (by simp [Json.fieldNames])
      (.cons _ (.refl _) (.cons _ (.refl _) (.cons _ (.refl _) (.leaveOut
        (.cons _ (.refl _) .nil)))))
      (by simp) (List.perm_append_singleton ("comment", Json.integer 1) _).symm)
  exact ⟨hloose, (ofJson?_of_loosens.1 procedure).1 loose hloose⟩

end SmallPascal

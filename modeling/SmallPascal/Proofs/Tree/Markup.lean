import Mathlib.Data.List.Basic
import SmallPascal.Proofs.Grammar.RoundTrip
import SmallPascal.Proofs.Markup.Reading
import SmallPascal.Tree.Markup

/-!
# The markup of a tree

The text of a tree determines the tree (`Node.render_markup_inj`), provided that no name in it has a
line break, which no name that is read has. All lines of a tree are plain then
(`Node.plain_markup`), so the text determines the elements, and these determine the nodes
(`Node.markup_inj`): the tag tells the kind of node, but for a sign with one operand and with two,
which the number of elements inside tells apart, and for the parameters of a routine, behind which
the type of its result or its block begins.

What a node writes by opening and closing elements itself is its element (`Node.writeXml_eq`), so
its text is that of its element (`Node.toXml_eq`). `Node.writeXml_balanced` is the layout of a tree,
whatever has been written before it.
-/

namespace SmallPascal

open Markup

/-! ## Names -/

mutual

/-- All names in a node, where they are used and where they are declared. -/
def Node.names : Node → List String
  | .number _ | .boolean _ | .noOp | .typeSpec _ => []
  | .var name => [name]
  | .unary _ operand => operand.names
  | .binary _ left right => left.names ++ right.names
  | .assign target value => target :: value.names
  | .compound children => Node.namesAll children
  | .varDecl name _ => [name]
  | .param p => [p.name]
  | .block declarations body => Node.namesAll declarations ++ Node.namesAll body
  | .routine name _ params _ declarations body =>
    name :: (params.map Param.name ++ (Node.namesAll declarations ++ Node.namesAll body))
  | .call name args => name :: Node.namesAll args
  | .program name declarations body =>
    name :: (Node.namesAll declarations ++ Node.namesAll body)

/-- All names in some nodes. -/
def Node.namesAll : List Node → List String
  | [] => []
  | n :: rest => n.names ++ Node.namesAll rest

end

/-- No name has a line break in it. -/
def Unbroken (names : List String) : Prop :=
  ∀ name ∈ names, '\n' ∉ name.toList

instance : DecidablePred Unbroken :=
  fun names => inferInstanceAs (Decidable (∀ name ∈ names, '\n' ∉ name.toList))

@[simp] theorem unbroken_nil : Unbroken [] := nofun

@[simp] theorem unbroken_cons {name : String} {names : List String} :
    Unbroken (name :: names) ↔ '\n' ∉ name.toList ∧ Unbroken names :=
  List.forall_mem_cons

@[simp] theorem unbroken_append {names names' : List String} :
    Unbroken (names ++ names') ↔ Unbroken names ∧ Unbroken names' :=
  List.forall_mem_append

/-! ## Every line of a tree is plain -/

/-- A natural number is written in digits. -/
theorem isDigit_of_mem_repr {n : Nat} {c : Char} (h : c ∈ n.repr.toList) : c.isDigit := by
  rw [Nat.repr_eq_ofList_toDigits, String.toList_ofList] at h
  exact Nat.isDigit_of_mem_toDigits (by decide) (by decide) h

/-- A number stands on one line. -/
theorem newline_not_mem_repr (n : Int) : '\n' ∉ n.repr.toList := by
  have hdigits (k : Nat) : '\n' ∉ k.repr.toList :=
    fun hmem => absurd (isDigit_of_mem_repr hmem) (by decide)
  rw [Int.repr_eq_if]
  split
  · exact hdigits _
  · rw [String.toList_append, List.mem_append, not_or]
    exact ⟨by decide, hdigits _⟩

/-- The sign of an operator with one operand can be a tag. -/
theorem UnaryOp.isSigned (op : UnaryOp) : IsSigned op.symbol.spelling := by
  cases op <;> decide

/-- The sign of an operator with two operands can be a tag, the slash included. -/
theorem BinaryOp.isSigned (op : BinaryOp) : IsSigned op.symbol.spelling := by
  cases op <;> decide

/-- The element of a name is plain if the name is on one line. -/
theorem plain_ofName {name : String} (h : '\n' ∉ name.toList) : (ofName name).Plain :=
  plain_leaf (by decide) h

/-- The element of a type is plain. -/
theorem plain_ofType (type : TypeName) : (ofType type).Plain :=
  plain_leaf (by decide) (by cases type <;> decide)

/-- The element of a parameter is plain if its name is on one line. -/
theorem plain_ofParam {p : Param} (h : '\n' ∉ p.name.toList) : (ofParam p).Plain :=
  plain_element (.inl (by decide))
    (List.forall_mem_cons.2 ⟨plain_ofName h, List.forall_mem_singleton.2 (plain_ofType p.type)⟩)

/-- The element of a block is plain if its declarations and its statements are. -/
theorem plain_ofBlock {declarations body : List Markup} (h : ∀ m ∈ declarations, m.Plain)
    (h' : ∀ m ∈ body, m.Plain) : (ofBlock declarations body).Plain := by
  refine plain_element (.inl (by decide)) (List.forall_mem_append.2 ⟨h, ?_⟩)
  exact List.forall_mem_singleton.2 (plain_element (.inl (by decide)) h')

mutual

/-- The element of a node is plain if all names in the node are on one line. -/
theorem Node.plain_markup (n : Node) (h : Unbroken n.names) : n.markup.Plain := by
  cases n with
  | number a => exact plain_leaf (by decide) (newline_not_mem_repr a.toInt)
  | boolean b => exact plain_leaf (by decide) (by cases b <;> decide)
  | var name => exact plain_ofName (h name (.head _))
  | unary op operand =>
    exact plain_element (.inr op.isSigned)
      (List.forall_mem_singleton.2 (Node.plain_markup operand h))
  | binary op left right =>
    obtain ⟨hleft, hright⟩ := unbroken_append.1 h
    exact plain_element (.inr op.isSigned) (List.forall_mem_cons.2
      ⟨Node.plain_markup left hleft, List.forall_mem_singleton.2 (Node.plain_markup right hright)⟩)
  | assign target value =>
    obtain ⟨htarget, hvalue⟩ := unbroken_cons.1 h
    exact plain_element (.inr (by decide)) (List.forall_mem_cons.2
      ⟨plain_ofName htarget, List.forall_mem_singleton.2 (Node.plain_markup value hvalue)⟩)
  | compound children =>
    exact plain_element (.inl (by decide)) (Node.plain_markupAll children h)
  | noOp => exact plain_empty (by decide)
  | varDecl name type =>
    exact plain_element (.inl (by decide)) (List.forall_mem_cons.2
      ⟨plain_ofName (h name (.head _)), List.forall_mem_singleton.2 (plain_ofType type)⟩)
  | typeSpec type => exact plain_ofType type
  | param p => exact plain_ofParam (h p.name (.head _))
  | block declarations body =>
    obtain ⟨hdeclarations, hbody⟩ := unbroken_append.1 h
    exact plain_ofBlock (Node.plain_markupAll declarations hdeclarations)
      (Node.plain_markupAll body hbody)
  | routine name kind params returnType declarations body =>
    obtain ⟨hname, h⟩ := unbroken_cons.1 h
    obtain ⟨hparams, h⟩ := unbroken_append.1 h
    obtain ⟨hdeclarations, hbody⟩ := unbroken_append.1 h
    have hblock := plain_ofBlock (Node.plain_markupAll declarations hdeclarations)
      (Node.plain_markupAll body hbody)
    refine plain_named (by cases kind <;> decide) hname ?_
    simp only [List.forall_mem_append, List.forall_mem_map, List.forall_mem_singleton]
    exact ⟨⟨fun p hp => plain_ofParam (hparams _ (List.mem_map_of_mem hp)),
      fun type _ => plain_ofType type⟩, hblock⟩
  | call name args =>
    obtain ⟨hname, hargs⟩ := unbroken_cons.1 h
    exact plain_named (by decide) hname (Node.plain_markupAll args hargs)
  | program name declarations body =>
    obtain ⟨hname, h⟩ := unbroken_cons.1 h
    obtain ⟨hdeclarations, hbody⟩ := unbroken_append.1 h
    exact plain_named (by decide) hname (List.forall_mem_singleton.2
      (plain_ofBlock (Node.plain_markupAll declarations hdeclarations)
        (Node.plain_markupAll body hbody)))

/-- The same for nodes that stand side by side. -/
theorem Node.plain_markupAll (ns : List Node) (h : Unbroken (Node.namesAll ns)) :
    ∀ m ∈ Node.markupAll ns, m.Plain := by
  cases ns with
  | nil => exact nofun
  | cons n ns =>
    obtain ⟨hn, hns⟩ := unbroken_append.1 h
    exact List.forall_mem_cons.2 ⟨Node.plain_markup n hn, Node.plain_markupAll ns hns⟩

end

/-! ## A tree is determined by its markup -/

attribute [simp] Node.markup ofName ofType ofParam ofBlock routineTag

/-- Signs are told apart by their spelling. -/
theorem Symbol.spelling_inj {a b : Symbol} : a.spelling = b.spelling ↔ a = b := by
  refine ⟨fun h => ?_, congrArg _⟩
  rw [← Option.some_inj, ← Symbol.ofSpelling?_spelling, ← Symbol.ofSpelling?_spelling, h]

/-- No sign is spelled like a tag of letters. -/
theorem Symbol.spelling_ne (s : Symbol) {tag : String} (h : IsLettered tag) : s.spelling ≠ tag := by
  rintro rfl
  revert h
  cases s <;> decide

/-- No tag of letters looks like a sign. -/
theorem Symbol.ne_spelling (s : Symbol) {tag : String} (h : IsLettered tag) : tag ≠ s.spelling :=
  (s.spelling_ne h).symm

/-- The tag of a routine tells its kind. -/
theorem routineTag_inj {a b : RoutineKind} (h : routineTag a = routineTag b) : a = b := by
  revert h
  cases a <;> cases b <;> decide

/-- Types are told apart by their words. -/
theorem TypeName.spelling_keyword_inj {a b : TypeName} :
    a.keyword.spelling = b.keyword.spelling ↔ a = b := by
  cases a <;> cases b <;> decide

/-- The sign of an assignment is that of no operator. -/
theorem BinaryOp.spelling_ne_assign (op : BinaryOp) : op.symbol.spelling ≠ ":=" := by
  cases op <;> decide

/-- The element of a block tells its declarations from its statements, since these stand in an
element of their own at the end. -/
theorem ofBlock_inj {declarations declarations' body body' : List Markup} :
    ofBlock declarations body = ofBlock declarations' body' ↔
      declarations = declarations' ∧ body = body' := by
  refine ⟨fun h => ?_, fun h => h.1 ▸ h.2 ▸ rfl⟩
  simp only [ofBlock, element.injEq, true_and] at h
  obtain ⟨hdeclarations, hbody⟩ := List.append_inj' h rfl
  exact ⟨hdeclarations, by simpa using hbody⟩

/-- The element of a parameter determines the parameter. -/
theorem ofParam_inj {p q : Param} : ofParam p = ofParam q ↔ p = q := by
  cases p
  cases q
  simp [TypeName.spelling_keyword_inj]

/-- The parameters of a routine end where the type of its result begins. -/
theorem heading_inj {params params' : List Param} {type type' : Option TypeName}
    (h : params.map ofParam ++ type.toList.map ofType =
      params'.map ofParam ++ type'.toList.map ofType) : params = params' ∧ type = type' := by
  induction params generalizing params' with
  | nil => cases params' with
    | nil => cases type <;> cases type' <;> simp_all [TypeName.spelling_keyword_inj]
    -- A type has another tag than a parameter.
    | cons q params' => cases type <;> simp at h
  | cons p params ih => cases params' with
    | nil => cases type' <;> simp at h
    | cons q params' =>
      obtain ⟨hp, h⟩ := List.cons.inj h
      obtain ⟨hparams, htype⟩ := ih h
      exact ⟨by rw [ofParam_inj.1 hp, hparams], htype⟩

/-- The digits of a natural number determine it. -/
theorem natural_inj {m n : Nat} (h : m.repr = n.repr) : m = n := by
  rw [Nat.repr_eq_ofList_toDigits, Nat.repr_eq_ofList_toDigits, String.ofList_inj] at h
  rw [← Text.decimalValue_toDigits m, h, Text.decimalValue_toDigits]

/-- No digits look like digits behind a minus sign. -/
theorem repr_ne_signed (m n : Nat) : m.repr ≠ "-" ++ n.repr := by
  intro h
  have hmem : '-' ∈ m.repr.toList := by simp [h]
  exact absurd (isDigit_of_mem_repr hmem) (by decide)

/-- The text of a number determines the number, its sign included. -/
theorem number_inj {a b : Int64} (h : a.toInt.repr = b.toInt.repr) : a = b := by
  refine Int64.toInt_inj.1 ?_
  rw [Int.repr_eq_if, Int.repr_eq_if] at h
  split at h <;> split at h
  · have := natural_inj h
    omega
  · exact absurd h (repr_ne_signed _ _)
  · exact absurd h.symm (repr_ne_signed _ _)
  · have := natural_inj ((String.append_right_inj "-").1 h)
    omega

mutual

/-- The element of a node determines the node. -/
theorem Node.markup_inj (m n : Node) (h : m.markup = n.markup) : m = n := by
  cases m with
  | number a => cases n with
    | number b =>
      have hrepr : a.toInt.repr = b.toInt.repr := by simpa using h
      rw [number_inj hrepr]
    | _ => simp at h
  | boolean a => cases n with
    | boolean b => cases a <;> cases b <;> simp at h ⊢
    | _ => simp at h
  | var x => cases n with
    | var y => simpa using h
    | _ => simp at h
  | unary op operand => cases n with
    | unary op' operand' =>
      obtain ⟨hop, hoperand⟩ : op = op' ∧ operand.markup = operand'.markup := by
        simpa [Symbol.spelling_inj, UnaryOp.symbol_inj] using h
      rw [hop, Node.markup_inj operand operand' hoperand]
    -- An operator with two operands may be spelled like `op`, but has two elements inside.
    | _ => simp (disch := decide) [Symbol.spelling_ne] at h
  | binary op left right => cases n with
    | binary op' left' right' =>
      obtain ⟨hop, hleft, hright⟩ :
          op = op' ∧ left.markup = left'.markup ∧ right.markup = right'.markup := by
        simpa [Symbol.spelling_inj, BinaryOp.symbol_inj] using h
      rw [hop, Node.markup_inj left left' hleft, Node.markup_inj right right' hright]
    | _ => simp (disch := decide) [Symbol.spelling_ne, BinaryOp.spelling_ne_assign] at h
  | assign target value => cases n with
    | assign target' value' =>
      obtain ⟨htarget, hvalue⟩ : target = target' ∧ value.markup = value'.markup := by
        simpa using h
      rw [htarget, Node.markup_inj value value' hvalue]
    | _ => simp [(BinaryOp.spelling_ne_assign _).symm] at h
  | compound children => cases n with
    | compound children' => rw [Node.markupAll_inj children children' (by simpa using h)]
    | _ => simp (disch := decide) [Symbol.ne_spelling] at h
  | noOp => cases n with
    | noOp => rfl
    | _ => simp at h
  | varDecl x type => cases n with
    | varDecl y type' =>
      obtain ⟨hname, htype⟩ : x = y ∧ type.keyword.spelling = type'.keyword.spelling := by
        simpa using h
      rw [hname, TypeName.spelling_keyword_inj.1 htype]
    | _ => simp (disch := decide) [Symbol.ne_spelling] at h
  | typeSpec type => cases n with
    | typeSpec type' => exact congrArg _ (TypeName.spelling_keyword_inj.1 (by simpa using h))
    | _ => simp at h
  | param p => cases n with
    | param q => rw [ofParam_inj.1 h]
    | _ => simp (disch := decide) [Symbol.ne_spelling] at h
  | block declarations body => cases n with
    | block declarations' body' =>
      obtain ⟨hdeclarations, hbody⟩ := ofBlock_inj.1 h
      rw [Node.markupAll_inj declarations declarations' hdeclarations,
        Node.markupAll_inj body body' hbody]
    | _ => simp (disch := decide) [Symbol.ne_spelling] at h
  | routine name kind params returnType declarations body => cases n with
    | routine name' kind' params' returnType' declarations' body' =>
      obtain ⟨hkind, hname, hchildren⟩ := element.inj h
      obtain ⟨hheading, hblock⟩ := List.append_inj' hchildren rfl
      obtain ⟨hparams, hreturn⟩ := heading_inj hheading
      obtain ⟨hdeclarations, hbody⟩ := ofBlock_inj.1 (List.singleton_inj.1 hblock)
      rw [routineTag_inj hkind, Option.some_inj.1 hname, hparams, hreturn,
        Node.markupAll_inj declarations declarations' hdeclarations,
        Node.markupAll_inj body body' hbody]
    | _ => cases kind <;> simp at h
  | call name args => cases n with
    | call name' args' =>
      obtain ⟨hname, hargs⟩ : name = name' ∧ Node.markupAll args = Node.markupAll args' := by
        simpa using h
      rw [hname, Node.markupAll_inj args args' hargs]
    | routine _ kind => cases kind <;> simp at h
    | _ => simp at h
  | program name declarations body => cases n with
    | program name' declarations' body' =>
      obtain ⟨-, hname, hblock⟩ := element.inj h
      obtain ⟨hdeclarations, hbody⟩ := ofBlock_inj.1 (List.singleton_inj.1 hblock)
      rw [Option.some_inj.1 hname, Node.markupAll_inj declarations declarations' hdeclarations,
        Node.markupAll_inj body body' hbody]
    | routine _ kind => cases kind <;> simp at h
    | _ => simp at h

/-- The same for nodes that stand side by side. -/
theorem Node.markupAll_inj (ms ns : List Node) (h : Node.markupAll ms = Node.markupAll ns) :
    ms = ns := by
  cases ms with
  | nil => cases ns with
    | nil => rfl
    | cons n ns => simp [Node.markupAll] at h
  | cons m ms => cases ns with
    | nil => simp [Node.markupAll] at h
    | cons n ns =>
      obtain ⟨hhead, htail⟩ := List.cons.inj h
      rw [Node.markup_inj m n hhead, Node.markupAll_inj ms ns htail]

end

/-- A name that can be written in a text is on one line. -/
theorem IsName.newline_not_mem {name : String} (h : IsName name) : '\n' ∉ name.toList :=
  (IsLexeme.word h.word).newline_not_mem

/-- One such name is unbroken. -/
theorem unbroken_singleton {name : String} (h : IsName name) : Unbroken [name] :=
  List.forall_mem_singleton.2 h.newline_not_mem

/-- The names in some nodes are unbroken if those in each of the nodes are. -/
theorem unbroken_namesAll {ns : List Node} :
    Unbroken (Node.namesAll ns) ↔ ∀ n ∈ ns, Unbroken n.names := by
  induction ns with
  | nil => simp [Node.namesAll]
  | cons n ns ih => simp [Node.namesAll, ih]

/-- No name in a grammatical expression has a line break in it. -/
theorem Node.IsExpression.unbroken {e : Node} (h : e.IsExpression) : Unbroken e.names := by
  induction h with
  | number => exact unbroken_nil
  | boolean => exact unbroken_nil
  | var hname => exact unbroken_singleton hname
  | unary _ _ ih => exact ih
  | binary _ _ _ ihleft ihright => exact unbroken_append.2 ⟨ihleft, ihright⟩
  | call hname _ ih => exact unbroken_cons.2 ⟨hname.newline_not_mem, unbroken_namesAll.2 ih⟩

/-- No name in a grammatical statement has one. -/
theorem Node.IsStatement.unbroken {s : Node} (h : s.IsStatement) : Unbroken s.names := by
  induction h with
  | noOp => exact unbroken_nil
  | assign hname hvalue => exact unbroken_cons.2 ⟨hname.newline_not_mem, hvalue.unbroken⟩
  | call hname hargs =>
    exact unbroken_cons.2
      ⟨hname.newline_not_mem, unbroken_namesAll.2 fun a ha => (hargs a ha).unbroken⟩
  | compound _ _ ih => exact unbroken_namesAll.2 ih

/-- No name in the declaration of a variable has one. -/
theorem Node.IsVariable.unbroken {v : Node} (h : v.IsVariable) : Unbroken v.names := by
  cases h with
  | varDecl hname => exact unbroken_singleton hname

/-- No name in a well-formed block has one, in its routines neither. -/
theorem Block.WellFormed.unbroken {b : Block} (h : b.WellFormed) :
    Unbroken (Node.namesAll b.declarations ++ Node.namesAll b.body) := by
  induction h with
  | mk hvars hheadings _ hbody ih =>
    refine unbroken_append.2 ⟨unbroken_namesAll.2 ?_, hbody.unbroken⟩
    rw [List.forall_mem_append, List.forall_mem_map]
    refine ⟨fun v hv => (hvars v hv).unbroken, fun r hr => ?_⟩
    have hheading := hheadings r hr
    exact unbroken_cons.2 ⟨hheading.isName.newline_not_mem, unbroken_append.2
      ⟨List.forall_mem_map.2 fun p hp => (hheading.params p hp).newline_not_mem, ih r hr⟩⟩

/-- No name in a well-formed program has one. -/
theorem Program.WellFormed.unbroken {p : Program} (h : p.WellFormed) : Unbroken p.node.names :=
  unbroken_cons.2 ⟨h.isName.newline_not_mem, h.block.unbroken⟩

namespace Markup.Writer

/-- A formal parameter writes its element. -/
theorem param_eq (w : Writer) (p : Param) : w.param p = (ofParam p).write w := rfl

/-- The parameters of a routine write their elements in their order. -/
theorem foldlM_param (params : List Param) (w : Writer) :
    params.foldlM Writer.param w = writeAll (params.map ofParam) w := by
  induction params generalizing w with
  | nil => rfl
  | cons p params ih => simp [writeAll, ih, param_eq]

/-- The type of a result is an element if there is one, and none otherwise. -/
theorem result_eq (w : Writer) (type : Option TypeName) :
    writeAll (type.toList.map ofType) w = some (w.result type) := by
  cases type <;> rfl

/-- Statements in brackets write their element if the statements do. -/
theorem compound_eq (w : Writer) (body : List Markup) :
    w.compound (writeAll body) = (Markup.element "compound" none body).write w := rfl

/-- A block writes its element if its declarations and its statements do. -/
theorem block_eq (w : Writer) (declarations body : List Markup) :
    w.block (writeAll declarations) (writeAll body) = (ofBlock declarations body).write w := by
  rw [ofBlock, write, writeAll_append, writeAll_singleton]
  simp only [block, compound_eq, Option.bind_eq_bind, Option.bind_assoc]

end Markup.Writer

mutual

/-- A node writes its element, whatever has been written and however many elements are open. -/
theorem Node.writeXml_eq (n : Node) (w : Writer) : n.writeXml w = n.markup.write w := by
  cases n with
  | number a => rfl
  | boolean b => rfl
  | var name => rfl
  | unary op operand =>
    simp only [Node.writeXml, Node.markup, write, writeAll_singleton, Node.writeXml_eq operand]
  | binary op left right =>
    have hright := Node.writeXml_eq right
    simp only [Node.writeXml, Node.markup, write, writeAll, Node.writeXml_eq left, hright,
      Option.bind_eq_bind, Option.bind_assoc, Option.bind_fun_some]
  | assign target value =>
    have hvalue := Node.writeXml_eq value
    simp [Node.writeXml, Node.markup, write, writeAll, ofName, hvalue, Writer.name, Writer.leaf]
  -- What a block or brackets hold is written by a function of the writer, so the equation is needed
  -- for all writers at once.
  | compound children =>
    rw [Node.writeXml, funext (Node.writeXmlAll_eq children)]
    rfl
  | noOp => rfl
  | varDecl name type => rfl
  | typeSpec type => rfl
  | param p => rfl
  | block declarations body =>
    rw [Node.writeXml, funext (Node.writeXmlAll_eq declarations), funext (Node.writeXmlAll_eq body),
      Writer.block_eq]
    rfl
  | routine name kind params returnType declarations body =>
    have hdeclarations := funext (Node.writeXmlAll_eq declarations)
    have hbody := funext (Node.writeXmlAll_eq body)
    simp only [Node.writeXml, Node.markup, write, writeAll_append, writeAll_singleton,
      Writer.foldlM_param, Writer.result_eq, Writer.block_eq, hdeclarations, hbody,
      Option.bind_eq_bind, Option.bind_assoc, Option.bind_some]
  | call name args =>
    rw [Node.writeXml, Node.writeXmlAll_eq args]
    rfl
  | program name declarations body =>
    simp only [Node.writeXml, Node.markup, write, writeAll_singleton,
      funext (Node.writeXmlAll_eq declarations), funext (Node.writeXmlAll_eq body),
      Writer.block_eq]

/-- The same for nodes that stand side by side. -/
theorem Node.writeXmlAll_eq (ns : List Node) (w : Writer) :
    Node.writeXmlAll ns w = writeAll (Node.markupAll ns) w := by
  cases ns with
  | nil => rfl
  | cons n ns =>
    have hrest := Node.writeXmlAll_eq ns
    simp only [Node.writeXmlAll, Node.markupAll, writeAll, Node.writeXml_eq n w, hrest]

end

/-- The text of a node is that of its element. -/
theorem Node.toXml_eq (n : Node) : n.toXml = n.markup.render := by
  rw [Node.toXml, Node.writeXml_eq, render]

/-- Whatever has been written and however many elements are open, a node can be written: it never
closes where nothing is open. Writing it adds the lines of its element behind what has been written,
and as many elements are open as before. The tags in these lines match like brackets, and every line
begins with as many tabs as elements are open around it. If no name has a line break in it, then
what is added is the text of the node by itself with the tabs in front of each line, and the lines
are those of the added text. -/
theorem Node.writeXml_balanced (n : Node) (w : Writer) :
    n.writeXml w =
      some ⟨w.text ++ String.join ((n.markup.lines w.depth).map Line.text), w.depth⟩ ∧
    Matched ((n.markup.lines w.depth).map Line.content) ∧
    (n.markup.lines w.depth).map (leadingTabs ∘ Line.body) =
      openAround w.depth ((n.markup.lines w.depth).map Line.content) ∧
    (Unbroken n.names →
      String.join ((n.markup.lines w.depth).map Line.text) = indented w.depth n.toXml ∧
      textLines (String.join ((n.markup.lines w.depth).map Line.text)) =
        (n.markup.lines w.depth).map Line.body) := by
  have hwrite := (Node.writeXml_eq n w).trans (write_eq n.markup w)
  refine ⟨hwrite, matched_lines n.markup w.depth, map_leadingTabs_lines n.markup w.depth,
    fun h => ?_⟩
  have hplain := Node.plain_markup n h
  rw [Node.toXml_eq]
  exact ⟨renderAt_eq_indented (fun l hl => (hplain 0 l hl).newline_not_mem) w.depth,
    textLines_join fun l hl => (hplain w.depth l hl).newline_not_mem⟩

/-- A call inside of two elements. -/
theorem Node.writeXml_balanced_call :
    Unbroken (Node.call "f" [.number 1]).names ∧
    (Node.call "f" [.number 1]).writeXml ⟨"<a>\n\t<b>\n", 2⟩ =
      some ⟨"<a>\n\t<b>\n" ++ indented 2 (Node.call "f" [.number 1]).toXml, 2⟩ := by
  have hnames : Unbroken (Node.call "f" [.number 1]).names := by decide
  have h := Node.writeXml_balanced (.call "f" [.number 1]) ⟨"<a>\n\t<b>\n", 2⟩
  exact ⟨hnames, h.1.trans (by rw [(h.2.2.2 hnames).1])⟩

end SmallPascal

import SmallPascal.Proofs.Grammar.Rendering

/-!
# Reading what has been written

The text of a tree is what is written for it, with spaces between the tokens. It is read as the tree
again, because its tokens have the kinds that have been written and these are a sentence
(`program_ofSource_text`, `expression_ofSource_text`).

That `Node.expressionKinds` has no parentheses without need is shown by counting: whatever derives
an expression derives as many kinds at least (`Derivation.fits`). The count that carries the
induction through a row of operators is the one for the tier above theirs, where every operand on
the left stands without parentheses.
-/

namespace SmallPascal

/-- The text of kinds, with spaces between them. -/
def spell (ks : List Token.Kind) : String :=
  " ".intercalate (ks.map Token.Kind.text)

/-- The text of a program. -/
def Program.text (x : Parens) (p : Program) : String :=
  spell (p.kinds x)

/-- The text of an expression. -/
def Node.text (x : Parens) (e : Node) : String :=
  spell (e.expressionKinds x BinaryOp.tierCount)

/-- Kinds laid out with spaces between them. -/
def spaced : List Token.Kind → List Piece
  | [] => []
  | k :: ks => ⟨[], k, 0⟩ :: ks.map (⟨[' '], ·, 0⟩)

open Token.Kind Rendering

namespace Grammar

/-! ## Texts of tokens -/

/-- Without zeros in front a token is spelled by the text of its kind. -/
theorem lexeme_of_no_zeros (gap : List Char) (k : Token.Kind) :
    (⟨gap, k, 0⟩ : Piece).lexeme = k.text.toList := by
  cases k <;> rfl

/-- Kinds with a space in front of each are laid out as their texts with these spaces. -/
theorem layout_map_space (ks : List Token.Kind) :
    layout (ks.map (⟨[' '], ·, 0⟩)) [] =
      ((ks.map Token.Kind.text).map String.toList).flatMap (' ' :: ·) := by
  induction ks with
  | nil => rfl
  | cons k ks ih => simp [layout, lexeme_of_no_zeros, ih]

/-- The text of kinds is a layout of them. -/
theorem toList_spell (ks : List Token.Kind) : (spell ks).toList = layout (spaced ks) [] := by
  cases ks with
  | nil => rfl
  | cons k ks =>
    rw [spell, String.toList_intercalate, List.map_cons, List.map_cons, spaced, layout,
      layout_map_space, lexeme_of_no_zeros, List.nil_append]
    exact intercalate_cons ..

/-- With spaces between them kinds that can be written are well laid. -/
theorem wellLaid_spaced {ks : List Token.Kind} (h : AreWritable ks) : WellLaid (spaced ks) [] := by
  cases ks with
  | nil => exact ⟨nofun, nofun, .nil, nofun⟩
  | cons k ks =>
    obtain ⟨hk, hks⟩ := areWritable_cons.1 h
    have hspace : IsGap [' '] := .blank (by decide) .nil
    exact ⟨List.forall_mem_cons.2 ⟨hk, List.forall_mem_map.2 hks⟩,
      List.forall_mem_cons.2 ⟨.nil, List.forall_mem_map.2 fun _ _ => hspace⟩, .nil,
      List.forall_mem_map.2 fun _ _ => List.cons_ne_nil _ _⟩

/-- Tokens of the kinds that are spelled are read. -/
theorem exists_complete_spell {ks : List Token.Kind} (h : AreWritable ks) :
    ∃ ts, (Cursor.ofText (spell ks)).stream.complete = .ok ts ∧
      kinds ts = ks ++ [.endOfInput] := by
  obtain ⟨ts, hts, hwords⟩ := (wellLaid_spaced h).exists_tiles []
  refine ⟨ts, Cursor.complete_ofText_eq_ok_iff.2 (toList_spell ks ▸ hts), ?_⟩
  have hkinds := congrArg (List.map Prod.fst) hwords
  rw [List.map_map, List.map_append, List.map_map] at hkinds
  refine hkinds.trans ?_
  cases ks with
  | nil => rfl
  | cons k ks => simp [spaced, Function.comp_def]

/-- The tokens of a text of kinds are a sentence, if the kinds are. -/
theorem exists_sentence_of_spells {s : Nonterminal} {a : s.Value} {ks : List Token.Kind}
    (h : Spells s a ks) : ∃ ts, (Cursor.ofText (spell ks)).stream.complete = .ok ts ∧
      ∃ d : Derivation s, kinds ts = d.sentence ∧ d.tree = a := by
  obtain ⟨d, htree, rfl, hw⟩ := h
  obtain ⟨ts, hts, hkinds⟩ := exists_complete_spell hw
  exact ⟨ts, hts, d, hkinds, htree⟩

/-- A well-formed program is read back from its text, whatever parentheses are put around its
expressions. -/
theorem program_ofSource_text {p : Program} (h : p.WellFormed) (x : Parens) :
    Program.ofSource (.ofText (p.text x)) = .ok p := by
  obtain ⟨ts, hts, d⟩ := exists_sentence_of_spells (spells_program h x)
  exact (program_ofSource_eq_ok_iff hts).2 d

/-- An expression is read back from its text, whatever parentheses are put around its parts. -/
theorem expression_ofSource_text {e : Node} (h : e.IsExpression) (x : Parens) :
    Node.ofSource (.ofText (e.text x)) = .ok e := by
  obtain ⟨ts, hts, d⟩ := exists_sentence_of_spells (spells_expression h x BinaryOp.tierCount)
  exact (expression_ofSource_eq_ok_iff hts).2 d

/-! ## The fewest parentheses -/

/-- How many kinds are written for an expression without parentheses that are not needed. -/
def width (tiers : Nat) (e : Node) : Nat :=
  (e.expressionKinds .none tiers).length

/-- The same for the arguments of a call. -/
def argumentsWidth (args : List Node) : Nat :=
  ([.symbol .comma].intercalate (Node.expressionKindsFrom .none 0 args)).length

/-- The same for arguments with a comma in front of each. -/
def moreArgumentsWidth : List Node → Nat
  | [] => 0
  | a :: args => width BinaryOp.tierCount a + 1 + moreArgumentsWidth args

section

variable {tiers tiers' : Nat}

/-- Each pair of parentheses is two tokens. -/
theorem length_enclose (n : Nat) (ks : List Token.Kind) :
    (enclose n ks).length = ks.length + 2 * n := by
  induction n with
  | zero => rfl
  | succ n ih =>
    rw [enclose, List.length_cons, List.length_append, ih, List.length_singleton]
    omega

/-- An operation is as wide as its operands and its sign, and as parentheses where it needs them. -/
theorem width_binary (op : BinaryOp) (l r : Node) :
    width tiers (.binary op l r) =
      width (op.tier + 1) l + (width op.tier r + 1) + if op.tier < tiers then 0 else 2 := by
  unfold width
  rw [Node.expressionKinds, length_enclose, List.length_append, List.length_cons]
  split <;> rfl

/-- A call is as wide as its arguments, its name and its parentheses. -/
theorem width_call (name : String) (args : List Node) :
    width tiers (.call name args) = argumentsWidth args + 3 := by
  simp [width, argumentsWidth, Node.expressionKinds, callKinds, enclose, Parens.none]

/-- The arguments behind the first, each with its comma, are as wide as they are counted. -/
theorem length_flatMap_expressionKindsFrom (args : List Node) (i : Nat) :
    ((Node.expressionKindsFrom .none i args).flatMap (.symbol .comma :: ·)).length =
      moreArgumentsWidth args := by
  induction args generalizing i with
  | nil => rfl
  | cons a args ih =>
    rw [Node.expressionKindsFrom, List.flatMap_cons, List.length_append, ih]
    rfl

/-- Arguments are as wide as the first one and those behind it. -/
theorem argumentsWidth_cons (a : Node) (args : List Node) :
    argumentsWidth (a :: args) = width BinaryOp.tierCount a + moreArgumentsWidth args := by
  rw [argumentsWidth, Node.expressionKindsFrom, intercalate_cons, List.length_append,
    length_flatMap_expressionKindsFrom]
  rfl

/-- Where fewer operators may stand, nothing is shorter. -/
theorem width_anti (h : tiers ≤ tiers') (e : Node) : width tiers' e ≤ width tiers e := by
  cases e with
  | binary op left right =>
    rw [width_binary, width_binary]
    split <;> split <;> omega
  | _ => exact Nat.le_refl _

/-- One pair of parentheses is enough for every place. -/
theorem width_zero_le (e : Node) : width 0 e ≤ width BinaryOp.tierCount e + 2 := by
  cases e with
  | binary op left right =>
    simp only [width_binary, if_pos op.tier_lt, if_neg (Nat.not_lt_zero _), Nat.add_zero,
      Nat.le_refl]
  | _ => exact Nat.le_add_right ..

end

/-- At least `n` kinds are needed for the value of a nonterminal. -/
def Nonterminal.Fits : (s : Nonterminal) → s.Value → Nat → Prop
  | expression tiers, e, n => width tiers e ≤ n
  | operations tier, f, n => ∀ left, width (tier + 1) (f left) ≤ width (tier + 1) left + n
  | arguments, args, n => argumentsWidth args ≤ n
  | moreArguments, args, n => moreArgumentsWidth args ≤ n
  | _, _, _ => True

/-- No derivation of an expression derives less than what is written for it. -/
theorem Derivation.fits {s : Nonterminal} (d : Derivation s) : s.Fits d.tree d.yield.length := by
  induction d with
  | number n => exact Nat.le_refl _
  | boolean b => exact Nat.le_refl _
  | var name => exact Nat.le_refl _
  | call name args ih =>
    calc width 0 (.call name args.tree)
      _ = argumentsWidth args.tree + 3 := width_call name args.tree
      _ ≤ args.yield.length + 3 := Nat.add_le_add_right ih 3
      _ = (call name args).yield.length := by simp
  | group inner ih =>
    calc width 0 inner.tree
      _ ≤ width BinaryOp.tierCount inner.tree + 2 := width_zero_le inner.tree
      _ ≤ inner.yield.length + 2 := Nat.add_le_add_right ih 2
      _ = (group inner).yield.length := by simp
  | sign op operand ih => exact Nat.add_le_add_right ih 1
  | @chain tier first more ih ihmore =>
    calc width (tier + 1) (more.tree first.tree)
      _ ≤ width (tier + 1) first.tree + more.yield.length := ihmore first.tree
      _ ≤ width tier first.tree + more.yield.length :=
        Nat.add_le_add_right (width_anti (Nat.le_add_right tier 1) first.tree) _
      _ ≤ first.yield.length + more.yield.length := Nat.add_le_add_right ih _
      _ = (chain first more).yield.length := by simp
  | noOperation => exact fun _ => Nat.le_refl _
  | operation op tier_eq right more ih ihmore =>
    subst tier_eq
    intro left
    -- One tier up the operation stands without parentheses, with all that is joined to it so far.
    have hleft : width (op.tier + 1) (.binary op left right.tree) = _ := width_binary ..
    rw [if_pos (Nat.lt_add_one _)] at hleft
    calc width (op.tier + 1) (more.tree (.binary op left right.tree))
      _ ≤ width (op.tier + 1) (.binary op left right.tree) + more.yield.length := ihmore _
      _ = width (op.tier + 1) left + (width op.tier right.tree + 1) + more.yield.length := by
        rw [hleft, Nat.add_zero]
      _ ≤ width (op.tier + 1) left + (right.yield.length + 1) + more.yield.length :=
        Nat.add_le_add_right (Nat.add_le_add_left (Nat.add_le_add_right ih 1) _) _
      _ = width (op.tier + 1) left + (operation op rfl right more).yield.length := by
        simp; omega
  | noArguments => exact Nat.le_refl _
  | someArguments first more ih ihmore =>
    calc argumentsWidth (first.tree :: more.tree)
      _ = width BinaryOp.tierCount first.tree + moreArgumentsWidth more.tree :=
        argumentsWidth_cons ..
      _ ≤ first.yield.length + more.yield.length := Nat.add_le_add ih ihmore
      _ = (someArguments first more).yield.length := by simp
  | noMoreArguments => exact Nat.le_refl _
  | moreArguments next more ih ihmore =>
    calc width BinaryOp.tierCount next.tree + 1 + moreArgumentsWidth more.tree
      _ ≤ next.yield.length + 1 + more.yield.length :=
        Nat.add_le_add (Nat.add_le_add_right ih 1) ihmore
      _ = (moreArguments next more).yield.length := by simp; omega
  | _ => exact True.intro

/-- No text of an expression has fewer tokens than are written for it. -/
theorem length_expressionKinds_lt {c : Cursor} {ts : List Token} {e : Node}
    (hts : c.stream.complete = .ok ts) (h : Node.ofSource c = .ok e) :
    (e.expressionKinds .none BinaryOp.tierCount).length < ts.length := by
  obtain ⟨d, hd, rfl⟩ := (expression_ofSource_eq_ok_iff hts).1 h
  have hlength := congrArg List.length hd
  rw [kinds, List.length_map, Derivation.sentence, List.length_append] at hlength
  rw [hlength]
  exact Nat.lt_succ_of_le d.fits

/-! ## Reading undoes writing -/

/-- The trees that are read are the well-formed ones, and each of them is read from its own text,
with any parentheses beside those that it needs. Without these, the text of an expression has as few
tokens as any other text of it. -/
theorem ofSource_wellFormed_and_text :
    (∀ p : Program, (∃ c, Program.ofSource c = .ok p) ↔ p.WellFormed) ∧
    (∀ e : Node, (∃ c, Node.ofSource c = .ok e) ↔ e.IsExpression) ∧
    (∀ p : Program, p.WellFormed → ∀ x, Program.ofSource (.ofText (p.text x)) = .ok p) ∧
    (∀ e : Node, e.IsExpression → ∀ x, Node.ofSource (.ofText (e.text x)) = .ok e) ∧
    ∀ (c : Cursor) (ts : List Token) (e : Node),
      c.stream.complete = .ok ts → Node.ofSource c = .ok e →
        (e.expressionKinds .none BinaryOp.tierCount).length < ts.length := by
  refine ⟨fun p => ⟨?_, fun h => ⟨_, program_ofSource_text h .none⟩⟩,
    fun e => ⟨?_, fun h => ⟨_, expression_ofSource_text h .none⟩⟩,
    fun p => program_ofSource_text, fun e => expression_ofSource_text,
    fun c ts e => length_expressionKinds_lt⟩
  · rintro ⟨c, h⟩
    exact program_wellFormed h
  · rintro ⟨c, h⟩
    exact expression_isExpression h

/-- A function and an empty statement, with parentheses that are needed and others that are not; and
an expression whose parentheses are all needed. -/
theorem ofSource_wellFormed_and_text_function :
    (∃ (p : Program) (x : Parens), p.WellFormed ∧ p.text x = "PROGRAM p ; VAR a : BOOLEAN ; " ++
        "FUNCTION f ( n : INTEGER ) : BOOLEAN ; BEGIN f := n - ( 1 - n ) == 1 END ; " ++
        "BEGIN a := f ( ( 2 ) ) ; END ." ∧
      Program.ofSource (.ofText (p.text x)) = .ok p ∧ ∃ c, Program.ofSource c = .ok p) ∧
    ∃ (e : Node) (ts : List Token), e.IsExpression ∧ e.text .none = "- ( a + 1 ) * 2" ∧
      Node.ofSource (.ofText (e.text .none)) = .ok e ∧
      (Cursor.ofText (e.text .none)).stream.complete = .ok ts ∧
      (e.expressionKinds .none BinaryOp.tierCount).length < ts.length := by
  have ha : IsName "a" := by decide
  have hf : IsName "f" := by decide
  have hn : IsName "n" := by decide
  have hp : IsName "p" := by decide
  have h1 : Node.IsExpression (.number 1) := .number (by decide)
  have h2 : Node.IsExpression (.number 2) := .number (by decide)
  have hvalue : Node.IsExpression
      (.binary .eq (.binary .sub (.var "n") (.binary .sub (.number 1) (.var "n"))) (.number 1)) :=
    .binary _ (.binary _ (.var hn) (.binary _ h1 (.var hn))) h1
  have hfunction : Block.WellFormed ⟨[] ++ [].map Routine.node, [.assign "f" (.binary .eq
      (.binary .sub (.var "n") (.binary .sub (.number 1) (.var "n"))) (.number 1))]⟩ :=
    .mk nofun nofun nofun
      (.compound (List.cons_ne_nil _ _) (List.forall_mem_singleton.2 (.assign hf hvalue)))
  have hbody : Node.IsStatement (.compound [.assign "a" (.call "f" [.number 2]), .noOp]) :=
    .compound (List.cons_ne_nil _ _) (List.forall_mem_cons.2
      ⟨.assign ha (.call hf (List.forall_mem_singleton.2 h2)), List.forall_mem_singleton.2 .noOp⟩)
  have hblock := Block.WellFormed.mk (List.forall_mem_singleton.2 (.varDecl ha .boolean))
    (List.forall_mem_singleton.2 (⟨hf, List.forall_mem_singleton.2 hn, nofun⟩ :
      Routine.HeadingWellFormed ⟨"f", .function, [⟨"n", .integer⟩], some .boolean, _⟩))
    (List.forall_mem_singleton.2 hfunction) hbody
  have hprogram : Program.WellFormed ⟨"p", _⟩ := ⟨hp, hblock⟩
  have he : Node.IsExpression
      (.binary .mul (.unary .minus (.binary .add (.var "a") (.number 1))) (.number 2)) :=
    .binary _ (.unary _ (.binary _ (.var ha) h1)) h2
  have hread := ofSource_wellFormed_and_text.2.2.2.1 _ he .none
  have hts : (Cursor.ofText "- ( a + 1 ) * 2").stream.complete =
      .ok [⟨.symbol .minus, "-", ⟨1, 1⟩⟩, ⟨.symbol .leftParen, "(", ⟨1, 3⟩⟩,
        ⟨.identifier "a", "a", ⟨1, 5⟩⟩, ⟨.symbol .plus, "+", ⟨1, 7⟩⟩, ⟨.integer 1, "1", ⟨1, 9⟩⟩,
        ⟨.symbol .rightParen, ")", ⟨1, 11⟩⟩, ⟨.symbol .times, "*", ⟨1, 13⟩⟩,
        ⟨.integer 2, "2", ⟨1, 15⟩⟩, ⟨.endOfInput, "", ⟨1, 16⟩⟩] := by decide +kernel
  refine ⟨⟨_, fun path => if path = [1, 0, 0, 0] then 1 else 0, hprogram, by decide +kernel,
      ofSource_wellFormed_and_text.2.2.1 _ hprogram _,
      (ofSource_wellFormed_and_text.1 _).2 hprogram⟩,
    _, _, he, by decide +kernel, hread, hts,
    ofSource_wellFormed_and_text.2.2.2.2 _ _ _ hts hread⟩

end Grammar

end SmallPascal

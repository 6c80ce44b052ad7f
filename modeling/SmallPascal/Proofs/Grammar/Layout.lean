import SmallPascal.Proofs.Grammar.Source
import SmallPascal.Proofs.Token.Layout

/-!
# Layout has no meaning

Whether a text is a program, and which, depends on the kinds of its tokens only
(`program_ofSource_congr`). So the gaps of a text, and the zeros in front of its numerals, can be
chosen at will (`layout_meaningless`).
-/

namespace SmallPascal.Grammar

section

variable {c c' : Cursor} {ts ts' : List Token}

/-- If a text can be cut into tokens, it is a program if their kinds are a sentence of programs, and
the program is the tree of the sentence. -/
theorem program_ofSource_eq_ok_iff {p : Program} (h : c.stream.complete = .ok ts) :
    Program.ofSource c = .ok p ↔
      ∃ d : Derivation .program, kinds ts = d.sentence ∧ d.tree = p := by
  rw [Program.ofSource, Cursor.parseProgram, parse_eq_ok_iff, whole_eq_ok_iff program_describes rfl,
    h]
  simp

/-- The same for expressions. -/
theorem expression_ofSource_eq_ok_iff {e : Node} (h : c.stream.complete = .ok ts) :
    Node.ofSource c = .ok e ↔ ∃ d : Derivation (.expression BinaryOp.tierCount),
      kinds ts = d.sentence ∧ d.tree = e := by
  rw [Node.ofSource, Cursor.parseExpression, parse_eq_ok_iff,
    whole_eq_ok_iff wholeExpression_describes (expression_follow_endOfInput _), h]
  simp

/-- Tokens of the same words are of the same kinds. -/
theorem kinds_eq_of_words_eq (h : ts'.map Token.word = ts.map Token.word) :
    kinds ts' = kinds ts := by
  have := congrArg (List.map Prod.fst) h
  rwa [List.map_map, List.map_map] at this

/-- Texts with tokens of the same kinds are the same program, if any. -/
theorem program_ofSource_congr (h : c.stream.complete = .ok ts) (h' : c'.stream.complete = .ok ts')
    (hkinds : kinds ts' = kinds ts) (p : Program) :
    Program.ofSource c' = .ok p ↔ Program.ofSource c = .ok p := by
  rw [program_ofSource_eq_ok_iff h, program_ofSource_eq_ok_iff h', hkinds]

/-- Texts with tokens of the same kinds are the same expression, if any. -/
theorem expression_ofSource_congr (h : c.stream.complete = .ok ts)
    (h' : c'.stream.complete = .ok ts') (hkinds : kinds ts' = kinds ts) (e : Node) :
    Node.ofSource c' = .ok e ↔ Node.ofSource c = .ok e := by
  rw [expression_ofSource_eq_ok_iff h, expression_ofSource_eq_ok_iff h', hkinds]

end

/-- Characters can be cut into tokens if the tokens tile them. -/
theorem complete_ofList_eq_ok_iff {text : List Char} {ts : List Token} :
    (Cursor.ofText (String.ofList text)).stream.complete = .ok ts ↔ Tiles [] text ts := by
  rw [Cursor.complete_ofText_eq_ok_iff, String.toList_ofList]

/-- Tokens are read back from every layout of them, and a gap that is put in at a token boundary
changes neither the tokens of a text, but for their positions, nor the tree. -/
theorem layout_meaningless :
    (∀ (pieces : List Piece) (last : List Char), WellLaid pieces last →
      ∃ ts, (Cursor.ofText (String.ofList (layout pieces last))).stream.complete = .ok ts ∧
        ts.map Token.word =
          pieces.map (fun p => (p.kind, String.ofList p.lexeme)) ++ [(.endOfInput, "")]) ∧
    ∀ (before gap after : List Char) (ts : List Token),
      (Cursor.ofText (String.ofList (before ++ after))).stream.complete = .ok ts →
      IsTokenBoundary before after → IsGap gap →
        (∃ ts', (Cursor.ofText (String.ofList (before ++ (gap ++ after)))).stream.complete =
            .ok ts' ∧ ts'.map Token.word = ts.map Token.word) ∧
          (∀ p, Program.ofSource (.ofText (String.ofList (before ++ (gap ++ after)))) = .ok p ↔
            Program.ofSource (.ofText (String.ofList (before ++ after))) = .ok p) ∧
          ∀ e, Node.ofSource (.ofText (String.ofList (before ++ (gap ++ after)))) = .ok e ↔
            Node.ofSource (.ofText (String.ofList (before ++ after))) = .ok e := by
  constructor
  · intro pieces last h
    obtain ⟨ts, hts, hwords⟩ := h.exists_tiles []
    exact ⟨ts, complete_ofList_eq_ok_iff.2 hts, hwords⟩
  · intro before gap after ts hts hboundary hgap
    obtain ⟨ts', hts', hwords⟩ := (complete_ofList_eq_ok_iff.1 hts).exists_insert hboundary hgap
    have hcomplete := complete_ofList_eq_ok_iff.2 hts'
    have hkinds := kinds_eq_of_words_eq hwords
    exact ⟨⟨ts', hcomplete, hwords⟩, program_ofSource_congr hts hcomplete hkinds,
      expression_ofSource_congr hts hcomplete hkinds⟩

/-- A comment that separates a name from a sign, a numeral with zeros in front, and a comment put in
where two tokens touch. -/
theorem layout_meaningless_touching :
    (WellLaid [⟨[], .identifier "x", 0⟩, ⟨['{', ':', '}'], .symbol .assign, 0⟩,
        ⟨[' '], .integer 7, 2⟩] ['\n'] ∧
      ∃ ts, (Cursor.ofText "x\x7b:\x7d:= 007\n").stream.complete = .ok ts ∧
        ts.map Token.word = [(.identifier "x", "x"), (.symbol .assign, ":="),
          (.integer 7, "007"), (.endOfInput, "")]) ∧
    IsTokenBoundary ['f', '('] ['1', ')'] ∧ IsGap ['{', 'x', '}'] ∧
      ∃ ts, (Cursor.ofText "f(\x7bx\x7d1)").stream.complete = .ok ts ∧
        ts.map Token.word = [(.identifier "f", "f"), (.symbol .leftParen, "("), (.integer 1, "1"),
          (.symbol .rightParen, ")"), (.endOfInput, "")] := by
  have hlaid : WellLaid [⟨[], .identifier "x", 0⟩, ⟨['{', ':', '}'], .symbol .assign, 0⟩,
      ⟨[' '], .integer 7, 2⟩] ['\n'] := by
    refine ⟨?_, ?_, .blank (by decide) .nil, by decide⟩
    · simp only [List.forall_mem_cons, List.not_mem_nil, false_implies, implies_true, and_true]
      have hx : IsName "x" := by decide
      have h7 : (0 : Int) ≤ (7 : Int64).toInt := by decide
      exact ⟨hx, trivial, h7⟩
    · simp only [List.forall_mem_cons, List.not_mem_nil, false_implies, implies_true, and_true]
      have hcomment : IsGap ('{' :: ([':'] ++ '}' :: [])) := .comment (by decide) .nil
      exact ⟨.nil, hcomment, .blank (by decide) .nil⟩
  have hboundary : IsTokenBoundary ([] ++ ['f'] ++ ['(']) ['1', ')'] :=
    .lexeme (.lexeme (.start _) (isLongestLexeme_iff.2 (by decide)))
      (isLongestLexeme_iff.2 (by decide))
  have hgap : IsGap ('{' :: (['x'] ++ '}' :: [])) := .comment (by decide) .nil
  have hread : (Cursor.ofText (String.ofList (['f', '('] ++ ['1', ')']))).stream.complete =
      .ok [⟨.identifier "f", "f", ⟨1, 1⟩⟩, ⟨.symbol .leftParen, "(", ⟨1, 2⟩⟩,
        ⟨.integer 1, "1", ⟨1, 3⟩⟩, ⟨.symbol .rightParen, ")", ⟨1, 4⟩⟩,
        ⟨.endOfInput, "", ⟨1, 5⟩⟩] := by decide +kernel
  obtain ⟨ts, hts, hwords⟩ := layout_meaningless.1 _ _ hlaid
  obtain ⟨us, hus, hwords'⟩ :=
    (layout_meaningless.2 ['f', '('] ['{', 'x', '}'] ['1', ')'] _ hread hboundary hgap).1
  refine ⟨⟨hlaid, ts, ?_, hwords.trans (by decide +kernel)⟩, hboundary, hgap, us, ?_,
    hwords'.trans (by decide +kernel)⟩
  · rw [← hts]
    congr
  · exact hus

end SmallPascal.Grammar

import SmallPascal.Proofs.Evaluation.Arithmetic
import SmallPascal.Proofs.Grammar.Diagnosis
import SmallPascal.Proofs.Grammar.RoundTrip

/-!
# Integers as expressions

`integer_text_denotes`: what is shown for an integer is an expression that comes to it, unless the
integer is the least one. A number that is not negative is shown as a numeral, and a negative one
as a numeral behind a minus sign, which is read as an operator. So an integer can be written as long
as its absolute value can; that of the least integer is the one that is too large for a numeral.

No gap stands between the sign and the numeral. The sign ends there all the same, because no lexeme
has a digit behind a sign (`Symbol.isLongestLexeme`).
-/

namespace SmallPascal

/-! ## A sign in front of a numeral -/

/-- A sign ends in front of a letter or a digit. -/
theorem Symbol.isLongestLexeme (s : Symbol) {rest : List Char}
    (hrest : ∀ c ∈ rest.head?, c.isAlphanum) :
    IsLongestLexeme s.spelling.toList (s.spelling.toList ++ rest) := by
  have hsign (t : Symbol) {c : Char} (hc : c ∈ t.spelling.toList) : ¬c.isAlphanum := by
    simp [Char.isAlphanum, Symbol.not_isAlphanum_of_mem hc]
  refine (IsLexeme.sign s).isLongestLexeme fun c hc hlexeme => ?_
  obtain ⟨first, hfirst⟩ := List.exists_mem_of_length_pos s.length_spelling_pos
  have hmem : first ∈ s.spelling.toList ++ [c] := List.mem_append_left _ hfirst
  have hlast : c ∈ s.spelling.toList ++ [c] := by simp
  generalize s.spelling.toList ++ [c] = text at hlexeme hmem hlast
  cases hlexeme with
  | numeral h => exact hsign s hfirst (by simp [Char.isAlphanum, h.digits first hmem])
  | word h => exact hsign s hfirst (h.isAlphanum first hmem)
  | sign s' => exact hsign s' hlast (hrest c hc)

/-- What denotes an integer is a numeral. -/
theorem Denotes.isNumeral {digits : List Char} {n : Int64} (h : Denotes digits (.integer n)) :
    IsNumeral digits := by
  cases h with
  | integer h _ => exact h

/-- A sign and a numeral are two tokens, though no gap stands between them. -/
theorem Denotes.exists_tiles_sign {digits : List Char} {n : Int64}
    (h : Denotes digits (.integer n)) (s : Symbol) :
    ∃ ts, Tiles [] (s.spelling.toList ++ digits) ts ∧
      Grammar.kinds ts = [.symbol s, .integer n, .endOfInput] := by
  have hfirst : ∀ c ∈ digits.head?, c.isAlphanum := fun c hc => by
    simp [Char.isAlphanum, h.isNumeral.digits c (List.mem_of_mem_head? hc)]
  have hend : IsLongestLexeme digits (digits ++ []) :=
    h.isLexeme.isLongestLexeme_of_gap (by simp)
  have hnumeral : Tiles ([] ++ s.spelling.toList) (digits ++ []) _ :=
    .token_front hend h (.mark .nil)
  rw [List.append_nil] at hnumeral
  exact ⟨_, .token_front (s.isLongestLexeme hfirst) (.symbol s) hnumeral, rfl⟩

namespace Grammar

/-- A numeral is read as a number. -/
theorem ofSource_numeral {n : Int64} (hn : 0 ≤ n.toInt) :
    Node.ofSource (.ofText (Token.Kind.integer n).text) = .ok (.number n) :=
  expression_ofSource_text (.number hn) .none

/-- A numeral behind an operator is read as an operation. -/
theorem ofSource_sign (op : UnaryOp) {n : Int64} (hn : 0 ≤ n.toInt) :
    Node.ofSource (.ofText (op.symbol.spelling ++ (Token.Kind.integer n).text)) =
      .ok (.unary op (.number n)) := by
  have hdenotes : Denotes (Token.Kind.integer n).text.toList (.integer n) :=
    lexeme_of_no_zeros [] (.integer n) ▸ Piece.denotes hn
  obtain ⟨ts, hts, hkinds⟩ := hdenotes.exists_tiles_sign op.symbol
  rw [← String.toList_append] at hts
  have hoperand : Spells (.expression 0) (.number n) [.integer n] :=
    ⟨.number n, rfl, rfl, by simpa using hn⟩
  obtain ⟨d, htree, hyield, -⟩ := (hoperand.unary op).raise (Nat.zero_le BinaryOp.tierCount)
  refine (expression_ofSource_eq_ok_iff (Cursor.complete_ofText_eq_ok_iff.2 hts)).2 ⟨d, ?_, htree⟩
  rw [hkinds, Derivation.sentence, hyield]
  rfl

end Grammar

/-! ## Negative numbers -/

/-- Only the least integer has a negative that is too large. -/
theorem toInt_neg_of_ne_minValue {n : Int64} (hn : n ≠ Int64.minValue) :
    (-n).toInt = -n.toInt := by
  have hmin : n.toInt ≠ -2 ^ 63 := fun h =>
    hn (Int64.toInt_inj.1 (h.trans Int64.toInt_minValue.symm))
  have hle := n.le_toInt
  have hlt := n.toInt_lt
  rw [Int64.toInt_neg]
  exact Int.bmod_eq_of_le (by omega) (by omega)

/-- A negative number is shown behind a minus sign. -/
theorem Value.text_of_neg {n : Int64} (hn : n.toInt < 0) (hne : n ≠ Int64.minValue) :
    (Value.integer n).text = UnaryOp.minus.symbol.spelling ++ (Token.Kind.integer (-n)).text := by
  show n.toInt.repr = "-" ++ (-n).toInt.repr
  rw [toInt_neg_of_ne_minValue hne, Int.repr_eq_if, if_neg (Int.not_le.2 hn), Int.repr_eq_if,
    if_pos (by omega)]

/-- What is shown for an integer other than the least one is an expression, and the expression comes
to the integer with nothing recorded, whatever the settings are. What is shown for the least integer
is none: the numeral behind the sign is too large. -/
theorem integer_text_denotes (n : Int64) :
    (n ≠ Int64.minValue → ∃ e, Node.ofSource (.ofText (Value.integer n).text) = .ok e ∧
        ∀ settings, e.eval settings = ⟨[], .ok (.integer n)⟩) ∧
      Node.ofSource (.ofText (Value.integer Int64.minValue).text) =
        .error (.lexical (.invalidInteger "9223372036854775808" ⟨1, 2⟩)) := by
  refine ⟨fun hn => ?_, by decide +kernel⟩
  by_cases hneg : n.toInt < 0
  · have hpos : 0 ≤ (-n).toInt := by
      rw [toInt_neg_of_ne_minValue hn]
      omega
    have hcomes : (Node.unary .minus (.number (-n))).Comes (some (.integer (- -n))) :=
      (Scalar.comes (.integer (-n))).minus
    rw [Int64.neg_neg] at hcomes
    rw [Value.text_of_neg hneg hn]
    exact ⟨_, Grammar.ofSource_sign .minus hpos, hcomes.eval⟩
  · exact ⟨_, Grammar.ofSource_numeral (Int.not_lt.1 hneg), (Scalar.comes (.integer n)).eval⟩

/-- The integer above the least one. -/
theorem integer_text_denotes_succ_minValue :
    (Value.integer (Int64.minValue + 1)).text = "-9223372036854775807" ∧
      Int64.minValue + 1 ≠ Int64.minValue ∧
      ∃ e, Node.ofSource (.ofText "-9223372036854775807") = .ok e ∧
        ∀ settings, e.eval settings = ⟨[], .ok (.integer (Int64.minValue + 1))⟩ := by
  have htext : (Value.integer (Int64.minValue + 1)).text = "-9223372036854775807" := by
    decide +kernel
  have hne : Int64.minValue + 1 ≠ Int64.minValue := by decide
  have hdenotes := (integer_text_denotes (Int64.minValue + 1)).1 hne
  rw [htext] at hdenotes
  exact ⟨htext, hne, hdenotes⟩

end SmallPascal

import SmallPascal.Interpreter
import SmallPascal.Proofs.Evaluation.Frame
import SmallPascal.Proofs.Grammar.Flat

/-!
# Expressions mean what precedence says

`eval_flat`: a flat expression, read from any layout of it and evaluated, comes to what folding it
tier by tier gives, where each operator is applied to integers and its result wrapped to a word
(`BinaryOp.reference`). It fails exactly if something is divided by zero, and what is divided by is
always a literal.

The tree that is read and the value are the same fold of the same operands, combined to trees and to
values, so all that has to be compared is one operation (`Comes.binary`).
-/

namespace SmallPascal

/-! ## What operators mean -/

namespace Scalar

/-- A scalar as a value. -/
def value : Scalar → Value
  | integer n => .integer n
  | boolean b => .boolean b

/-- A scalar as an integer: a boolean is read as 1 or 0. -/
def toInt : Scalar → Int
  | integer n => n.toInt
  | boolean b => if b then 1 else 0

end Scalar

/-- What an operator makes of scalars, if it does not divide by zero. Arithmetic is that of
integers, wrapped to 64 bits; quotients are rounded towards zero. -/
def BinaryOp.reference (op : BinaryOp) (l r : Scalar) : Option Scalar :=
  match op with
  | mul => some (.integer (.ofInt (l.toInt * r.toInt)))
  | div => if r.toInt = 0 then none else some (.integer (.ofInt (l.toInt.tdiv r.toInt)))
  | add => some (.integer (.ofInt (l.toInt + r.toInt)))
  | sub => some (.integer (.ofInt (l.toInt - r.toInt)))
  | lt => some (.boolean (l.toInt < r.toInt))
  | ltEq => some (.boolean (l.toInt ≤ r.toInt))
  | gt => some (.boolean (l.toInt > r.toInt))
  | gtEq => some (.boolean (l.toInt ≥ r.toInt))
  | and => some (.boolean (l.toInt ≠ 0 ∧ r.toInt ≠ 0))
  | or => some (.boolean (l.toInt ≠ 0 ∨ r.toInt ≠ 0))
  | eq => some (.boolean (l.toInt = r.toInt))
  | notEq => some (.boolean (l.toInt ≠ r.toInt))

/-- The same where an operand may have no value because of a division by zero in it. -/
def BinaryOp.reference? (op : BinaryOp) (l r : Option Scalar) : Option Scalar := do
  op.reference (← l) (← r)

/-- The value of a flat expression, none if it divides by zero. -/
def Flat.reference (f : Flat) : Option Scalar :=
  f.fold some BinaryOp.reference?

/-- How an evaluation comes out. -/
def outcomeOf : Option Scalar → Except RuntimeError Value
  | some a => .ok a.value
  | none => .error .divisionByZero

/-- A scalar as a word. -/
def Scalar.toWord : Scalar → Int64
  | integer n => n
  | boolean b => if b then 1 else 0

namespace Scalar

/-- A scalar can be taken for an integer. -/
theorem toInteger_value (a : Scalar) : a.value.toInteger = .ok a.toWord := by
  cases a <;> rfl

/-- The word of a scalar shows the integer of the scalar. -/
theorem toInt_toWord (a : Scalar) : a.toWord.toInt = a.toInt := by
  cases a with
  | integer n => rfl
  | boolean b => cases b <;> rfl

/-- A scalar counts as true if its integer is not zero. -/
theorem toBool_value (a : Scalar) : a.value.toBool = decide (a.toInt ≠ 0) := by
  cases a with
  | integer n =>
    have hzero : n = 0 ↔ n.toInt = 0 := by rw [← Int64.toInt_inj, Int64.toInt_zero]
    simp only [value, Value.toBool, toInt, ne_eq, ← hzero]
    exact (decide_not).symm
  | boolean b => cases b <;> rfl

end Scalar

/-- Words are divided as the integers they show, with the quotient wrapped. It has to be wrapped in
one case only, the least word by -1. -/
theorem ofInt_toInt_tdiv (a b : Int64) : Int64.ofInt (a.toInt.tdiv b.toInt) = a / b := by
  rw [Int64.ofInt_eq_iff_bmod_eq_toInt, Int64.toInt_div]

/-- The evaluator does with an operator what it means. -/
theorem BinaryOp.apply_value (op : BinaryOp) (l r : Scalar) :
    op.apply l.value r.value = outcomeOf (op.reference l r) := by
  rw [BinaryOp.apply, l.toInteger_value, r.toInteger_value, l.toBool_value, r.toBool_value]
  unfold BinaryOp.reference
  simp only [← Scalar.toInt_toWord]
  generalize l.toWord = a
  generalize r.toWord = b
  have hzero : b.toInt = 0 ↔ b = 0 := by rw [← Int64.toInt_inj, Int64.toInt_zero]
  cases op with
  | mul =>
    rw [Int64.ofInt_mul, Int64.ofInt_toInt, Int64.ofInt_toInt]
    rfl
  | add =>
    rw [Int64.ofInt_add, Int64.ofInt_toInt, Int64.ofInt_toInt]
    rfl
  | sub =>
    rw [Int64.ofInt_sub, Int64.ofInt_toInt, Int64.ofInt_toInt]
    rfl
  | div =>
    rw [ofInt_toInt_tdiv]
    simp only [hzero]
    show (if b = 0 then _ else _) = _
    split <;> rfl
  | lt | gt =>
    simp only [gt_iff_lt, ← Int64.lt_iff_toInt_lt]
    rfl
  | ltEq | gtEq =>
    simp only [ge_iff_le, ← Int64.le_iff_toInt_le]
    rfl
  | eq | notEq =>
    simp only [ne_eq, Int64.toInt_inj]
    rfl
  | and =>
    rw [Bool.decide_and]
    rfl
  | or =>
    rw [Bool.decide_or]
    rfl

/-! ## What an expression comes to -/

/-- What a node comes to wherever it is run for its value, with nothing recorded and the stack as it
was. -/
def Node.Comes (n : Node) (a : Option Scalar) : Prop :=
  ∀ dumps invocation, Evaluation.needValue n (Evaluation.exec dumps invocation n) =
    Action.ofExcept (outcomeOf a)

/-- A literal comes to its scalar. -/
theorem Scalar.comes (a : Scalar) : a.node.Comes (some a) := by
  intro dumps invocation
  cases a <;> rfl

/-- An operation comes to what its operator makes of what its operands come to. -/
theorem Node.Comes.binary {l r : Node} {a b : Option Scalar} (op : BinaryOp) (hl : l.Comes a)
    (hr : r.Comes b) : (Node.binary op l r).Comes (op.reference? a b) := by
  intro dumps invocation
  rw [Evaluation.needValue_eq, Evaluation.exec, hl, hr]
  cases a with
  | none => rfl
  | some a =>
    cases b with
    | none => rfl
    | some b =>
      change (Action.ofExcept (op.apply a.value b.value) >>= fun result => pure (some result)) >>=
        _ = Action.ofExcept (outcomeOf (op.reference a b))
      rw [op.apply_value]
      cases op.reference a b <;> rfl

/-- What a node comes to is what its evaluation gives, with nothing recorded. -/
theorem Node.Comes.eval {n : Node} {a : Option Scalar} (h : n.Comes a) (settings : Settings) :
    n.eval settings = ⟨[], outcomeOf a⟩ := by
  show (Evaluation.needValue n _ _).1 = _
  rw [h]
  rfl

/-- The tree of a flat expression comes to the value of the expression. -/
theorem Flat.comes (f : Flat) : f.tree.Comes f.reference :=
  f.fold_rel Scalar.comes fun op _ _ _ _ hl hr => hl.binary op hr

/-! ## Division by zero -/

/-- An operand by which is divided, and it is zero. -/
def ZeroDivisor (op : BinaryOp) (a : Scalar) : Prop :=
  op = .div ∧ a.toInt = 0

/-- An operation has a value if its operands have and it does not divide by zero. -/
theorem BinaryOp.isSome_reference? {op : BinaryOp} {l r : Option Scalar} :
    (op.reference? l r).isSome ↔ l.isSome ∧ ∃ b, r = some b ∧ ¬ ZeroDivisor op b := by
  cases l with
  | none => simp [BinaryOp.reference?]
  | some a =>
    cases r with
    | none => simp [BinaryOp.reference?]
    | some b => cases op <;> simp [BinaryOp.reference?, BinaryOp.reference, ZeroDivisor]

/-- All operands have values. -/
def AllSome (e : Option Scalar × List (BinaryOp × Option Scalar)) : Prop :=
  e.1.isSome ∧ ∀ x ∈ e.2, x.2.isSome

/-- When a tier has been folded, all operands have values if they had before and none by which has
been divided was zero. That operand is a right one, so it is one of those there were before. -/
theorem allSome_foldTier {tier : List BinaryOp} {a : Option Scalar}
    {rest : List (BinaryOp × Option Scalar)} :
    AllSome (foldTier BinaryOp.reference? tier a rest) ↔
      a.isSome ∧ ∀ x ∈ rest, ∃ b, x.2 = some b ∧ ¬ (x.1 ∈ tier ∧ ZeroDivisor x.1 b) := by
  fun_induction foldTier BinaryOp.reference? tier a rest with
  | case1 => simp [AllSome]
  | case2 a op b rest hop ih =>
    rw [ih, BinaryOp.isSome_reference?, List.forall_mem_cons, and_assoc]
    simp only [hop, true_and]
  | case3 a op b rest hop folded ih =>
    rw [List.forall_mem_cons]
    simp only [hop, false_and, not_false_eq_true, and_true, ← Option.isSome_iff_exists]
    rw [← ih, AllSome, List.forall_mem_cons, AllSome]

/-- Only a division can be without a value. -/
theorem allSome_foldTiers {tiers : List (List BinaryOp)} (h : ∀ tier ∈ tiers, .div ∉ tier)
    {e : Option Scalar × List (BinaryOp × Option Scalar)} :
    AllSome (foldTiers BinaryOp.reference? tiers e) ↔ AllSome e := by
  induction tiers generalizing e with
  | nil => rfl
  | cons tier more ih =>
    obtain ⟨htier, hmore⟩ := List.forall_mem_cons.1 h
    have hnone : ∀ op b, ¬ (op ∈ tier ∧ ZeroDivisor op b) := fun op b hop =>
      htier (hop.2.1 ▸ hop.1)
    rw [foldTiers, ih hmore, allSome_foldTier]
    simp only [hnone, not_false_eq_true, and_true, ← Option.isSome_iff_exists]
    rfl

/-- A flat expression has no value exactly if a division in it is by a literal that is zero. -/
theorem Flat.reference_eq_none_iff {f : Flat} :
    f.reference = none ↔ ∃ x ∈ f.rest, ZeroDivisor x.1 x.2 := by
  have hothers : ∀ tier ∈ precedence.tail, .div ∉ tier := by decide
  have hdiv : ∀ op b, op ∈ [BinaryOp.mul, .div] ∧ ZeroDivisor op b ↔ ZeroDivisor op b :=
    fun op b => and_iff_right_of_imp fun h => by rw [h.1]; decide
  let folded := foldTier BinaryOp.reference? [.mul, .div] (f.operands some).1 (f.operands some).2
  have hsome : f.reference.isSome ↔ ∀ x ∈ f.rest, ¬ ZeroDivisor x.1 x.2 := by
    calc (f.reference.isSome : Prop)
      _ ↔ AllSome (foldTiers BinaryOp.reference? precedence (f.operands some)) := by
          rw [AllSome, rest_foldTiers_precedence]
          exact (and_iff_left nofun).symm
      _ ↔ AllSome folded := allSome_foldTiers hothers
      _ ↔ ∀ x ∈ f.rest, ¬ ZeroDivisor x.1 x.2 := by
          simp only [folded, allSome_foldTier, Flat.operands, Option.isSome_some, true_and,
            List.forall_mem_map, Option.some.injEq, exists_eq_left', hdiv]
  rw [← Option.not_isSome_iff_eq_none, hsome]
  simp only [not_forall, not_not, exists_prop]

/-- A flat expression, read from any layout of it and evaluated, comes to what it is folded to tier
by tier. It fails exactly if it divides by zero, and what is divided by is a literal. And there is a
text of every flat expression. -/
theorem eval_flat (f : Flat) :
    (∀ (c : Cursor) (ts : List Token) (settings : Settings), c.stream.complete = .ok ts →
      Grammar.kinds ts = f.kinds ++ [.endOfInput] →
        ∃ e, Node.ofSource c = .ok e ∧ (e.eval settings).events = [] ∧
          (e.eval settings).result = match f.reference with
            | some a => .ok a.value
            | none => .error .divisionByZero) ∧
      (f.reference = none ↔ ∃ x ∈ f.rest, x.1 = .div ∧ x.2.toInt = 0) ∧
      ∃ ts, (Cursor.ofText (spell f.kinds)).stream.complete = .ok ts ∧
        Grammar.kinds ts = f.kinds ++ [.endOfInput] := by
  refine ⟨fun c ts settings hts hkinds => ?_, f.reference_eq_none_iff, ?_⟩
  · refine ⟨f.tree, Grammar.flat_ofSource_eq hts hkinds, ?_⟩
    rw [f.comes.eval settings]
    exact ⟨rfl, rfl⟩
  · obtain ⟨d, -, -, hw⟩ := Grammar.flat_spells f
    exact Grammar.exists_complete_spell hw

/-- Operators of five tiers, written without spaces; and a division by a boolean. -/
theorem eval_flat_tiers :
    (∃ (f : Flat) (ts : List Token),
      (Cursor.ofText "9-2*3-1==2&&TRUE+0").stream.complete = .ok ts ∧
        Grammar.kinds ts = f.kinds ++ [.endOfInput] ∧
          ∃ e, Node.ofSource (.ofText "9-2*3-1==2&&TRUE+0") = .ok e ∧
            (e.eval {}).result = .ok (.boolean false)) ∧
    ∃ (f : Flat) (ts : List Token), (Cursor.ofText "7 / FALSE").stream.complete = .ok ts ∧
      Grammar.kinds ts = f.kinds ++ [.endOfInput] ∧ (∃ x ∈ f.rest, x.1 = .div ∧ x.2.toInt = 0) ∧
        ∃ e, Node.ofSource (.ofText "7 / FALSE") = .ok e ∧
          (e.eval {}).result = .error .divisionByZero := by
  let f : Flat :=
    { first := .integer 9
      rest := [(.sub, .integer 2), (.mul, .integer 3), (.sub, .integer 1), (.eq, .integer 2),
        (.and, .boolean true), (.add, .integer 0)]
      nonneg := by simp }
  let g : Flat :=
    { first := .integer 7
      rest := [(.div, .boolean false)]
      nonneg := by simp }
  have hts : (Cursor.ofText "9-2*3-1==2&&TRUE+0").stream.complete =
      .ok [⟨.integer 9, "9", ⟨1, 1⟩⟩, ⟨.symbol .minus, "-", ⟨1, 2⟩⟩, ⟨.integer 2, "2", ⟨1, 3⟩⟩,
        ⟨.symbol .times, "*", ⟨1, 4⟩⟩, ⟨.integer 3, "3", ⟨1, 5⟩⟩, ⟨.symbol .minus, "-", ⟨1, 6⟩⟩,
        ⟨.integer 1, "1", ⟨1, 7⟩⟩, ⟨.symbol .equal, "==", ⟨1, 8⟩⟩, ⟨.integer 2, "2", ⟨1, 10⟩⟩,
        ⟨.symbol .and, "&&", ⟨1, 11⟩⟩, ⟨.keyword .trueLiteral, "TRUE", ⟨1, 13⟩⟩,
        ⟨.symbol .plus, "+", ⟨1, 17⟩⟩, ⟨.integer 0, "0", ⟨1, 18⟩⟩, ⟨.endOfInput, "", ⟨1, 19⟩⟩] := by
    decide +kernel
  have hus : (Cursor.ofText "7 / FALSE").stream.complete =
      .ok [⟨.integer 7, "7", ⟨1, 1⟩⟩, ⟨.symbol .divide, "/", ⟨1, 3⟩⟩,
        ⟨.keyword .falseLiteral, "FALSE", ⟨1, 5⟩⟩, ⟨.endOfInput, "", ⟨1, 10⟩⟩] := by
    decide +kernel
  have hzero : ∃ x ∈ g.rest, x.1 = .div ∧ x.2.toInt = 0 := ⟨_, .head _, rfl, rfl⟩
  have hvalue : f.reference = some (.boolean false) := by decide
  obtain ⟨e, he, -, hresult⟩ := (eval_flat f).1 _ _ {} hts rfl
  obtain ⟨e', he', -, hresult'⟩ := (eval_flat g).1 _ _ {} hus rfl
  rw [hvalue] at hresult
  rw [(eval_flat g).2.1.2 hzero] at hresult'
  exact ⟨⟨f, _, hts, rfl, e, he, hresult⟩, g, _, hus, rfl, hzero, e', he', hresult'⟩

end SmallPascal

import SmallPascal.Proofs.Evaluation.Precedence

/-!
# Arithmetic

Every operation wraps its result to a word. `eval_arithmetic`: in the end this is as if the whole
expression had been computed with integers of any size and wrapped once, because wrapping goes with
signs, sums, differences and products. It does not go with division: a quotient is that of the
wrapped operands, rounded towards zero. An expression fails exactly if one of its divisors comes to
zero, wherever it stands, since all operands are computed.
-/

namespace SmallPascal

/-- An integer as a word shows it: the one that differs from it by a multiple of `2 ^ 64` and is
from `-2 ^ 63` up to but not including `2 ^ 63`. -/
def wrapped (z : Int) : Int :=
  z.bmod Int64.size

/-! ## Wrapping goes with signs, sums, differences and products -/

/-- An integer may be wrapped before it is negated. -/
theorem wrapped_neg (x : Int) : wrapped (-wrapped x) = wrapped (-x) :=
  Int.bmod_neg_bmod

/-- Integers may be wrapped before they are added. -/
theorem wrapped_add (x y : Int) : wrapped (wrapped x + wrapped y) = wrapped (x + y) :=
  (Int.add_bmod x y _).symm

/-- Integers may be wrapped before one is taken from the other. -/
theorem wrapped_sub (x y : Int) : wrapped (wrapped x - wrapped y) = wrapped (x - y) :=
  (Int.sub_bmod x y _).symm

/-- Integers may be wrapped before they are multiplied. -/
theorem wrapped_mul (x y : Int) : wrapped (wrapped x * wrapped y) = wrapped (x * y) :=
  (Int.mul_bmod x y _).symm

namespace Scalar

/-- A word shows an integer wrapped. -/
theorem toInt_ofInt (z : Int) : (integer (.ofInt z)).toInt = wrapped z :=
  Int64.toInt_ofInt

/-- Negating a word negates what it shows, wrapped. -/
theorem toInt_neg (a : Scalar) : (integer (-a.toWord)).toInt = wrapped (-a.toInt) := by
  rw [← a.toInt_toWord]
  exact Int64.toInt_neg _

/-- A scalar is in the range of words. -/
theorem wrapped_toInt (a : Scalar) : wrapped a.toInt = a.toInt := by
  rw [← a.toInt_toWord]
  exact Int64.toInt_bmod _

end Scalar

/-! ## Arithmetic expressions -/

/-- Expressions that are made of literals with signs and the four arithmetic operations. -/
inductive Arithmetic where
  | scalar (a : Scalar)
  | plus (e : Arithmetic)
  | minus (e : Arithmetic)
  | add (l r : Arithmetic)
  | sub (l r : Arithmetic)
  | mul (l r : Arithmetic)
  | div (l r : Arithmetic)

namespace Arithmetic

/-- An expression as a tree. -/
def node : Arithmetic → Node
  | scalar a => a.node
  | plus e => .unary .plus e.node
  | minus e => .unary .minus e.node
  | add l r => .binary .add l.node r.node
  | sub l r => .binary .sub l.node r.node
  | mul l r => .binary .mul l.node r.node
  | div l r => .binary .div l.node r.node

/-- What an expression comes to with integers of any size. Only the operands of a division are
wrapped. -/
def exact : Arithmetic → Int
  | scalar a => a.toInt
  | plus e => e.exact
  | minus e => -e.exact
  | add l r => l.exact + r.exact
  | sub l r => l.exact - r.exact
  | mul l r => l.exact * r.exact
  | div l r => (wrapped l.exact).tdiv (wrapped r.exact)

/-- The right operands of the divisions in an expression. -/
def divisors : Arithmetic → List Arithmetic
  | scalar _ => []
  | plus e | minus e => e.divisors
  | add l r | sub l r | mul l r => l.divisors ++ r.divisors
  | div l r => l.divisors ++ r.divisors ++ [r]

/-- What an expression comes to operation by operation, nothing if it divides by zero. -/
def value : Arithmetic → Option Scalar
  | scalar a => some a
  | plus e => e.value
  | minus e => e.value.map fun a => .integer (-a.toWord)
  | add l r => BinaryOp.add.reference? l.value r.value
  | sub l r => BinaryOp.sub.reference? l.value r.value
  | mul l r => BinaryOp.mul.reference? l.value r.value
  | div l r => BinaryOp.div.reference? l.value r.value

end Arithmetic

/-! ## The evaluator computes the value -/

/-- A plus sign leaves a scalar as it is. -/
theorem Node.Comes.plus {n : Node} {a : Option Scalar} (h : n.Comes a) :
    (Node.unary .plus n).Comes a := by
  intro dumps invocation
  rw [Evaluation.needValue_eq, Evaluation.exec, h]
  cases a with
  | none => rfl
  | some a => cases a <;> rfl

/-- A minus sign negates the word that a scalar is. -/
theorem Node.Comes.minus {n : Node} {a : Option Scalar} (h : n.Comes a) :
    (Node.unary .minus n).Comes (a.map fun a => .integer (-a.toWord)) := by
  intro dumps invocation
  rw [Evaluation.needValue_eq, Evaluation.exec, h]
  cases a with
  | none => rfl
  | some a => cases a <;> rfl

namespace Arithmetic

/-- An expression comes to its value operation by operation. -/
theorem comes (e : Arithmetic) : e.node.Comes e.value := by
  induction e with
  | scalar a => exact a.comes
  | plus _ ih => exact ih.plus
  | minus _ ih => exact ih.minus
  | add _ _ ihl ihr | sub _ _ ihl ihr | mul _ _ ihl ihr | div _ _ ihl ihr => exact ihl.binary _ ihr

end Arithmetic

/-! ## The value is the exact one, wrapped -/

/-- An operation has a value only if its operands have. -/
theorem BinaryOp.reference?_eq_some {op : BinaryOp} {l r : Option Scalar} {a : Scalar}
    (h : op.reference? l r = some a) :
    ∃ b c, l = some b ∧ r = some c ∧ op.reference b c = some a := by
  obtain ⟨b, hb, h⟩ := Option.bind_eq_some_iff.1 h
  obtain ⟨c, hc, h⟩ := Option.bind_eq_some_iff.1 h
  exact ⟨b, c, hb, hc, h⟩

/-- An operation has no value if one of its operands has none or it divides by zero. -/
theorem BinaryOp.reference?_eq_none_iff {op : BinaryOp} {l r : Option Scalar} :
    op.reference? l r = none ↔ l = none ∨ r = none ∨ ∃ b, r = some b ∧ ZeroDivisor op b := by
  rw [← Option.not_isSome_iff_eq_none, BinaryOp.isSome_reference?]
  cases l <;> cases r <;> simp

namespace Arithmetic

/-- What an expression comes to shows its exact value, wrapped once. -/
theorem toInt_value {e : Arithmetic} {a : Scalar} (h : e.value = some a) :
    a.toInt = wrapped e.exact := by
  induction e generalizing a with
  | scalar b =>
    obtain rfl := Option.some.inj h
    exact b.wrapped_toInt.symm
  | plus _ ih => exact ih h
  | minus _ ih =>
    obtain ⟨b, hb, rfl⟩ := Option.map_eq_some_iff.1 h
    rw [Scalar.toInt_neg, ih hb, wrapped_neg, exact]
  | add _ _ ihl ihr =>
    obtain ⟨b, c, hb, hc, ⟨⟩⟩ := BinaryOp.reference?_eq_some h
    rw [Scalar.toInt_ofInt, ihl hb, ihr hc, wrapped_add, exact]
  | sub _ _ ihl ihr =>
    obtain ⟨b, c, hb, hc, ⟨⟩⟩ := BinaryOp.reference?_eq_some h
    rw [Scalar.toInt_ofInt, ihl hb, ihr hc, wrapped_sub, exact]
  | mul _ _ ihl ihr =>
    obtain ⟨b, c, hb, hc, ⟨⟩⟩ := BinaryOp.reference?_eq_some h
    rw [Scalar.toInt_ofInt, ihl hb, ihr hc, wrapped_mul, exact]
  | div _ _ ihl ihr =>
    obtain ⟨b, c, hb, hc, h⟩ := BinaryOp.reference?_eq_some h
    rw [BinaryOp.reference] at h
    split at h
    · cases h
    · obtain rfl := Option.some.inj h
      rw [Scalar.toInt_ofInt, ihl hb, ihr hc, exact]

/-- There is no value exactly if a divisor, at any depth, has the value zero. -/
theorem value_eq_none_iff {e : Arithmetic} :
    e.value = none ↔ ∃ d ∈ e.divisors, ∃ a, d.value = some a ∧ a.toInt = 0 := by
  induction e with
  | scalar a => simp [value, divisors]
  | plus _ ih => exact ih
  | minus _ ih =>
    rw [value, Option.map_eq_none_iff]
    exact ih
  | add _ _ ihl ihr | sub _ _ ihl ihr | mul _ _ ihl ihr | div _ _ ihl ihr =>
    rw [value, BinaryOp.reference?_eq_none_iff, ihl, ihr, divisors]
    simp [ZeroDivisor, or_and_right, exists_or]

/-- The expression is evaluated to a value, which as an integer is `z`. -/
def Gives (e : Arithmetic) (settings : Settings) (z : Int) : Prop :=
  ∃ v n, (e.node.eval settings).result = .ok v ∧ v.toInteger = .ok n ∧ n.toInt = z

section

variable {e : Arithmetic} {settings : Settings}

/-- Evaluation gives what an expression comes to, under any settings. -/
theorem result_eq (e : Arithmetic) (settings : Settings) :
    (e.node.eval settings).result = outcomeOf e.value := by
  rw [e.comes.eval settings]

/-- An expression gives an integer if it comes to a scalar that shows it. -/
theorem gives_iff {z : Int} : e.Gives settings z ↔ ∃ a, e.value = some a ∧ a.toInt = z := by
  rw [Gives, result_eq]
  constructor
  · rintro ⟨v, n, hv, hn, rfl⟩
    cases ha : e.value with
    | none =>
      rw [ha] at hv
      cases hv
    | some a =>
      rw [ha] at hv
      obtain rfl := Except.ok.inj hv
      obtain rfl := Except.ok.inj (a.toInteger_value.symm.trans hn)
      exact ⟨a, rfl, a.toInt_toWord.symm⟩
  · rintro ⟨a, ha, rfl⟩
    exact ⟨a.value, a.toWord, congrArg outcomeOf ha, a.toInteger_value, a.toInt_toWord⟩

/-- An expression that has a value gives its exact value, wrapped. -/
theorem gives_exact (h : e.value ≠ none) : e.Gives settings (wrapped e.exact) := by
  obtain ⟨a, ha⟩ := Option.ne_none_iff_exists'.1 h
  exact gives_iff.2 ⟨a, ha, toInt_value ha⟩

/-- A division whose divisor is not zero gives the quotient rounded towards zero, wrapped. -/
theorem Gives.div {l r : Arithmetic} {a b : Int} (hl : l.Gives settings a)
    (hr : r.Gives settings b) (hb : b ≠ 0) : (div l r).Gives settings (wrapped (a.tdiv b)) := by
  obtain ⟨v, hv, rfl⟩ := gives_iff.1 hl
  obtain ⟨w, hw, rfl⟩ := gives_iff.1 hr
  refine gives_iff.2 ⟨.integer (.ofInt (v.toInt.tdiv w.toInt)), ?_, Scalar.toInt_ofInt _⟩
  rw [value, hv, hw]
  exact if_neg hb

/-- An expression has no value if one of its divisors gives zero. -/
theorem value_eq_none_iff_gives :
    e.value = none ↔ ∃ d ∈ e.divisors, d.Gives settings 0 := by
  simp only [value_eq_none_iff, gives_iff]

end

end Arithmetic

open Arithmetic in
/-- An expression without divisions has a value, and this is what it comes to with integers of any
size, wrapped once. With divisions, that is so whenever there is a value, and the value of a
division by anything but zero is the quotient, rounded towards zero and wrapped. There is no value
exactly if some divisor comes to zero, and then division by zero is the error. -/
theorem eval_arithmetic (settings : Settings) (e : Arithmetic) :
    (e.divisors = [] → e.Gives settings (wrapped e.exact)) ∧
    (∀ v, (e.node.eval settings).result = .ok v → e.Gives settings (wrapped e.exact)) ∧
    (∀ l r a b, l.Gives settings a → r.Gives settings b → b ≠ 0 →
      (div l r).Gives settings (wrapped (a.tdiv b))) ∧
    ((∃ x, (e.node.eval settings).result = .error x) ↔ ∃ d ∈ e.divisors, d.Gives settings 0) ∧
    ∀ x, (e.node.eval settings).result = .error x → x = .divisionByZero := by
  rw [result_eq]
  refine ⟨fun h => gives_exact fun hnone => ?_, fun v hv => gives_exact fun hnone => ?_,
    fun l r a b => .div, ?_, fun x hx => ?_⟩
  · obtain ⟨d, hd, -⟩ := value_eq_none_iff.1 hnone
    rw [h] at hd
    cases hd
  · rw [hnone] at hv
    cases hv
  · rw [← value_eq_none_iff_gives]
    cases e.value <;> simp [outcomeOf]
  · cases ha : e.value with
    | none =>
      rw [ha] at hx
      exact (Except.error.inj hx).symm
    | some a =>
      rw [ha] at hx
      cases hx

open Arithmetic in
/-- The least word, of which one is taken away and which is divided by minus one; and a division by
the difference of two truth values. -/
theorem eval_arithmetic_least :
    let least : Arithmetic := .scalar (.integer Int64.minValue)
    let one : Arithmetic := .scalar (.boolean true)
    ((sub least one).divisors = [] ∧ (sub least one).Gives {} Int64.maxValue.toInt) ∧
    (least.Gives {} Int64.minValue.toInt ∧ (minus one).Gives {} (-1) ∧
      (div least (minus one)).Gives {} Int64.minValue.toInt) ∧
    (sub one one).Gives {} 0 ∧
      ((div one (sub one one)).node.eval {}).result = .error .divisionByZero := by
  intro least one
  have hleast : least.Gives {} Int64.minValue.toInt := ⟨_, _, rfl, rfl, by decide⟩
  have hminus : (minus one).Gives {} (-1) := ⟨_, _, rfl, rfl, by decide⟩
  have hzero : (sub one one).Gives {} 0 := ⟨_, _, rfl, rfl, by decide⟩
  have hsub : (sub least one).Gives {} (wrapped (Int64.minValue.toInt - 1)) :=
    (eval_arithmetic {} (sub least one)).1 rfl
  have hdiv : (div least (minus one)).Gives {} (wrapped (Int64.minValue.toInt.tdiv (-1))) :=
    (eval_arithmetic {} one).2.2.1 _ _ _ _ hleast hminus (by decide)
  obtain ⟨-, -, -, hfails, herror⟩ := eval_arithmetic {} (div one (sub one one))
  obtain ⟨x, hx⟩ := hfails.2 ⟨sub one one, .head _, hzero⟩
  exact ⟨⟨rfl, hsub⟩, ⟨hleast, hminus, hdiv⟩, hzero, herror x hx ▸ hx⟩

end SmallPascal

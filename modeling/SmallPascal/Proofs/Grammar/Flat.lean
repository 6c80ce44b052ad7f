import Mathlib.Data.List.Forall2
import SmallPascal.Proofs.Grammar.RoundTrip

/-!
# Flat expressions

Literals with operators between them and no parentheses, in any number and any order. What such an
expression means is said by folding it tier by tier, the tightest tier first and each from the left
(`foldTiers`), whatever the operands are combined to. Combined to trees, this gives the tree that is
read (`flat_ofSource_eq`): the grammar has the same tiers, nested the other way round, and a tier
that has been folded has become an operand of the next one (`tail_foldTier`).
-/

namespace SmallPascal

/-! ## Folding tier by tier -/

/-- The operators in the order in which they bind, the tightest first; those that stand together
bind equally tight. -/
def precedence : List (List BinaryOp) :=
  [[.mul, .div], [.add, .sub], [.lt, .ltEq, .gt, .gtEq], [.and], [.or], [.eq, .notEq]]

section

variable {α β : Type}

/-- Folds the operations of one tier, from the left. What comes of an operation takes the place of
its operands; all other operators stay between their operands. -/
def foldTier (combine : BinaryOp → α → α → α) (tier : List BinaryOp) :
    α → List (BinaryOp × α) → α × List (BinaryOp × α)
  | a, [] => (a, [])
  | a, (op, b) :: rest =>
    if op ∈ tier then foldTier combine tier (combine op a b) rest
    else
      let folded := foldTier combine tier b rest
      (a, (op, folded.1) :: folded.2)

/-- Folds the operations of some tiers, one tier after the other. -/
def foldTiers (combine : BinaryOp → α → α → α) :
    List (List BinaryOp) → α × List (BinaryOp × α) → α × List (BinaryOp × α)
  | [], e => e
  | tier :: more, e => foldTiers combine more (foldTier combine tier e.1 e.2)

variable {combine : BinaryOp → α → α → α} {combine' : BinaryOp → β → β → β}

/-- The operators of a tier that has been folded are gone, the others are still there. -/
theorem mem_operators_foldTier {tier : List BinaryOp} {a : α} {rest : List (BinaryOp × α)}
    {op : BinaryOp} : op ∈ (foldTier combine tier a rest).2.map Prod.fst ↔
      op ∈ rest.map Prod.fst ∧ op ∉ tier := by
  fun_induction foldTier combine tier a rest with
  | case1 => simp
  | case2 a op' b rest hop ih => grind
  | case3 a op' b rest hop folded ih => grind

/-- Folding some tiers takes away their operators and no others. -/
theorem mem_operators_foldTiers {tiers : List (List BinaryOp)} {e : α × List (BinaryOp × α)}
    {op : BinaryOp} : op ∈ (foldTiers combine tiers e).2.map Prod.fst ↔
      op ∈ e.2.map Prod.fst ∧ ∀ tier ∈ tiers, op ∉ tier := by
  induction tiers generalizing e with
  | nil => simp [foldTiers]
  | cons tier more ih =>
    rw [foldTiers, ih, mem_operators_foldTier, List.forall_mem_cons, and_assoc]

/-- When all tiers have been folded, no operator is left. -/
theorem rest_foldTiers_precedence (e : α × List (BinaryOp × α)) :
    (foldTiers combine precedence e).2 = [] := by
  refine (List.map_eq_nil_iff (f := Prod.fst)).1 (List.eq_nil_iff_forall_not_mem.2 fun op hop => ?_)
  have hnone := (mem_operators_foldTiers.1 hop).2
  revert hnone
  cases op <;> decide

/-- Related operands with the same operators between them. -/
abbrev SameOperators (P : α → β → Prop) : List (BinaryOp × α) → List (BinaryOp × β) → Prop :=
  List.Forall₂ fun x y => x.1 = y.1 ∧ P x.2 y.2

/-- Combined in two ways that keep operands related, related operands give related results. -/
theorem foldTier_rel {P : α → β → Prop}
    (h : ∀ op a a' b b', P a a' → P b b' → P (combine op a b) (combine' op a' b'))
    (tier : List BinaryOp) {a : α} {a' : β} {rest : List (BinaryOp × α)}
    {rest' : List (BinaryOp × β)} (ha : P a a') (hrest : SameOperators P rest rest') :
    P (foldTier combine tier a rest).1 (foldTier combine' tier a' rest').1 ∧
      SameOperators P (foldTier combine tier a rest).2 (foldTier combine' tier a' rest').2 := by
  induction hrest generalizing a a' with
  | nil => exact ⟨ha, .nil⟩
  | @cons x y rest rest' hxy _ ih =>
    obtain ⟨op, b⟩ := x
    obtain ⟨_, b'⟩ := y
    obtain ⟨rfl, hb⟩ := hxy
    rw [foldTier, foldTier]
    split
    · exact ih (h op a a' b b' ha hb)
    · exact ⟨ha, .cons ⟨rfl, (ih hb).1⟩ (ih hb).2⟩

/-- Folding the same operators over related operands gives related results, tier after tier. -/
theorem foldTiers_rel {P : α → β → Prop}
    (h : ∀ op a a' b b', P a a' → P b b' → P (combine op a b) (combine' op a' b'))
    (tiers : List (List BinaryOp)) {e : α × List (BinaryOp × α)} {e' : β × List (BinaryOp × β)}
    (hfirst : P e.1 e'.1) (hrest : SameOperators P e.2 e'.2) :
    P (foldTiers combine tiers e).1 (foldTiers combine' tiers e').1 := by
  induction tiers generalizing e e' with
  | nil => exact hfirst
  | cons tier more ih =>
    obtain ⟨hfirst, hrest⟩ := foldTier_rel h tier hfirst hrest
    exact ih hfirst hrest

end

/-! ## Flat expressions and their trees -/

/-- A value that is no routine. -/
inductive Scalar where
  | integer (n : Int64)
  | boolean (b : Bool)
deriving DecidableEq

/-- A scalar as a node. -/
def Scalar.node : Scalar → Node
  | integer n => .number n
  | boolean b => .boolean b

/-- The kind of token that a literal is written as. -/
def Scalar.kind : Scalar → Token.Kind
  | integer n => .integer n
  | boolean b => .keyword (Grammar.literalKeyword b)

/-- Literals with operators between them. A literal has no sign. -/
structure Flat where
  first : Scalar
  rest : List (BinaryOp × Scalar)
  nonneg : ∀ n, .integer n ∈ first :: rest.map Prod.snd → 0 ≤ n.toInt

namespace Flat

/-- The kinds of token of a flat expression. -/
def kinds (f : Flat) : List Token.Kind :=
  f.first.kind :: f.rest.flatMap fun x => [.symbol x.1.symbol, x.2.kind]

/-- What the operands of a flat expression stand for, with the operators between them. -/
def operands {α : Type} (f : Flat) (operand : Scalar → α) : α × List (BinaryOp × α) :=
  (operand f.first, f.rest.map fun x => (x.1, operand x.2))

/-- What comes of a flat expression, from what its operands stand for, if it is folded tier by
tier. -/
def fold {α : Type} (f : Flat) (operand : Scalar → α) (combine : BinaryOp → α → α → α) : α :=
  (foldTiers combine precedence (f.operands operand)).1

/-- Combined in two ways that keep operands related, a flat expression gives related results. -/
theorem fold_rel {α β : Type} {P : α → β → Prop} {combine : BinaryOp → α → α → α}
    {combine' : BinaryOp → β → β → β} {operand : Scalar → α} {operand' : Scalar → β} (f : Flat)
    (hoperand : ∀ a, P (operand a) (operand' a))
    (h : ∀ op a a' b b', P a a' → P b b' → P (combine op a b) (combine' op a' b')) :
    P (f.fold operand combine) (f.fold operand' combine') := by
  refine foldTiers_rel h precedence (hoperand f.first) ?_
  refine List.forall₂_map_left_iff.2 (List.forall₂_map_right_iff.2 (List.forall₂_same.2 ?_))
  exact fun x _ => ⟨rfl, hoperand x.2⟩

/-- The tree of a flat expression. -/
def tree (f : Flat) : Node :=
  f.fold Scalar.node .binary

end Flat

namespace Grammar

/-! ## Reading a flat expression -/

/-- Operators, each with an operand behind it in which the operators of the first tiers may
stand. -/
inductive Tail (tiers : Nat) : List (BinaryOp × Node) → List Token.Kind → Prop where
  | nil : Tail tiers [] []
  | cons (op : BinaryOp) (h : Spells (.expression tiers) e ks) (hrest : Tail tiers rest ls) :
    Tail tiers ((op, e) :: rest) (.symbol op.symbol :: (ks ++ ls))

section

variable {k : Nat} {e : Node} {rest : List (BinaryOp × Node)} {ks ls : List Token.Kind}

/-- What has been folded is an operand in which the operators of the tier may stand, and so is every
operand behind it. -/
theorem tail_foldTier {tier : List BinaryOp} (htier : ∀ op, op ∈ tier ↔ op.tier = k)
    (he : Spells (.expression (k + 1)) e ks) (h : Tail k rest ls) :
    ∃ ks' ls', Spells (.expression (k + 1)) (foldTier .binary tier e rest).1 ks' ∧
      Tail (k + 1) (foldTier .binary tier e rest).2 ls' ∧ ks' ++ ls' = ks ++ ls := by
  induction h generalizing e ks with
  | nil => exact ⟨ks, [], he, .nil, rfl⟩
  | @cons right rs rest ls op hright _ ih =>
    rw [foldTier]
    split
    next hop =>
      obtain rfl := (htier op).1 hop
      obtain ⟨ks', ls', hfirst, hrest, heq⟩ := ih (he.binary hright)
      exact ⟨ks', ls', hfirst, hrest, by rw [heq]; simp⟩
    next hop =>
      obtain ⟨ks', ls', hfirst, hrest, heq⟩ := ih (hright.raise (Nat.le_add_right k 1))
      exact ⟨ks, _, he, .cons op hfirst hrest, by rw [heq]⟩

/-- The tiers of a list are those from `k` on. -/
def AreTiers : Nat → List (List BinaryOp) → Prop
  | _, [] => True
  | k, tier :: more => (∀ op, op ∈ tier ↔ op.tier = k) ∧ AreTiers (k + 1) more

/-- The table of precedence lists the tiers of the operators in their order. -/
theorem areTiers_precedence : AreTiers 0 precedence := by
  refine ⟨?_, ?_, ?_, ?_, ?_, ?_, trivial⟩ <;> intro op <;> cases op <;> decide

/-- What is left when some tiers have been folded is written as before. -/
theorem tail_foldTiers {tiers : List (List BinaryOp)} (htiers : AreTiers k tiers)
    (he : Spells (.expression k) e ks) (h : Tail k rest ls) :
    ∃ ks' ls', Spells (.expression (k + tiers.length))
        (foldTiers .binary tiers (e, rest)).1 ks' ∧
      Tail (k + tiers.length) (foldTiers .binary tiers (e, rest)).2 ls' ∧
        ks' ++ ls' = ks ++ ls := by
  induction tiers generalizing k e rest ks ls with
  | nil => exact ⟨ks, ls, he, h, rfl⟩
  | cons tier more ih =>
    obtain ⟨htier, hmore⟩ := htiers
    obtain ⟨ks₁, ls₁, hfirst, hrest, heq⟩ := tail_foldTier htier (he.raise (Nat.le_add_right k 1)) h
    obtain ⟨ks₂, ls₂, hfirst, hrest, heq'⟩ := ih hmore hfirst hrest
    rw [List.length_cons, Nat.add_comm more.length, ← Nat.add_assoc]
    exact ⟨ks₂, ls₂, hfirst, hrest, heq'.trans heq⟩

/-- A scalar that is not negative is written as one token. -/
theorem scalar_spells {a : Scalar} (h : ∀ n, a = .integer n → 0 ≤ n.toInt) :
    Spells (.expression 0) a.node [a.kind] := by
  cases a with
  | integer n => exact ⟨.number n, rfl, rfl, by simpa [Scalar.kind] using h n rfl⟩
  | boolean b => exact ⟨.boolean b, rfl, rfl, by simp [Scalar.kind]⟩

end

/-- The tree of a flat expression is written as the expression is. -/
theorem flat_spells (f : Flat) : Spells (.expression BinaryOp.tierCount) f.tree f.kinds := by
  have htail : ∀ rest : List (BinaryOp × Scalar),
      (∀ n, .integer n ∈ rest.map Prod.snd → 0 ≤ n.toInt) →
        Tail 0 (rest.map fun x => (x.1, x.2.node))
          (rest.flatMap fun x => [.symbol x.1.symbol, x.2.kind]) := by
    intro rest hrest
    induction rest with
    | nil => exact .nil
    | cons x rest ih =>
      have hx : Spells (.expression 0) x.2.node [x.2.kind] :=
        scalar_spells fun n hn => hrest n (hn ▸ .head _)
      exact .cons x.1 hx (ih fun n hn => hrest n (.tail _ hn))
  have hfirst := scalar_spells fun n hn => f.nonneg n (hn ▸ .head _)
  obtain ⟨ks, ls, htree, hrest, heq⟩ := tail_foldTiers areTiers_precedence hfirst
    (htail f.rest fun n hn => f.nonneg n (.tail _ hn))
  rw [rest_foldTiers_precedence] at hrest
  cases hrest
  obtain rfl : ks = f.kinds := (List.append_nil ks).symm.trans heq
  exact htree

/-- A flat expression is read as its tree, however it is laid out. -/
theorem flat_ofSource_eq {f : Flat} {c : Cursor} {ts : List Token}
    (hts : c.stream.complete = .ok ts) (hkinds : Grammar.kinds ts = f.kinds ++ [.endOfInput]) :
    Node.ofSource c = .ok f.tree := by
  obtain ⟨d, htree, hyield, -⟩ := flat_spells f
  exact (expression_ofSource_eq_ok_iff hts).2 ⟨d, by rw [hkinds, ← hyield]; rfl, htree⟩

end Grammar

end SmallPascal

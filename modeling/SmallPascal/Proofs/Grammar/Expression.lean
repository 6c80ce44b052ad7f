import SmallPascal.Proofs.Grammar.Phrase

/-!
# The rules of expressions decide

`expressionWithin_describes` and its companions: each rule of `Grammar.Expression` decides about its
nonterminal. The recursion is that of the rules themselves.
-/

namespace SmallPascal.Grammar

open Phrase

variable {ending : Ending} {ts : List Token}

/-! ## What the first token tells -/

/-- Only a parenthesis opens a group. -/
theorem Opening.ofKind?_eq_group_iff {k : Token.Kind} :
    ofKind? k = some .group ↔ k = .symbol .leftParen := by
  cases k with
  | keyword k => cases k <;> simp
  | symbol s => cases s <;> simp
  | _ => simp

/-- An operator in front of an operand is told by its sign. -/
theorem Opening.ofKind?_eq_sign_iff {k : Token.Kind} {op : UnaryOp} :
    ofKind? k = some (.sign op) ↔ k = .symbol op.symbol := by
  cases k with
  | keyword k => cases k <;> simp
  | symbol s =>
    by_cases hs : s = .leftParen
    · cases op <;> simp [hs, UnaryOp.symbol]
    · simp [hs, UnaryOp.ofSymbol?_eq_some_iff]
  | _ => simp

/-- Only a name opens a variable or a call. -/
theorem Opening.ofKind?_eq_identifier_iff {k : Token.Kind} {x : String} :
    ofKind? k = some (.identifier x) ↔ k = .identifier x := by
  cases k with
  | keyword k => cases k <;> simp
  | symbol s => cases s <;> simp
  | _ => simp

/-- Literals are numerals and the words for truth values. -/
theorem Opening.ofKind?_eq_literal_iff {k : Token.Kind} {node : Node} :
    ofKind? k = some (.literal node) ↔
      (∃ n, k = .integer n ∧ node = .number n) ∨
        ∃ b, k = .keyword (literalKeyword b) ∧ node = .boolean b := by
  cases k with
  | keyword k => cases k <;> simp [literalKeyword, eq_comm]
  | symbol s => cases s <;> simp
  | _ => simp [eq_comm]

/-- An expression begins with a token that opens an operand. -/
theorem Derivation.exists_opening {n : Nat} (d : Derivation (.expression n)) :
    ∃ k w, d.yield = k :: w ∧ Opening.ofKind? k ≠ none := by
  induction n with
  | zero =>
    cases d with
    | boolean b => cases b <;> exact ⟨_, _, rfl, nofun⟩
    | sign op e => cases op <;> exact ⟨_, _, rfl, nofun⟩
    | _ => exact ⟨_, _, rfl, nofun⟩
  | succ n ih =>
    cases d with
    | chain e es =>
      obtain ⟨k, w, hw, hk⟩ := ih e
      exact ⟨k, w ++ es.yield, by simp [Derivation.yield, hw], hk⟩

/-- Where no operand opens, there is no expression. -/
theorem expression_misfits {n : Nat}
    (h : ∀ k, ahead ending ts = some k → Opening.ofKind? k = none) :
    (phrase (.expression n)).Misfits ending ts where
  refutes k hk d r w _ heq := by
    obtain ⟨k', w', hw', hk'⟩ := d.exists_opening
    change d.yield ++ r = k :: w at heq
    rw [hw'] at heq
    obtain rfl := (List.cons.inj heq).1
    exact hk' (h k' hk)
  refutes_end t rest x hts hx := by
    subst hts
    have := h t.kind rfl
    rw [hx] at this
    cases this

/-! ## What may stand behind an expression -/

/-- A token stands for an operator of a tier if it is the sign of one that is in the tier. -/
theorem operatorOf?_eq_some_iff {tier : Nat} {t : Token} {op : BinaryOp} :
    operatorOf? tier t = some op ↔ t.kind = .symbol op.symbol ∧ op.tier = tier := by
  unfold operatorOf?
  split
  · next s hs =>
    rw [hs, Option.filter_eq_some_iff, BinaryOp.ofSymbol?_eq_some_iff]
    simp
  · next hs =>
    refine ⟨nofun, fun h => absurd h.1 (hs _)⟩

/-- An operator closes no expression. -/
theorem not_mem_closers (op : BinaryOp) : Token.Kind.symbol op.symbol ∉ closers := by
  cases op <;> decide

/-- What may stand behind the operations of a tier may stand behind the operand in front of them,
and so may the operations. -/
theorem follows_operations {tier : Nat} (d : Derivation (.operations tier)) {r : List Token.Kind}
    (hr : (phrase (.operations tier)).Follows r) :
    (phrase (.expression tier)).Follows (d.yield ++ r) := by
  cases d with
  | noOperation =>
    cases r with
    | nil => trivial
    | cons k r => exact hr.imp_right fun ⟨op, hk, hop⟩ => ⟨op, hk, Nat.le_of_lt hop⟩
  | operation op htier e es => exact .inr ⟨op, rfl, Nat.le_of_eq htier.symm⟩

/-- Where no operator of the tier stands, no operation begins. -/
theorem eq_noOperation {tier : Nat}
    (h : ∀ op : BinaryOp, op.tier = tier → ahead ending ts ≠ some (.symbol op.symbol))
    {k : Token.Kind} (hk : Probe ending ts k) {d : Derivation (.operations tier)}
    {r w : List Token.Kind} (heq : d.yield ++ r = k :: w) : d = .noOperation := by
  cases d with
  | noOperation => rfl
  | operation op htier e es =>
    obtain rfl : Token.Kind.symbol op.symbol = k := (List.cons.inj heq).1
    rcases hk with hk | hk
    · exact absurd hk (h op htier)
    · cases hk

/-- Behind an operator of the tier an operation goes on. -/
theorem exists_operation {tier : Nat} {op : BinaryOp} (htier : op.tier = tier)
    (d : Derivation (.operations tier)) {r w : List Token.Kind}
    (hr : (phrase (.operations tier)).Follows r)
    (heq : d.yield ++ r = .symbol op.symbol :: w) : ∃ e es, d = .operation op htier e es := by
  cases d with
  | noOperation =>
    obtain rfl : r = _ := heq
    rcases hr with hr | ⟨op', hop, hlt⟩
    · exact absurd hr (not_mem_closers op)
    · obtain rfl : op = op' := BinaryOp.symbol_inj.1 (by simpa using hop)
      omega
  | operation op' htier' e es =>
    obtain rfl : op' = op := BinaryOp.symbol_inj.1 (by simpa using (List.cons.inj heq).1)
    exact ⟨e, es, rfl⟩

/-! ## What the first token tells of an operand -/

section

variable {d : Derivation (.expression 0)} {r w : List Token.Kind} {k : Token.Kind}

/-- An operand that begins with a numeral is that number. -/
theorem eq_number {n : Int64} (heq : d.yield ++ r = .integer n :: w) : d = .number n := by
  cases d <;> simp_all

/-- An operand that begins with the word for a truth value is that truth value. -/
theorem eq_boolean {b : Bool} (heq : d.yield ++ r = .keyword (literalKeyword b) :: w) :
    d = .boolean b := by
  cases d with
  | boolean b' => cases b <;> cases b' <;> simp_all [literalKeyword]
  | _ => simp_all

/-- An operand that begins with a parenthesis is a group. -/
theorem exists_group (heq : d.yield ++ r = .symbol .leftParen :: w) : ∃ e, d = .group e := by
  cases d with
  | group e => exact ⟨e, rfl⟩
  | sign op e => cases op <;> simp_all [UnaryOp.symbol]
  | _ => simp_all

/-- An operand that begins with the sign of an operator is the operator with its operand. -/
theorem exists_sign {op : UnaryOp} (heq : d.yield ++ r = .symbol op.symbol :: w) :
    ∃ e, d = .sign op e := by
  cases d with
  | group e => cases op <;> simp_all [UnaryOp.symbol]
  | sign op' e =>
    obtain rfl : op' = op := UnaryOp.symbol_inj.1 (by simpa using (List.cons.inj heq).1)
    exact ⟨e, rfl⟩
  | _ => simp_all

/-- An operand that begins with a name and a parenthesis is a call, since nothing that may follow a
variable begins with a parenthesis. -/
theorem exists_call {x : String}
    (heq : d.yield ++ r = .identifier x :: .symbol .leftParen :: w)
    (hr : (phrase (.expression 0)).Follows r) : ∃ args, d = .call x args := by
  cases d with
  | var y =>
    obtain ⟨rfl, rfl⟩ : y = x ∧ r = .symbol .leftParen :: w := by simpa using heq
    rcases hr with hr | ⟨op, hop, -⟩
    · exact absurd hr (by simp [closers])
    · cases op <;> simp [BinaryOp.symbol] at hop
  | call y args =>
    obtain ⟨rfl, -⟩ : y = x ∧ _ := by simpa using heq
    exact ⟨args, rfl⟩
  | _ => simp_all

/-- An operand that begins with a name and no parenthesis behind it is a variable. -/
theorem eq_var {x : String} (hk : k ≠ .symbol .leftParen)
    (heq : d.yield ++ r = .identifier x :: k :: w) : d = .var x := by
  cases d <;> simp_all

end

/-! ## What the first token tells of arguments -/

section

variable {r w : List Token.Kind} {k : Token.Kind}

/-- Where the closing parenthesis stands there are no arguments. -/
theorem eq_noArguments {d : Derivation .arguments}
    (heq : d.yield ++ r = .symbol .rightParen :: w) : d = .noArguments := by
  cases d with
  | noArguments => rfl
  | someArguments e es =>
    obtain ⟨k', w', hw', hk'⟩ := e.exists_opening
    simp only [Derivation.yield, hw', List.cons_append, List.cons.injEq] at heq
    obtain rfl := heq.1
    exact absurd rfl hk'

/-- Where another token stands there is an argument. -/
theorem exists_someArguments {d : Derivation .arguments} (hk : k ≠ .symbol .rightParen)
    (heq : d.yield ++ .symbol .rightParen :: r = k :: w) : ∃ e es, d = .someArguments e es := by
  cases d with
  | noArguments => exact absurd (List.cons.inj heq).1.symm hk
  | someArguments e es => exact ⟨e, es, rfl⟩

/-- Where no comma stands there are no more arguments. -/
theorem eq_noMoreArguments {d : Derivation .moreArguments} (hk : k ≠ .symbol .comma)
    (heq : d.yield ++ r = k :: w) : d = .noMoreArguments := by
  cases d with
  | noMoreArguments => rfl
  | moreArguments e es => exact absurd (List.cons.inj heq).1.symm hk

/-- Where a comma stands there is another argument. -/
theorem exists_moreArguments {d : Derivation .moreArguments}
    (heq : d.yield ++ .symbol .rightParen :: r = .symbol .comma :: w) :
    ∃ e es, d = .moreArguments e es := by
  cases d with
  | noMoreArguments => simp at heq
  | moreArguments e es => exact ⟨e, es, rfl⟩

/-- Behind an argument stands a comma or the parenthesis that closes the arguments. -/
theorem follows_moreArguments (d : Derivation .moreArguments) (r : List Token.Kind) :
    (phrase (.expression BinaryOp.tierCount)).Follows
      (d.yield ++ [.symbol .rightParen] ++ r) := by
  cases d <;> exact .inl (by simp [closers])

/-- Arguments and the parenthesis behind them begin with that parenthesis or an operand. -/
theorem arguments_misfits
    (h : ∀ k, ahead ending ts = some k → k ≠ .symbol .rightParen ∧ Opening.ofKind? k = none) :
    ((phrase .arguments).closed (.symbol .rightParen)).Misfits ending ts := by
  refine ⟨?_, ?_⟩
  · rintro k hk ⟨d, ⟨⟩⟩ r w - heq
    obtain ⟨hclose, hopen⟩ := h k hk
    obtain ⟨e, es, rfl⟩ := exists_someArguments hclose (by simpa using heq)
    obtain ⟨k', w', hw', hk'⟩ := e.exists_opening
    simp only [Derivation.yield, hw', List.cons_append, List.cons.injEq] at heq
    exact hk' (heq.1 ▸ hopen)
  · rintro t rest x rfl hx
    exact absurd (h t.kind rfl).2 (by rw [hx]; nofun)

end

/-! ## The rules -/

mutual

/-- An expression is read as an operand and the operations of the loosest tier behind it. -/
theorem expressionWithin_describes (ending : Ending) (tiers : Nat) (ts : List Token) :
    (phrase (.expression tiers)).Describes ending ts (expressionWithin ending tiers ts) := by
  cases tiers with
  | zero =>
    rw [expressionWithin]
    exact factor_describes ending ts
  | succ tier =>
    rw [expressionWithin]
    have h := (expressionWithin_describes ending tier ts).seq (f := fun left more => more left)
      (B := phrase (.operations tier))
      (fun left rest _ => operations_describes ending tier left rest)
      (fun d r hr => follows_operations d hr) .noOperation
    refine h.build (fun p => Derivation.chain p.1 p.2) (fun _ => rfl) (fun _ => rfl)
      (fun _ hk => hk) ?_
    intro q
    cases q with
    | chain e es => exact ⟨(e, es), rfl⟩
termination_by 10 * ts.length + tiers + 1

/-- The operations of a tier are read one after the other, from the left. -/
theorem operations_describes (ending : Ending) (tier : Nat) (left : Node) (ts : List Token) :
    ((phrase (.operations tier)).map (· left)).Describes ending ts
      (operations ending tier left ts) := by
  cases ts with
  | nil =>
    rw [operations]
    refine describes_glance Derivation.noOperation fun mark hmark => ?_
    subst hmark
    refine describes_done [] Derivation.noOperation rfl rfl rfl ?_
    intro k hk d r w _ heq
    exact eq_noOperation (fun _ _ => by simp [ahead]) hk heq
  | cons t rest =>
    rw [operations]
    split
    · next hnone =>
      refine describes_done [] Derivation.noOperation rfl rfl rfl ?_
      intro k hk d r w _ heq
      refine eq_noOperation (fun op hop hahead => ?_) hk heq
      rw [operatorOf?_eq_some_iff.2 ⟨Option.some_inj.1 hahead, hop⟩] at hnone
      cases hnone
    · next op hop =>
      obtain ⟨hkind, htier⟩ := operatorOf?_eq_some_iff.1 hop
      have h := (expressionWithin_describes ending tier rest).seq
        (f := fun right more => more (.binary op left right)) (B := phrase (.operations tier))
        (fun right rest' _ => operations_describes ending tier (.binary op left right) rest')
        (fun d r hr => follows_operations d hr) .noOperation
      apply Describes.weaken
      refine h.lift [t] (fun p => Derivation.operation op htier p.1 p.2) rfl ?_ (fun _ => rfl)
        (fun _ hk => hk) ?_
      · intro p
        simp [hkind]
      · intro k _ q r w hr heq
        obtain ⟨e, es, rfl⟩ := exists_operation htier q hr (by simpa [hkind] using heq)
        exact ⟨(e, es), rfl⟩
termination_by 10 * ts.length + tier + 1

/-- An operand is told by its first token, and behind a name by the one after. -/
theorem factor_describes (ending : Ending) (ts : List Token) :
    (phrase (.expression 0)).Describes ending ts (factor ending ts) := by
  cases ts with
  | nil =>
    rw [factor]
    refine describes_refuse (Derivation.var "") (expression_misfits ?_)
    cases ending <;> simp [ahead]
  | cons t rest =>
    rw [factor]
    split
    · next hnone =>
      refine describes_refuse (Derivation.var "") (expression_misfits ?_)
      rintro _ ⟨⟩
      exact hnone
    · next node hlit =>
      rcases Opening.ofKind?_eq_literal_iff.1 hlit with ⟨n, hkind, rfl⟩ | ⟨b, hkind, rfl⟩
      · refine describes_done [t] (Derivation.number n) rfl rfl (by simp [hkind]) ?_
        intro k _ d r w _ heq
        exact eq_number (by simpa [hkind] using heq)
      · refine describes_done [t] (Derivation.boolean b) rfl rfl (by simp [hkind]) ?_
        intro k _ d r w _ heq
        exact eq_boolean (by simpa [hkind] using heq)
    · next hgroup =>
      have hkind := Opening.ofKind?_eq_group_iff.1 hgroup
      have h := (expressionWithin_describes ending BinaryOp.tierCount rest).closed
        (s := .rightParen) (.inl (by simp [closers])) id
      apply Describes.weaken
      refine h.lift [t] (fun p => Derivation.group p.1) rfl ?_ (fun _ => rfl)
        (fun _ _ => trivial) ?_
      · intro p
        simp [hkind]
      · intro k _ q r w _ heq
        obtain ⟨e, rfl⟩ := exists_group (d := q) (by simpa [hkind] using heq)
        exact ⟨(e, ()), rfl⟩
    · next op hsign =>
      have hkind := Opening.ofKind?_eq_sign_iff.1 hsign
      apply Describes.weaken
      refine ((factor_describes ending rest).map (Node.unary op)).lift [t]
        (fun e => Derivation.sign op e) rfl ?_ (fun _ => rfl) (fun _ hk => hk) ?_
      · intro p
        simp [hkind]
      · intro k _ q r w _ heq
        exact exists_sign (d := q) (by simpa [hkind] using heq)
    · next x hx =>
      -- Whether a name is a variable or a call is seen at the token behind it.
      have hkind := Opening.ofKind?_eq_identifier_iff.1 hx
      cases rest with
      | nil =>
        cases ending with
        | ok mark =>
          refine describes_done [t] (Derivation.var x) rfl rfl (by simp [hkind]) ?_
          intro k hk d r w _ heq
          exact eq_var (hk.ne (by simp [ahead]) (by simp)) (by simpa [hkind] using heq)
        | error e =>
          exact describes_unreadable rfl ⟨Derivation.var x, [], by simp [hkind]⟩
      | cons u rest' =>
        simp only
        split
        · next hu =>
          apply Describes.weaken
          refine ((arguments_describes ending rest').map (Node.call x)).lift [t, u]
            (fun p => Derivation.call x p.1) rfl ?_ (fun _ => rfl) (fun _ _ => trivial) ?_
          · intro p
            simp [hkind, hu]
          · intro k _ q r w hr heq
            obtain ⟨args, rfl⟩ := exists_call (by simpa [hkind, hu] using heq) hr
            exact ⟨(args, ()), rfl⟩
        · next hu =>
          refine describes_done [t] (Derivation.var x) rfl rfl (by simp [hkind]) ?_
          intro k hk d r w _ heq
          exact eq_var (hk.ne (by simpa [ahead] using hu) (by simp)) (by simpa [hkind] using heq)
termination_by 10 * ts.length

/-- Arguments are read up to the parenthesis that closes them, and a parenthesis in front says that
there are none. -/
theorem arguments_describes (ending : Ending) (ts : List Token) :
    ((phrase .arguments).closed (.symbol .rightParen)).Describes ending ts
      (arguments ending ts) := by
  cases ts with
  | nil =>
    rw [arguments]
    refine describes_refuse (Derivation.noArguments, ()) (arguments_misfits ?_)
    cases ending <;> simp [ahead]
  | cons t rest =>
    rw [arguments]
    split
    · next ht =>
      refine describes_done [t] (Derivation.noArguments, ()) rfl rfl (by simp [ht]) ?_
      rintro k - ⟨args, ⟨⟩⟩ r w - heq
      rw [eq_noArguments (d := args) (by simpa [ht] using heq)]
    · next ht =>
      have h := (expressionWithin_describes ending BinaryOp.tierCount (t :: rest)).seq
        (f := fun arg more => arg :: more)
        (B := (phrase .moreArguments).closed (.symbol .rightParen))
        (fun arg rest' hlt =>
          have : rest'.length < rest.length + 1 := by simpa only [List.length_cons] using hlt
          ((moreArguments_describes ending rest').map (arg :: ·)).weaken (Nat.le_succ _))
        (fun d r _ => follows_moreArguments d.1 r) (Derivation.noMoreArguments, ())
      refine h.lift [] (fun p => (Derivation.someArguments p.1 p.2.1, ())) rfl ?_ (fun _ => rfl)
        (fun _ _ => trivial) ?_
      · intro p
        simp
      · rintro k hk ⟨args, ⟨⟩⟩ r w - heq
        have hne : k ≠ .symbol .rightParen := hk.ne (by simpa [ahead] using ht) (by simp)
        obtain ⟨e, es, rfl⟩ := exists_someArguments hne (by simpa using heq)
        exact ⟨(e, es, ()), rfl⟩
termination_by 10 * ts.length + 9

/-- Behind an argument another one follows a comma, and otherwise the parenthesis that closes the
arguments stands there. -/
theorem moreArguments_describes (ending : Ending) (ts : List Token) :
    ((phrase .moreArguments).closed (.symbol .rightParen)).Describes ending ts
      (moreArguments ending ts) := by
  cases ts with
  | nil =>
    rw [moreArguments]
    refine describes_glance (Derivation.noMoreArguments, ()) fun mark hmark => ?_
    subst hmark
    refine describes_reject (Derivation.noMoreArguments, ()) ⟨?_, nofun⟩
    rintro k ⟨⟩ ⟨more, ⟨⟩⟩ r w - heq
    cases more <;> simp at heq
  | cons t rest =>
    rw [moreArguments]
    split
    · next ht =>
      have h := (expressionWithin_describes ending BinaryOp.tierCount rest).seq
        (f := fun arg more => arg :: more)
        (B := (phrase .moreArguments).closed (.symbol .rightParen))
        (fun arg rest' _ =>
          ((moreArguments_describes ending rest').map (arg :: ·)).weaken (Nat.le_succ _))
        (fun d r _ => follows_moreArguments d.1 r) (Derivation.noMoreArguments, ())
      apply Describes.weaken
      refine h.lift [t] (fun p => (Derivation.moreArguments p.1 p.2.1, ())) rfl ?_ (fun _ => rfl)
        (fun _ _ => trivial) ?_
      · intro p
        simp [ht]
      · rintro k - ⟨args, ⟨⟩⟩ r w - heq
        obtain ⟨e, es, rfl⟩ := exists_moreArguments (d := args) (by simpa [ht] using heq)
        exact ⟨(e, es, ()), rfl⟩
    · next ht =>
      refine ((expect_symbol_describes ending .rightParen _).map fun _ => []).lift []
        (fun _ => (Derivation.noMoreArguments, ())) rfl (fun _ => rfl) (fun _ => rfl)
        (fun _ _ => trivial) ?_
      rintro k hk ⟨more, ⟨⟩⟩ r w - heq
      have hne : k ≠ .symbol .comma := hk.ne (by simpa [ahead] using ht) (by simp)
      rw [eq_noMoreArguments (d := more) hne (by simpa using heq)]
      exact ⟨(), rfl⟩
termination_by 10 * ts.length

end

/-- An expression is read as one with the operators of all tiers. -/
theorem expression_describes (ending : Ending) (ts : List Token) :
    (phrase (.expression BinaryOp.tierCount)).Describes ending ts (expression ending ts) :=
  expressionWithin_describes ending BinaryOp.tierCount ts

end SmallPascal.Grammar

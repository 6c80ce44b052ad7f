import SmallPascal.Proofs.Grammar.Descent
import SmallPascal.Proofs.Grammar.Expression

/-!
# Parsing ends

`parsing_ends`: the rules come to an end when they are carried out step by step, with the result
that they have as functions on tokens, from whatever cursor they start and on whatever text. That a
rule function is defined says nothing about that, because it is given the tokens of the whole text;
here they are read as they are asked for, the end mark as often as it is asked for, and errors in
the text are met on the way.

The induction is along descents, for all rules at once (`settled`): a rule does what it says if the
rules that it calls do, and the lemma for each rule says what has been read before each of its calls
or which rank the called rule has. Most calls stand behind a token that their rule has read. Those
that do not are a compound statement that a statement begins with, a statement that a list begins
with, the operands of a tier, which have fewer tiers, and parts that may be missing.
-/

namespace SmallPascal.Grammar

open Plan Progress

/-! ## Rules that are settled -/

/-- What a rule leaves of the tokens that stand in front. -/
def Rule.outcome (ending : Ending) (ts : List Token) :
    (r : Rule) → Except Failure (r.Value × List Token)
  | program => (Grammar.program ending ts).toExcept
  | programHeading => (Grammar.programHeading ending ts).toExcept
  | block => (Grammar.block ending ts).toExcept
  | variablePart => (Grammar.variablePart ending ts).toExcept
  | variableSection => (Grammar.variableSection ending ts).toExcept
  | routines => (Grammar.routines ending ts).toExcept
  | routine kind => (Grammar.routine ending kind ts).toExcept
  | heading kind => (Grammar.heading ending kind ts).toExcept
  | parameterPart => (Grammar.parameterPart ending ts).toExcept
  | parameters => (Grammar.parameters ending ts).toExcept
  | resultPart kind => (Grammar.resultPart ending kind ts).toExcept
  | nameGroup => (Grammar.nameGroup ending ts).toExcept
  | names => (Grammar.names ending ts).toExcept
  | compound => (Grammar.compound ending ts).toExcept
  | statements => (Grammar.statements ending ts).toExcept
  | statement => (Grammar.statement ending ts).toExcept
  | tiers n => (expressionWithin ending n ts).toExcept
  | operations tier left => (Grammar.operations ending tier left ts).toExcept
  | factor => (Grammar.factor ending ts).toExcept
  | arguments => (Grammar.arguments ending ts).toExcept
  | moreArguments => (Grammar.moreArguments ending ts).toExcept

/-- A rule does at a cursor what it says, and every call is a descent. -/
def Settled (x : Rule × Cursor) : Prop :=
  x.1.plan.Follows (Descends x) x.2 (x.1.outcome x.2.stream.ending x.2.stream.tokens)

section

variable {x : Rule × Cursor} {c : Cursor} {ending : Ending} {t u : Token} {ts rest : List Token}

/-- A call that is a descent is answered, if all descents are. -/
theorem follows_ofRule (ih : ∀ y, Descends x y → Settled y) (hc : c.Faces ending ts) {r : Rule}
    (h : Descends x (r, c)) : (ofRule r).Follows (Descends x) c (r.outcome ending ts) := by
  obtain ⟨rfl, rfl⟩ := hc
  have hsettled := ih _ h
  refine ⟨fun a rest hx => ?_, fun f hx => ?_, fun y hy => ?_⟩
  · obtain ⟨n, c', hreads, hrest, hgives⟩ := hsettled.gives a rest hx
    exact ⟨n, c', hreads, hrest, .call hgives (.done a c')⟩
  · obtain ⟨n, hn, hgives⟩ := hsettled.fails f hx
    exact ⟨n, hn, .callFails hgives⟩
  · cases hy with
    | here => exact h
    | behind _ hmeets => cases hmeets

/-! ## The rules of expressions -/

/-- An expression is refused where no token is left, by its first operand. -/
theorem expressionWithin_nil (ending : Ending) (tiers : Nat) :
    (expressionWithin ending tiers []).toExcept =
      (refuse ending .expression [] : Parse 0 Node).toExcept := by
  induction tiers with
  | zero => rw [expressionWithin, factor]
  | succ tier ih =>
    rw [expressionWithin]
    cases ending <;> exact toExcept_bind_eq_error_iff.2 (.inl ih)

/-- An operand of a tier has fewer tiers, and the operations behind it have the smallest rank. -/
theorem tiers_follows (n : Nat) (hc : c.Faces ending ts)
    (ih : ∀ y, Descends (.tiers n, c) y → Settled y) :
    (Rule.tiers n).plan.Follows (Descends (.tiers n, c)) c
      (expressionWithin ending n ts).toExcept := by
  cases n with
  | zero =>
    rw [expressionWithin]
    exact follows_ofRule ih hc ⟨0, .nil c, .inr Nat.zero_lt_one⟩
  | succ tier =>
    rw [expressionWithin]
    refine follows_bind hc (follows_ofRule ih hc ⟨0, .nil c, .inr (Nat.lt_succ_self _)⟩) ?_
    intro left rest _ n c' _ hreads hc'
    exact follows_ofRule ih hc' ⟨n, hreads, .inr (Nat.succ_pos _)⟩

/-- Every further round reads its operator first. -/
theorem operations_follows (tier : Nat) (left : Node) (hc : c.Faces ending ts)
    (ih : ∀ y, Descends (.operations tier left, c) y → Settled y) :
    (Rule.operations tier left).plan.Follows (Descends (.operations tier left, c)) c
      (operations ending tier left ts).toExcept := by
  cases ts with
  | nil =>
    rw [operations]
    refine follows_glance hc fun mark _ hk => ?_
    rw [operatorOf?, hk]
    exact follows_done hc left
  | cons t rest =>
    rw [operations]
    refine follows_look_next hc ?_
    cases operatorOf? tier t with
    | none => exact follows_done hc left
    | some op =>
      dsimp only
      rw [toExcept_weaken]
      refine follows_read hc fun c' hread hc' => ?_
      refine follows_bind hc' (follows_ofRule ih hc' ⟨1, hread, .inl (by decide)⟩) ?_
      intro right rest' _ n c'' _ hreads hc''
      exact follows_ofRule ih hc'' ⟨_, hread.trans hreads, .inl (by omega)⟩

/-- A call is read from its name on, although the rule has seen the name and the parenthesis. -/
theorem takeCall_follows {name : String} (hc : c.Faces ending (t :: u :: rest))
    (hname : t.kind = .identifier name) (hparen : u.kind = .symbol .leftParen)
    (ih : ∀ y, Descends x y → Settled y) (hx : x.2 = c) :
    takeCall.Follows (Descends x) c ((arguments ending rest).map (.call name)).toExcept := by
  refine follows_takenName hc hname fun c' hread hc' => ?_
  rw [← hparen]
  refine follows_taken hc' fun c'' hread' hc'' => ?_
  refine follows_map (follows_ofRule ih hc'' ⟨2, ?_, .inl (by decide)⟩) (Node.call name)
  rw [hx]
  exact hread.trans hread'

/-- An operand calls rules behind its parenthesis, its sign or its name. -/
theorem factor_follows (hc : c.Faces ending ts) (ih : ∀ y, Descends (.factor, c) y → Settled y) :
    Rule.factor.plan.Follows (Descends (.factor, c)) c (factor ending ts).toExcept := by
  cases ts with
  | nil =>
    rw [factor, refuse_nil]
    refine follows_glance hc fun mark hending hk => ?_
    subst hending
    rw [hk]
    exact follows_unexpected_ending hc .expression
  | cons t rest =>
    rw [factor]
    refine follows_look_next hc ?_
    match hopening : Opening.ofKind? t.kind with
    | none => exact follows_unexpected hc .expression
    | some (.literal node) => exact follows_read hc fun c' _ hc' => follows_done hc' node
    | some .group =>
      dsimp only
      rw [toExcept_weaken]
      refine follows_read hc fun c' hread hc' => ?_
      refine follows_bind hc' (follows_ofRule ih hc' ⟨1, hread, .inl (by decide)⟩) ?_
      intro node rest' _ n c'' _ _ hc''
      rw [toExcept_weaken]
      exact follows_map (follows_take (by decide) hc'') fun _ => node
    | some (.sign op) =>
      dsimp only
      rw [toExcept_weaken]
      refine follows_read hc fun c' hread hc' => ?_
      exact follows_map (follows_ofRule ih hc' ⟨1, hread, .inl (by decide)⟩) (Node.unary op)
    | some (.identifier name) =>
      have hname : t.kind = .identifier name := Opening.ofKind?_eq_identifier_iff.1 hopening
      cases rest with
      | nil => cases ending with
        | ok mark =>
          refine follows_look (peek_second_ending hc) ?_
          rw [if_neg (by rw [hc.mark_kind]; decide)]
          exact follows_takenName hc hname fun c' _ hc' => follows_done hc' (Node.var name)
        | error e => exact follows_look_error hc (peek_second_ending hc)
      | cons u rest' =>
        refine follows_look_second hc ?_
        dsimp only
        split
        · next hparen =>
          rw [toExcept_weaken]
          exact takeCall_follows hc hname hparen ih rfl
        · exact follows_takenName hc hname fun c' _ hc' => follows_done hc' (Node.var name)

/-- The first argument begins where the arguments do, and an expression has a smaller rank. Behind
it the other arguments have the smallest rank. -/
theorem arguments_follows (hc : c.Faces ending ts)
    (ih : ∀ y, Descends (.arguments, c) y → Settled y) :
    Rule.arguments.plan.Follows (Descends (.arguments, c)) c (arguments ending ts).toExcept := by
  have hfirst : (ofRule .expression).Follows (Descends (.arguments, c)) c
      (expressionWithin ending BinaryOp.tierCount ts).toExcept :=
    follows_ofRule ih hc ⟨0, .nil c, .inr (Nat.lt_succ_self _)⟩
  cases ts with
  | nil =>
    -- The rule refuses the ending itself, the plan leaves that to the first argument.
    rw [arguments, refuse_nil]
    refine follows_glance hc fun mark hending hk => ?_
    subst hending
    rw [if_neg (by rw [hk]; decide)]
    rw [expressionWithin_nil] at hfirst
    exact follows_bind_error hfirst
  | cons t rest =>
    rw [arguments]
    refine follows_look_next hc ?_
    split
    · exact follows_read hc fun c' _ hc' => follows_done hc' []
    · refine follows_bind hc hfirst fun arg rest' _ n c' _ hreads hc' => ?_
      rw [toExcept_weaken]
      exact follows_map (follows_ofRule (r := .moreArguments) ih hc'
        ⟨n, hreads, .inr (Nat.succ_pos _)⟩) (arg :: ·)

/-- Every further argument stands behind its comma. -/
theorem moreArguments_follows (hc : c.Faces ending ts)
    (ih : ∀ y, Descends (.moreArguments, c) y → Settled y) :
    Rule.moreArguments.plan.Follows (Descends (.moreArguments, c)) c
      (moreArguments ending ts).toExcept := by
  cases ts with
  | nil =>
    rw [moreArguments]
    refine follows_glance hc fun mark hending hk => ?_
    subst hending
    rw [if_neg (by rw [hk]; decide)]
    exact follows_bind_error (follows_take (by decide) hc)
  | cons t rest =>
    rw [moreArguments]
    refine follows_look_next hc ?_
    split
    · rw [toExcept_weaken]
      refine follows_read hc fun c' hread hc' => ?_
      refine follows_bind hc' (follows_ofRule ih hc' ⟨1, hread, .inl (by decide)⟩) ?_
      intro arg rest' _ n c'' _ hreads hc''
      rw [toExcept_weaken]
      exact follows_map (follows_ofRule ih hc''
        ⟨_, hread.trans hreads, .inl (by omega)⟩) (arg :: ·)
    · exact follows_map (follows_take (by decide) hc) fun _ => []

/-! ## The rules of statements -/

/-- An assignment is read from its target on, although the rule has seen the target. -/
theorem takeAssignment_follows {target : String} (hc : c.Faces ending (t :: rest))
    (hname : t.kind = .identifier target) (ih : ∀ y, Descends x y → Settled y) (hx : x.2 = c) :
    takeAssignment.Follows (Descends x) c (assignment ending target rest).toExcept := by
  refine follows_takenName hc hname fun c' hread hc' => ?_
  refine follows_bind hc' (follows_take (by decide) hc') fun _ rest' _ n c'' _ hreads hc'' => ?_
  rw [toExcept_weaken]
  refine follows_map (follows_ofRule ih hc'' ⟨1 + n, ?_, .inl (by omega)⟩) (Node.assign target)
  rw [hx]
  exact hread.trans hreads

/-- A list in brackets begins where its statement does and has a smaller rank. The other statements
call rules behind their names. -/
theorem statement_follows (hc : c.Faces ending ts)
    (ih : ∀ y, Descends (.statement, c) y → Settled y) :
    Rule.statement.plan.Follows (Descends (.statement, c)) c (statement ending ts).toExcept := by
  cases ts with
  | nil =>
    rw [statement]
    refine follows_glance hc fun mark _ hk => ?_
    rw [hk]
    exact follows_done hc Node.noOp
  | cons t rest =>
    rw [statement]
    refine follows_look_next hc ?_
    cases hk : t.kind with
    | keyword k => cases k with
      | beginBlock =>
        dsimp only
        rw [toExcept_weaken]
        exact follows_map (follows_ofRule (r := .compound) ih hc
          ⟨0, .nil c, .inr Nat.zero_lt_one⟩) Node.compound
      | _ => exact follows_done hc Node.noOp
    | identifier name =>
      cases rest with
      | nil => cases ending with
        | ok mark =>
          refine follows_look (peek_second_ending hc) ?_
          rw [if_neg (by rw [hc.mark_kind]; decide)]
          dsimp only
          rw [toExcept_weaken]
          exact takeAssignment_follows hc hk ih rfl
        | error e => exact follows_look_error hc (peek_second_ending hc)
      | cons u rest' =>
        refine follows_look_second hc ?_
        dsimp only
        split
        · next hparen =>
          rw [toExcept_weaken]
          exact takeCall_follows hc hk hparen ih rfl
        · rw [toExcept_weaken]
          exact takeAssignment_follows hc hk ih rfl
    | _ => exact follows_done hc Node.noOp

/-- A list goes on behind a semicolon only, since its statements may be empty. -/
theorem statements_follows (hc : c.Faces ending ts)
    (ih : ∀ y, Descends (.statements, c) y → Settled y) :
    Rule.statements.plan.Follows (Descends (.statements, c)) c (statements ending ts).toExcept := by
  rw [statements]
  refine follows_bind hc (follows_ofRule ih hc ⟨0, .nil c, .inr Nat.one_lt_two⟩) ?_
  intro first rest _ n c' _ hreads hc'
  cases rest with
  | nil =>
    refine follows_glance hc' fun mark _ hk => ?_
    rw [hk]
    exact follows_done hc' [first]
  | cons t rest' =>
    refine follows_look_next hc' ?_
    dsimp only
    cases t.kind with
    | symbol s => cases s with
      | semicolon =>
        dsimp only
        rw [toExcept_weaken]
        refine follows_read hc' fun c'' hread hc'' => ?_
        exact follows_map (follows_ofRule ih hc''
          ⟨_, hreads.trans hread, .inl (by omega)⟩) (first :: ·)
      | _ => exact follows_done hc' [first]
    | identifier name => exact follows_fail hc' _
    | _ => exact follows_done hc' [first]

/-- The list of statements stands behind BEGIN. -/
theorem compound_follows (hc : c.Faces ending ts)
    (ih : ∀ y, Descends (.compound, c) y → Settled y) :
    Rule.compound.plan.Follows (Descends (.compound, c)) c (compound ending ts).toExcept := by
  rw [compound]
  refine follows_bind hc (follows_take (by decide) hc) fun _ rest hlt n c' hn hreads hc' => ?_
  refine follows_bind hc' (follows_ofRule ih hc' ⟨n, hreads, .inl (by omega)⟩) ?_
  intro children rest' _ m c'' _ _ hc''
  rw [toExcept_weaken]
  exact follows_map (follows_take (by decide) hc'') fun _ => children

/-! ## The rules of declarations -/

/-- Every further name stands behind a comma. -/
theorem names_follows (hc : c.Faces ending ts) (ih : ∀ y, Descends (.names, c) y → Settled y) :
    Rule.names.plan.Follows (Descends (.names, c)) c (names ending ts).toExcept := by
  rw [names]
  refine follows_bind hc (follows_takeName hc) fun first rest _ n c' _ hreads hc' => ?_
  refine follows_maybe (by decide) hc' fun rest' _ c'' hread hc'' => ?_
  rw [toExcept_weaken]
  exact follows_map (follows_ofRule ih hc'' ⟨_, hreads.trans hread, .inl (by omega)⟩) (first :: ·)

/-- The names begin where their group does, and have a smaller rank. -/
theorem nameGroup_follows (hc : c.Faces ending ts)
    (ih : ∀ y, Descends (.nameGroup, c) y → Settled y) :
    Rule.nameGroup.plan.Follows (Descends (.nameGroup, c)) c (nameGroup ending ts).toExcept := by
  rw [nameGroup]
  refine follows_bind hc (follows_ofRule ih hc ⟨0, .nil c, .inr Nat.zero_lt_one⟩) ?_
  intro vars rest _ n c' _ _ hc'
  rw [toExcept_weaken]
  refine follows_bind hc' (follows_take (by decide) hc') fun _ rest' _ m c'' _ _ hc'' => ?_
  rw [toExcept_weaken]
  exact follows_map (follows_takeType hc'') (vars, ·)

/-- A further round begins where a name stands, behind the declaration that has been read. -/
theorem variableSection_follows (hc : c.Faces ending ts)
    (ih : ∀ y, Descends (.variableSection, c) y → Settled y) :
    Rule.variableSection.plan.Follows (Descends (.variableSection, c)) c
      (variableSection ending ts).toExcept := by
  rw [variableSection]
  refine follows_bind hc (follows_ofRule ih hc ⟨0, .nil c, .inr Nat.one_lt_two⟩) ?_
  rintro ⟨vars, type⟩ rest _ n c' _ hreads hc'
  dsimp only
  rw [toExcept_weaken]
  refine follows_bind hc' (follows_take (by decide) hc') fun _ rest' _ m c'' _ hreads' hc'' => ?_
  cases rest' with
  | nil =>
    refine follows_glance hc'' fun mark _ hk => ?_
    rw [hk]
    exact follows_done hc'' _
  | cons t rest'' =>
    refine follows_look_next hc'' ?_
    dsimp only
    cases t.kind with
    | identifier name =>
      dsimp only
      rw [toExcept_weaken]
      exact follows_map (follows_ofRule ih hc'' ⟨_, hreads.trans hreads', .inl (by omega)⟩) _
    | _ => exact follows_done hc'' _

/-- The first group begins where the parameters do and has a smaller rank. Every further round
stands behind a semicolon. -/
theorem parameters_follows (hc : c.Faces ending ts)
    (ih : ∀ y, Descends (.parameters, c) y → Settled y) :
    Rule.parameters.plan.Follows (Descends (.parameters, c)) c (parameters ending ts).toExcept := by
  rw [parameters]
  refine follows_bind hc (follows_ofRule ih hc ⟨0, .nil c, .inr Nat.one_lt_two⟩) ?_
  rintro ⟨vars, type⟩ rest _ n c' _ hreads hc'
  refine follows_maybe (by decide) hc' fun rest' _ c'' hread hc'' => ?_
  rw [toExcept_weaken]
  exact follows_map (follows_ofRule ih hc'' ⟨_, hreads.trans hread, .inl (by omega)⟩) _

/-- The parameters stand behind their parenthesis. -/
theorem parameterPart_follows (hc : c.Faces ending ts)
    (ih : ∀ y, Descends (.parameterPart, c) y → Settled y) :
    Rule.parameterPart.plan.Follows (Descends (.parameterPart, c)) c
      (parameterPart ending ts).toExcept := by
  refine follows_maybe (by decide) hc fun rest _ c' hread hc' => ?_
  rw [toExcept_weaken]
  refine follows_bind hc' (follows_ofRule ih hc' ⟨1, hread, .inl (by decide)⟩) ?_
  intro params rest' _ n c'' _ _ hc''
  rw [toExcept_weaken]
  exact follows_map (follows_take (by decide) hc'') fun _ => params

/-- The type of a result is read without calling a rule. -/
theorem resultPart_follows (kind : RoutineKind) (hc : c.Faces ending ts) :
    (Rule.resultPart kind).plan.Follows (Descends (.resultPart kind, c)) c
      (resultPart ending kind ts).toExcept := by
  cases kind with
  | procedure => exact follows_done hc none
  | function =>
    refine follows_maybe (by decide) hc fun rest _ c' _ hc' => ?_
    rw [toExcept_weaken]
    exact follows_map (follows_takeType hc') some

/-- A section of variables stands behind VAR. -/
theorem variablePart_follows (hc : c.Faces ending ts)
    (ih : ∀ y, Descends (.variablePart, c) y → Settled y) :
    Rule.variablePart.plan.Follows (Descends (.variablePart, c)) c
      (variablePart ending ts).toExcept := by
  refine follows_maybe (by decide) hc fun rest _ c' hread hc' => ?_
  rw [toExcept_weaken]
  exact follows_ofRule ih hc' ⟨1, hread, .inl (by decide)⟩

/-- All parts of a heading stand behind the name. -/
theorem heading_follows (kind : RoutineKind) (hc : c.Faces ending ts)
    (ih : ∀ y, Descends (.heading kind, c) y → Settled y) :
    (Rule.heading kind).plan.Follows (Descends (.heading kind, c)) c
      (heading ending kind ts).toExcept := by
  refine follows_bind hc (follows_takeName hc) fun name rest hlt n c₁ hn hreads hc₁ => ?_
  refine follows_bind hc₁ (follows_ofRule ih hc₁ ⟨n, hreads, .inl (by omega)⟩) ?_
  intro params rest' _ m c₂ _ hreads' hc₂
  refine follows_bind hc₂
    (follows_ofRule ih hc₂ ⟨_, hreads.trans hreads', .inl (by omega)⟩) ?_
  intro returnType rest'' _ _ c₃ _ _ hc₃
  rw [toExcept_weaken]
  exact follows_map (follows_take (by decide) hc₃) fun _ => (name, params, returnType)

/-- All three parts of a block may begin where the block does, and have the smallest rank. -/
theorem block_follows (hc : c.Faces ending ts) (ih : ∀ y, Descends (.block, c) y → Settled y) :
    Rule.block.plan.Follows (Descends (.block, c)) c (block ending ts).toExcept := by
  rw [block]
  refine follows_bind hc (follows_ofRule ih hc ⟨0, .nil c, .inr Nat.zero_lt_one⟩) ?_
  intro vars rest _ n c₁ _ hreads hc₁
  refine follows_bind hc₁ (follows_ofRule ih hc₁ ⟨n, hreads, .inr Nat.zero_lt_one⟩) ?_
  intro rs rest' _ m c₂ _ hreads' hc₂
  rw [toExcept_weaken]
  exact follows_map (follows_ofRule (r := .compound) ih hc₂
    ⟨_, hreads.trans hreads', .inr Nat.zero_lt_one⟩) _

/-- A block inside of a routine stands behind the name in the heading. -/
theorem routine_follows (kind : RoutineKind) (hc : c.Faces ending ts)
    (ih : ∀ y, Descends (.routine kind, c) y → Settled y) :
    (Rule.routine kind).plan.Follows (Descends (.routine kind, c)) c
      (routine ending kind ts).toExcept := by
  rw [routine]
  refine follows_bind hc (follows_ofRule ih hc ⟨0, .nil c, .inr Nat.zero_lt_two⟩) ?_
  rintro ⟨name, params, returnType⟩ rest hlt n c₁ hn hreads hc₁
  refine follows_bind hc₁ (follows_ofRule ih hc₁ ⟨n, hreads, .inl (by omega)⟩) ?_
  intro b rest' _ _ c₂ _ _ hc₂
  rw [toExcept_weaken]
  exact follows_map (follows_take (by decide) hc₂) _

/-- A routine stands behind its word, and a further round behind the routine. -/
theorem routines_follows (hc : c.Faces ending ts)
    (ih : ∀ y, Descends (.routines, c) y → Settled y) :
    Rule.routines.plan.Follows (Descends (.routines, c)) c (routines ending ts).toExcept := by
  cases ts with
  | nil =>
    rw [routines]
    refine follows_glance hc fun mark _ hk => ?_
    rw [hk]
    exact follows_done hc []
  | cons t rest =>
    rw [routines]
    refine follows_look_next hc ?_
    cases t.kind with
    | keyword k =>
      dsimp only
      cases RoutineKind.ofKeyword? k with
      | none => exact follows_done hc []
      | some kind =>
        dsimp only
        rw [toExcept_weaken]
        refine follows_read hc fun c' hread hc' => ?_
        refine follows_bind hc' (follows_ofRule ih hc' ⟨1, hread, .inl (by decide)⟩) ?_
        intro r rest' _ n c'' _ hreads hc''
        exact follows_map (follows_ofRule ih hc''
          ⟨_, hread.trans hreads, .inl (by omega)⟩) (r :: ·)
    | _ => exact follows_done hc []

/-- The heading of a program is read without calling a rule. -/
theorem programHeading_follows (hc : c.Faces ending ts) :
    Rule.programHeading.plan.Follows (Descends (.programHeading, c)) c
      (programHeading ending ts).toExcept := by
  refine follows_maybe (by decide) hc fun rest _ c' _ hc' => ?_
  rw [toExcept_weaken]
  refine follows_bind hc' (follows_takeName hc') fun name rest' _ _ c'' _ _ hc'' => ?_
  rw [toExcept_weaken]
  exact follows_map (follows_take (by decide) hc'') fun _ => name

/-- The heading and the block may begin where the program does, and have smaller ranks. -/
theorem program_follows (hc : c.Faces ending ts) (ih : ∀ y, Descends (.program, c) y → Settled y) :
    Rule.program.plan.Follows (Descends (.program, c)) c (program ending ts).toExcept := by
  refine follows_bind hc (follows_ofRule ih hc ⟨0, .nil c, .inr Nat.zero_lt_two⟩) ?_
  intro name rest _ n c₁ _ hreads hc₁
  refine follows_bind hc₁ (follows_ofRule ih hc₁ ⟨n, hreads, .inr Nat.one_lt_two⟩) ?_
  intro b rest' _ _ c₂ _ _ hc₂
  rw [toExcept_weaken]
  exact follows_map (follows_take (by decide) hc₂) _

end

/-! ## Every rule is settled -/

/-- Every rule does what it says and calls only by descents. The induction is along descents, for
all rules at once; each rule has its own lemma. -/
theorem settled (x : Rule × Cursor) : Settled x := by
  induction x using wellFounded_descends.induction with
  | _ x ih =>
    obtain ⟨r, c⟩ := x
    have hc := c.faces_stream
    cases r with
    | program => exact program_follows hc ih
    | programHeading => exact programHeading_follows hc
    | block => exact block_follows hc ih
    | variablePart => exact variablePart_follows hc ih
    | variableSection => exact variableSection_follows hc ih
    | routines => exact routines_follows hc ih
    | routine kind => exact routine_follows kind hc ih
    | heading kind => exact heading_follows kind hc ih
    | parameterPart => exact parameterPart_follows hc ih
    | parameters => exact parameters_follows hc ih
    | resultPart kind => exact resultPart_follows kind hc
    | nameGroup => exact nameGroup_follows hc ih
    | names => exact names_follows hc ih
    | compound => exact compound_follows hc ih
    | statements => exact statements_follows hc ih
    | statement => exact statement_follows hc ih
    | tiers n => exact tiers_follows n hc ih
    | operations tier left => exact operations_follows tier left hc ih
    | factor => exact factor_follows hc ih
    | arguments => exact arguments_follows hc ih
    | moreArguments => exact moreArguments_follows hc ih

/-- Every call is a descent. -/
theorem Calls.descends {x y : Rule × Cursor} (h : Calls x y) : Descends x y :=
  (settled x).meets y h

/-- Calls of calls are descents, too. -/
theorem descends_of_transGen {x y : Rule × Cursor} (h : Relation.TransGen Calls x y) :
    Descends x y := by
  induction h with
  | single h => exact h.descends
  | tail _ h ih => exact ih.trans h.descends

/-- A rule that is called again has read something in between. -/
theorem exists_reads_of_transGen {x y : Rule × Cursor} (h : Relation.TransGen Calls x y)
    (hrank : x.1.rank ≤ y.1.rank) : ∃ n, 0 < n ∧ x.2.Reads n y.2 := by
  obtain ⟨n, hreads, hn⟩ := descends_of_transGen h
  exact ⟨n, by omega, hreads⟩

variable {α : Type}

/-- Every plan gives an answer. -/
theorem exists_gives (p : Plan α) (c : Cursor) : ∃ answer stop, p.Gives c answer stop := by
  induction p generalizing c with
  | done a => exact ⟨_, _, .done a c⟩
  | fail e => exact ⟨_, _, .fail e c⟩
  | read next ih =>
    match hnext : c.next with
    | (.error e, stop) => exact ⟨_, _, .unreadable hnext⟩
    | (.ok t, c') =>
      obtain ⟨answer, stop, hgives⟩ := ih t c'
      exact ⟨answer, stop, .read hnext hgives⟩
  | look count next ih =>
    match hpeek : ((TokenReader.ofCursor c).peek count).1 with
    | .error e => exact ⟨_, _, .unseen hpeek⟩
    | .ok t =>
      obtain ⟨answer, stop, hgives⟩ := ih t c
      exact ⟨answer, stop, .look hpeek hgives⟩
  | call r next ih =>
    -- The plan of the rule may be longer than this one: it answers because the rule does.
    have hsettled := settled (r, c)
    match hx : r.outcome c.stream.ending c.stream.tokens with
    | .error f =>
      obtain ⟨n, -, hcalled⟩ := hsettled.fails f hx
      exact ⟨_, _, .callFails hcalled⟩
    | .ok (a, rest) =>
      obtain ⟨n, c', -, -, hcalled⟩ := hsettled.gives a rest hx
      obtain ⟨answer, stop, hgives⟩ := ih a c'
      exact ⟨answer, stop, .call hcalled hgives⟩

/-- Whatever state the machine is put in, it comes to an end. -/
theorem exists_finished (σ : State α) : ∃ answer stop, σ.Reaches (.finished answer stop) := by
  cases σ with
  | finished answer c => exact ⟨answer, c, .refl _⟩
  | running p c =>
    obtain ⟨answer, stop, hgives⟩ := exists_gives p c
    exact ⟨answer, stop, hgives.reaches_finished⟩

/-! ## Whole texts -/

/-- Behind the tokens of a whole text only its end mark is taken. -/
theorem takeEnd_gives {c : Cursor} {ending : Ending} {ts : List Token} (hc : c.Faces ending ts)
    (a : α) :
    let plan : Plan α := do
      take .endOfInput
      return a
    (finish ending a ts = .ok a ∧ plan.Gives c (.ok a) c.stream.stop) ∨
      ∃ f n, finish ending a ts = .error f ∧ n + f.unread = ts.length + 1 ∧
        plan.Gives c (.error f.error) (c.skip n) := by
  intro plan
  cases ts with
  | nil =>
    have hnext := hc.next_ending
    cases ending with
    | ok mark =>
      refine .inl ⟨rfl, .read hnext ?_⟩
      dsimp only
      rw [if_pos hc.mark_kind]
      exact .done a _
    | error e =>
      refine .inr ⟨_, 1, rfl, rfl, ?_⟩
      rw [Cursor.skip, Cursor.skip, hnext]
      exact .unreadable hnext
  | cons t rest =>
    obtain ⟨c', hnext, hk, -⟩ := hc.next_token
    refine .inr ⟨_, 1, rfl, Nat.add_comm .., ?_⟩
    rw [Cursor.skip, Cursor.skip, hnext]
    refine .read hnext ?_
    dsimp only
    rw [if_neg hk]
    exact .fail _ _

/-- Reading a whole text step by step gives what reading its tokens gives. -/
theorem whole_gives {r : Rule} (c : Cursor)
    {rule : Ending → (ts : List Token) → Parse (ts.length + 1) r.Value}
    (hrule : (rule c.stream.ending c.stream.tokens).toExcept =
      r.outcome c.stream.ending c.stream.tokens) :
    (Plan.wholeText r).Gives c (c.parse rule).1 (c.parse rule).2 := by
  have hsettled := settled (r, c)
  match hx : r.outcome c.stream.ending c.stream.tokens with
  | .error f =>
    obtain ⟨n, hn, hgives⟩ := hsettled.fails f hx
    have hn' : c.stream.tokens.length + 1 - f.unread = n := Nat.sub_eq_of_eq_add hn.symm
    simp only [Cursor.parse, Grammar.whole, hrule, hx, hn']
    exact .callFails hgives
  | .ok (a, rest) =>
    obtain ⟨n, c', hreads, rfl, hgives⟩ := hsettled.gives a rest hx
    obtain ⟨hlength, -, hstop⟩ := hreads.stream
    have hc' := hreads.faces c.faces_stream
    obtain ⟨hfinish, hend⟩ | ⟨f, m, hfinish, hm, hend⟩ := takeEnd_gives hc' a
    · simp only [Cursor.parse, Grammar.whole, hrule, hx, hfinish]
      rw [← hstop]
      exact .call hgives hend
    · have hn' : c.stream.tokens.length + 1 - f.unread = n + m := by
        rw [hlength]
        omega
      simp only [Cursor.parse, Grammar.whole, hrule, hx, hfinish, hn']
      rw [← hreads.skip_eq]
      exact .call hgives hend

/-- What a rule gives, it has read, and the end mark is not part of that. -/
theorem exists_reads_of_gives {r : Rule} {c stop : Cursor} {a : r.Value}
    (h : r.plan.Gives c (.ok a) stop) : ∃ n, c.Reads n stop ∧
      r.outcome c.stream.ending c.stream.tokens = .ok (a, stop.stream.tokens) := by
  have hsettled := settled (r, c)
  match hx : r.outcome c.stream.ending c.stream.tokens with
  | .error f =>
    obtain ⟨_, -, hgives⟩ := hsettled.fails f hx
    cases (h.unique hgives).1
  | .ok (b, rest) =>
    obtain ⟨n, c', hreads, rfl, hgives⟩ := hsettled.gives b rest hx
    obtain ⟨ha, rfl⟩ := h.unique hgives
    cases ha
    exact ⟨n, hreads, rfl⟩

/-- Every round of the section of variables reads some token, the first one and the last one, too.
All other loops look first whether there is another round. -/
theorem variableSection_reads {c stop : Cursor} {nodes : List Node}
    (h : Rule.variableSection.plan.Gives c (.ok nodes) stop) : ∃ n, 0 < n ∧ c.Reads n stop := by
  obtain ⟨n, hreads, hx⟩ := exists_reads_of_gives h
  have hlt := length_lt_of_toExcept hx
  have hlength := hreads.stream.1
  exact ⟨n, by omega, hreads⟩

/-- Reading a program or an expression comes to an end from wherever it starts, be it where another
reading has failed, and so does what is left to do halfway. The reason is in the calls, where a loop
calls itself for its next round: each of them leaves fewer characters or has a smaller rank, and a
rule that is called again, directly or by rules that it has called, has read some token in between
that is not the end mark. -/
theorem parsing_ends :
    (∀ c : Cursor,
      (State.running (wholeText .program) c).Reaches
        (.finished c.parseProgram.1 c.parseProgram.2) ∧
      (State.running (wholeText .expression) c).Reaches
        (.finished c.parseExpression.1 c.parseExpression.2)) ∧
    (∀ (α : Type) (σ : State α), ∃ answer stop, σ.Reaches (.finished answer stop)) ∧
    (∀ x y : Rule × Cursor, Calls x y →
      Prod.Lex (· < ·) (· < ·) (y.2.rest.length, y.1.rank) (x.2.rest.length, x.1.rank)) ∧
    (∀ x y : Rule × Cursor, Relation.TransGen Calls x y → x.1.rank ≤ y.1.rank →
      ∃ n, 0 < n ∧ x.2.Reads n y.2) ∧
    (∀ (c stop : Cursor) (nodes : List Node),
      Rule.variableSection.plan.Gives c (.ok nodes) stop → ∃ n, 0 < n ∧ c.Reads n stop) := by
  refine ⟨fun c => ⟨?_, ?_⟩, fun _ => exists_finished, fun _ _ h => h.descends.below,
    fun _ _ => exists_reads_of_transGen, fun _ _ _ => variableSection_reads⟩
  · exact (whole_gives c rfl).reaches_finished
  · exact (whole_gives c (toExcept_weaken _ _)).reaches_finished

/-- An operand with two signs, which is an operand behind its first sign, and a section of one
variable. -/
theorem parsing_ends_sign :
    (Calls (.factor, .ofText "- -x") (.factor, ⟨" -x".toList, ⟨1, 2⟩⟩) ∧
      Prod.Lex (· < ·) (· < ·) (" -x".toList.length, Rule.factor.rank)
        ("- -x".toList.length, Rule.factor.rank) ∧
      ∃ n, 0 < n ∧ (Cursor.ofText "- -x").Reads n ⟨" -x".toList, ⟨1, 2⟩⟩) ∧
    ∃ nodes stop, Rule.variableSection.plan.Gives (.ofText "a:INTEGER;") (.ok nodes) stop ∧
      ∃ n, 0 < n ∧ (Cursor.ofText "a:INTEGER;").Reads n stop := by
  have hpeek : ((TokenReader.ofCursor (.ofText "- -x")).peek 1).1 =
      .ok ⟨.symbol .minus, "-", ⟨1, 1⟩⟩ := by decide +kernel
  have hnext : (Cursor.ofText "- -x").next =
      (.ok ⟨.symbol .minus, "-", ⟨1, 1⟩⟩, ⟨" -x".toList, ⟨1, 2⟩⟩) :=
    Prod.ext (by decide +kernel) (by decide +kernel)
  have hcalls : Calls (.factor, .ofText "- -x") (.factor, ⟨" -x".toList, ⟨1, 2⟩⟩) :=
    .look hpeek (.read hnext (.here _ _ _))
  have hsome : (Rule.variableSection.outcome (Cursor.ofText "a:INTEGER;").stream.ending
      (Cursor.ofText "a:INTEGER;").stream.tokens).isOk = true := by decide +kernel
  refine ⟨⟨hcalls, parsing_ends.2.2.1 _ _ hcalls,
    parsing_ends.2.2.2.1 _ _ (.single hcalls) (Nat.le_refl _)⟩, ?_⟩
  match hx : Rule.variableSection.outcome (Cursor.ofText "a:INTEGER;").stream.ending
      (Cursor.ofText "a:INTEGER;").stream.tokens with
  | .error f =>
    rw [hx] at hsome
    cases hsome
  | .ok (nodes, rest) =>
    obtain ⟨_, stop, -, -, hgives⟩ :=
      (settled (.variableSection, .ofText "a:INTEGER;")).gives nodes rest hx
    exact ⟨nodes, stop, hgives, parsing_ends.2.2.2.2 _ _ _ hgives⟩

end SmallPascal.Grammar

import SmallPascal.Proofs.Grammar.Expression

/-!
# The rules of statements decide

`compound_describes` and `statement_describes`. The list of statements decides only together with
the END behind it: a name that follows a statement is reported as a missing separator because END
could stand there, which is not said of a list by itself. `body` is the list and the END, and
`bodyBehind` what is left of both behind a statement.
-/

namespace SmallPascal.Grammar

open Phrase

variable {ending : Ending} {ts : List Token}

/-! ## What the first token tells of a statement -/

section

variable {d : Derivation .statement} {r w : List Token.Kind} {k : Token.Kind}

/-- A statement that begins neither with BEGIN nor with a name is empty. -/
theorem eq_emptyStatement (hbegin : k ≠ .keyword .beginBlock) (hname : ∀ x, k ≠ .identifier x)
    (heq : d.yield ++ r = k :: w) : d = .emptyStatement := by
  cases d with
  | emptyStatement => rfl
  | compoundStatement c =>
    cases c with
    | compound ss => exact absurd (List.cons.inj heq).1.symm hbegin
  | callStatement f args => exact absurd (List.cons.inj heq).1.symm (hname f)
  | assignment x e => exact absurd (List.cons.inj heq).1.symm (hname x)

/-- What may stand behind a statement begins none. -/
theorem ne_emptyStatement (hk : k = .keyword .beginBlock ∨ ∃ x, k = .identifier x)
    (hr : (phrase .statement).Follows r) (heq : d.yield ++ r = k :: w) : d ≠ .emptyStatement := by
  rintro rfl
  obtain rfl : r = k :: w := heq
  rcases hk with rfl | ⟨x, rfl⟩ <;> simp [Follows, Nonterminal.follow] at hr

/-- A statement that begins with BEGIN is a list in brackets. -/
theorem exists_compoundStatement (hr : (phrase .statement).Follows r)
    (heq : d.yield ++ r = .keyword .beginBlock :: w) :
    ∃ ss, d = .compoundStatement (.compound ss) := by
  cases d with
  | emptyStatement => exact absurd rfl (ne_emptyStatement (.inl rfl) hr heq)
  | compoundStatement c =>
    cases c with
    | compound ss => exact ⟨ss, rfl⟩
  | _ => simp at heq

/-- A statement that begins with a name and a parenthesis is a call. -/
theorem exists_callStatement {x : String} (hr : (phrase .statement).Follows r)
    (heq : d.yield ++ r = .identifier x :: .symbol .leftParen :: w) :
    ∃ args, d = .callStatement x args := by
  cases d with
  | emptyStatement => exact absurd rfl (ne_emptyStatement (.inr ⟨x, rfl⟩) hr heq)
  | compoundStatement c =>
    cases c with
    | compound ss => simp at heq
  | callStatement f args =>
    obtain ⟨rfl, -⟩ : f = x ∧ _ := by simpa using heq
    exact ⟨args, rfl⟩
  | assignment y e => simp at heq

/-- A statement that begins with a name and no parenthesis behind it is an assignment. -/
theorem exists_assignment {x : String} (hk : k ≠ .symbol .leftParen)
    (hr : (phrase .statement).Follows r) (heq : d.yield ++ r = .identifier x :: k :: w) :
    ∃ e, d = .assignment x e := by
  cases d with
  | emptyStatement => exact absurd rfl (ne_emptyStatement (.inr ⟨x, rfl⟩) hr heq)
  | compoundStatement c =>
    cases c with
    | compound ss => simp at heq
  | callStatement f args => simp [hk.symm] at heq
  | assignment y e =>
    obtain ⟨rfl, -⟩ : y = x ∧ _ := by simpa using heq
    exact ⟨e, rfl⟩

end

/-! ## Lists of statements and the END behind them -/

/-- Reads statements and the END behind them. -/
def body (ending : Ending) (ts : List Token) : Parse (ts.length + 1) (List Node) :=
  (statements ending ts).bind fun children rest _ =>
    ((expect ending (.keyword .endBlock) rest).map fun _ => children).weaken

/-- Reads what stands behind the first statement, up to the END behind them all. -/
def bodyBehind (ending : Ending) (first : Node) (ts : List Token) :
    Parse (ts.length + 1) (List Node) :=
  match ts with
  | [] => glance ending [] (reject ending (.kind (.keyword .endBlock)) [])
  | t :: rest =>
    match t.kind with
    | .symbol .semicolon => ((body ending rest).map (first :: ·)).weaken
    | .identifier name => .fail ⟨.missingSeparator name t.position, rest.length + 2⟩
    | _ => ((expect ending (.keyword .endBlock) (t :: rest)).map fun _ => [first]).weaken

/-- The node of the first statement may be put in front before or after END is read. -/
theorem toExcept_map_body (ending : Ending) (first : Node) (ts : List Token) {n : Nat}
    (h : ts.length + 1 ≤ n) :
    ((((statements ending ts).map (first :: ·)).weaken h).bind fun children rest _ =>
        ((expect ending (.keyword .endBlock) rest).map fun _ => children).weaken).toExcept =
      ((body ending ts).map (first :: ·)).toExcept := by
  rw [body]
  cases statements ending ts with
  | error e => rfl
  | ok out =>
    obtain ⟨⟨children, rest⟩, hlt⟩ := out
    simp only [Progress.bind, Progress.map, Progress.weaken]
    cases expect ending (.keyword .endBlock) rest <;> rfl

/-- Statements in front of an END are a statement and what stands behind it. -/
theorem toExcept_body (ending : Ending) (ts : List Token) :
    (body ending ts).toExcept =
      ((statement ending ts).bind fun first rest _ => bodyBehind ending first rest).toExcept := by
  rw [body, statements, Progress.toExcept_bind_assoc]
  refine Progress.toExcept_bind_congr fun first rest _ => ?_
  cases rest with
  | nil => cases ending <;> rfl
  | cons t rest =>
    cases hk : t.kind with
    | symbol s =>
      cases s with
      | semicolon =>
        simp only [bodyBehind, hk]
        rw [toExcept_map_body, Progress.toExcept_weaken]
      | _ =>
        simp only [bodyBehind, hk]
        rw [Progress.toExcept_bind_done, Progress.toExcept_weaken]
    | identifier x =>
      simp only [bodyBehind, hk]
      rfl
    | _ =>
      simp only [bodyBehind, hk]
      rw [Progress.toExcept_bind_done, Progress.toExcept_weaken]

/-- What stands behind the first statement of a list: END, or the rest of the list and END. -/
abbrev behind : Phrase (List Node) where
  Tree := Option (Derivation .statements)
  kinds
    | none => [.keyword .endBlock]
    | some ss => .symbol .semicolon :: (ss.yield ++ [.keyword .endBlock])
  value
    | none => []
    | some ss => ss.tree
  follow _ := True

/-- What stands behind a statement of a list, a semicolon or END, may follow a statement. -/
theorem follows_behind (d : behind.Tree) {r : List Token.Kind} :
    (phrase .statement).Follows (behind.kinds d ++ r) := by
  cases d <;> simp [Follows, Nonterminal.follow]

/-- Behind a statement stands a semicolon or END. -/
theorem behind_refutes {k : Token.Kind} (hsemi : k ≠ .symbol .semicolon)
    (hend : k ≠ .keyword .endBlock) : behind.Refutes [k] := by
  rintro (_ | ss) r w - heq
  · exact hend (List.cons.inj heq).1.symm
  · exact hsemi (List.cons.inj heq).1.symm

/-- What stands behind a statement is told by the next token. A name there is a missing separator,
since END would fit. -/
theorem bodyBehind_describes (first : Node)
    (h : ∀ t rest, ts = t :: rest →
      ((phrase .statements).closed (.keyword .endBlock)).Describes ending rest (body ending rest)) :
    (behind.map (first :: ·)).Describes ending ts (bodyBehind ending first ts) := by
  cases ts with
  | nil =>
    refine describes_glance (P := behind.map (first :: ·)) none fun mark hmark => ?_
    subst hmark
    have hmisfits : (behind.map (first :: ·)).Misfits (.ok mark) [] := by
      refine ⟨?_, by simp⟩
      rintro k ⟨⟩
      exact behind_refutes (by simp) (by simp)
    exact describes_reject (P := behind.map (first :: ·)) none hmisfits
  | cons t rest =>
    simp only [bodyBehind]
    split
    · next hk =>
      apply Describes.weaken
      refine ((h t rest rfl).map (first :: ·)).lift [t] (fun p => some p.1) rfl ?_ (fun _ => rfl)
        (fun _ _ => trivial) ?_
      · intro p
        simp [hk]
      · rintro k - (_ | ss) r w - heq
        · simp [hk] at heq
        · exact ⟨(ss, ()), rfl⟩
    · next x hk =>
      refine ⟨(fun h => by cases h), ?_⟩
      rintro f ⟨⟩
      refine ⟨[], t :: rest, rfl, ⟨none, _, rfl⟩, .separator t rest x hk ?_ ⟨none, [], rfl⟩⟩
      exact behind_refutes (by simp [hk]) (by simp [hk])
    · next hsemi hname =>
      apply Describes.weaken
      have hexpect : (item (.keyword .endBlock)).Describes ending (t :: rest)
          (expect ending (.keyword .endBlock) (t :: rest)) := by
        refine expect_describes ending _ (by simp) ?_
        rintro t' rest' x ⟨⟩ hx
        exact absurd hx (hname x)
      refine (hexpect.map fun _ => [first]).lift [] (fun _ => none) rfl (fun _ => rfl)
        (fun _ => rfl) (fun _ _ => trivial) ?_
      · rintro k hk (_ | ss) r w - heq
        · exact ⟨(), rfl⟩
        · obtain rfl := (List.cons.inj heq).1
          rcases probe_cons.1 hk with hk | hk
          · exact absurd hk.symm hsemi
          · cases hk

/-! ## The rules -/

/-- A compound is read as its BEGIN and then its body. -/
theorem toExcept_compound {t : Token} (ht : t.kind = .keyword .beginBlock) (rest : List Token) :
    (compound ending (t :: rest)).toExcept = (body ending rest).toExcept := by
  rw [compound]
  simp only [expect, ht, if_true]
  rw [Progress.toExcept_bind_done]
  rfl

/-- A name that no parenthesis follows is the target of an assignment. -/
theorem assignment_describes {t : Token} {x : String} (ht : t.kind = .identifier x)
    (hparen : ahead ending ts ≠ some (.symbol .leftParen)) :
    (phrase .statement).Describes ending (t :: ts) (assignment ending x ts) := by
  have h := (expect_symbol_describes ending .assign ts).seq
    (f := fun _ value => Node.assign x value) (B := phrase (.expression BinaryOp.tierCount))
    (fun _ rest _ => ((expression_describes ending rest).map (Node.assign x)).weaken
      (Nat.le_succ _))
    (follows_anything fun _ => trivial) (Derivation.name "" _)
  refine h.lift [t] (fun p => Derivation.assignment x p.2) rfl ?_ (fun _ => rfl) ?_ ?_
  · intro p
    simp [ht]
  · intro k hk
    obtain rfl | rfl : k = .symbol .semicolon ∨ k = .keyword .endBlock := by
      simpa [Nonterminal.follow] using hk
    all_goals exact .inl (by simp [closers])
  · intro k hk q r w hr heq
    obtain ⟨e, rfl⟩ := exists_assignment (hk.ne hparen (by simp)) hr (by simpa [ht] using heq)
    exact ⟨((), e), rfl⟩

mutual

/-- Statements and the END behind them are read as a statement and what stands behind it. -/
theorem body_describes (ending : Ending) (ts : List Token) :
    ((phrase .statements).closed (.keyword .endBlock)).Describes ending ts (body ending ts) := by
  have h := (statement_describes ending ts).seq (f := fun first more => first :: more)
    (B := behind) (k := fun first rest _ => bodyBehind ending first rest)
    (fun first rest hlt => bodyBehind_describes first fun t rest' ht =>
      have : rest'.length < ts.length := by
        rw [ht] at hlt
        simpa using hlt
      body_describes ending rest')
    (fun d r _ => follows_behind d) none
  refine Describes.congr ?_ (toExcept_body ending ts)
  refine h.build
    (fun
      | (d, none) => (Derivation.lastStatement d, ())
      | (d, some ss) => (Derivation.moreStatements d ss, ())) ?_ ?_ (fun _ _ => trivial) ?_
  · rintro ⟨d, _ | ss⟩ <;> simp
  · rintro ⟨d, _ | ss⟩ <;> rfl
  · rintro ⟨ss, ⟨⟩⟩
    cases ss with
    | lastStatement d => exact ⟨(d, none), rfl⟩
    | moreStatements d ss => exact ⟨(d, some ss), rfl⟩
termination_by 3 * ts.length + 2

/-- A statement is told by its first token, and behind a name by the one after. -/
theorem statement_describes (ending : Ending) (ts : List Token) :
    (phrase .statement).Describes ending ts (statement ending ts) := by
  cases ts with
  | nil =>
    rw [statement]
    refine describes_glance Derivation.emptyStatement fun mark hmark => ?_
    subst hmark
    refine describes_done [] Derivation.emptyStatement rfl rfl rfl ?_
    intro k hk d r w _ heq
    rcases probe_nil_ok.1 hk with rfl | rfl <;>
      exact eq_emptyStatement (by simp) (by simp) heq
  | cons t rest =>
    rw [statement]
    split
    · next ht =>
      apply Describes.weaken
      have h : (((phrase .statements).closed (.keyword .endBlock)).map Node.compound).Describes
          ending rest ((compound ending (t :: rest)).map Node.compound) :=
        ((body_describes ending rest).congr (toExcept_compound ht rest)).map Node.compound
      refine h.lift [t] (fun p => Derivation.compoundStatement (.compound p.1)) rfl ?_
        (fun _ => rfl) (fun _ _ => trivial) ?_
      · intro p
        simp [ht]
      · intro k _ q r w hr heq
        obtain ⟨ss, rfl⟩ := exists_compoundStatement hr (by simpa [ht] using heq)
        exact ⟨(ss, ()), rfl⟩
    · next x hx =>
      cases rest with
      | nil =>
        cases ending with
        | ok mark =>
          exact (assignment_describes hx (by simp [ahead])).weaken _
        | error e =>
          exact describes_unreadable rfl
            ⟨Derivation.callStatement x .noArguments, _, by simp [hx]; rfl⟩
      | cons u rest' =>
        simp only
        split
        · next hu =>
          apply Describes.weaken
          refine ((arguments_describes ending rest').map (Node.call x)).lift [t, u]
            (fun p => Derivation.callStatement x p.1) rfl ?_ (fun _ => rfl) (fun _ _ => trivial) ?_
          · intro p
            simp [hx, hu]
          · intro k _ q r w hr heq
            obtain ⟨args, rfl⟩ := exists_callStatement hr (by simpa [hx, hu] using heq)
            exact ⟨(args, ()), rfl⟩
        · next hu =>
          exact (assignment_describes hx (by simpa [ahead] using hu)).weaken _
    · next hbegin hname =>
      refine describes_done [] Derivation.emptyStatement rfl rfl rfl ?_
      intro k hk d r w _ heq
      rcases probe_cons.1 hk with rfl | rfl
      · exact eq_emptyStatement hbegin hname heq
      · exact eq_emptyStatement (by simp) (by simp) heq
termination_by 3 * ts.length + 1

end

/-- A compound is read as its BEGIN and its body. -/
theorem compound_describes (ending : Ending) (ts : List Token) :
    (phrase .compound).Describes ending ts (compound ending ts) := by
  have hbegin : (item (.keyword .beginBlock)).Describes ending ts
      (expect ending (.keyword .beginBlock) ts) :=
    expect_describes ending ts nofun fun _ _ _ _ _ => nofun
  have h := hbegin.seq (f := fun _ children => children)
    (B := (phrase .statements).closed (.keyword .endBlock))
    (fun _ rest _ => body_describes ending rest) (follows_anything fun _ => trivial)
    (Derivation.lastStatement .emptyStatement, ())
  rw [compound]
  refine h.build (fun p => Derivation.compound p.2.1) (fun _ => rfl) (fun _ => rfl)
    (fun _ _ => trivial) ?_
  intro q
  cases q with
  | compound ss => exact ⟨((), ss, ()), rfl⟩

end SmallPascal.Grammar

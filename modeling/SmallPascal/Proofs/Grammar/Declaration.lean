import SmallPascal.Proofs.Grammar.Statement

/-!
# The rules of declarations and programs decide

`program_describes` and what leads to it. Most parts of a declaration are told by the token that
opens them, which `optionally_describes` covers; a section of variables goes on where a name stands,
and routines where a word stands that opens one.
-/

namespace SmallPascal.Grammar

open Phrase

variable {ending : Ending} {ts : List Token}

/-! ## Names and their types -/

/-- Where no word for a type stands in front there is no type. -/
theorem type_misfits (h : ∀ type : TypeName, ahead ending ts ≠ some (.keyword type.keyword)) :
    type.Misfits ending ts where
  refutes k hk d r w _ heq := h d (by rw [hk, ← (List.cons.inj heq).1])
  refutes_end t rest x _ _ d r w _ heq := by
    cases d <;> simp [TypeName.keyword] at heq

/-- A type is one word. -/
theorem typeName_describes (ending : Ending) (ts : List Token) :
    type.Describes ending ts (typeName ending ts) := by
  cases ts with
  | nil =>
    refine describes_refuse TypeName.integer (type_misfits fun _ => ?_)
    cases ending <;> simp [ahead]
  | cons t rest =>
    simp only [typeName]
    split
    · next k hk =>
      split
      · next type htype =>
        have hkeyword := TypeName.ofKeyword?_eq_some_iff.1 htype
        refine describes_done [t] type rfl rfl (by simp [hk, hkeyword]) ?_
        intro k' _ d r w _ heq
        have hd : k = d.keyword := by simpa [hk, eq_comm] using (List.cons.inj heq).1
        rw [TypeName.ofKeyword?_eq_some_iff.2 hd] at htype
        exact Option.some.inj htype
      · next hnone =>
        refine describes_refuse TypeName.integer (type_misfits fun type htype => ?_)
        have hkeyword : k = type.keyword := by simpa [ahead, hk] using htype
        rw [TypeName.ofKeyword?_eq_some_iff.2 hkeyword] at hnone
        cases hnone
    · next hother =>
      refine describes_refuse TypeName.integer (type_misfits fun type htype => ?_)
      exact hother _ (Option.some.inj htype)

/-- Names are read as long as commas follow. -/
theorem names_describes (ending : Ending) (ts : List Token) :
    (phrase .names).Describes ending ts (names ending ts) := by
  have h := (identifier_describes ending ts).seq (f := fun first more => first :: more)
    (B := (phrase .names).maybe (.symbol .comma) [])
    (fun first rest hlt => by
      rw [map_maybe]
      exact optionally_describes nofun nofun fun rest' hlt' =>
        ((names_describes ending rest').map (first :: ·)).weaken (Nat.le_succ _))
    (follows_anything fun _ => trivial) none
  rw [names]
  refine h.build
    (fun
      | (x, none) => Derivation.lastName x
      | (x, some xs) => Derivation.moreNames x xs) ?_ ?_ ?_ ?_
  · rintro ⟨x, _ | xs⟩ <;> rfl
  · rintro ⟨x, _ | xs⟩ <;> rfl
  · rintro k rfl
    exact ⟨rfl, nofun⟩
  · intro q
    cases q with
    | lastName x => exact ⟨(x, none), rfl⟩
    | moreNames x xs => exact ⟨(x, some xs), rfl⟩
termination_by ts.length

/-- Names that share a type are read up to the type. -/
theorem nameGroup_describes (ending : Ending) (ts : List Token) :
    (phrase .nameGroup).Describes ending ts (nameGroup ending ts) := by
  have h := (names_describes ending ts).seq (f := fun vars type => (vars, type))
    (B := (item (.symbol .colon)).seq (fun _ type => type) type)
    (fun vars rest _ => ((expect_symbol_describes ending .colon rest).seq
      (f := fun _ type => (vars, type))
      (fun _ rest' _ => ((typeName_describes ending rest').map (vars, ·)).weaken (Nat.le_succ _))
      (follows_anything fun _ => trivial) TypeName.integer).weaken (Nat.le_succ _))
    (fun _ _ _ => rfl) ((), TypeName.integer)
  rw [nameGroup]
  refine h.build (fun p => Derivation.nameGroup p.1 p.2.2) (fun _ => rfl) (fun _ => rfl)
    (fun _ _ => trivial) ?_
  intro q
  cases q with
  | nameGroup xs type => exact ⟨(xs, (), type), rfl⟩

/-! ## Parameters and results -/

/-- Parameters are read as long as semicolons follow. -/
theorem parameters_describes (ending : Ending) (ts : List Token) :
    (phrase .parameters).Describes ending ts (parameters ending ts) := by
  have h := (nameGroup_describes ending ts).seq
    (f := fun group more => group.1.map (Param.mk · group.2) ++ more)
    (B := (phrase .parameters).maybe (.symbol .semicolon) [])
    (fun group rest hlt => by
      rw [map_maybe]
      exact optionally_describes nofun nofun fun rest' hlt' =>
        ((parameters_describes ending rest').map (group.1.map (Param.mk · group.2) ++ ·)).weaken
          (Nat.le_succ _))
    (follows_anything fun _ => trivial) none
  rw [parameters]
  simp only [List.append_nil] at h
  refine h.build
    (fun
      | (g, none) => Derivation.lastParameters g
      | (g, some gs) => Derivation.moreParameters g gs) ?_ ?_ ?_ ?_
  · rintro ⟨g, _ | gs⟩ <;> simp
  · rintro ⟨g, _ | gs⟩ <;> simp [Derivation.tree]
  · rintro k rfl
    exact ⟨rfl, nofun⟩
  · intro q
    cases q with
    | lastParameters g => exact ⟨(g, none), rfl⟩
    | moreParameters g gs => exact ⟨(g, some gs), rfl⟩
termination_by ts.length

/-- A parenthesis opens parameters. -/
theorem parameterPart_describes (ending : Ending) (ts : List Token) :
    (phrase .parameterPart).Describes ending ts (parameterPart ending ts) := by
  have h : (((phrase .parameters).closed (.symbol .rightParen)).maybe (.symbol .leftParen)
      []).Describes ending ts (parameterPart ending ts) :=
    optionally_describes nofun nofun fun rest _ =>
      ((parameters_describes ending rest).closed rfl id).weaken (Nat.le_succ _)
  refine h.part Derivation.noParameters (fun p => Derivation.someParameters p.1) ⟨rfl, rfl⟩
    (fun _ => ⟨rfl, rfl⟩) (fun _ _ => trivial) (by simp [Nonterminal.follow]) ?_
  intro q
  cases q with
  | noParameters => exact .inl rfl
  | someParameters gs => exact .inr ⟨(gs, ()), rfl⟩

/-- A function names the type of its result behind a colon. -/
theorem resultPart_describes (ending : Ending) (kind : RoutineKind) (ts : List Token) :
    (phrase (.resultPart kind)).Describes ending ts (resultPart ending kind ts) := by
  cases kind with
  | procedure =>
    refine describes_done [] Derivation.noResult rfl rfl rfl ?_
    intro k _ d r w _ _
    cases d with
    | noResult => rfl
  | function =>
    have h : ((type.map some).maybe (.symbol .colon) none).Describes ending ts
        (resultPart ending .function ts) :=
      optionally_describes nofun nofun fun rest _ =>
        ((typeName_describes ending rest).map some).weaken (Nat.le_succ _)
    refine h.part Derivation.noResult (fun type => Derivation.result type) ⟨rfl, rfl⟩
      (fun _ => ⟨rfl, rfl⟩) (fun _ _ => trivial) (by simp [Nonterminal.follow]) ?_
    intro q
    cases q with
    | noResult => exact .inl rfl
    | result type => exact .inr ⟨type, rfl⟩

/-! ## Variables -/

/-- A section of variables begins with a name. -/
theorem Derivation.exists_name (d : Derivation .variableSection) :
    ∃ x w, d.yield = .identifier x :: w := by
  have hgroup (g : Derivation .nameGroup) : ∃ x w, g.yield = .identifier x :: w := by
    cases g with
    | nameGroup xs type => cases xs <;> exact ⟨_, _, rfl⟩
  cases d with
  | lastVariables g =>
    obtain ⟨x, w, hg⟩ := hgroup g
    exact ⟨x, w ++ [.symbol .semicolon], by simp [hg]⟩
  | moreVariables g gs =>
    obtain ⟨x, w, hg⟩ := hgroup g
    exact ⟨x, w ++ .symbol .semicolon :: gs.yield, by simp [hg]⟩

/-- What stands behind the declarations of a type: more of them, or nothing. -/
abbrev moreSection : Phrase (List Node) where
  Tree := Option (Derivation .variableSection)
  kinds
    | none => []
    | some gs => gs.yield
  value
    | none => []
    | some gs => gs.tree
  follow := Nonterminal.variableSection.follow

/-- Where no name stands, a section of variables ends. -/
theorem moreSection_eq_none {k : Token.Kind} (hk : ∀ x, k ≠ .identifier x) {d : moreSection.Tree}
    {r w : List Token.Kind} (heq : moreSection.kinds d ++ r = k :: w) : d = none := by
  cases d with
  | none => rfl
  | some gs =>
    obtain ⟨x, v, hv⟩ := gs.exists_name
    simp only [hv, List.cons_append, List.cons.injEq] at heq
    exact absurd heq.1.symm (hk x)

/-- Declarations of variables are read as long as names follow. -/
theorem variableSection_describes (ending : Ending) (ts : List Token) :
    (phrase .variableSection).Describes ending ts (variableSection ending ts) := by
  rw [variableSection]
  refine (Describes.seq (f := fun group more => group.1.map (Node.varDecl · group.2) ++ more)
    (B := (item (.symbol .semicolon)).seq (fun _ more => more) moreSection)
    (nameGroup_describes ending ts) ?_
    (follows_anything fun _ => trivial) ((), none)).build
    (fun
      | (g, (), none) => Derivation.lastVariables g
      | (g, (), some gs) => Derivation.moreVariables g gs) ?_ ?_ (fun _ hk => hk) ?_
  · rintro ⟨vars, type⟩ rest hlt
    apply Describes.weaken
    refine Describes.seq (f := fun _ more => vars.map (Node.varDecl · type) ++ more)
      (expect_symbol_describes ending .semicolon rest) (fun _ rest' hlt' => ?_)
      (follows_anything fun _ => trivial) none
    -- Behind the semicolon a name begins further variables, and anything else ends the section.
    cases rest' with
    | nil =>
      refine describes_glance (P := moreSection.map _) none fun mark hmark => ?_
      subst hmark
      refine describes_done (P := moreSection.map _) [] none rfl (List.append_nil _) rfl ?_
      intro k hk d r w _ heq
      rcases probe_nil_ok.1 hk with rfl | rfl <;> exact moreSection_eq_none (by simp) heq
    | cons t rest'' =>
      simp only
      split
      · next x hx =>
        apply Describes.weaken
        have : (t :: rest'').length < ts.length := by
          simp only [List.length_cons] at *
          omega
        refine ((variableSection_describes ending (t :: rest'')).map
          (vars.map (Node.varDecl · type) ++ ·)).lift [] some rfl (fun _ => rfl) (fun _ => rfl)
          (fun _ hk => hk) ?_
        rintro k hk (_ | gs) r w hr heq
        · obtain rfl : r = k :: w := heq
          rcases probe_cons.1 hk with rfl | rfl <;> simp [hx, Follows, Nonterminal.follow] at hr
        · exact ⟨gs, rfl⟩
      · next hx =>
        refine describes_done (P := moreSection.map _) [] none rfl (List.append_nil _) rfl ?_
        intro k hk d r w _ heq
        rcases probe_cons.1 hk with rfl | rfl
        · exact moreSection_eq_none hx heq
        · exact moreSection_eq_none (by simp) heq
  · rintro ⟨g, ⟨⟩, _ | gs⟩ <;> simp
  · rintro ⟨g, ⟨⟩, _ | gs⟩ <;> simp [Derivation.tree]
  · intro q
    cases q with
    | lastVariables g => exact ⟨(g, (), none), rfl⟩
    | moreVariables g gs => exact ⟨(g, (), some gs), rfl⟩
termination_by ts.length

/-- The word VAR opens the variables of a block. -/
theorem variablePart_describes (ending : Ending) (ts : List Token) :
    (phrase .variablePart).Describes ending ts (variablePart ending ts) := by
  have h : ((phrase .variableSection).maybe (.keyword .varSection) []).Describes ending ts
      (variablePart ending ts) :=
    optionally_describes nofun nofun fun rest _ =>
      (variableSection_describes ending rest).weaken (Nat.le_succ _)
  refine h.part Derivation.noVariables (fun gs => Derivation.someVariables gs) ⟨rfl, rfl⟩
    (fun _ => ⟨rfl, rfl⟩) (fun _ hk => hk) (by simp [Nonterminal.follow]) ?_
  intro q
  cases q with
  | noVariables => exact .inl rfl
  | someVariables gs => exact .inr ⟨gs, rfl⟩

/-! ## Routines and blocks -/

/-- The heading of a routine behind the word that opens it. -/
abbrev routineHeading (kind : RoutineKind) : Phrase (String × List Param × Option TypeName) :=
  name.seq Prod.mk ((phrase .parameterPart).seq Prod.mk
    ((phrase (.resultPart kind)).closed (.symbol .semicolon)))

/-- Behind the parameters of a routine stands a colon or a semicolon. -/
theorem follows_resultPart {kind : RoutineKind} (d : Derivation (.resultPart kind))
    (r : List Token.Kind) :
    (phrase .parameterPart).Follows (d.yield ++ [.symbol .semicolon] ++ r) := by
  cases d <;> simp [Follows, Nonterminal.follow]

/-- A heading is read as a name, the parameters, the type of the result and a semicolon. -/
theorem heading_describes (ending : Ending) (kind : RoutineKind) (ts : List Token) :
    (routineHeading kind).Describes ending ts (heading ending kind ts) := by
  refine Describes.seq (f := Prod.mk) (identifier_describes ending ts) (fun x rest _ => ?_)
    (follows_anything fun _ => trivial) (.noParameters, .noResult, ())
  refine Describes.seq (f := fun ps ret => (x, ps, ret)) (parameterPart_describes ending rest)
    (fun ps rest' _ => ?_) (fun d r _ => follows_resultPart d.1 r) (.noResult, ())
  exact (resultPart_describes ending kind rest').closed rfl fun ret => (x, ps, ret)

/-- A routine behind the word that opens it. -/
abbrev routineBehind (kind : RoutineKind) : Phrase Routine :=
  (routineHeading kind).seq (fun h b => ⟨h.1, kind, h.2.1, h.2.2, b⟩)
    ((phrase .block).closed (.symbol .semicolon))

/-- Where no word stands that opens a routine, there are no routines. -/
theorem eq_noRoutines {k : Token.Kind} (hk : ∀ kind : RoutineKind, k ≠ .keyword kind.keyword)
    {d : Derivation .routines} {r w : List Token.Kind} (heq : d.yield ++ r = k :: w) :
    d = .noRoutines := by
  cases d with
  | noRoutines => rfl
  | moreRoutines first more =>
    cases first with
    | routine kind x ps ret b => exact absurd (List.cons.inj heq).1.symm (hk kind)

/-- Behind a word that opens a routine there is one. -/
theorem exists_moreRoutines (kind : RoutineKind) {d : Derivation .routines}
    {r w : List Token.Kind} (hr : (phrase .routines).Follows r)
    (heq : d.yield ++ r = .keyword kind.keyword :: w) :
    ∃ x ps ret b more, d = .moreRoutines (.routine kind x ps ret b) more := by
  cases d with
  | noRoutines =>
    obtain rfl : r = _ := heq
    cases kind <;> simp [Follows, Nonterminal.follow, RoutineKind.keyword] at hr
  | moreRoutines first more =>
    cases first with
    | routine kind' x ps ret b =>
      have hkind : kind'.keyword = kind.keyword := by simpa using (List.cons.inj heq).1
      obtain rfl : kind' = kind := by cases kind <;> cases kind' <;> first | rfl | cases hkind
      exact ⟨x, ps, ret, b, more, rfl⟩

/-- Behind the variables of a block stands a routine or BEGIN. -/
theorem follows_routines (rs : Derivation .routines) (c : Derivation .compound)
    (r : List Token.Kind) : (phrase .variablePart).Follows (rs.yield ++ c.yield ++ r) := by
  cases rs with
  | noRoutines => cases c; simp [Follows, Nonterminal.follow]
  | moreRoutines first more =>
    cases first with
    | routine kind x ps ret b =>
      cases kind <;> simp [Follows, Nonterminal.follow, RoutineKind.keyword]

mutual

/-- A block is read as its variables, its routines and its statements. -/
theorem block_describes (ending : Ending) (ts : List Token) :
    (phrase .block).Describes ending ts (block ending ts) := by
  rw [block]
  refine (Describes.seq (f := fun vars p => Block.mk (vars ++ p.1.map Routine.node) p.2)
    (B := (phrase .routines).seq Prod.mk (phrase .compound)) (variablePart_describes ending ts)
    (fun vars rest _ => ?_) (fun p r _ => follows_routines p.1 p.2 r)
    (.noRoutines, .compound (.lastStatement .emptyStatement))).build
    (fun p => Derivation.block p.1 p.2.1 p.2.2) (fun _ => rfl) (fun _ => rfl)
    (fun _ _ => trivial) ?_
  · refine Describes.seq (f := fun rs body => Block.mk (vars ++ rs.map Routine.node) body)
      (routines_describes ending rest)
      (fun rs rest' _ => ((compound_describes ending rest').map _).weaken _) ?_
      (.compound (.lastStatement .emptyStatement))
    intro c r _
    cases c
    rfl
  · intro q
    cases q with
    | block vs rs c => exact ⟨(vs, rs, c), rfl⟩
termination_by 2 * ts.length + 1

/-- Routines are read as long as words stand there that open them. -/
theorem routines_describes (ending : Ending) (ts : List Token) :
    (phrase .routines).Describes ending ts (routines ending ts) := by
  cases ts with
  | nil =>
    rw [routines]
    refine describes_glance Derivation.noRoutines fun mark hmark => ?_
    subst hmark
    refine describes_done [] Derivation.noRoutines rfl rfl rfl ?_
    intro k hk d r w _ heq
    rcases probe_nil_ok.1 hk with rfl | rfl <;>
      exact eq_noRoutines (fun kind => by cases kind <;> simp [RoutineKind.keyword]) heq
  | cons t rest =>
    -- Without a word that opens a routine nothing is read, whatever the token is.
    have hnone (hne : ∀ kind : RoutineKind, t.kind ≠ .keyword kind.keyword) :
        (phrase .routines).Describes ending (t :: rest)
          (.done [] (t :: rest) : Parse (rest.length + 2) (List Routine)) := by
      refine describes_done [] Derivation.noRoutines rfl rfl rfl ?_
      intro k hk d r w _ heq
      rcases probe_cons.1 hk with rfl | rfl
      · exact eq_noRoutines hne heq
      · exact eq_noRoutines (fun kind => by cases kind <;> simp [RoutineKind.keyword]) heq
    rw [routines]
    split
    · next k hk =>
      split
      · next kind hkind =>
        have ht := RoutineKind.ofKeyword?_eq_some_iff.1 hkind
        apply Describes.weaken
        refine (Describes.seq (f := fun first more => first :: more) (B := phrase .routines)
          (routine_describes ending kind rest)
          (fun first rest' _ => (routines_describes ending rest').map (first :: ·))
          (follows_anything fun _ => trivial) .noRoutines).lift [t]
          (fun p => Derivation.moreRoutines
            (.routine kind p.1.1.1 p.1.1.2.1 p.1.1.2.2.1 p.1.2.1) p.2)
          rfl ?_ (fun _ => rfl) (fun _ hk => hk) ?_
        · intro p
          simp [hk, ht]
        · intro k' _ q r w hr heq
          obtain ⟨x, ps, ret, b, more, rfl⟩ :=
            exists_moreRoutines kind hr (by simpa [hk, ht] using heq)
          exact ⟨(((x, ps, ret, ()), b, ()), more), rfl⟩
      · next hkind =>
        refine hnone fun kind ht => ?_
        have hkeyword : k = kind.keyword := by simpa [hk] using ht
        rw [RoutineKind.ofKeyword?_eq_some_iff.2 hkeyword] at hkind
        cases hkind
    · next hk => exact hnone fun kind => hk _
termination_by 2 * ts.length

/-- A routine is read as its heading, its block and a semicolon. -/
theorem routine_describes (ending : Ending) (kind : RoutineKind) (ts : List Token) :
    (routineBehind kind).Describes ending ts (routine ending kind ts) := by
  rw [routine]
  refine Describes.seq (f := fun h b => Routine.mk h.1 kind h.2.1 h.2.2 b)
    (B := (phrase .block).closed (.symbol .semicolon)) (heading_describes ending kind ts) ?_
    (follows_anything fun _ => trivial) (Derivation.emptyBlock, ())
  rintro ⟨x, ps, ret⟩ rest hlt
  exact (block_describes ending rest).closed trivial (Routine.mk x kind ps ret)
termination_by 2 * ts.length

end

/-! ## Programs -/

/-- The word PROGRAM opens the heading of a program. -/
theorem programHeading_describes (ending : Ending) (ts : List Token) :
    (phrase .programHeading).Describes ending ts (programHeading ending ts) := by
  have h : ((name.closed (.symbol .semicolon)).maybe (.keyword .program)
      Program.defaultName).Describes ending ts (programHeading ending ts) :=
    optionally_describes nofun nofun fun rest _ =>
      ((identifier_describes ending rest).closed trivial id).weaken (Nat.le_succ _)
  refine h.part Derivation.noHeading (fun p => Derivation.heading p.1) ⟨rfl, rfl⟩
    (fun _ => ⟨rfl, rfl⟩) (fun _ _ => trivial) (by simp [Nonterminal.follow]) ?_
  intro q
  cases q with
  | noHeading => exact .inl rfl
  | heading x => exact .inr ⟨(x, ()), rfl⟩

/-- Behind the heading of a program stands what opens a block. -/
theorem follows_block (b : Derivation .block) (r : List Token.Kind) :
    (phrase .programHeading).Follows (b.yield ++ r) := by
  cases b with
  | block vs rs c =>
    cases vs with
    | someVariables gs => simp [Follows, Nonterminal.follow]
    | noVariables =>
      have h := follows_routines rs c r
      simp only [Derivation.yield, List.nil_append]
      cases hks : rs.yield ++ c.yield ++ r with
      | nil => trivial
      | cons k ks =>
        rw [hks] at h
        exact List.mem_cons_of_mem _ h

/-- A program is read as its heading, its block and a dot. -/
theorem program_describes (ending : Ending) (ts : List Token) :
    (phrase .program).Describes ending ts (program ending ts) := by
  rw [program]
  refine (Describes.seq (f := Program.mk) (B := (phrase .block).closed (.symbol .dot))
    (programHeading_describes ending ts) (fun x rest _ => ?_)
    (fun p r _ => by simpa using follows_block p.1 (.symbol .dot :: r))
    (Derivation.emptyBlock, ())).build (fun p => Derivation.program p.1 p.2.1)
    (fun _ => rfl) (fun _ => rfl) (fun _ _ => trivial) ?_
  · exact (block_describes ending rest).closed trivial (Program.mk x)
  · intro q
    cases q with
    | program h b => exact ⟨(h, b, ()), rfl⟩

end SmallPascal.Grammar

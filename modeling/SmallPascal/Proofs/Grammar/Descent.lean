import SmallPascal.Grammar
import SmallPascal.Proofs.Grammar.Plan
import SmallPascal.Proofs.Token.Tiling

/-!
# Where plans lead

A plan that is carried out at a cursor does there what a reading rule does with the tokens that
stand in front (`Plan.Follows`): it gives the same result and stops behind the same tokens, or fails
for the same reason with as many items left unread. What it calls on its way is said together with
that, because an answer can be given only if all calls are answered.

A call is a descent if some token is read before it, none of these being the end mark, or else the
called rule has a smaller rank (`Descends`). The end mark can be read without end and moves nothing,
so it does not count. Descents cannot go on for ever (`wellFounded_descends`), since every token
that is read makes the text shorter (`Cursor.Reads.length_le`).

The lemmas about `Plan.Follows` correspond to the ways in which plans and rules are put together.
-/

namespace SmallPascal

/-! ## Reading on -/

namespace Cursor

/-- So many tokens stand between two cursors, and none of them is the end mark. -/
inductive Reads : Cursor → Nat → Cursor → Prop where
  | nil (c : Cursor) : Reads c 0 c
  | cons {c c' stop : Cursor} {t : Token} {n : Nat} (reads : c.next = (.ok t, c'))
    (ne_end : t.kind ≠ .endOfInput) (more : Reads c' n stop) : Reads c (n + 1) stop

namespace Reads

variable {c c' c'' : Cursor} {m n : Nat}

/-- Reading one token is reading on by one. -/
theorem single {t : Token} (h : c.next = (.ok t, c')) (hk : t.kind ≠ .endOfInput) :
    c.Reads 1 c' :=
  .cons h hk (.nil c')

/-- Tokens that are read one after the other add up. -/
theorem trans (h : c.Reads m c') (h' : c'.Reads n c'') : c.Reads (m + n) c'' := by
  induction h with
  | nil => rwa [Nat.zero_add]
  | cons hnext hk _ ih =>
    rw [Nat.add_right_comm]
    exact .cons hnext hk (ih h')

/-- Moving on from where tokens have led. -/
theorem skip_eq (h : c.Reads m c') : c'.skip n = c.skip (m + n) := by
  induction h with
  | nil => rw [Nat.zero_add]
  | cons hnext _ _ ih => rw [ih, Nat.add_right_comm, skip, hnext]

/-- Every token makes the text that is left shorter. -/
theorem length_le (h : c.Reads n c') : c'.rest.length + n ≤ c.rest.length := by
  induction h with
  | nil => exact Nat.le_refl _
  | cons hnext hk _ ih =>
    have hlt := next_lt hnext hk
    omega

/-- The tokens that are read are the first ones of the stream. -/
theorem stream (h : c.Reads n c') :
    c.stream.tokens.length = n + c'.stream.tokens.length ∧
      c'.stream.ending = c.stream.ending ∧ c'.stream.stop = c.stream.stop := by
  induction h with
  | nil => exact ⟨(Nat.zero_add _).symm, rfl, rfl⟩
  | cons hnext hk _ ih =>
    rw [stream_of_next_token hnext hk, List.length_cons, ih.1]
    exact ⟨by omega, ih.2⟩

end Reads

/-- What stands in front of a cursor. -/
structure Faces (c : Cursor) (ending : Grammar.Ending) (ts : List Token) : Prop where
  tokens_eq : c.stream.tokens = ts
  ending_eq : c.stream.ending = ending

section

variable {c c' : Cursor} {ending : Grammar.Ending} {t u mark : Token} {ts rest : List Token}
  {e : LexicalError}

/-- In front of a cursor stands its stream. -/
theorem faces_stream (c : Cursor) : c.Faces c.stream.ending c.stream.tokens :=
  ⟨rfl, rfl⟩

/-- Reading on does not change how the text ends. -/
theorem Reads.faces {n : Nat} (h : c.Reads n c') (hc : c.Faces ending ts) :
    c'.Faces ending c'.stream.tokens :=
  ⟨rfl, h.stream.2.1.trans hc.ending_eq⟩

/-- The tokens between two cursors are those in front of the first less those in front of the
second. -/
theorem Reads.length_eq {n : Nat} (h : c.Reads n c') (hc : c.Faces ending ts)
    (hc' : c'.Faces ending rest) : n + rest.length = ts.length := by
  rw [← hc.tokens_eq, ← hc'.tokens_eq, h.stream.1]

/-- A token that stands in front is the next one. -/
theorem Faces.next_token (hc : c.Faces ending (t :: rest)) :
    ∃ c', c.next = (.ok t, c') ∧ t.kind ≠ .endOfInput ∧ c'.Faces ending rest := by
  obtain ⟨htokens, hending⟩ := hc
  match hnext : c.next with
  | (.error e, stop) =>
    rw [stream_of_next_error hnext] at htokens
    cases htokens
  | (.ok t', c') =>
    by_cases hk : t'.kind = .endOfInput
    · rw [stream_of_next_mark hnext hk] at htokens
      cases htokens
    · rw [stream_of_next_token hnext hk] at htokens hending
      obtain ⟨rfl, hrest⟩ := List.cons.inj htokens
      exact ⟨c', rfl, hk, hrest, hending⟩

/-- Where no token stands in front, the ending is next. -/
theorem Faces.next_ending (hc : c.Faces ending []) : c.next = (ending, c.stream.stop) := by
  obtain ⟨htokens, rfl⟩ := hc
  match hnext : c.next with
  | (.error e, stop) => rw [stream_of_next_error hnext]
  | (.ok t', c') =>
    by_cases hk : t'.kind = .endOfInput
    · rw [stream_of_next_mark hnext hk]
    · rw [stream_of_next_token hnext hk] at htokens
      cases htokens

/-- A text that ends with a token ends with the end mark. -/
theorem Faces.mark_kind (hc : c.Faces (.ok mark) ts) : mark.kind = .endOfInput :=
  stream_mark_kind hc.ending_eq

/-- Looking ahead by one token sees the next one. -/
theorem peek_one (c : Cursor) : ((TokenReader.ofCursor c).peek 1).1 = c.next.1 :=
  rfl

/-- Looking ahead by two tokens sees the one behind the next, unless that is the end mark. -/
theorem peek_two_of_next (h : c.next = (.ok t, c')) (hk : t.kind ≠ .endOfInput) :
    ((TokenReader.ofCursor c).peek 2).1 = c'.next.1 := by
  simp [TokenReader.peek, TokenReader.readAhead, TokenReader.next, TokenReader.ofCursor, h, hk]

end

end Cursor

namespace Grammar

open Plan

/-! ## Descents -/

/-- How deep rules may call each other where they stand, without reading anything: a rule has a
greater rank than those that it may call in this way. -/
def Rule.rank : Rule → Nat
  | .program | .variableSection | .parameters | .statements | .routine _ => 2
  | .block | .nameGroup | .statement => 1
  | .tiers n => n + 1
  | .arguments => BinaryOp.tierCount + 2
  | _ => 0

/-- A rule at a cursor calls another one at another cursor. -/
def Calls (x y : Rule × Cursor) : Prop :=
  x.1.plan.Meets x.2 y

/-- Between two rules some token is read, or the second one has a smaller rank. -/
def Descends (x y : Rule × Cursor) : Prop :=
  ∃ n, x.2.Reads n y.2 ∧ (0 < n ∨ y.1.rank < x.1.rank)

/-- What a descent makes smaller: how many characters are left, and then the rank. -/
def Below (x y : Rule × Cursor) : Prop :=
  Prod.Lex (· < ·) (· < ·) (x.2.rest.length, x.1.rank) (y.2.rest.length, y.1.rank)

/-- Descents in a row are a descent, since each has read something or else is of a smaller rank. -/
theorem Descends.trans {x y z : Rule × Cursor} (h : Descends x y) (h' : Descends y z) :
    Descends x z := by
  obtain ⟨m, hreads, hm⟩ := h
  obtain ⟨n, hreads', hn⟩ := h'
  exact ⟨m + n, hreads.trans hreads', by omega⟩

/-- A descent makes the pair of the characters left and the rank smaller. -/
theorem Descends.below {x y : Rule × Cursor} (h : Descends x y) : Below y x := by
  obtain ⟨n, hreads, hn⟩ := h
  have hle := hreads.length_le
  refine Prod.lex_def.2 ?_
  dsimp only
  omega

/-- No descents go on for ever. -/
theorem wellFounded_descends : WellFounded fun y x => Descends x y :=
  Subrelation.wf Descends.below (InvImage.wf _ (Prod.lex Nat.lt_wfRel Nat.lt_wfRel).wf)

/-! ## Following a rule -/

variable {α β : Type}

/-- A plan does at a cursor what a rule does that leaves `x`, and makes only calls that are
allowed. -/
structure Plan.Follows (allowed : Rule × Cursor → Prop) (p : Plan α) (c : Cursor)
    (x : Except Failure (α × List Token)) : Prop where
  gives : ∀ a rest, x = .ok (a, rest) →
    ∃ n c', c.Reads n c' ∧ c'.stream.tokens = rest ∧ p.Gives c (.ok a) c'
  fails : ∀ f, x = .error f →
    ∃ n, n + f.unread = c.stream.tokens.length + 1 ∧ p.Gives c (.error f.error) (c.skip n)
  meets : ∀ y, p.Meets c y → allowed y

section

variable {allowed : Rule × Cursor → Prop} {c c' : Cursor} {p : Plan α} {next : Token → Plan α}
  {x : Except Failure (α × List Token)} {ending : Ending} {ts rest : List Token} {t u mark : Token}
  {e : LexicalError} {a : α} {bound : Nat}

/-- A result that is known is given without reading. -/
theorem follows_done (hc : c.Faces ending rest) (a : α) :
    (done a).Follows allowed c (.ok (a, rest)) where
  gives a' rest' h := by
    cases h
    exact ⟨0, c, .nil c, hc.tokens_eq, .done a c⟩
  fails _ := nofun
  meets _ := nofun

/-- A plan that fails has read nothing, so everything in front of it is left, the ending
included. -/
theorem follows_fail (hc : c.Faces ending ts) (error : SyntaxError) :
    (Plan.fail error : Plan α).Follows allowed c (.error ⟨error, ts.length + 1⟩) where
  gives _ _ := nofun
  fails f h := by
    cases h
    exact ⟨0, by rw [hc.tokens_eq, Nat.zero_add], .fail error c⟩
  meets _ := nofun

/-- Reading a token, and then following a rule that begins behind it. -/
theorem follows_read (hc : c.Faces ending (t :: rest))
    (h : ∀ c', c.Reads 1 c' → c'.Faces ending rest → (next t).Follows allowed c' x) :
    (read next).Follows allowed c x := by
  obtain ⟨c', hnext, hk, hc'⟩ := hc.next_token
  have hread := Cursor.Reads.single hnext hk
  have hfollows := h c' hread hc'
  refine ⟨fun a left hx => ?_, fun f hx => ?_, fun y hy => ?_⟩
  · obtain ⟨n, stop, hreads, hleft, hgives⟩ := hfollows.gives a left hx
    exact ⟨1 + n, stop, hread.trans hreads, hleft, .read hnext hgives⟩
  · obtain ⟨n, hn, hgives⟩ := hfollows.fails f hx
    rw [hread.skip_eq] at hgives
    exact ⟨1 + n, by rw [hread.stream.1]; omega, .read hnext hgives⟩
  · cases hy with
    | read hreads hmeets =>
      cases hnext.symm.trans hreads
      exact hfollows.meets y hmeets

/-- Reading the ending, and then failing. The end mark has been read then, and nothing is left. -/
theorem follows_read_ending (hc : c.Faces ending []) {error : SyntaxError}
    (h : ∀ mark, ending = .ok mark → next mark = Plan.fail error)
    (h' : ∀ e, ending = .error e → error = .lexical e) :
    (read next).Follows allowed c (.error ⟨error, 0⟩) := by
  have hnext := hc.next_ending
  refine ⟨nofun, ?_, fun y hy => ?_⟩
  · rintro f ⟨⟩
    refine ⟨1, by rw [hc.tokens_eq]; rfl, ?_⟩
    rw [Cursor.skip, Cursor.skip, hnext]
    cases hending : ending with
    | ok mark =>
      rw [hending] at hnext
      refine .read hnext ?_
      rw [h mark hending]
      exact .fail error _
    | error e =>
      rw [hending] at hnext
      rw [h' e hending]
      exact .unreadable hnext
  · cases hy with
    | @read _ _ _ t _ hreads hmeets =>
      rw [hnext] at hreads
      rw [h t (Prod.mk.inj hreads).1] at hmeets
      cases hmeets

/-- Looking at a token, and then following a rule that begins in front of it. -/
theorem follows_look {count : Nat} (hsees : ((TokenReader.ofCursor c).peek count).1 = .ok t)
    (h : (next t).Follows allowed c x) : (look count next).Follows allowed c x := by
  refine ⟨fun a left hx => ?_, fun f hx => ?_, fun y hy => ?_⟩
  · obtain ⟨n, stop, hreads, hleft, hgives⟩ := h.gives a left hx
    exact ⟨n, stop, hreads, hleft, .look hsees hgives⟩
  · obtain ⟨n, hn, hgives⟩ := h.fails f hx
    exact ⟨n, hn, .look hsees hgives⟩
  · cases hy with
    | look hsees' hmeets =>
      cases hsees.symm.trans hsees'
      exact h.meets y hmeets

/-- Looking at what cannot be read. -/
theorem follows_look_error {count : Nat} (hc : c.Faces ending ts)
    (hfails : ((TokenReader.ofCursor c).peek count).1 = .error e) :
    (look count next).Follows allowed c (.error ⟨.lexical e, ts.length + 1⟩) := by
  refine ⟨nofun, ?_, fun y hy => ?_⟩
  · rintro f ⟨⟩
    exact ⟨0, by rw [hc.tokens_eq, Nat.zero_add], .unseen hfails⟩
  · cases hy with
    | look hsees => cases hfails.symm.trans hsees

/-- Looking at the next token where one stands in front. -/
theorem follows_look_next (hc : c.Faces ending (t :: rest))
    (h : (next t).Follows allowed c x) : (look 1 next).Follows allowed c x := by
  obtain ⟨c', hnext, -⟩ := hc.next_token
  exact follows_look (by rw [Cursor.peek_one, hnext]) h

/-- Looking at the ending. -/
theorem follows_glance (hc : c.Faces ending []) {otherwise : Parse bound α}
    (h : ∀ mark, ending = .ok mark → mark.kind = .endOfInput →
      (next mark).Follows allowed c otherwise.toExcept) :
    (look 1 next).Follows allowed c (glance ending [] otherwise).toExcept := by
  have hpeek : ((TokenReader.ofCursor c).peek 1).1 = ending := by
    rw [Cursor.peek_one, hc.next_ending]
  cases ending with
  | ok mark => exact follows_look hpeek (h mark rfl hc.mark_kind)
  | error e => exact follows_look_error hc hpeek

/-- Looking at the token behind the next one where both stand in front. -/
theorem follows_look_second (hc : c.Faces ending (t :: u :: rest))
    (h : (next u).Follows allowed c x) : (look 2 next).Follows allowed c x := by
  obtain ⟨c', hnext, hk, hc'⟩ := hc.next_token
  obtain ⟨c'', hnext', -⟩ := hc'.next_token
  exact follows_look (by rw [Cursor.peek_two_of_next hnext hk, hnext']) h

/-- Looking at the ending behind a token. -/
theorem peek_second_ending (hc : c.Faces ending [t]) :
    ((TokenReader.ofCursor c).peek 2).1 = ending := by
  obtain ⟨c', hnext, hk, hc'⟩ := hc.next_token
  rw [Cursor.peek_two_of_next hnext hk, hc'.next_ending]

/-- Two plans in a row fail if the first one does. -/
theorem follows_bind_error {f : α → Plan β} {failure : Failure}
    (h : p.Follows allowed c (.error failure)) : (p.bind f).Follows allowed c (.error failure) := by
  obtain ⟨n, hn, hgives⟩ := h.fails failure rfl
  refine ⟨nofun, ?_, fun y hy => ?_⟩
  · rintro f ⟨⟩
    exact ⟨n, hn, hgives.bind_error⟩
  · obtain hmeets | ⟨a, c', hgives', -⟩ := hy.of_bind
    · exact h.meets y hmeets
    · cases (hgives.unique hgives').1

/-- Two plans in a row follow two steps in a row. -/
theorem follows_bind {f : α → Plan β} {x : Parse bound α}
    {g : (a : α) → (rest : List Token) → rest.length < bound → Parse (rest.length + 1) β}
    (hc : c.Faces ending ts) (h : p.Follows allowed c x.toExcept)
    (hf : ∀ a rest hlt n c', n + rest.length = ts.length → c.Reads n c' → c'.Faces ending rest →
      (f a).Follows allowed c' (g a rest hlt).toExcept) :
    (p.bind f).Follows allowed c (x.bind g).toExcept := by
  match hx : x.toExcept with
  | .error failure =>
    rw [hx] at h
    rw [Progress.toExcept_bind_eq_error_iff.2 (.inl hx)]
    exact follows_bind_error h
  | .ok (a, rest) =>
    have hlt := Progress.length_lt_of_toExcept hx
    obtain ⟨n, c', hreads, rfl, hgives⟩ := h.gives a rest hx
    have hlength := hreads.length_eq hc (hreads.faces hc)
    have hfollows := hf a _ hlt n c' hlength hreads (hreads.faces hc)
    refine ⟨fun b left hb => ?_, fun failure hfailure => ?_, fun y hy => ?_⟩
    · obtain ⟨a', rest', _, hx', hb⟩ := Progress.toExcept_bind_eq_ok_iff.1 hb
      cases hx.symm.trans hx'
      obtain ⟨m, stop, hreads', hleft, hgives'⟩ := hfollows.gives b left hb
      exact ⟨n + m, stop, hreads.trans hreads', hleft, hgives.bind hgives'⟩
    · obtain hfailure | ⟨a', rest', _, hx', hfailure⟩ :=
        Progress.toExcept_bind_eq_error_iff.1 hfailure
      · cases hx.symm.trans hfailure
      · cases hx.symm.trans hx'
        obtain ⟨m, hm, hgives'⟩ := hfollows.fails failure hfailure
        rw [hreads.skip_eq] at hgives'
        exact ⟨n + m, by rw [hreads.stream.1]; omega, hgives.bind hgives'⟩
    · -- A call is met on the way through `p`, or behind the one answer that `p` gives.
      obtain hmeets | ⟨a', stop, hgives', hmeets⟩ := hy.of_bind
      · exact h.meets y hmeets
      · obtain ⟨ha, rfl⟩ := hgives.unique hgives'
        cases ha
        exact hfollows.meets y hmeets

/-- Changing a result. -/
theorem follows_map {x : Parse bound α} (h : p.Follows allowed c x.toExcept) (f : α → β) :
    (p.bind fun a => done (f a)).Follows allowed c (x.map f).toExcept := by
  rw [Progress.toExcept_map]
  match hx : x.toExcept with
  | .error failure =>
    rw [hx] at h
    exact follows_bind_error h
  | .ok (a, rest) =>
    obtain ⟨n, c', hreads, rfl, hgives⟩ := h.gives a rest hx
    refine ⟨?_, ?_, fun y hy => ?_⟩
    · rintro b left ⟨⟩
      exact ⟨n, c', hreads, rfl, hgives.bind (.done (f a) c')⟩
    · rintro failure ⟨⟩
    · obtain hmeets | ⟨a', stop, -, hmeets⟩ := hy.of_bind
      · exact h.meets y hmeets
      · cases hmeets

/-! ## Single items -/

/-- Taking a token of a kind is what `expect` does. -/
theorem follows_take {kind : Token.Kind} (hkind : kind ≠ .endOfInput) (hc : c.Faces ending ts) :
    (take kind).Follows allowed c (expect ending kind ts).toExcept := by
  cases ts with
  | nil =>
    cases ending with
    | ok mark =>
      refine follows_read_ending hc (fun t ht => ?_) nofun
      cases ht
      rw [if_neg (by rw [hc.mark_kind]; exact hkind.symm)]
      rfl
    | error e => exact follows_read_ending hc nofun fun _ h => congrArg _ (Except.error.inj h)
  | cons t rest =>
    refine follows_read hc fun c' _ hc' => ?_
    by_cases hk : t.kind = kind
    · rw [if_pos hk, expect, if_pos hk]
      exact follows_done hc' ()
    · rw [if_neg hk, expect, if_neg hk]
      exact follows_fail hc' _

/-- Taking a name is what `identifier` does. -/
theorem follows_takeName (hc : c.Faces ending ts) :
    takeName.Follows allowed c (identifier ending ts).toExcept := by
  cases ts with
  | nil =>
    cases ending with
    | ok mark =>
      refine follows_read_ending hc (fun t ht => ?_) nofun
      cases ht
      simp only [hc.mark_kind, unexpected]
    | error e => exact follows_read_ending hc nofun fun _ h => congrArg _ (Except.error.inj h)
  | cons t rest =>
    refine follows_read hc fun c' _ hc' => ?_
    rw [identifier]
    cases t.kind with
    | identifier name => exact follows_done hc' name
    | _ => exact follows_fail hc' _

/-- Reading a token that a rule has looked at already. -/
theorem follows_taken {f : Unit → Plan β} {y : Except Failure (β × List Token)}
    (hc : c.Faces ending (t :: rest))
    (h : ∀ c', c.Reads 1 c' → c'.Faces ending rest → (f ()).Follows allowed c' y) :
    ((take t.kind).bind f).Follows allowed c y := by
  refine follows_read hc fun c' hread hc' => ?_
  dsimp only
  rw [if_pos rfl]
  exact h c' hread hc'

/-- Reading a name that a rule has looked at already. -/
theorem follows_takenName {name : String} {f : String → Plan β}
    {y : Except Failure (β × List Token)} (hc : c.Faces ending (t :: rest))
    (hname : t.kind = .identifier name)
    (h : ∀ c', c.Reads 1 c' → c'.Faces ending rest → (f name).Follows allowed c' y) :
    (takeName.bind f).Follows allowed c y := by
  refine follows_read hc fun c' hread hc' => ?_
  dsimp only
  rw [hname]
  exact h c' hread hc'

/-- Refusing the ending is noticing that it stands there. -/
theorem refuse_nil (ending : Ending) (expected : Expectation) :
    (refuse ending expected [] : Parse bound α) = glance ending [] (refuse ending expected []) := by
  cases ending <;> rfl

/-- An end mark that has been looked at is refused. -/
theorem follows_unexpected_ending (hc : c.Faces (.ok mark) []) (expected : Expectation) :
    (unexpected expected mark : Plan α).Follows allowed c
      (refuse (.ok mark) expected [] : Parse bound α).toExcept :=
  follows_fail hc _

/-- A token that has been looked at is refused. -/
theorem follows_unexpected (hc : c.Faces ending (t :: rest)) (expected : Expectation) :
    (unexpected expected t : Plan α).Follows allowed c
      (refuse ending expected (t :: rest) : Parse bound α).toExcept :=
  follows_fail hc _

/-- Taking a type is what `typeName` does. -/
theorem follows_takeType (hc : c.Faces ending ts) :
    takeType.Follows allowed c (typeName ending ts).toExcept := by
  cases ts with
  | nil =>
    rw [typeName, refuse_nil]
    refine follows_glance hc fun mark hending hk => ?_
    subst hending
    rw [hk]
    exact follows_unexpected_ending hc .type
  | cons t rest =>
    refine follows_look_next hc ?_
    rw [typeName]
    cases t.kind with
    | keyword k =>
      dsimp only
      cases TypeName.ofKeyword? k with
      | some type => exact follows_read hc fun c' _ hc' => follows_done hc' type
      | none => exact follows_unexpected hc .type
    | _ => exact follows_unexpected hc .type

/-- A part that may be missing. -/
theorem follows_maybe {opening : Token.Kind} (hopening : opening ≠ .endOfInput) {absent : α}
    {part : (rest : List Token) → rest.length < ts.length → Parse (rest.length + 1) α}
    (hc : c.Faces ending ts)
    (h : ∀ rest hlt c', c.Reads 1 c' → c'.Faces ending rest →
      p.Follows allowed c' (part rest hlt).toExcept) :
    (maybe opening absent p).Follows allowed c
      (optionally ending opening absent ts part).toExcept := by
  cases ts with
  | nil =>
    refine follows_glance hc fun mark _ hk => ?_
    rw [if_neg (by rw [hk]; exact hopening.symm)]
    exact follows_done hc absent
  | cons t rest =>
    refine follows_look_next hc ?_
    by_cases hk : t.kind = opening
    · rw [if_pos hk, optionally, if_pos hk, Progress.toExcept_weaken]
      exact follows_read hc fun c' hread hc' => h rest _ c' hread hc'
    · rw [if_neg hk, optionally, if_neg hk]
      exact follows_done hc absent

end

end Grammar

end SmallPascal

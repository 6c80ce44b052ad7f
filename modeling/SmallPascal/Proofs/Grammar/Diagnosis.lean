import SmallPascal.Interpreter
import SmallPascal.Proofs.Grammar.Source

/-!
# Errors at the first misfit

A text that is no program is reported at the first of its tokens that no sentence of the grammar
can go on with, or with the error of the first item that cannot be read, if a sentence could still
go on there: `ofSource_error_diagnoses`. `Diagnoses` says what that means. A rule never sees a
lexical error too early, because it looks at an item only where all items before it fit.
-/

namespace SmallPascal.Grammar

open Phrase

/-! ## What an error has to say -/

/-- No sentence goes on with the token `t` behind the tokens `us`, where one still could. -/
structure FirstMisfit (s : Nonterminal) (ts us : List Token) (t : Token) : Prop where
  split : ∃ vs, ts = us ++ t :: vs
  viable : Viable s (kinds us)
  not_viable : ¬Viable s (kinds (us ++ [t]))

/-- How a misfit is reported: as a missing separator if it is a name and END would have been
possible in its place, and otherwise as what it is. -/
inductive Reports (s : Nonterminal) (us : List Token) (t : Token) : SyntaxError → Prop where
  | separator (name : String) (kind_eq : t.kind = .identifier name)
    (viable : Viable s (kinds us ++ [.keyword .endBlock])) :
    Reports s us t (.missingSeparator name t.position)
  | token (expected : Expectation)
    (not_viable : ∀ name, t.kind = .identifier name →
      ¬Viable s (kinds us ++ [.keyword .endBlock])) :
    Reports s us t (.unexpectedToken expected t.kind t.position)

/-- What an error says of the tokens of a text that is no sentence. -/
structure Diagnoses (s : Nonterminal) (stream : TokenStream) (e : SyntaxError) : Prop where
  /-- If a sentence could go on where the text cannot be read, the error is why it cannot. -/
  unreadable : ∀ l, stream.ending = .error l → Viable s (kinds stream.tokens) → e = .lexical l
  /-- Otherwise it reports the first token that does not fit. -/
  misfit : (∀ l, stream.ending = .error l → ¬Viable s (kinds stream.tokens)) →
    (Error.source e).stage = .parse ∧
      ∃ us t, FirstMisfit s stream.scanned us t ∧ Reports s us t e
  not_peekPastEnd : ∀ n, e ≠ .lexical (.peekPastEnd n)
  not_runtime : (Error.source e).stage ≠ .runtime

section

variable {s : Nonterminal} {ts us us' : List Token} {t t' : Token}

/-- If a sentence can begin with some tokens, it can begin with the first ones of them. -/
theorem Viable.of_kinds (h : Viable s (kinds ts)) (hus : us <+: ts) : Viable s (kinds us) :=
  h.of_isPrefix (hus.map Token.kind)

/-- No beginning of a sentence goes beyond the first misfit. -/
theorem FirstMisfit.not_isPrefix (h : FirstMisfit s ts us t) (hviable : Viable s (kinds us')) :
    ¬us ++ [t] <+: us' :=
  fun hus => h.not_viable (hviable.of_kinds hus)

/-- There is only one first misfit. -/
theorem FirstMisfit.unique (h : FirstMisfit s ts us t) (h' : FirstMisfit s ts us' t') :
    us = us' ∧ t = t' := by
  obtain ⟨vs, rfl⟩ := h.split
  obtain ⟨vs', hvs⟩ := h'.split
  rcases List.append_eq_append_iff.1 hvs with ⟨_ | ⟨a, as⟩, rfl, hrest⟩ | ⟨_ | ⟨a, as⟩, rfl, hrest⟩
  · obtain ⟨rfl, -⟩ : t = t' ∧ _ := by simpa using hrest
    simp
  · obtain ⟨rfl, -⟩ : t = a ∧ _ := by simpa using hrest
    exact absurd ⟨as, by simp⟩ (h.not_isPrefix h'.viable)
  · obtain ⟨rfl, -⟩ : t' = t ∧ _ := by simpa using hrest
    simp
  · obtain ⟨rfl, -⟩ : t' = a ∧ _ := by simpa using hrest
    exact absurd ⟨as, by simp⟩ (h'.not_isPrefix h.viable)

end

/-! ## From a rule that decides to the error of a whole text -/

/-- What an error amounts to: an item that cannot be read but might have fitted, or a misfit. -/
def Outcome (s : Nonterminal) (stream : TokenStream) (e : SyntaxError) : Prop :=
  (∃ l, stream.ending = .error l ∧ Viable s (kinds stream.tokens) ∧ e = .lexical l) ∨
    ∃ us t, FirstMisfit s stream.scanned us t ∧ Reports s us t e

section

variable {s : Nonterminal} {rule : Ending → (ts : List Token) → Parse (ts.length + 1) s.Value}
  {c : Cursor}

/-- A token behind which no sentence goes on is the first misfit, if the tokens in front of it begin
one. -/
theorem FirstMisfit.of_tokens {stream : TokenStream} {us : List Token} {t : Token}
    {vs : List Token} (htokens : stream.tokens = us ++ t :: vs) (hviable : Viable s (kinds us))
    (hnot : ¬Viable s (kinds us ++ [t.kind])) : FirstMisfit s stream.scanned us t where
  split := ⟨vs ++ stream.ending.toOption.toList, by simp [TokenStream.scanned, htokens]⟩
  viable := hviable
  not_viable := by simpa using hnot

/-- What a rule blames is the first misfit of the text, or an item that cannot be read. -/
theorem outcome_of_blames (hfollow : s.follow .endOfInput) {used left : List Token}
    {e : SyntaxError} (htokens : c.stream.tokens = used ++ left)
    (hbegins : (phrase s).Begins (kinds used))
    (hblames : (phrase s).Blames c.stream.ending (kinds used) left e) :
    Outcome s c.stream e := by
  have hviable := viable_of_begins hbegins
  cases hblames with
  | token t rest expected hr hend =>
    exact .inr ⟨used, t, .of_tokens htokens hviable (not_viable_of_refutes hfollow hr),
      .token expected fun x hx => not_viable_of_refutes hfollow (hend x hx)⟩
  | separator t rest x hx hr hend =>
    exact .inr ⟨used, t, .of_tokens htokens hviable (not_viable_of_refutes hfollow hr),
      .separator x hx (viable_of_begins hend)⟩
  | mark m expected hending hr =>
    have hmark := Cursor.stream_mark_kind hending
    rw [List.append_nil] at htokens
    refine .inr ⟨used, m, ⟨⟨[], ?_⟩, hviable, ?_⟩, .token expected fun x hx => ?_⟩
    · simp [TokenStream.scanned, htokens, hending, Except.toOption]
    · simpa [hmark] using not_viable_of_refutes hfollow hr
    · rw [hmark] at hx
      cases hx
  | unreadable l hending =>
    rw [List.append_nil] at htokens
    exact .inl ⟨l, hending, htokens ▸ hviable, rfl⟩

/-- Behind a whole sentence only the end mark fits. -/
theorem outcome_of_reads (hfollow : s.follow .endOfInput) {used rest : List Token}
    {d : Derivation s} {f : Failure} {a : s.Value} (htokens : c.stream.tokens = used ++ rest)
    (hreads : (phrase s).Reads c.stream.ending used rest d)
    (hfinish : finish c.stream.ending a rest = .error f) : Outcome s c.stream f.error := by
  have hviable : Viable s (kinds used) := ⟨d, [.endOfInput], by rw [hreads.kinds_eq]; rfl⟩
  have hnot (k : Token.Kind) (hk : Probe c.stream.ending rest k) (hne : k ≠ .endOfInput) :
      ¬Viable s (kinds used ++ [k]) := by
    rintro ⟨d', w, hd'⟩
    rw [hreads.kinds_eq, List.append_assoc] at hd'
    obtain rfl := hreads.only k hk d' [.endOfInput] w hfollow hd'.symm
    obtain ⟨rfl, -⟩ : k = .endOfInput ∧ w = [] := by simpa [Derivation.sentence] using hd'
    exact hne rfl
  cases rest with
  | nil =>
    rw [List.append_nil] at htokens
    cases hending : c.stream.ending with
    | ok mark =>
      rw [hending] at hfinish
      cases hfinish
    | error l =>
      rw [hending] at hfinish
      cases hfinish
      exact .inl ⟨l, hending, htokens ▸ hviable, rfl⟩
  | cons t rest =>
    cases hfinish
    have hkind : t.kind ≠ .endOfInput :=
      c.stream_kind_ne_endOfInput t (by rw [htokens]; simp)
    exact .inr ⟨used, t, .of_tokens htokens hviable (hnot _ (.inl rfl) hkind),
      .token _ fun _ _ => hnot _ (.inr rfl) (by simp)⟩

/-- If a rule that decides about its phrase fails on a whole text, it reports the first misfit or an
item that cannot be read. -/
theorem whole_error_outcome (h : ∀ ending ts, (phrase s).Describes ending ts (rule ending ts))
    (hfollow : s.follow .endOfInput) {f : Failure} (hf : whole rule c.stream = .error f) :
    Outcome s c.stream f.error := by
  have hrule := h c.stream.ending c.stream.tokens
  unfold whole at hf
  split at hf
  · next out rest hx =>
    obtain ⟨used, d, htokens, -, hreads⟩ := hrule.ok hx
    exact outcome_of_reads hfollow htokens hreads hf
  · next f' hx =>
    cases hf
    obtain ⟨used, left, htokens, hbegins, hblames⟩ := hrule.error hx
    exact outcome_of_blames hfollow htokens hbegins hblames

/-- The two outcomes exclude each other, because a misfit among the tokens leaves no sentence to go
on where they end. -/
theorem Outcome.diagnoses {e : SyntaxError} (h : Outcome s c.stream e) :
    Diagnoses s c.stream e := by
  rcases h with ⟨l, hending, hviable, rfl⟩ | ⟨us, t, hmisfit, hreports⟩
  · refine ⟨fun l' hl' _ => ?_, fun hnot => absurd hviable (hnot l hending), fun n hn => ?_, nofun⟩
    · rw [hending] at hl'
      rw [Except.error.inj hl']
    · exact c.stream_ending_ne_peekPastEnd n (by rw [hending, SyntaxError.lexical.inj hn])
  · refine ⟨fun l hl hviable => ?_, fun _ => ⟨?_, us, t, hmisfit, hreports⟩, ?_, ?_⟩
    · obtain ⟨vs, hvs⟩ := hmisfit.split
      simp only [TokenStream.scanned, hl, Except.toOption, Option.toList, List.append_nil] at hvs
      exact absurd ⟨vs, by simp [hvs]⟩ (hmisfit.not_isPrefix hviable)
    · cases hreports <;> rfl
    · cases hreports <;> exact fun _ => nofun
    · cases hreports <;> exact nofun

end

/-- A text that is no program, or no expression, is reported at its first misfit. -/
theorem ofSource_error_diagnoses (c : Cursor) :
    (∀ e, Program.ofSource c = .error e → Diagnoses .program c.stream e) ∧
      ∀ e, Node.ofSource c = .error e →
        Diagnoses (.expression BinaryOp.tierCount) c.stream e := by
  refine ⟨fun e he => ?_, fun e he => ?_⟩
  · obtain ⟨f, hf, rfl⟩ := parse_eq_error_iff.1 he
    exact (whole_error_outcome program_describes rfl hf).diagnoses
  · obtain ⟨f, hf, rfl⟩ := parse_eq_error_iff.1 he
    exact (whole_error_outcome wholeExpression_describes (expression_follow_endOfInput _)
      hf).diagnoses

/-- Whether something fails for a given reason can be decided. -/
instance decidableEqError {ε α : Type} [DecidableEq ε] (x : Except ε α) (e : ε) :
    Decidable (x = .error e) :=
  match x with
  | .error e' => decidable_of_iff (e' = e) (by simp)
  | .ok _ => isFalse nofun

/-- A name behind a statement is a missing separator in a program, and one behind an expression is
not. -/
theorem ofSource_error_diagnoses_name :
    (Program.ofSource (.ofText "BEGIN f() b") = .error (.missingSeparator "b" ⟨1, 11⟩) ∧
      Diagnoses .program (Cursor.ofText "BEGIN f() b").stream (.missingSeparator "b" ⟨1, 11⟩)) ∧
    Node.ofSource (.ofText "a b") =
        .error (.unexpectedToken (.kind .endOfInput) (.identifier "b") ⟨1, 3⟩) ∧
      Diagnoses (.expression BinaryOp.tierCount) (Cursor.ofText "a b").stream
        (.unexpectedToken (.kind .endOfInput) (.identifier "b") ⟨1, 3⟩) := by
  have hprogram : Program.ofSource (.ofText "BEGIN f() b") =
      .error (.missingSeparator "b" ⟨1, 11⟩) := by decide +kernel
  have hexpression : Node.ofSource (.ofText "a b") =
      .error (.unexpectedToken (.kind .endOfInput) (.identifier "b") ⟨1, 3⟩) := by decide +kernel
  exact ⟨⟨hprogram, (ofSource_error_diagnoses _).1 _ hprogram⟩,
    hexpression, (ofSource_error_diagnoses _).2 _ hexpression⟩

end SmallPascal.Grammar

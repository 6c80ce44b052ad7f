import SmallPascal.Proofs.Grammar.Declaration

/-!
# Exactly the sentences of the grammar

A text is a program if and only if its tokens, the end mark included, are a sentence of the grammar,
and then its tree is that of the only derivation of the sentence: `ofSource_eq_ok_iff_sentence`.
Both directions, and that the derivation is the only one, follow from the rule of the start symbol
deciding about it.
-/

namespace SmallPascal.Grammar

open Phrase

variable {s : Nonterminal} {ending : Ending} {ts : List Token} {n : Nat}

/-! ## From a rule that decides to a whole text -/

section

variable {x : Parse n s.Value}

/-- What refutes a beginning in front of the end of a text refutes all sentences that begin so. -/
theorem not_viable_of_refutes (hfollow : s.follow .endOfInput) {ks : List Token.Kind}
    (h : (phrase s).Refutes ks) : ¬Viable s ks := by
  rintro ⟨d, w, hd⟩
  exact h d [.endOfInput] w hfollow hd.symm

/-- What a phrase begins with is the beginning of a sentence. -/
theorem viable_of_begins {ks : List Token.Kind} (h : (phrase s).Begins ks) : Viable s ks := by
  obtain ⟨d, w, hd⟩ := h
  refine ⟨d, w ++ [.endOfInput], ?_⟩
  change d.yield = ks ++ w at hd
  rw [Derivation.sentence, hd, List.append_assoc]

/-- A rule that decides reads a whole sentence, and as nothing else than it is. -/
theorem reads_sentence {mark : Token} (h : (phrase s).Describes (.ok mark) ts x)
    (hfollow : s.follow .endOfInput) {d : Derivation s} (hd : kinds ts = d.yield) :
    x.toExcept = .ok (d.tree, []) ∧ ∀ d' : Derivation s, d'.yield = d.yield → d' = d := by
  cases hx : x.toExcept with
  | ok out =>
    obtain ⟨a, rest⟩ := out
    obtain ⟨used, d₀, rfl, rfl, hreads⟩ := h.ok hx
    have honly (d' : Derivation s) (hd' : d'.yield = d.yield) : d' = d₀ := by
      have heq : d'.yield ++ [.endOfInput] = d₀.yield ++ (kinds rest ++ [.endOfInput]) := by
        rw [hd', ← hd, kinds_append, hreads.kinds_eq, List.append_assoc]
      cases rest with
      | nil => exact hreads.only .endOfInput (.inl rfl) d' [.endOfInput] _ hfollow heq
      | cons t rest => exact hreads.only t.kind (.inl rfl) d' [.endOfInput] _ hfollow heq
    obtain rfl := honly d rfl
    have hrest : rest = [] := by
      have hlen := congrArg List.length hd
      rw [kinds_append, hreads.kinds_eq] at hlen
      simpa [kinds] using hlen
    exact ⟨by rw [hrest], honly⟩
  | error f =>
    obtain ⟨e, unread⟩ := f
    obtain ⟨used, left, rfl, -, hblames⟩ := h.error hx
    have heq : d.yield ++ [.endOfInput] = kinds used ++ (kinds left ++ [.endOfInput]) := by
      rw [← hd, kinds_append, List.append_assoc]
    cases hblames with
    | token t rest expected hr =>
      exact absurd (by simpa using heq) (hr d [.endOfInput] (kinds rest ++ [.endOfInput]) hfollow)
    | separator t rest y hy hr =>
      exact absurd (by simpa using heq) (hr d [.endOfInput] (kinds rest ++ [.endOfInput]) hfollow)
    | mark m expected hending hr =>
      exact absurd (by simpa using heq) (hr d [.endOfInput] [] hfollow)
    | unreadable e hending => cases hending

end

/-- A derivation is determined by what it derives. -/
theorem Derivation.eq_of_sentence_eq
    {rule : Ending → (ts : List Token) → Parse (ts.length + 1) s.Value}
    (h : ∀ ending ts, (phrase s).Describes ending ts (rule ending ts))
    (hfollow : s.follow .endOfInput) {d d' : Derivation s} (heq : d.sentence = d'.sentence) :
    d = d' := by
  have hyield : d.yield = d'.yield := List.append_cancel_right heq
  let ts := d'.yield.map fun k => (⟨k, "", .start⟩ : Token)
  have hts : kinds ts = d'.yield := by simp [ts, kinds, Function.comp_def]
  exact (reads_sentence (h (.ok ⟨.endOfInput, "", .start⟩) ts) hfollow hts).2 d hyield

/-! ## Whole texts -/

section

variable {rule : Ending → (ts : List Token) → Parse (ts.length + 1) s.Value} {c : Cursor}

/-- A rule that decides reads a whole stream exactly if its kinds are a sentence. -/
theorem whole_eq_ok_iff (h : ∀ ending ts, (phrase s).Describes ending ts (rule ending ts))
    (hfollow : s.follow .endOfInput) {a : s.Value} :
    whole rule c.stream = .ok a ↔
      ∃ ts, c.stream.complete = .ok ts ∧
        ∃ d : Derivation s, kinds ts = d.sentence ∧ d.tree = a := by
  constructor
  · intro hwhole
    unfold whole at hwhole
    split at hwhole
    · next out rest hx =>
      obtain ⟨used, d, hts, rfl, hreads⟩ := (h c.stream.ending c.stream.tokens).ok hx
      cases rest with
      | cons t rest => cases hwhole
      | nil =>
        cases hending : c.stream.ending with
        | error l =>
          rw [hending] at hwhole
          cases hwhole
        | ok mark =>
          rw [hending] at hwhole
          cases hwhole
          rw [List.append_nil] at hts
          refine ⟨c.stream.tokens ++ [mark], by rw [TokenStream.complete, hending]; rfl, d, ?_, rfl⟩
          rw [kinds_append, kinds_cons, kinds_nil, Cursor.stream_mark_kind hending, hts,
            hreads.kinds_eq]
          rfl
    · cases hwhole
  · rintro ⟨ts, hts, d, hd, rfl⟩
    cases hending : c.stream.ending with
    | error l =>
      rw [TokenStream.complete, hending] at hts
      cases hts
    | ok mark =>
      rw [TokenStream.complete, hending] at hts
      obtain rfl : c.stream.tokens ++ [mark] = ts := Except.ok.inj hts
      rw [kinds_append, kinds_cons, kinds_nil, Cursor.stream_mark_kind hending] at hd
      have hrule := (reads_sentence (h (.ok mark) c.stream.tokens) hfollow
        (List.append_cancel_right hd)).1
      rw [whole, hending, hrule]
      rfl

end

section

variable {α : Type} {rule : Ending → (ts : List Token) → Parse (ts.length + 1) α} {c : Cursor}

/-- Reading from a cursor succeeds if the rule does on the whole stream. -/
theorem parse_eq_ok_iff {a : α} : (c.parse rule).1 = .ok a ↔ whole rule c.stream = .ok a := by
  unfold Cursor.parse
  cases whole rule c.stream <;> simp

/-- Reading from a cursor fails if the rule does on the whole stream. -/
theorem parse_eq_error_iff {e : SyntaxError} :
    (c.parse rule).1 = .error e ↔ ∃ f, whole rule c.stream = .error f ∧ f.error = e := by
  unfold Cursor.parse
  cases whole rule c.stream <;> simp

end

/-- The end mark may stand behind an expression. -/
theorem expression_follow_endOfInput (tiers : Nat) :
    (Nonterminal.expression tiers).follow .endOfInput :=
  .inl (by simp [closers])

/-- An expression is read as a whole text. -/
theorem wholeExpression_describes (ending : Ending) (ts : List Token) :
    (phrase (.expression BinaryOp.tierCount)).Describes ending ts
      ((expression ending ts).weaken : Parse (ts.length + 1) Node) :=
  (expression_describes ending ts).weaken _

/-- A text is a program, or an expression, exactly if its tokens up to the end mark are a sentence
of the grammar; its tree is the tree of the derivation, and a sentence has one derivation. -/
theorem ofSource_eq_ok_iff_sentence (c : Cursor) :
    ((∀ p, Program.ofSource c = .ok p ↔ ∃ ts, c.stream.complete = .ok ts ∧
        ∃ d : Derivation .program, kinds ts = d.sentence ∧ d.tree = p) ∧
      Function.Injective (Derivation.sentence : Derivation .program → List Token.Kind)) ∧
    (∀ e, Node.ofSource c = .ok e ↔ ∃ ts, c.stream.complete = .ok ts ∧
        ∃ d : Derivation (.expression BinaryOp.tierCount), kinds ts = d.sentence ∧ d.tree = e) ∧
      Function.Injective
        (Derivation.sentence : Derivation (.expression BinaryOp.tierCount) → List Token.Kind) := by
  refine ⟨⟨fun p => ?_, ?_⟩, fun e => ?_, ?_⟩
  · exact parse_eq_ok_iff.trans (whole_eq_ok_iff program_describes rfl)
  · exact fun _ _ => Derivation.eq_of_sentence_eq program_describes rfl
  · exact parse_eq_ok_iff.trans
      (whole_eq_ok_iff wholeExpression_describes (expression_follow_endOfInput _))
  · exact fun _ _ =>
      Derivation.eq_of_sentence_eq wholeExpression_describes (expression_follow_endOfInput _)

end SmallPascal.Grammar

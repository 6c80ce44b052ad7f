import SmallPascal.Token.Reader

/-!
# Looking ahead

Looking ahead reads on and goes back, so it leaves the reader as it was: requests to look ahead may
be left out without a trace in the other answers. And it tells what the reader would answer to as
many requests for the next token: the last of them, if all are answered with tokens and the end mark
is not among those before it, that the input ends, if the end mark is, and the first error
otherwise. Both hold in every state of a reader, whatever it has been asked before
(`peek_invisible_and_truthful`).
-/

namespace SmallPascal.TokenReader

/-- Whether a request only looks ahead. -/
def Request.isPeek : Request → Bool
  | peek _ => true
  | _ => false

/-- The answers to so many requests for the next token. -/
def upcoming (r : TokenReader) (m : Nat) : List Answer :=
  r.performAll (List.replicate m .next)

/-- The answers are tokens, `t` is the last one, and none before it is an end mark. -/
def Delivers (answers : List Answer) (t : Token) : Prop :=
  ∃ front : List Token, answers = front.map .token ++ [.token t] ∧
    ∀ u ∈ front, u.kind ≠ .endOfInput

/-- There is an end mark among the answers before the last one and before any error. -/
def EndsEarly (answers : List Answer) : Prop :=
  ∃ (front : List Token) (mark : Token) (behind : List Answer),
    answers = front.map .token ++ .token mark :: behind ∧ mark.kind = .endOfInput ∧ behind ≠ []

/-- The first answer that is not a token is the error `e`, and no end mark is before it. -/
def FailsFirst (answers : List Answer) (e : LexicalError) : Prop :=
  ∃ (front : List Token) (behind : List Answer),
    answers = front.map .token ++ .error e :: behind ∧ ∀ u ∈ front, u.kind ≠ .endOfInput

section

variable {answers : List Answer} {t u : Token} {e e' : LexicalError}

@[simp] theorem not_delivers_nil : ¬Delivers [] t := by
  rintro ⟨front, heq, -⟩
  simp at heq

@[simp] theorem not_endsEarly_nil : ¬EndsEarly [] := by
  rintro ⟨front, mark, behind, heq, -⟩
  simp at heq

@[simp] theorem delivers_token_cons :
    Delivers (.token u :: answers) t ↔
      answers = [] ∧ u = t ∨ u.kind ≠ .endOfInput ∧ Delivers answers t := by
  constructor
  · rintro ⟨_ | ⟨v, front⟩, heq, hfront⟩
    · simp at heq
      exact .inl ⟨heq.2, heq.1⟩
    · obtain ⟨hv, rfl⟩ := List.cons.inj heq
      cases hv
      exact .inr ⟨hfront u (.head _), front, rfl, fun w hw => hfront w (.tail _ hw)⟩
  · rintro (⟨rfl, rfl⟩ | ⟨hu, front, rfl, hfront⟩)
    · exact ⟨[], rfl, nofun⟩
    · exact ⟨u :: front, rfl, List.forall_mem_cons.2 ⟨hu, hfront⟩⟩

@[simp] theorem not_delivers_error_cons : ¬Delivers (.error e :: answers) t := by
  rintro ⟨_ | ⟨v, front⟩, heq, -⟩ <;> simp at heq

@[simp] theorem endsEarly_token_cons :
    EndsEarly (.token u :: answers) ↔
      answers ≠ [] ∧ u.kind = .endOfInput ∨ EndsEarly answers := by
  constructor
  · rintro ⟨_ | ⟨v, front⟩, mark, behind, heq, hmark, hbehind⟩
    · simp at heq
      obtain ⟨rfl, rfl⟩ := heq
      exact .inl ⟨hbehind, hmark⟩
    · obtain ⟨-, rfl⟩ := List.cons.inj heq
      exact .inr ⟨front, mark, behind, rfl, hmark, hbehind⟩
  · rintro (⟨hne, hu⟩ | ⟨front, mark, behind, rfl, h⟩)
    · exact ⟨[], u, answers, rfl, hu, hne⟩
    · exact ⟨u :: front, mark, behind, rfl, h⟩

@[simp] theorem not_endsEarly_error_cons : ¬EndsEarly (.error e :: answers) := by
  rintro ⟨_ | ⟨v, front⟩, mark, behind, heq, -⟩ <;> simp at heq

@[simp] theorem failsFirst_token_cons :
    FailsFirst (.token u :: answers) e ↔ u.kind ≠ .endOfInput ∧ FailsFirst answers e := by
  constructor
  · rintro ⟨_ | ⟨v, front⟩, behind, heq, hfront⟩
    · simp at heq
    · obtain ⟨hv, rfl⟩ := List.cons.inj heq
      cases hv
      exact ⟨hfront u (.head _), front, behind, rfl, fun w hw => hfront w (.tail _ hw)⟩
  · rintro ⟨hu, front, behind, rfl, hfront⟩
    exact ⟨u :: front, behind, rfl, List.forall_mem_cons.2 ⟨hu, hfront⟩⟩

@[simp] theorem failsFirst_error_cons : FailsFirst (.error e' :: answers) e ↔ e' = e := by
  constructor
  · rintro ⟨_ | ⟨v, front⟩, behind, heq, -⟩ <;> simp at heq
    exact heq.1
  · rintro rfl
    exact ⟨[], answers, rfl, nofun⟩

end

/-! ## Reading ahead and going back -/

section

variable {r r' : TokenReader}

/-- Reading a token never fails because of looking ahead. -/
theorem next_error_ne_peekPastEnd {e : LexicalError} (h : r.next = (.error e, r')) (n : Nat) :
    e ≠ .peekPastEnd n := by
  rintro rfl
  exact r.cursor.next_ne_peekPastEnd n (congrArg Prod.fst h)

/-- Reading never sets or clears the mark that iteration is over. -/
theorem exhausted_readAhead (count n : Nat) (r : TokenReader) :
    (readAhead count n r).2.exhausted = r.exhausted := by
  induction n generalizing r with
  | zero => rfl
  | succ n ih =>
    rw [readAhead]
    split
    · next e r' h => exact congrArg (fun out => out.2.exhausted) h.symm
    · next t r' h =>
      have hr' : r'.exhausted = r.exhausted := congrArg (fun out => out.2.exhausted) h.symm
      split
      · exact hr'
      · exact (ih r').trans hr'

/-- Looking ahead leaves the reader as it was. -/
theorem peek_reader (r : TokenReader) (count : Nat) : (r.peek count).2 = r := by
  have h := exhausted_readAhead (max count 1) (max count 1 - 1) r
  simp only [peek, h]

/-- The tokens to come are the next one and then those to come behind it. -/
theorem upcoming_of_next_token {t : Token} (h : r.next = (.ok t, r')) (m : Nat) :
    r.upcoming (m + 1) = .token t :: r'.upcoming m := by
  simp [upcoming, List.replicate_succ, performAll, perform, h]

/-- The same where the next token cannot be read: the error is an answer like others, and reading
goes on. -/
theorem upcoming_of_next_error {e : LexicalError} (h : r.next = (.error e, r')) (m : Nat) :
    r.upcoming (m + 1) = .error e :: r'.upcoming m := by
  simp [upcoming, List.replicate_succ, performAll, perform, h]

/-- What reading ahead answers, by the answers to as many requests for the next token. -/
theorem readAhead_iff (count n : Nat) (r : TokenReader) :
    (∀ t, (readAhead count n r).1 = .ok t ↔ Delivers (r.upcoming (n + 1)) t) ∧
      ((readAhead count n r).1 = .error (.peekPastEnd count) ↔
        EndsEarly (r.upcoming (n + 1))) ∧
      ((∃ t, (readAhead count n r).1 = .ok t) ∨
        (readAhead count n r).1 = .error (.peekPastEnd count) ∨
        ∃ e, FailsFirst (r.upcoming (n + 1)) e ∧ (readAhead count n r).1 = .error e) := by
  induction n generalizing r with
  | zero =>
    rw [readAhead]
    match h : r.next with
    | (.ok t, r') =>
      rw [upcoming_of_next_token h]
      simp [upcoming, performAll]
    | (.error e, r') =>
      rw [upcoming_of_next_error h]
      simp [next_error_ne_peekPastEnd h]
  | succ n ih =>
    rw [readAhead]
    match h : r.next with
    | (.error e, r') =>
      rw [upcoming_of_next_error h]
      simp [next_error_ne_peekPastEnd h]
    | (.ok t, r') =>
      rw [upcoming_of_next_token h]
      have hne : r'.upcoming (n + 1) ≠ [] := List.cons_ne_nil _ _
      -- The end mark is not the last of the tokens asked for, so it ends the look ahead.
      by_cases ht : t.kind = .endOfInput
      · simp [ht, hne]
      · simpa [ht, hne] using ih r'

end

/-! ## Requests to look ahead -/

section

variable (r : TokenReader) (n : Nat)

/-- A request to look ahead leaves the reader as it was. -/
theorem perform_peek_reader : (r.perform (.peek n)).2 = r := by
  have h := r.peek_reader n
  simp only [perform]
  split <;> next hpeek => rwa [hpeek] at h

/-- A request to look ahead is answered with the token that looking ahead finds. -/
theorem perform_peek_eq_token_iff (t : Token) :
    (r.perform (.peek n)).1 = .token t ↔ (r.peek n).1 = .ok t := by
  simp only [perform]
  split <;> next hpeek => simp [hpeek]

/-- A request to look ahead is answered with the error that looking ahead meets. -/
theorem perform_peek_eq_error_iff (e : LexicalError) :
    (r.perform (.peek n)).1 = .error e ↔ (r.peek n).1 = .error e := by
  simp only [perform]
  split <;> next hpeek => simp [hpeek]

/-- Requests to look ahead may be left out. -/
theorem performAll_filter (requests : List Request) :
    ((requests.zip (r.performAll requests)).filter (!·.1.isPeek)).map Prod.snd =
      r.performAll (requests.filter (!·.isPeek)) := by
  induction requests generalizing r with
  | nil => rfl
  | cons q requests ih =>
    rw [performAll, List.zip_cons_cons]
    by_cases hq : q.isPeek
    · rw [List.filter_cons_of_neg (by simpa using hq), List.filter_cons_of_neg (by simpa using hq)]
      cases q with
      | peek n => simpa only [perform_peek_reader] using ih r
      | _ => cases hq
    · rw [List.filter_cons_of_pos (by simpa using hq), List.filter_cons_of_pos (by simpa using hq),
        List.map_cons, ih, performAll]

end

/-- Requests to look ahead leave no trace in the other answers. In every state of a reader the
`n`-th token ahead is what that many requests for the next token lead to: the last of their answers,
or that the input ends, or the first error. -/
theorem peek_invisible_and_truthful :
    (∀ (r : TokenReader) (requests : List Request),
      ((requests.zip (r.performAll requests)).filter (!·.1.isPeek)).map Prod.snd =
        r.performAll (requests.filter (!·.isPeek))) ∧
    ∀ (r : TokenReader) (n : Nat),
      (∀ t, (r.perform (.peek n)).1 = .token t ↔ Delivers (r.upcoming (max n 1)) t) ∧
      ((r.perform (.peek n)).1 = .error (.peekPastEnd (max n 1)) ↔
        EndsEarly (r.upcoming (max n 1))) ∧
      ((∃ t, (r.perform (.peek n)).1 = .token t) ∨
        (r.perform (.peek n)).1 = .error (.peekPastEnd (max n 1)) ∨
        ∃ e, FailsFirst (r.upcoming (max n 1)) e ∧ (r.perform (.peek n)).1 = .error e) := by
  refine ⟨performAll_filter, fun r n => ?_⟩
  have h := readAhead_iff (max n 1) (max n 1 - 1) r
  rw [Nat.sub_add_cancel (Nat.le_max_right n 1)] at h
  simp only [perform_peek_eq_token_iff, perform_peek_eq_error_iff]
  exact h

end SmallPascal.TokenReader

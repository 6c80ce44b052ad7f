import SmallPascal.Proofs.Token.Advance

/-!
# What draining a reader gives

Draining collects what iteration has left. If iteration is not over, that is a whole stream, with
the end mark at its end and nowhere else, or an error; if it is over, nothing is left, and draining
succeeds with no token at all. So a second draining gives no end mark, and neither does one behind
an error that iteration has met (`not_forall_isWhole`). Iteration is over as soon as an earlier
request has drained the reader or has iterated to the end mark or to an error; requests for single
tokens and for tokens ahead do not matter (`exhausted_afterAll_iff`). The requests before thus tell
which of the two draining gives (`drain_isWhole_iff`).
-/

namespace SmallPascal

/-- Tokens with an end mark at the end and nowhere else. -/
def IsWhole (ts : List Token) : Prop :=
  ∃ front mark, ts = front ++ [mark] ∧ mark.kind = .endOfInput ∧
    ∀ t ∈ front, t.kind ≠ .endOfInput

/-- Without any token there is no end mark, so the empty list is not whole. -/
theorem not_isWhole_nil : ¬IsWhole [] := by
  rintro ⟨front, mark, heq, -⟩
  simp at heq

/-- A stream that can be read in full is whole: the end mark is its ending, and no token before it
is one. -/
theorem Cursor.isWhole_of_complete {c : Cursor} {ts : List Token}
    (h : c.stream.complete = .ok ts) : IsWhole ts := by
  unfold TokenStream.complete at h
  cases hending : c.stream.ending with
  | error e =>
    rw [hending] at h
    cases h
  | ok mark =>
    rw [hending] at h
    cases h
    exact ⟨_, mark, rfl, stream_mark_kind hending, c.stream_kind_ne_endOfInput⟩

namespace TokenReader

/-- Whether iteration is over after a request with this answer, even if it was not before. -/
def Request.Exhausts : Request → Answer → Prop
  | drain, _ => True
  | iterate, .token t => t.kind = .endOfInput
  | iterate, _ => True
  | next, _ | peek _, _ => False

/-- Whether iteration is over after some requests to a reader of which nothing has been asked. -/
def IsOver (c : Cursor) (requests : List Request) : Prop :=
  ∃ qa ∈ requests.zip ((ofCursor c).performAll requests), qa.1.Exhausts qa.2

/-- A request ends the iteration if its answer says so, and does not open it again. -/
theorem exhausted_perform_iff (r : TokenReader) (q : Request) :
    (r.perform q).2.exhausted ↔ r.exhausted ∨ q.Exhausts (r.perform q).1 := by
  cases q with
  | next => simp [perform_next_reader, next, Request.Exhausts]
  | peek n => simp [perform_peek_reader, Request.Exhausts]
  | drain =>
    rw [perform_drain_reader, drain]
    split <;> simp_all [Request.Exhausts]
  | iterate =>
    rw [perform_iterate_reader]
    simp only [perform]
    cases hover : r.exhausted with
    | true => simp [iterate, hover]
    | false =>
      rcases hnext : r.cursor.next with ⟨e | t, c⟩ <;>
        simp [iterate, hover, hnext, Request.Exhausts]

/-- Behind any requests iteration is over if it was so before, or if one of the answers has ended
it. -/
theorem exhausted_afterAll_iff (r : TokenReader) (requests : List Request) :
    (r.afterAll requests).exhausted ↔
      r.exhausted ∨ ∃ qa ∈ requests.zip (r.performAll requests), qa.1.Exhausts qa.2 := by
  induction requests generalizing r with
  | nil => simp [afterAll]
  | cons q rest ih =>
    have hrest := ih (r.perform q).2
    rw [exhausted_perform_iff] at hrest
    rw [or_assoc] at hrest
    simpa only [afterAll, List.foldl_cons, performAll, List.zip_cons_cons, List.mem_cons,
      or_and_right, exists_or, exists_eq_left] using hrest

/-- A request to drain is answered with tokens if draining succeeds with them. -/
theorem perform_drain_eq_tokens_iff {r : TokenReader} {ts : List Token} :
    (r.perform .drain).1 = .tokens ts ↔ r.drain.1 = .ok ts := by
  simp only [perform]
  split <;> next hdrain => simp [hdrain]

section

variable {c : Cursor} {requests : List Request}

/-- For a reader of which nothing else has been asked, the requests and their answers tell whether
iteration is over. -/
theorem exhausted_iff_isOver :
    ((ofCursor c).afterAll requests).exhausted ↔ IsOver c requests :=
  (exhausted_afterAll_iff (ofCursor c) requests).trans (or_iff_right Bool.false_ne_true)

/-- Where iteration is over, draining succeeds without a token. -/
theorem drain_of_isOver (h : IsOver c requests) :
    (((ofCursor c).afterAll requests).perform .drain).1 = .tokens [] := by
  rw [perform_drain_eq_tokens_iff, drain, if_pos (exhausted_iff_isOver.2 h)]

/-- Where iteration is not over, draining gives the whole stream if it succeeds. -/
theorem isWhole_of_drain (h : ¬IsOver c requests) {ts : List Token}
    (hts : (((ofCursor c).afterAll requests).perform .drain).1 = .tokens ts) : IsWhole ts := by
  rw [perform_drain_eq_tokens_iff, drain, if_neg (mt exhausted_iff_isOver.1 h)] at hts
  exact Cursor.isWhole_of_complete hts

end

/-- If iteration is over, draining gives no token at all; otherwise it fails or gives the whole
stream. -/
theorem drain_isWhole_iff (c : Cursor) (requests : List Request) :
    let answer := (((ofCursor c).afterAll requests).perform .drain).1
    (IsOver c requests → answer = .tokens []) ∧
      ∀ ts, answer = .tokens ts → (IsWhole ts ↔ ¬IsOver c requests) := by
  refine ⟨drain_of_isOver, fun ts hts => ⟨fun hwhole hover => ?_, fun h => isWhole_of_drain h hts⟩⟩
  obtain rfl := Answer.tokens.inj ((drain_of_isOver hover).symm.trans hts)
  exact not_isWhole_nil hwhole

/-- The tokens that draining gives need not have an end mark: a second draining gives none. -/
theorem not_forall_isWhole :
    ¬∀ (source : String) (requests : List Request) (ts : List Token),
      (((ofCursor (.ofText source)).afterAll requests).perform .drain).1 = .tokens ts →
        IsWhole ts := by
  intro h
  have hover : IsOver (.ofText "x") [.drain] := ⟨_, .head _, trivial⟩
  exact not_isWhole_nil (h "x" [.drain] [] (drain_of_isOver hover))

end TokenReader

end SmallPascal

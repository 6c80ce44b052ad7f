import SmallPascal.Proofs.Evaluation.Agenda
import SmallPascal.Proofs.Evaluation.Simulation

/-!
# The limit on live frames

`Session.perform_eq_of_maxCallDepth_le`: a higher limit changes nothing but that it is exceeded
later. The limit is looked at in one place, where a routine is about to be entered, and there it
either stops the run or leaves no trace (`perform_exceeded`, `perform_loosened`). So two machines
whose rules differ only in what they let pass go in lockstep until the stricter one stops for that
reason (`after_loosened`).
-/

namespace SmallPascal

namespace Machine

open Session (Answer)

/-! ## Errors that are not about the limit -/

section

variable {rules : Rules} {s left : CallStack} {l : Nat}

/-- Reading a name fails only because it is undefined. -/
theorem read_eq_error {name : String} {e : RuntimeError}
    (h : Evaluation.read s name = .error e) : e = .undefinedVariable name := by
  unfold Evaluation.read at h
  split at h
  · cases h
  · exact (Except.error.inj h).symm

/-- Looking up a callee fails because the name is bound to something else or to nothing. -/
theorem callee_eq_error {name : String} {e : RuntimeError}
    (h : Evaluation.callee s name = .error e) :
    (∃ type, e = .notCallable name type) ∨ e = .undefinedFunction name := by
  unfold Evaluation.callee at h
  split at h
  · cases h
  · split at h
    · exact .inl ⟨_, (Except.error.inj h).symm⟩
    · exact .inr (Except.error.inj h).symm

/-- Looking up a callee never exceeds a limit. -/
theorem callee_ne_exceeded {name : String} :
    Evaluation.callee s name ≠ .error (.callDepthExceeded l) := by
  intro h
  obtain ⟨_, h⟩ | h := callee_eq_error h <;> cases h

/-- Only a routine cannot be taken for an integer. -/
theorem toInteger_eq_error {v : Value} {e : RuntimeError} (h : v.toInteger = .error e) :
    ∃ r, v = .routine r ∧ e = .routineOperand r.kind := by
  cases v with
  | integer | boolean => cases h
  | routine r => exact ⟨r, rfl, (Except.error.inj h).symm⟩

/-- An operator with one operand fails only on a routine. -/
theorem unaryApply_eq_error {op : UnaryOp} {v : Value} {e : RuntimeError}
    (h : op.apply v = .error e) : ∃ r, v = .routine r ∧ e = .routineOperand r.kind := by
  unfold UnaryOp.apply at h
  cases hv : v.toInteger with
  | error e' =>
    rw [hv] at h
    cases h
    exact toInteger_eq_error hv
  | ok n =>
    rw [hv] at h
    cases op <;> cases h

/-- An operator with two operands fails on a routine, or because it divides by zero. -/
theorem binaryApply_eq_error {op : BinaryOp} {v w : Value} {e : RuntimeError}
    (h : op.apply v w = .error e) :
    (∃ r, (v = .routine r ∨ w = .routine r) ∧ e = .routineOperand r.kind) ∨
      e = .divisionByZero := by
  unfold BinaryOp.apply at h
  cases hv : v.toInteger with
  | error e' =>
    rw [hv] at h
    cases h
    obtain ⟨r, hr, he⟩ := toInteger_eq_error hv
    exact .inl ⟨r, .inl hr, he⟩
  | ok n =>
    cases hw : w.toInteger with
    | error e' =>
      rw [hv, hw] at h
      cases h
      obtain ⟨r, hr, he⟩ := toInteger_eq_error hw
      exact .inl ⟨r, .inr hr, he⟩
    | ok m =>
      rw [hv, hw] at h
      cases op with
      | div =>
        change (if m = 0 then Except.error RuntimeError.divisionByZero else .ok _) = _ at h
        split at h
        · exact .inr (Except.error.inj h).symm
        · cases h
      | _ => cases h

/-- A call is refused if there is a limit and as many frames are live as it says. -/
theorem check_eq_error_iff {d : Nat} {e : RuntimeError} :
    rules.check d = .error e ↔ ∃ limit, rules.limit = some limit ∧ limit ≤ d ∧
      e = .callDepthExceeded limit := by
  unfold Rules.check
  split
  · split <;> grind
  · simp_all

/-! ## Where the limit is looked at -/

/-- Only where a routine is about to be entered can the limit be found exceeded. -/
theorem perform_exceeded {t : Task} {given : Option Answer}
    (hcallee : ∀ name, rules.callee s name ≠ .error (.callDepthExceeded l))
    (h : (t.perform rules given).Fails s (.callDepthExceeded l) left) :
    ∃ r values, t = .arguments r values [] ∧ values.length = r.params.length ∧
      rules.limit = some l ∧ l ≤ s.depth := by
  have hstop := (stops_of_perform h).1
  generalize he : RuntimeError.callDepthExceeded l = e at hstop
  cases hstop with
  | check hlength hcheck =>
    obtain ⟨limit, hlimit, hfull, rfl⟩ := check_eq_error_iff.1 hcheck
    obtain rfl := RuntimeError.callDepthExceeded.inj he
    exact ⟨_, _, rfl, hlength, hlimit, hfull⟩
  | call h => exact absurd (he ▸ h) (hcallee _)
  | operand =>
    unfold Evaluation.noValue at he
    split at he <;> cases he
  | var hread => cases he.trans (read_eq_error hread)
  | unary happly =>
    obtain ⟨_, -, rfl⟩ := unaryApply_eq_error happly
    cases he
  | right happly => obtain ⟨_, -, rfl⟩ | rfl := binaryApply_eq_error happly <;> cases he
  | routine | assign | arity => cases he

/-! ## Runs in lockstep -/

/-- One set of rules is as lenient as another if it lets pass what the other does. -/
structure Rules.Loosens (a b : Rules) : Prop where
  dumps_eq : b.dumps = a.dumps
  callee_eq : b.callee = a.callee
  check_ok : ∀ d, a.check d = .ok () → b.check d = .ok ()

variable {a b : Rules}

/-- Where the limit is not exceeded, a task is done in the same way under looser rules. -/
theorem perform_loosened (hab : a.Loosens b) (t : Task) (given : Option Answer)
    (h : ∀ l left, ¬ (t.perform a given).Fails s (.callDepthExceeded l) left) :
    t.perform b given s = t.perform a given s := by
  refine perform_congr hab.dumps_eq (fun _ _ _ => by rw [hab.callee_eq]) ?_
  rintro r values rfl hlength
  cases hcheck : a.check s.depth with
  | ok => exact hab.check_ok _ hcheck
  | error e =>
    obtain ⟨limit, -, -, rfl⟩ := check_eq_error_iff.1 hcheck
    exact absurd (by simp [Task.perform, hlength, hcheck]) (h limit s)

/-- Where the limit is not exceeded, a step is the same under looser rules. -/
theorem step_loosened (hab : a.Loosens b) (σ : State)
    (h : ∀ l, (step a σ).given ≠ .error (.callDepthExceeded l)) : step b σ = step a σ := by
  refine step_congr fun t rest g hagenda hgiven => perform_loosened hab t g fun l left hfails => ?_
  exact h l ((step_given_eq_error_iff hagenda hgiven).2 ⟨left, hfails⟩)

/-- A run that does not exceed the limit is the same under looser rules. -/
theorem after_loosened (hab : a.Loosens b) (σ : State) :
    ∀ n, (∀ l, (after a n σ).given ≠ .error (.callDepthExceeded l)) →
      after b n σ = after a n σ
  | 0, _ => rfl
  | n + 1, h => by
    rw [after_succ] at h
    -- A run that has failed stays as it is, so the limit was not exceeded before, either.
    have hn : ∀ l, (after a n σ).given ≠ .error (.callDepthExceeded l) := fun l hl =>
      h l (by rw [step_of_error hl]; exact hl)
    rw [after_succ, after_succ, after_loosened hab σ n hn, step_loosened hab _ h]

end

section

variable {settings : Settings} {n l : Nat} {q : Session.Request}

/-- Nothing has been given where a run begins. -/
theorem State.given_start (q : Session.Request) : (State.start q).given = .ok none := by
  cases q <;> rfl

/-- A run reports as exceeded the limit of its settings. -/
theorem after_exceeded
    (h : (after settings.rules n (.start q)).given = .error (.callDepthExceeded l)) :
    l = settings.maxCallDepth := by
  obtain ⟨_, -, _, _, _, -, -, hfails⟩ := exists_failure (State.given_start q) h
  obtain ⟨_, _, -, -, hlimit, -⟩ := perform_exceeded (fun _ => callee_ne_exceeded) hfails
  exact (Option.some.inj hlimit).symm

/-- A run that is over has failed if its last state has. -/
theorem State.result_eq_error_iff {σ : State} {r : Run Answer} (h : σ.run? = some r)
    {e : RuntimeError} : r.result = .error e ↔ σ.given = .error e := by
  unfold State.run? at h
  split at h
  next hgiven =>
    obtain rfl := Option.some.inj h
    simp [hgiven]
  next hgiven =>
    obtain rfl := Option.some.inj h
    simp [hgiven]
  next => contradiction

/-- A request fails if its run has failed at some moment. -/
theorem result_eq_error_iff {e : RuntimeError} :
    ((Session.new settings).perform q).1.result = .error e ↔
      ∃ i, (after settings.rules i (.start q)).given = .error e := by
  obtain ⟨n, hn⟩ := exists_run?_eq_perform settings q
  rw [State.result_eq_error_iff hn]
  refine ⟨fun h => ⟨n, h⟩, fun ⟨i, hi⟩ => ?_⟩
  have hstopped : (after settings.rules (i + 1) (.start q)).agenda = [] := by
    rw [after_succ, step_of_error hi]
  rw [after_unique (State.agenda_of_run? hn) hstopped, after_succ, step_of_error hi]
  exact hi

end

end Machine

namespace Session

open Machine

/-- The limit that a request is reported to exceed is that of the settings. -/
theorem perform_exceeded {settings : Settings} {q : Request} {l : Nat}
    (h : ((new settings).perform q).1.result = .error (.callDepthExceeded l)) :
    l = settings.maxCallDepth := by
  obtain ⟨n, hn⟩ := result_eq_error_iff.1 h
  exact after_exceeded hn

/-- A request that does not exceed the limit comes to the same under looser rules. -/
theorem perform_loosened {settings : Settings} {rules : Rules}
    (hloose : settings.rules.Loosens rules) {q : Request}
    (h : ∀ l, ((new settings).perform q).1.result ≠ .error (.callDepthExceeded l)) :
    ∃ n, (after rules n (.start q)).run? = some ((new settings).perform q).1 := by
  obtain ⟨n, hn⟩ := exists_run?_eq_perform settings q
  refine ⟨n, ?_⟩
  rw [after_loosened hloose _ n fun l hl => h l (result_eq_error_iff.2 ⟨n, hl⟩), hn]

/-- A higher limit lets pass what a lower one does. -/
theorem loosens_of_maxCallDepth_le {a b : Settings} (hdumps : b.dumpBindings = a.dumpBindings)
    (hle : a.maxCallDepth ≤ b.maxCallDepth) : a.rules.Loosens b.rules where
  dumps_eq := hdumps
  callee_eq := rfl
  check_ok d hd := by
    simp only [Rules.check, Settings.rules] at hd ⊢
    split at hd
    · cases hd
    · rw [if_neg (by omega)]

/-- A request that does not exceed the limit is answered in the same way, events included, under any
higher limit, whether it has a result or fails. So a request that exceeds the higher limit exceeds
the lower one. -/
theorem perform_eq_of_maxCallDepth_le {a b : Settings} (hdumps : b.dumpBindings = a.dumpBindings)
    (hle : a.maxCallDepth ≤ b.maxCallDepth) (q : Request) :
    ((∀ l, ((new a).perform q).1.result ≠ .error (.callDepthExceeded l)) →
        ((new b).perform q).1 = ((new a).perform q).1) ∧
      ∀ l, ((new b).perform q).1.result = .error (.callDepthExceeded l) →
        ((new a).perform q).1.result = .error (.callDepthExceeded a.maxCallDepth) := by
  have heq : (∀ l, ((new a).perform q).1.result ≠ .error (.callDepthExceeded l)) →
      ((new b).perform q).1 = ((new a).perform q).1 := fun h => by
    obtain ⟨m, hm⟩ := perform_loosened (loosens_of_maxCallDepth_le hdumps hle) h
    obtain ⟨n, hn⟩ := exists_run?_eq_perform b q
    exact run?_unique hn hm
  refine ⟨heq, fun l hl => ?_⟩
  by_contra hne
  have h : ∀ l, ((new a).perform q).1.result ≠ .error (.callDepthExceeded l) := fun l' hl' =>
    hne (perform_exceeded hl' ▸ hl')
  exact h l (heq h ▸ hl)

/-- A call that a limit of two frames lets pass comes to the same under one of three. -/
theorem perform_eq_of_maxCallDepth_le_call :
    let a : Settings := ⟨2, false⟩
    let b : Settings := ⟨3, false⟩
    let one : Routine := ⟨"one", .function, [], none, ⟨[], [.assign "one" (.number 1)]⟩⟩
    let q : Request := .program ⟨"p", ⟨[one.node], [.assign "x" (.call "one" [])]⟩⟩
    b.dumpBindings = a.dumpBindings ∧ a.maxCallDepth ≤ b.maxCallDepth ∧
      (∀ l, ((new a).perform q).1.result ≠ .error (.callDepthExceeded l)) ∧
        ((new b).perform q).1 = ((new a).perform q).1 := by
  intro a b one q
  have hok : ∃ o, ((new a).perform q).1.result = .ok (.outcome o) := ⟨_, rfl⟩
  have h : ∀ l, ((new a).perform q).1.result ≠ .error (.callDepthExceeded l) := fun l hl => by
    obtain ⟨o, ho⟩ := hok
    rw [ho] at hl
    cases hl
  exact ⟨rfl, by decide, h, (perform_eq_of_maxCallDepth_le (a := a) (b := b) rfl (by decide) q).1 h⟩

end Session

end SmallPascal

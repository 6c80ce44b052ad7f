import SmallPascal.Proofs.Evaluation.Limit

/-!
# Nodes that are run for their values

A task may take the value of a node (`Task.operand?`), and that node is run in front of it. As long
as it is, the machine does what it would do if nothing else were left to do (`runs_alone`). So what
the task is given is what the node comes to by itself, on the stack on which it was begun
(`exists_demand`).

Behind a failure there is a task that had a cause for it (`exists_cause`). A node that has no value
where one is needed stops the run, and if it is a call, the error says so
(`result_eq_noReturnValue_iff`).
-/

namespace SmallPascal

namespace Machine

open Session (Answer)

/-- A node is about to be run for its value, which the task behind it takes. -/
structure Demands (σ : State) (n : Node) (t : Task) (rest : List Task) : Prop where
  agenda_eq : σ.agenda = .visit n :: t :: rest
  running : ∃ g, σ.given = .ok g
  operand?_eq : t.operand? = some n

section

variable {rules : Rules} {t : Task} {tasks rest : List Task} {given given' : Option Answer}
  {s left : CallStack} {σ : State}

/-! ## Running a node for its value -/

/-- No task of a block takes a value: its nodes are run for what they bind. -/
theorem operand?_blockTasks {b : Block} : ∀ t ∈ blockTasks b, t.operand? = none := by
  unfold blockTasks
  simp only [List.forall_mem_append, List.forall_mem_map, List.forall_mem_singleton]
  exact ⟨fun _ _ => rfl, fun _ _ => rfl, rfl⟩

/-- Of tasks that are put on the agenda together, one takes a value only if its node is in front. -/
def Fed (tasks : List Task) : Prop :=
  (∀ u ∈ tasks, u.operand? = none) ∨ ∃ n u, tasks = [.visit n, u] ∧ u.operand? = some n

/-- In front of a task that takes the value of a node stands the task of that node, and nothing
else. -/
theorem Fed.eq_visit (h : Fed tasks) {pre more : List Task} {u : Task} {n : Node}
    (htasks : tasks = pre ++ u :: more) (hu : u.operand? = some n) : pre = [.visit n] := by
  rcases h with hnone | ⟨m, v, rfl, hv⟩
  · rw [hnone u (htasks ▸ List.mem_append_right _ (.head _))] at hu
    cases hu
  · obtain _ | ⟨p, _ | ⟨q, pre⟩⟩ := pre
    · obtain ⟨rfl, -⟩ := List.cons.inj htasks
      cases hu
    · obtain ⟨rfl, hmore⟩ := List.cons.inj htasks
      obtain ⟨rfl, -⟩ := List.cons.inj hmore
      rw [Option.some.inj (hv.symm.trans hu)]
    · exact absurd (congrArg List.length htasks) (by simp)

/-- So it is with the tasks that a task leaves. -/
theorem Moves.fed (h : Moves rules t given s tasks given' left) : Fed tasks := by
  cases h with
  | operand | leftOperand | source | left | argument => exact .inr ⟨_, _, rfl, rfl⟩
  | block => exact .inl operand?_blockTasks
  | compound =>
    exact .inl (List.forall_mem_append.2
      ⟨List.forall_mem_map.2 fun _ _ => rfl, List.forall_mem_singleton.2 rfl⟩)
  | enter | start =>
    exact .inl (List.forall_mem_append.2 ⟨operand?_blockTasks, List.forall_mem_singleton.2 rfl⟩)
  | _ => exact .inl (by simp [Task.operand?])

/-- And so it is where a request begins. -/
theorem fed_start (q : Session.Request) : Fed (State.start q).agenda := by
  cases q with
  | program p => exact .inl (List.forall_mem_singleton.2 rfl)
  | expression n => exact .inr ⟨n, _, rfl, rfl⟩

/-- What stands in the middle of two lists stands in the second one or in the first. -/
theorem append_eq_append_cons {α : Type} {xs ys pre rest : List α} {a : α}
    (h : xs ++ ys = pre ++ a :: rest) :
    (∃ more, pre = xs ++ more ∧ ys = more ++ a :: rest) ∨
      ∃ more, xs = pre ++ a :: more ∧ rest = more ++ ys := by
  rcases List.append_eq_append_iff.1 h with h | ⟨more, rfl, hmore⟩
  · exact .inl h
  · rcases List.cons_eq_append_iff.1 hmore with ⟨rfl, rfl⟩ | ⟨more, rfl, rfl⟩
    · exact .inl ⟨[], by simp, rfl⟩
    · exact .inr ⟨more, rfl, rfl⟩

/-- A state with another agenda. -/
def State.withAgenda (agenda : List Task) (σ : State) : State :=
  { σ with agenda }

/-- A state keeps its own agenda. -/
theorem State.withAgenda_eq {agenda : List Task} (h : σ.agenda = agenda) :
    σ.withAgenda agenda = σ := by
  subst h
  rfl

/-- What a step does has nothing to do with what stands behind the first task. -/
theorem step_withAgenda (hagenda : σ.agenda = t :: rest) (hgiven : σ.given = .ok given)
    (hok : (step rules σ).given = .ok given') :
    ∃ tasks, Moves rules t given σ.stack tasks given' (step rules σ).stack ∧
      ∀ more,
        step rules (σ.withAgenda (t :: more)) = (step rules σ).withAgenda (tasks ++ more) := by
  obtain ⟨agenda, _, s, events⟩ := σ
  obtain rfl : agenda = t :: rest := hagenda
  obtain rfl : _ = Except.ok given := hgiven
  rw [step_cons] at hok ⊢
  rcases h : t.perform rules given s with ⟨⟨new, e | ⟨tasks, g⟩⟩, left⟩
  · rw [h] at hok
    cases hok
  · rw [h] at hok
    obtain rfl := Except.ok.inj hok
    refine ⟨tasks, moves_of_perform ⟨by rw [h], by rw [h]; rfl⟩, fun more => ?_⟩
    rw [State.withAgenda, step_cons, h]
    rfl

/-- At moment `i` of a run a node has been begun whose value is for `t`, and since then the run is
that of the node alone, of which the tasks in `pre` are left. -/
def Alone (rules : Rules) (σ : State) (i : Nat) (pre : List Task) (n : Node) (t : Task)
    (rest : List Task) : Prop :=
  ∃ j k, j + k = i ∧ Demands (after rules j σ) n t rest ∧
    after rules k (.withAgenda [.visit n] (after rules j σ)) = .withAgenda pre (after rules i σ)

/-- A node that is run for its value is run as if nothing else were left to do. -/
theorem runs_alone (hgiven : σ.given = .ok given) (hfed : Fed σ.agenda) (i : Nat) :
    ∀ pre t rest n g, (after rules i σ).agenda = pre ++ t :: rest →
      (after rules i σ).given = .ok g → t.operand? = some n → Alone rules σ i pre n t rest := by
  induction i with
  | zero =>
    intro pre t rest n g hagenda _ hoperand
    obtain rfl := hfed.eq_visit hagenda hoperand
    exact ⟨0, 0, rfl, ⟨hagenda, ⟨_, hgiven⟩, hoperand⟩, rfl⟩
  | succ i ih =>
    intro pre t rest n g hagenda hg hoperand
    have hsucc : after rules (i + 1) σ = step rules (after rules i σ) := after_succ i σ
    cases hbefore : (after rules i σ).given with
    | error e =>
      rw [hsucc, step_of_error hbefore, hbefore] at hg
      cases hg
    | ok g₀ =>
      cases htasks₀ : (after rules i σ).agenda with
      | nil =>
        rw [hsucc, step_of_agenda_nil htasks₀, htasks₀] at hagenda
        exact absurd hagenda (by simp)
      | cons t₀ rest₀ =>
        obtain ⟨tasks, hmove, hstep⟩ := step_withAgenda htasks₀ hbefore (hsucc ▸ hg)
        have hnext : (after rules (i + 1) σ).agenda = tasks ++ rest₀ := by
          have h := hstep rest₀
          rw [State.withAgenda_eq htasks₀, ← hsucc] at h
          exact congrArg State.agenda h
        rcases append_eq_append_cons (hnext ▸ hagenda) with
          ⟨pre₀, rfl, hrest⟩ | ⟨more, htasks, hmore⟩
        · -- The task was there before, and the step is one of the node that is run for it.
          obtain ⟨j, k, rfl, hdemands, hk⟩ :=
            ih (t₀ :: pre₀) t rest n g₀ (by rw [htasks₀, hrest]; rfl) hbefore hoperand
          exact ⟨j, k + 1, rfl, hdemands, by rw [after_succ, hk, hstep, hsucc]⟩
        · obtain rfl := hmove.fed.eq_visit htasks hoperand
          exact ⟨i + 1, 0, rfl, ⟨by rw [hnext, htasks, hmore]; rfl, ⟨g, hg⟩, hoperand⟩, rfl⟩

end

/-! ## What a node comes to by itself -/

section

variable {settings : Settings} {q : Session.Request} {t : Task} {rest : List Task} {n : Node}
  {g : Option Answer} {i : Nat}

/-- A state behind an action in which something has been given: the action has given it. -/
theorem State.yields_of_behind {events : List Event} {s : CallStack}
    {x : Action (Option Answer)} {σ : State}
    (h : .behind rest events ((do return ([], ← x)) s) = σ) (hg : σ.given = .ok g) :
    x.Yields s g σ.stack := by
  subst h
  rcases hx : x s with ⟨⟨new, e | a⟩, left⟩
  · rw [behind_bind_of_error hx] at hg
    cases hg
  · rw [behind_bind_of_ok hx, behind_pure] at hg ⊢
    obtain rfl := Except.ok.inj hg
    exact ⟨by rw [hx], by rw [hx]⟩

/-- The state behind an action that succeeds. -/
theorem State.behind_of_yields (rest : List Task) (events : List Event) {s left : CallStack}
    {x : Action (Option Answer)} (h : x.Yields s g left) :
    ∃ events', State.behind rest events ((do return ([], ← x)) s) =
      ⟨rest, .ok g, left, events'⟩ := by
  rcases hx : x s with ⟨⟨new, result⟩, left'⟩
  obtain ⟨rfl, rfl⟩ : result = .ok g ∧ left' = left := by simpa [Action.Yields, hx] using h
  exact ⟨_, by rw [behind_bind_of_ok hx, behind_pure]; rfl⟩

/-- Nothing is left to do behind an action that puts no tasks on an empty agenda. -/
theorem State.agenda_behind_nil {events : List Event} {s : CallStack}
    {x : Action (Option Answer)} :
    (State.behind [] events ((do return ([], ← x)) s)).agenda = [] := by
  rcases hx : x s with ⟨⟨new, e | a⟩, left⟩
  · rw [behind_bind_of_error hx]
  · rw [behind_bind_of_ok hx, behind_pure, List.append_nil]

/-- What a task is given by the node whose value it takes is what the node comes to by itself, on
the stack on which it was begun. -/
theorem exists_demand (hagenda : (after settings.rules i (.start q)).agenda = t :: rest)
    (hg : (after settings.rules i (.start q)).given = .ok g) (ht : t.operand? = some n) :
    ∃ j v, Demands (after settings.rules j (.start q)) n t rest ∧
      (Evaluation.exec settings.dumpBindings (Evaluation.call settings) n).Yields
        (after settings.rules j (.start q)).stack v (after settings.rules i (.start q)).stack ∧
      v.map .value = g := by
  obtain ⟨j, k, rfl, hdemands, hk⟩ :=
    runs_alone (State.given_start q) (fed_start q) i [] t rest n g hagenda hg ht
  refine ⟨j, ?_⟩
  generalize after settings.rules (j + k) (.start q) = τ at hg hk ⊢
  generalize after settings.rules j (.start q) = σ at hdemands hk ⊢
  obtain ⟨agenda, given, s, events⟩ := σ
  obtain ⟨g', rfl⟩ : ∃ g', given = .ok g' := hdemands.running
  obtain ⟨m, hm⟩ := (exec_performs (call_serves settings) n 0 (Nat.le_refl 0)).reaches [] g' s
    events (Nat.zero_le _)
  have heq : _ = (⟨[], τ.given, τ.stack, τ.events⟩ : State) := (hm.symm.trans
    (after_unique (congrArg State.agenda hm |>.trans State.agenda_behind_nil)
      (congrArg State.agenda hk))).trans hk
  obtain ⟨v, hv, hgiven⟩ := Action.yields_map.1 (State.yields_of_behind heq hg)
  exact ⟨v, hdemands, hv, hgiven⟩

end

/-! ## What is behind a failure -/

/-- The values that a task applies an operator to. -/
def Task.operands (given : Option Answer) : Task → List Value
  | .unary .. => (given.bind Answer.value?).toList
  | .right _ l _ => l :: (given.bind Answer.value?).toList
  | _ => []

/-- The name that a task binds in the newest frame. -/
def Task.target? : Task → Option String
  | .assign name _ | .visit (.routine name ..) => some name
  | _ => none

/-- What is behind a failure of a task, where that can be seen from the task, from what it is given
and from the stack. -/
def Task.Cause (t : Task) (given : Option Answer) (s : CallStack) : RuntimeError → Prop
  | .undefinedVariable x =>
    t = .visit (.var x) ∧ s.get? x = none ∨ t.target? = some x ∧ s.frames = []
  | .routineOperand kind => ∃ r, .routine r ∈ t.operands given ∧ r.kind = kind
  | .noReturnValue x =>
    ∃ args, t.operand? = some (.call x args) ∧ given.bind Answer.value? = none
  | .statementOperand =>
    ∃ n, t.operand? = some n ∧ given.bind Answer.value? = none ∧ ∀ x args, n ≠ .call x args
  | _ => True

/-- A task that fails has a cause for it. -/
theorem cause_of_perform {settings : Settings} {t : Task} {given : Option Answer}
    {s left : CallStack} {e : RuntimeError} (h : (t.perform settings.rules given).Fails s e left) :
    t.Cause given s e := by
  cases (stops_of_perform h).1 with
  | var hread =>
    unfold Evaluation.read at hread
    split at hread
    · cases hread
    · next hnone =>
      obtain rfl := Except.error.inj hread
      exact .inl ⟨rfl, hnone⟩
  | routine hset | assign hset => exact .inr ⟨rfl, hset⟩
  | call hcallee => obtain ⟨_, rfl⟩ | rfl := callee_eq_error hcallee <;> trivial
  | operand hoperand hgiven =>
    unfold Evaluation.noValue
    split
    · exact ⟨_, hoperand, hgiven⟩
    · next hn => exact ⟨_, hoperand, hgiven, hn⟩
  | unary happly =>
    obtain ⟨r, rfl, rfl⟩ := unaryApply_eq_error happly
    exact ⟨r, .head _, rfl⟩
  | right happly =>
    obtain ⟨r, rfl | rfl, rfl⟩ | rfl := binaryApply_eq_error happly
    · exact ⟨r, .head _, rfl⟩
    · exact ⟨r, .tail _ (.head _), rfl⟩
    · trivial
  | arity => trivial
  | check _ hcheck =>
    obtain ⟨_, -, -, rfl⟩ := check_eq_error_iff.1 hcheck
    trivial

/-- Behind the failure of a request there is a task that had a cause for it. -/
theorem exists_cause {settings : Settings} {q : Session.Request} {e : RuntimeError}
    (h : ((Session.new settings).perform q).1.result = .error e) :
    ∃ i t rest g, (after settings.rules i (.start q)).agenda = t :: rest ∧
      (after settings.rules i (.start q)).given = .ok g ∧
      (after settings.rules (i + 1) (.start q)).given = .error e ∧
      t.Cause g (after settings.rules i (.start q)).stack e := by
  obtain ⟨n, hn⟩ := result_eq_error_iff.1 h
  obtain ⟨i, -, t, rest, g, hagenda, hg, hfails⟩ := exists_failure (State.given_start q) hn
  refine ⟨i, t, rest, g, hagenda, hg, ?_, cause_of_perform hfails⟩
  rw [after_succ, step_given_eq_error_iff hagenda hg]
  exact ⟨_, hfails⟩

/-! ## Nodes without a value -/

section

variable {settings : Settings} {q : Session.Request} {x : String}

/-- A node that comes to no value where one is needed stops the run. -/
theorem result_of_demands {i : Nat} {n : Node} {t : Task} {rest : List Task} {left : CallStack}
    (hdemands : Demands (after settings.rules i (.start q)) n t rest)
    (hn : (Evaluation.exec settings.dumpBindings (Evaluation.call settings) n).Yields
      (after settings.rules i (.start q)).stack none left) :
    ((Session.new settings).perform q).1.result = .error (Evaluation.noValue n) := by
  obtain ⟨hagenda, ⟨g, hg⟩, ht⟩ := hdemands
  rcases hσ : after settings.rules i (.start q) with ⟨agenda, given, s, events⟩
  rw [hσ] at hagenda hg hn
  obtain rfl : agenda = .visit n :: t :: rest := hagenda
  obtain rfl : given = .ok g := hg
  obtain ⟨m, hm⟩ := (exec_performs (call_serves settings) n 0 (Nat.le_refl 0)).reaches (t :: rest) g
    s events (Nat.zero_le _)
  obtain ⟨events', hgiven⟩ := State.behind_of_yields (t :: rest) events
    ((Action.yields_map (f := Option.map Answer.value)).2 ⟨none, hn, rfl⟩)
  have hbegun : after settings.rules (m + i) (.start q) = ⟨t :: rest, .ok none, left, events'⟩ := by
    rw [after_add, hσ]
    exact hm.trans hgiven
  refine result_eq_error_iff.2 ⟨m + i + 1, ?_⟩
  rw [after_succ, hbegun, step_given_eq_error_iff rfl rfl]
  exact ⟨left, perform_fails_of_operand ht rfl⟩

/-- A request fails because a call gives no value exactly if at some moment a call is run for its
value and comes to none. -/
theorem result_eq_noReturnValue_iff :
    ((Session.new settings).perform q).1.result = .error (.noReturnValue x) ↔
      ∃ i args t rest left, Demands (after settings.rules i (.start q)) (.call x args) t rest ∧
        (Evaluation.exec settings.dumpBindings (Evaluation.call settings) (.call x args)).Yields
          (after settings.rules i (.start q)).stack none left := by
  constructor
  · intro h
    obtain ⟨_, t, rest, g, hagenda, hg, -, args, ht, hnone⟩ := exists_cause h
    obtain ⟨i, v, hdemands, hv, rfl⟩ := exists_demand hagenda hg ht
    cases v with
    | none => exact ⟨i, args, t, rest, _, hdemands, hv⟩
    | some v => cases hnone
  · rintro ⟨i, args, t, rest, left, hdemands, hn⟩
    exact result_of_demands hdemands hn

end

end Machine

end SmallPascal

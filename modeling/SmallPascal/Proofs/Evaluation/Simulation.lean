import SmallPascal.Proofs.Evaluation.Machine

/-!
# The machine does what the evaluator does

`exists_run?_eq_perform`: for every request the machine comes to an end, with the result and the
events of the session. The machine has no budget, so this also says that the budget of
`Evaluation.invoke` is never what decides.

Tasks are compared with actions by `Performs`: whatever stands behind the tasks on the agenda, the
machine works them off and has then done what the action does. That is put together task by task
(`Performs.append`, `Performs.task`), and then node by node along the recursion of `exec`
(`exec_performs`), for an invocation that does what the machine does with a call (`Serves`). A call
is made one frame higher than the call around it, so the budget of a call and the frames that are
live never fall below the limit together (`invoke_serves`), and it is for this that `Performs`
counts frames.
-/

namespace SmallPascal

namespace Action

variable {α β : Type} {d d' d'' : Nat}

/-- Where `d` frames are live, the action leaves at least `d'` if it succeeds. -/
def Leaves (d d' : Nat) (x : Action α) : Prop :=
  ∀ ⦃s a left⦄, d ≤ s.depth → x.Yields s a left → d' ≤ left.depth

/-- Actions in a row leave as many frames as the last of them. -/
theorem Leaves.bind {x : Action α} {f : α → Action β} (hx : x.Leaves d d')
    (hf : ∀ a, (f a).Leaves d' d'') : (x >>= f).Leaves d d'' := by
  intro s b left hd h
  obtain ⟨a, mid, hxa, hfb⟩ := yields_bind.1 h
  exact hf a (hx hd hxa) hfb

/-- A value that is given leaves the frames that are live. -/
theorem Leaves.pure (a : α) : (Pure.pure a : Action α).Leaves d d := by
  rintro s _ left hd ⟨-, rfl⟩
  exact hd

/-- A result that is known leaves the frames that are live. -/
theorem Leaves.ofExcept (r : Except RuntimeError α) : (Action.ofExcept r).Leaves d d := by
  rintro s _ left hd ⟨-, rfl⟩
  exact hd

/-- Changing the result of an action does not change the frames it leaves. -/
theorem Leaves.map {x : Action α} (f : α → β) (hx : x.Leaves d d') :
    (f <$> x).Leaves d d' := by
  rw [map_eq_pure_bind]
  exact hx.bind fun a => .pure _

/-- A failure promises nothing, since it never succeeds. -/
theorem Leaves.fail (e : RuntimeError) : (Action.fail e : Action α).Leaves d d' :=
  fun _ _ _ _ h => absurd h not_yields_fail

/-- Recording an event leaves the frames that are live. -/
theorem Leaves.emit (e : Event) : (Action.emit e).Leaves d d := by
  rintro s _ left hd ⟨-, rfl⟩
  exact hd

/-- Looking at the stack leaves the frames that are live. -/
theorem Leaves.stack : Action.stack.Leaves d d := by
  rintro s _ left hd ⟨-, rfl⟩
  exact hd

/-- Putting a frame on top leaves one more. -/
theorem Leaves.push (f : CallStack → Frame) :
    (Action.modify fun s => s.push (f s)).Leaves d (d + 1) := by
  rintro s _ left hd ⟨-, rfl⟩
  exact Nat.succ_le_succ hd

/-- Taking off a frame leaves one less. -/
theorem Leaves.pop : Action.pop.Leaves d (d - 1) := by
  rintro ⟨frames⟩ _ left hd ⟨-, rfl⟩
  show d - 1 ≤ frames.tail.length
  rw [List.length_tail]
  exact Nat.sub_le_sub_right hd 1

/-- Binding a name leaves the frames that are live. -/
theorem Leaves.set (name : String) (v : Value) : (Action.set name v).Leaves d d := by
  rintro ⟨frames⟩ _ left hd h
  rw [yields_set] at h
  cases frames with
  | nil => cases h
  | cons f below =>
    obtain rfl := Except.ok.inj h
    exact hd

/-- Binding names leaves the frames that are live. -/
theorem Leaves.setAll (entries : List (String × Value)) : (Action.setAll entries).Leaves d d := by
  induction entries with
  | nil => exact .pure ()
  | cons e rest ih => exact (Leaves.set e.1 e.2).bind fun _ => ih

end Action

namespace Machine

open Session (Answer)

variable {rules : Rules}

/-! ## Tasks that do what an action does -/

namespace State

variable {rest : List Task} {events : List Event} {s left : CallStack} {α : Type}

/-- Behind actions of which the first succeeds stands the state behind the rest, with the events of
the first. -/
theorem behind_bind_of_ok {x : Action α} {new : List Event} {a : α}
    (h : x s = (⟨new, .ok a⟩, left)) (f : α → Action (List Task × Option Answer)) :
    behind rest events ((x >>= f) s) = behind rest (events ++ new) (f a left) := by
  rw [Action.bind_of_ok h]
  rcases f a left with ⟨⟨new', e | out⟩, left'⟩ <;> simp [behind]

/-- Behind actions of which the first fails nothing is left to do. -/
theorem behind_bind_of_error {x : Action α} {new : List Event} {e : RuntimeError}
    (h : x s = (⟨new, .error e⟩, left)) (f : α → Action (List Task × Option Answer)) :
    behind rest events ((x >>= f) s) = ⟨[], .error e, left, events ++ new⟩ := by
  rw [Action.bind_of_error h]
  rfl

/-- Behind a value that is given its tasks come first. -/
theorem behind_pure (tasks : List Task) (given : Option Answer) :
    behind rest events ((pure (tasks, given) : Action _) s) =
      ⟨tasks ++ rest, .ok given, s, events⟩ := by
  simp [behind, pure, Action.pure]

end State

/-- Tasks do what an action does, given what was given before: the machine works them off, and has
then recorded and left on the stack what the action does, or has stopped where it fails. There are
at least `d` live frames before and `d'` behind. -/
structure Performs (rules : Rules) (d d' : Nat) (tasks : List Task)
    (x : Option Answer → Action (Option Answer)) : Prop where
  leaves : ∀ given, (x given).Leaves d d'
  reaches : ∀ rest given s events, d ≤ s.depth →
    Reaches rules ⟨tasks ++ rest, .ok given, s, events⟩
      (.behind rest events ((do return ([], ← x given)) s))

namespace Performs

variable {d d' d'' : Nat} {tasks more : List Task} {x y : Option Answer → Action (Option Answer)}

/-- No tasks do nothing. -/
theorem nil : Performs rules d d [] pure where
  leaves given := .pure given
  reaches rest given s events _ := by
    rw [pure_bind, State.behind_pure]
    exact .refl _

/-- Tasks behind each other do one action after the other. -/
theorem append (hx : Performs rules d d' tasks x) (hy : Performs rules d' d'' more y) :
    Performs rules d d'' (tasks ++ more) (fun given => x given >>= y) where
  leaves given := (hx.leaves given).bind hy.leaves
  reaches rest given s events hd := by
    rw [List.append_assoc, bind_assoc]
    refine (hx.reaches (more ++ rest) given s events hd).trans ?_
    rcases h : x given s with ⟨⟨new, e | g⟩, left⟩
    · rw [State.behind_bind_of_error h, State.behind_bind_of_error h]
      exact .refl _
    · rw [State.behind_bind_of_ok h, State.behind_bind_of_ok h, State.behind_pure]
      exact hy.reaches rest g left (events ++ new) (hx.leaves given hd ⟨by rw [h], by rw [h]⟩)

/-- A task that does something and leaves tasks to be done in its place. -/
theorem task {α : Type} {t : Task} {x : Option Answer → Action α}
    {k : α → List Task × Option Answer} {y : α → Option Answer → Action (Option Answer)}
    (ht : ∀ given, Task.perform rules given t = x given >>= fun a => pure (k a))
    (hx : ∀ given, (x given).Leaves d d')
    (hy : ∀ a, Performs rules d' d'' (k a).1 (y a)) :
    Performs rules d d'' [t] (fun given => x given >>= fun a => y a (k a).2) where
  leaves given := (hx given).bind fun a => (hy a).leaves _
  reaches rest given s events hd := by
    refine .of_step ?_
    rw [List.singleton_append, step_cons, ht, bind_assoc]
    rcases h : x given s with ⟨⟨new, e | a⟩, left⟩
    · rw [State.behind_bind_of_error h, State.behind_bind_of_error h]
      exact .refl _
    · rw [State.behind_bind_of_ok h, State.behind_bind_of_ok h, State.behind_pure]
      exact (hy a).reaches rest (k a).2 left (events ++ new) (hx given hd ⟨by rw [h], by rw [h]⟩)

/-- A task that leaves nothing to be done. -/
theorem single {t : Task} {x : Option Answer → Action (Option Answer)}
    (ht : ∀ given, t.perform rules given = x given >>= fun g => pure ([], g))
    (hx : ∀ given, (x given).Leaves d d') : Performs rules d d' [t] x := by
  have h := task ht hx fun _ => nil
  simpa only [bind_pure] using h

/-- A task that is replaced by others. -/
theorem replace {t : Task} {tasks : List Task} {y : Action (Option Answer)}
    (ht : ∀ given, Task.perform rules given t = pure (tasks, none))
    (hy : Performs rules d d' tasks fun _ => y) : Performs rules d d' [t] fun _ => y := by
  have h := task (x := fun _ => pure ()) (k := fun _ => (tasks, none)) (y := fun _ _ => y)
    (fun given => by rw [ht, pure_bind]) (fun _ => .pure ()) (fun _ => hy)
  simpa only [pure_bind] using h

end Performs

/-! ## The tasks of a node -/

section

variable {d : Nat} {invocation : Invocation}

/-- A value is asked for when its node has been run. -/
theorem needValue_eq_bind (n : Node) (run : Action (Option Value)) :
    Evaluation.needValue n run = run >>= fun v => Evaluation.needValue n (pure v) := by
  unfold Evaluation.needValue
  simp only [pure_bind]

/-- A node that has been run for its value. -/
theorem map_bind_valueGiven {α : Type} (n : Node) (run : Action (Option Value))
    (k : Value → Action α) :
    (Option.map Answer.value <$> run >>= fun given => valueGiven n given >>= k) =
      Evaluation.needValue n run >>= k := by
  rw [needValue_eq_bind, map_eq_pure_bind]
  simp only [bind_assoc, pure_bind]
  refine bind_congr fun v => ?_
  cases v <;> rfl

/-- Asking for a value leaves the frames that are live. -/
theorem leaves_needValue (n : Node) (v : Option Value) :
    (Evaluation.needValue n (pure v)).Leaves d d := by
  unfold Evaluation.needValue
  rw [pure_bind]
  cases v with
  | none => cases n <;> exact .fail _
  | some v => exact .pure v

/-- Taking what was given leaves the frames that are live. -/
theorem leaves_valueGiven (n : Node) (given : Option Answer) : (valueGiven n given).Leaves d d :=
  leaves_needValue n _

/-- A node is run, and then its value is taken. -/
theorem Performs.value {d' : Nat} {n : Node} {run : Action (Option Value)} {more : List Task}
    {k : Value → Action (Option Answer)}
    (hn : Performs rules d d [.visit n] fun _ => Option.map .value <$> run)
    (hk : Performs rules d d' more fun given => valueGiven n given >>= k) :
    Performs rules d d' (.visit n :: more) fun _ => Evaluation.needValue n run >>= k := by
  have h := hn.append hk
  rw [map_bind_valueGiven] at h
  exact h

/-- An operator is applied to the value of its operand. -/
theorem unary_performs (op : UnaryOp) (operand : Node) :
    Performs rules d d [.unary op operand] fun given => valueGiven operand given >>= fun v => do
      let result ← Action.ofExcept (op.apply v)
      return some (.value result) :=
  .single (fun given => by simp only [Task.perform, bind_assoc, pure_bind])
    fun given => (leaves_valueGiven operand given).bind fun _ =>
      .bind (.ofExcept _) fun _ => .pure _

/-- An operator is applied to the value that has been kept and that of its right operand. -/
theorem right_performs (op : BinaryOp) (l : Value) (b : Node) :
    Performs rules d d [.right op l b] fun given => valueGiven b given >>= fun r => do
      let result ← Action.ofExcept (op.apply l r)
      return some (.value result) :=
  .single (fun given => by simp only [Task.perform, bind_assoc, pure_bind])
    fun given => (leaves_valueGiven b given).bind fun _ => .bind (.ofExcept _) fun _ => .pure _

/-- The value of the left operand is kept while the right one is run. -/
theorem left_performs (op : BinaryOp) (a b : Node) {run : Action (Option Value)}
    (hb : Performs rules d d [.visit b] fun _ => Option.map .value <$> run) :
    Performs rules d d [.left op a b] fun given => valueGiven a given >>= fun l => do
      let r ← Evaluation.needValue b run
      let result ← Action.ofExcept (op.apply l r)
      return some (.value result) :=
  .task (k := fun l => ([.visit b, .right op l b], none)) (fun _ => rfl)
    (leaves_valueGiven a) fun l => .value hb (right_performs op l b)

/-- A value is bound. -/
theorem assign_performs (target : String) (n : Node) :
    Performs rules d d [.assign target n] fun given => valueGiven n given >>= fun v => do
      let s ← Action.stack
      Action.emit (.assigned target v.text s.depth)
      Action.set target v
      return none :=
  .single (fun given => by simp only [Task.perform, bind_assoc, pure_bind])
    fun given => (leaves_valueGiven n given).bind fun v => .bind .stack fun s =>
      .bind (.emit _) fun _ => .bind (.set target v) fun _ => .pure _

/-- The task that stands for no answer gives none. -/
theorem nothing_performs : Performs rules d d [.nothing] fun _ => pure none :=
  .single (fun _ => by rw [pure_bind]; rfl) fun _ => .pure _

/-- The task behind an expression answers with the value that was given. -/
theorem answer_performs (n : Node) :
    Performs rules d d [.answer n] fun given => valueGiven n given >>= fun v =>
      pure (some (.value v)) :=
  .single (fun given => by simp only [Task.perform, bind_assoc, pure_bind])
    fun given => (leaves_valueGiven n given).bind fun _ => .pure _

/-- The value of an argument is kept while the other ones are run. -/
theorem argument_performs (r : Routine) (values : List Value) (arg : Node) (more : List Node)
    {rest : List Value → Action (Option Answer)}
    (hmore : ∀ values, Performs rules d d [.arguments r values more] fun _ => rest values) :
    Performs rules d d [.argument r values arg more] fun given => valueGiven arg given >>= fun v =>
      rest (values ++ [v]) :=
  .task (k := fun v => ([.arguments r (values ++ [v]) more], none)) (fun _ => rfl)
    (leaves_valueGiven arg) fun _ => hmore _

/-- A routine is left, with one frame less. -/
theorem leave_performs (r : Routine) :
    Performs rules d (d - 1) [.leave r] fun _ => Option.map .value <$> leave r :=
  .single (fun _ => by simp only [Task.perform, map_eq_pure_bind, bind_assoc, pure_bind])
    fun _ => .map _ (.bind .pop fun _ => .bind .stack fun _ => .bind (.emit _) fun _ => .pure _)

/-- A program ends, with one frame less. -/
theorem finish_performs (name : String) :
    Performs rules d (d - 1) [.finish name] fun _ => do
      let s ← Action.stack
      let dump := if rules.dumps then some s.dump else none
      let root ← Action.pop
      Action.emit (.programFinished name dump)
      return some (.outcome ⟨name, (root.map Frame.members).getD .empty, dump⟩) :=
  .single (fun _ => by simp only [Task.perform, bind_assoc, pure_bind])
    fun _ => .bind .stack fun _ => .bind .pop fun _ => .bind (.emit _) fun _ => .pure _

/-- A program begins: its block is run in a frame of its own. -/
theorem start_performs (p : Program) {x : Action Unit}
    (hblock : Performs rules (d + 1) (d + 1) (blockTasks p.block) fun _ => do x; return none) :
    Performs rules d d [.start p] fun _ =>
      (some ∘ Answer.outcome) <$> Evaluation.inProgram rules.dumps p.name x := by
  have h : Performs rules d d [.start p] _ := .task
    (x := fun _ => do
      Action.emit (.programStarted p.name)
      Action.modify (·.enterProgram p.name))
    (k := fun _ => (blockTasks p.block ++ [.finish p.name], none))
    (fun _ => by simp only [Task.perform, bind_assoc])
    (fun _ => .bind (.emit _) fun _ => .push _)
    (fun _ => hblock.append (finish_performs p.name))
  simpa only [Evaluation.inProgram, map_eq_pure_bind, bind_assoc, pure_bind, Function.comp_apply]
    using h

/-- What is done with the values of the arguments. -/
def callWith (invocation : Invocation) (r : Routine) (values : List Value) :
    Action (Option Value) :=
  if values.length = r.params.length then invocation r values
  else Action.fail (.arityMismatch r.name r.params.length values.length)

/-- A call with all its arguments: the block of the routine is run in a frame of its own. -/
theorem enter_performs {dumps : Bool} (r : Routine) (values : List Value)
    (hblock : Performs rules (d + 1) (d + 1) (blockTasks r.block) fun _ => do
      Evaluation.execBlock dumps invocation r.block
      return none) :
    Performs rules d d [.arguments r values []] fun _ =>
      Option.map .value <$> callWith (fun r values => do
        Action.ofExcept (rules.check (← Action.stack).depth)
        enter r values
        Evaluation.execBlock dumps invocation r.block
        leave r) r values := by
  unfold callWith
  split
  case isTrue hlength =>
    have h : Performs rules d d [.arguments r values []] _ := .task
      (x := fun _ => do
        Action.ofExcept (rules.check (← Action.stack).depth)
        enter r values)
      (k := fun _ => (blockTasks r.block ++ [.leave r], none))
      (fun _ => by simp only [Task.perform, if_pos hlength, bind_assoc])
      (fun _ => .bind .stack fun s => .bind (.ofExcept _) fun _ => .bind (.push _) fun _ =>
        .bind .stack fun _ => .bind (.emit _) fun _ => .setAll _)
      (fun _ => hblock.append (leave_performs r))
    simpa only [map_eq_pure_bind, bind_assoc, pure_bind] using h
  case isFalse hlength =>
    exact .single (fun _ => by rw [Task.perform, if_neg hlength]; rfl) fun _ => .map _ (.fail _)

/-- A call with all its arguments where no more frames may be live. -/
theorem refuse_performs (r : Routine) (values : List Value) {e : RuntimeError}
    (hfull : ∀ n, d ≤ n → rules.check n = .error e) :
    Performs rules d d [.arguments r values []] fun _ =>
      Option.map .value <$> callWith (fun _ _ => Action.fail e) r values where
  leaves _ := by
    unfold callWith
    split <;> exact .map _ (.fail _)
  reaches rest given s events hd := by
    refine .of_step ?_
    rw [List.singleton_append, step_cons, Task.perform]
    unfold callWith
    split
    · rw [Action.bind_of_ok (rfl : Action.stack s = (⟨[], .ok s⟩, s)), hfull _ hd]
      exact .refl _
    · exact .refl _

end

/-! ## What a node does -/

/-- From `D` live frames on, the machine does with a call what an invocation does. -/
structure Serves (rules : Rules) (D : Nat) (invocation : Invocation) : Prop where
  callee_eq : rules.callee = Evaluation.callee
  calls : ∀ d, D ≤ d → ∀ r values, Performs rules d d [.arguments r values []] fun _ =>
    Option.map .value <$> callWith invocation r values

section

variable {D : Nat} {invocation : Invocation}

mutual

/-- The tasks of a node do what the evaluator does with the node, if those of a call do. -/
theorem exec_performs (hserves : Serves rules D invocation) :
    ∀ (n : Node) (d : Nat), D ≤ d → Performs rules d d [.visit n] fun _ =>
      Option.map .value <$> Evaluation.exec rules.dumps invocation n
  | .number _, d, _ | .boolean _, d, _ | .noOp, d, _ | .varDecl .., d, _ | .typeSpec _, d, _
  | .param _, d, _ => by
    rw [Evaluation.exec, map_pure]
    exact .single (fun _ => by rw [pure_bind]; rfl) fun _ => .pure _
  | .var name, d, _ => by
    rw [Evaluation.exec]
    refine .single (fun _ => by
      simp only [Task.perform, visit, map_eq_pure_bind, bind_assoc, pure_bind, Option.map_some])
      fun _ => .map _ (.bind .stack fun _ => .bind (.ofExcept _) fun _ => .pure _)
  | .unary op operand, d, hd => by
    rw [Evaluation.exec, map_eq_pure_bind]
    simp only [bind_assoc, pure_bind, Option.map_some]
    exact .replace (fun _ => rfl)
      (.value (exec_performs hserves operand d hd) (unary_performs op operand))
  | .binary op left right, d, hd => by
    rw [Evaluation.exec, map_eq_pure_bind]
    simp only [bind_assoc, pure_bind, Option.map_some]
    exact .replace (fun _ => rfl)
      (.value (exec_performs hserves left d hd)
        (left_performs op left right (exec_performs hserves right d hd)))
  | .assign target value, d, hd => by
    rw [Evaluation.exec, map_eq_pure_bind]
    simp only [bind_assoc, pure_bind, Option.map_none]
    exact .replace (fun _ => rfl)
      (.value (exec_performs hserves value d hd) (assign_performs target value))
  | .compound children, d, hd => by
    rw [Evaluation.exec, map_eq_pure_bind]
    simp only [bind_assoc, pure_bind, Option.map_none]
    exact .replace (fun _ => rfl) (execAll_performs hserves children d hd nothing_performs)
  | .block declarations body, d, hd => by
    rw [Evaluation.exec, map_eq_pure_bind]
    simp only [bind_assoc, pure_bind, Option.map_none]
    exact .replace (fun _ => rfl) (execAll_performs hserves declarations d hd
      (execAll_performs hserves body d hd nothing_performs))
  | .routine name kind params returnType declarations body, d, hd => by
    rw [Evaluation.exec]
    exact .single (fun _ => by
      simp only [Task.perform, visit, map_eq_pure_bind, bind_assoc, pure_bind, Option.map_none])
      fun _ => .map _ (.bind (.set name _) fun _ => .pure _)
  | .call name args, d, hd => by
    rw [Evaluation.exec, map_eq_pure_bind]
    have h : Performs rules d d [.visit (.call name args)] _ := .task
      (x := fun _ => do Action.ofExcept (Evaluation.callee (← Action.stack) name))
      (k := fun r => ([.arguments r [] args], none))
      (fun _ => by simp only [Task.perform, visit, hserves.callee_eq, bind_assoc])
      (fun _ => .bind .stack fun _ => .ofExcept _)
      (fun r => execArgs_performs hserves args d hd r [])
    simpa only [callWith, List.nil_append, map_eq_pure_bind, bind_assoc] using h
  | .program name declarations body, d, hd => by
    -- The block runs on top of one frame more, which is why the depth is general.
    have hblock := execAll_performs hserves declarations (d + 1) (Nat.le_succ_of_le hd)
      (execAll_performs hserves body (d + 1) (Nat.le_succ_of_le hd) nothing_performs)
    have h := (start_performs ⟨name, ⟨declarations, body⟩⟩ (x := do
        Evaluation.execAll rules.dumps invocation declarations
        Evaluation.execAll rules.dumps invocation body)
      (by simp only [bind_assoc]; exact hblock)).append nothing_performs
    rw [Evaluation.exec, map_eq_pure_bind]
    simp only [map_eq_pure_bind, bind_assoc, pure_bind, Option.map_none] at h ⊢
    exact .replace (fun _ => rfl) h

/-- The tasks of statements do what the evaluator does with the statements, and then what is left to
do. -/
theorem execAll_performs (hserves : Serves rules D invocation) :
    ∀ (ns : List Node) (d : Nat), D ≤ d → ∀ {more : List Task} {y : Action (Option Answer)},
      Performs rules d d more (fun _ => y) →
      Performs rules d d (ns.map .visit ++ more) fun _ => do
        Evaluation.execAll rules.dumps invocation ns
        y
  | [], d, _, more, y, hmore => by
    rw [Evaluation.execAll, pure_bind]
    exact hmore
  | n :: rest, d, hd, more, y, hmore => by
    have h := (exec_performs hserves n d hd).append
      (execAll_performs hserves rest d hd hmore)
    simp only [Evaluation.execAll, map_eq_pure_bind, bind_assoc, pure_bind] at h ⊢
    exact h

/-- The tasks of the arguments of a call do what the evaluator does with the arguments, and then the
call. -/
theorem execArgs_performs (hserves : Serves rules D invocation) :
    ∀ (ns : List Node) (d : Nat), D ≤ d → ∀ (r : Routine) (values : List Value),
      Performs rules d d [.arguments r values ns] fun _ => do
        let more ← Evaluation.execArgs rules.dumps invocation ns
        Option.map .value <$> callWith invocation r (values ++ more)
  | [], d, hd, r, values => by
    rw [Evaluation.execArgs, pure_bind, List.append_nil]
    exact hserves.calls d hd r values
  | n :: rest, d, hd, r, values => by
    have h := Performs.value (exec_performs hserves n d hd) (argument_performs r values n rest
      fun values => execArgs_performs hserves rest d hd r values)
    simp only [Evaluation.execArgs, bind_assoc, pure_bind, List.append_assoc, List.cons_append,
      List.nil_append] at h ⊢
    exact .replace (fun _ => rfl) h

end

/-- The tasks of a block do what the evaluator does with the block. -/
theorem execBlock_performs (hserves : Serves rules D invocation) (b : Block) {d : Nat}
    (hd : D ≤ d) : Performs rules d d (blockTasks b) fun _ => do
      Evaluation.execBlock rules.dumps invocation b
      return none := by
  have h := execAll_performs hserves b.declarations d hd
    (execAll_performs hserves b.body d hd nothing_performs)
  simp only [Evaluation.execBlock, bind_assoc]
  exact h

end

/-! ## Whole runs -/

section

variable (settings : Settings)

/-- A call that may still nest is checked, entered, run and left. -/
theorem invoke_succ (budget : Nat) (r : Routine) (values : List Value) :
    Evaluation.invoke settings (budget + 1) r values = (do
      Action.ofExcept (settings.rules.check (← Action.stack).depth)
      enter r values
      Evaluation.execBlock settings.dumpBindings (Evaluation.invoke settings budget) r.block
      leave r) := by
  rw [Evaluation.invoke]
  refine bind_congr fun callers => ?_
  simp only [Rules.check, Settings.rules]
  split
  · rfl
  · simp only [enter, leave, bind_assoc]
    rfl

/-- A budget that covers the frames that may still be put on top is as good as none: the call does
what the machine does, which has no budget. -/
theorem invoke_serves : ∀ (budget D : Nat), settings.maxCallDepth ≤ budget + D →
    Serves settings.rules D (Evaluation.invoke settings budget)
  | 0, D, hbudget => by
    refine ⟨rfl, fun d hd r values => ?_⟩
    have hfull : ∀ n, d ≤ n →
        settings.rules.check n = .error (.callDepthExceeded settings.maxCallDepth) :=
      fun n hn => if_pos (by omega)
    exact refuse_performs r values hfull
  | budget + 1, D, hbudget => by
    refine ⟨rfl, fun d hd r values => ?_⟩
    have hserves := invoke_serves budget (d + 1) (by omega)
    have h := enter_performs r values (execBlock_performs hserves r.block (Nat.le_refl _))
    simp only [callWith, invoke_succ]
    exact h

/-- The calls of the evaluator are those of the machine, however many frames are live. -/
theorem call_serves : Serves settings.rules 0 (Evaluation.call settings) :=
  invoke_serves settings _ 0 (Nat.le_refl _)

/-- What is left of a run to its end. -/
theorem Performs.run? {rules : Rules} {tasks : List Task} {α : Type} {x : Action α}
    {answer : α → Answer} (h : Performs rules 0 0 tasks fun _ => (some ∘ answer) <$> x)
    (s : CallStack) :
    ∃ n, (after rules n ⟨tasks, .ok none, s, []⟩).run? = some ((x s).1.map answer) := by
  obtain ⟨n, hn⟩ := h.reaches [] none s [] (Nat.zero_le _)
  rw [List.append_nil] at hn
  refine ⟨n, ?_⟩
  rw [hn, map_eq_pure_bind, bind_assoc]
  simp only [pure_bind]
  rcases hx : x s with ⟨⟨events, e | a⟩, left⟩
  · rw [State.behind_bind_of_error hx]
    rfl
  · rw [State.behind_bind_of_ok hx, State.behind_pure]
    rfl

/-- The machine is the evaluator: it comes to an end for every request, with what a session that has
no frames answers. -/
theorem exists_run?_eq_perform (q : Session.Request) :
    ∃ n, (after settings.rules n (.start q)).run? = some ((Session.new settings).perform q).1 := by
  cases q with
  | program p =>
    have hblock := execBlock_performs (call_serves settings) p.block (Nat.zero_le 1)
    exact (start_performs p hblock).run? .empty
  | expression n =>
    have h := Performs.value (exec_performs (call_serves settings) n 0 (Nat.le_refl 0))
      (answer_performs n)
    rw [← map_eq_pure_bind] at h
    exact h.run? (CallStack.empty.enterProgram Session.expressionFrame)

end

end Machine
end SmallPascal

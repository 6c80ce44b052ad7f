import SmallPascal.Proofs.Evaluation.Frame
import SmallPascal.Proofs.Evaluation.Machine

/-!
# The agenda and the stack

What holds of every task, whatever the rules. `Moves` says all that a task can do when it succeeds,
so that an invariant of a run is a case analysis (`running_induction`); the first one is that the
live frames are counted on the agenda (`Moves.depth_eq`). `Stops` says why a task can fail. It then
leaves the stack as it was (`perform_fails_left`), so that the frames that are live when a run has
failed are those that were live before its last task (`exists_failure`). And there is one kind of
task that records the beginning of a call (`perform_callEntered`).
-/

namespace SmallPascal

namespace Machine

open Session (Answer)

/-! ## What a task does -/

/-- What a task does when it succeeds: with what was given and a stack, the tasks it leaves, what it
gives, and the stack it leaves. -/
inductive Moves (rules : Rules) :
    Task → Option Answer → CallStack → List Task → Option Answer → CallStack → Prop where
  | number : Moves rules (.visit (.number n)) g s [] (some (.value (.integer n))) s
  | boolean : Moves rules (.visit (.boolean b)) g s [] (some (.value (.boolean b))) s
  | var (hread : Evaluation.read s name = .ok v) :
    Moves rules (.visit (.var name)) g s [] (some (.value v)) s
  | operand : Moves rules (.visit (.unary op a)) g s [.visit a, .unary op a] none s
  | leftOperand : Moves rules (.visit (.binary op a b)) g s [.visit a, .left op a b] none s
  | source : Moves rules (.visit (.assign target n)) g s [.visit n, .assign target n] none s
  | compound :
    Moves rules (.visit (.compound children)) g s (children.map .visit ++ [.nothing]) none s
  | block :
    Moves rules (.visit (.block declarations body)) g s (blockTasks ⟨declarations, body⟩) none s
  | routine {r : Routine} (hset : s.set r.name (.routine r) = .ok s') :
    Moves rules (.visit r.node) g s [] none s'
  | call (hcallee : rules.callee s name = .ok r) :
    Moves rules (.visit (.call name args)) g s [.arguments r [] args] none s
  | program : Moves rules (.visit (.program name declarations body)) g s
      [.start ⟨name, ⟨declarations, body⟩⟩, .nothing] none s
  | noOp : Moves rules (.visit .noOp) g s [] none s
  | varDecl : Moves rules (.visit (.varDecl name type)) g s [] none s
  | typeSpec : Moves rules (.visit (.typeSpec type)) g s [] none s
  | param : Moves rules (.visit (.param p)) g s [] none s
  | unary (happly : op.apply v = .ok result) :
    Moves rules (.unary op a) (some (.value v)) s [] (some (.value result)) s
  | left : Moves rules (.left op a b) (some (.value l)) s [.visit b, .right op l b] none s
  | right (happly : op.apply l r = .ok result) :
    Moves rules (.right op l b) (some (.value r)) s [] (some (.value result)) s
  | assign (hset : s.set target v = .ok s') :
    Moves rules (.assign target n) (some (.value v)) s [] none s'
  | argument : Moves rules (.arguments r values (arg :: more)) g s
      [.visit arg, .argument r values arg more] none s
  | value : Moves rules (.argument r values arg more) (some (.value v)) s
      [.arguments r (values ++ [v]) more] none s
  | enter (hlength : values.length = r.params.length) (hcheck : rules.check s.depth = .ok ()) :
    Moves rules (.arguments r values []) g s (blockTasks r.block ++ [.leave r]) none
      (s.push (enteredFrame s r values))
  | leave : Moves rules (.leave r) g s []
      ((Evaluation.resultOf r s.frames.head?).map .value) s.pop.2
  | start : Moves rules (.start p) g s (blockTasks p.block ++ [.finish p.name]) none
      (s.push (.root p.name))
  | finish : Moves rules (.finish name) g s [] (some (.outcome ⟨name,
      (s.frames.head?.map Frame.members).getD .empty, if rules.dumps then some s.dump else none⟩))
      s.pop.2
  | nothing : Moves rules .nothing g s [] none s
  | answer : Moves rules (.answer n) (some (.value v)) s [] (some (.value v)) s

/-- The node whose value a task takes. -/
def Task.operand? : Task → Option Node
  | .unary _ n | .left _ n _ | .right _ _ n | .assign _ n | .argument _ _ n _ | .answer n => some n
  | .visit _ | .arguments .. | .leave _ | .start _ | .finish _ | .nothing => none

/-- Why a task fails: with what was given and a stack, the error. -/
inductive Stops (rules : Rules) : Task → Option Answer → CallStack → RuntimeError → Prop where
  | var (hread : Evaluation.read s name = .error e) : Stops rules (.visit (.var name)) g s e
  | routine (hset : s.frames = []) {r : Routine} :
    Stops rules (.visit r.node) g s (.undefinedVariable r.name)
  | call (hcallee : rules.callee s name = .error e) : Stops rules (.visit (.call name args)) g s e
  | operand (hoperand : t.operand? = some n) (hgiven : g.bind Answer.value? = none) :
    Stops rules t g s (Evaluation.noValue n)
  | unary (happly : op.apply v = .error e) : Stops rules (.unary op a) (some (.value v)) s e
  | right (happly : op.apply l r = .error e) : Stops rules (.right op l b) (some (.value r)) s e
  | assign (hset : s.frames = []) :
    Stops rules (.assign target n) (some (.value v)) s (.undefinedVariable target)
  | arity (hlength : values.length ≠ r.params.length) :
    Stops rules (.arguments r values []) g s (.arityMismatch r.name r.params.length values.length)
  | check (hlength : values.length = r.params.length) (hcheck : rules.check s.depth = .error e) :
    Stops rules (.arguments r values []) g s e

section

variable {rules : Rules} {t : Task} {tasks : List Task} {s left : CallStack}
  {given given' : Option Answer}

/-! ## The parts of tasks -/

@[simp] theorem yields_enter {r : Routine} {values : List Value} {u : Unit} :
    (enter r values).Yields s u left ↔ s.push (enteredFrame s r values) = left := by
  rw [Action.Yields, enter_apply]
  simp

@[simp] theorem yields_valueGiven {n : Node} {v : Value} :
    (valueGiven n given).Yields s v left ↔ given = some (.value v) ∧ s = left := by
  rw [valueGiven, Evaluation.yields_needValue, Action.yields_pure]
  rcases given with _ | ⟨o⟩ | ⟨w⟩ <;> simp [Answer.value?]

@[simp] theorem fails_valueGiven {n : Node} {e : RuntimeError} :
    (valueGiven n given).Fails s e left ↔
      (given.bind Answer.value? = none ∧ s = left) ∧ Evaluation.noValue n = e := by
  simp [valueGiven]

/-- Entering a routine records the call and nothing else. -/
theorem records_enter {r : Routine} {values : List Value} {event : Event} :
    (enter r values).Records s event ↔ event = .callEntered r.name (s.depth + 1) := by
  rw [Action.Records, enter_apply]
  exact List.mem_singleton

@[simp] theorem not_records_valueGiven {n : Node} {event : Event} :
    ¬ (valueGiven n given).Records s event := by
  unfold valueGiven Evaluation.needValue
  rw [pure_bind]
  split
  · exact Action.not_records_pure
  · split <;> exact Action.not_records_fail

/-! ## What a task goes by -/

/-- A task is done in the same way under rules that do not differ in what the task looks at. -/
theorem perform_congr {a b : Rules} {t : Task} (hdumps : b.dumps = a.dumps)
    (hcallee : ∀ name args, t = .visit (.call name args) → b.callee s name = a.callee s name)
    (hcheck : ∀ r values, t = .arguments r values [] → values.length = r.params.length →
      b.check s.depth = a.check s.depth) :
    t.perform b given s = t.perform a given s := by
  cases t with
  | visit n =>
    cases n with
    | call name args => simp only [Task.perform, visit, Action.stack_bind, hcallee name args rfl]
    | _ => rfl
  | arguments r values more =>
    cases more with
    | cons => rfl
    | nil =>
      rw [Task.perform, Task.perform]
      split
      next hlength => simp only [Action.stack_bind, hcheck r values rfl hlength]
      next => rfl
  | finish => simp only [Task.perform, hdumps]
  | _ => rfl

/-- A step is the same under rules under which the first task is done in the same way. -/
theorem step_congr {a b : Rules} {σ : State} (hperform : ∀ t rest g, σ.agenda = t :: rest →
      σ.given = .ok g → t.perform b g σ.stack = t.perform a g σ.stack) : step b σ = step a σ := by
  obtain ⟨_ | ⟨t, rest⟩, e | g, s, events⟩ := σ
  · rfl
  · rfl
  · rw [step_of_error rfl, step_of_error rfl]
  · rw [step_cons, step_cons, hperform t rest g rfl rfl]

/-! ## Tasks that fail -/

/-- A task that fails stops as the machine says, and leaves the stack as it was. -/
theorem stops_of_perform {t : Task} {e : RuntimeError}
    (h : (t.perform rules given).Fails s e left) : Stops rules t given s e ∧ left = s := by
  cases t with
  | visit n =>
    cases n with
    | var | call =>
      simp only [Task.perform, visit, Action.fails_bind, Action.yields_stack, Action.fails_ofExcept,
        Action.fails_pure, Action.not_fails_stack, false_or, or_false, and_false, exists_false] at h
      obtain ⟨_, _, ⟨rfl, rfl⟩, h, rfl⟩ := h
      exact ⟨by constructor; exact h, rfl⟩
    | routine name kind params returnType declarations body =>
      simp only [Task.perform, visit, Action.fails_bind, Action.fails_set, Action.fails_pure,
        or_false, and_false, exists_false] at h
      obtain ⟨hset, rfl, rfl⟩ := h
      exact ⟨.routine hset (r := ⟨name, kind, params, returnType, ⟨declarations, body⟩⟩), rfl⟩
    | _ => exact absurd h Action.fails_pure
  | unary | right =>
    simp only [Task.perform, Action.fails_bind, yields_valueGiven, fails_valueGiven,
      Action.fails_ofExcept, Action.fails_pure, or_false, and_false, exists_false] at h
    obtain ⟨⟨hgiven, rfl⟩, rfl⟩ | ⟨v, _, ⟨rfl, rfl⟩, happly, rfl⟩ := h
    · exact ⟨.operand rfl hgiven, rfl⟩
    · exact ⟨by constructor; exact happly, rfl⟩
  | left | argument | answer =>
    simp only [Task.perform, Action.fails_bind, fails_valueGiven, Action.fails_pure, or_false,
      and_false, exists_false] at h
    obtain ⟨⟨hgiven, rfl⟩, rfl⟩ := h
    exact ⟨.operand rfl hgiven, rfl⟩
  | assign =>
    simp only [Task.perform, Action.fails_bind, yields_valueGiven, fails_valueGiven,
      Action.yields_stack, Action.yields_emit, Action.not_fails_stack, Action.not_fails_emit,
      Action.fails_set, Action.fails_pure, or_false, false_or, and_false, exists_false] at h
    obtain ⟨⟨hgiven, rfl⟩, rfl⟩ |
      ⟨v, _, ⟨rfl, rfl⟩, _, _, ⟨-, rfl⟩, _, _, rfl, hset, rfl, rfl⟩ := h
    · exact ⟨.operand rfl hgiven, rfl⟩
    · exact ⟨.assign hset, rfl⟩
  | arguments r values more =>
    cases more with
    | cons => exact absurd h Action.fails_pure
    | nil =>
      rw [Task.perform] at h
      split at h
      next hlength =>
        simp only [Action.fails_bind, Action.yields_stack, Action.not_fails_stack,
          Action.fails_ofExcept, not_fails_enter, Action.fails_pure, or_false, false_or, and_false,
          exists_false] at h
        obtain ⟨_, _, ⟨rfl, rfl⟩, hcheck, rfl⟩ := h
        exact ⟨.check hlength hcheck, rfl⟩
      next hlength =>
        obtain ⟨rfl, rfl⟩ := Action.fails_fail.1 h
        exact ⟨.arity hlength, rfl⟩
  | leave | start | finish | nothing => simp [Task.perform, leave] at h

/-- A task that fails leaves the stack as it found it. -/
theorem perform_fails_left {t : Task} {e : RuntimeError}
    (h : (t.perform rules given).Fails s e left) : left = s :=
  (stops_of_perform h).2

/-- A task that takes a value fails if it is given none. -/
theorem perform_fails_of_operand {t : Task} {n : Node} (ht : t.operand? = some n)
    (hgiven : given.bind Answer.value? = none) :
    (t.perform rules given).Fails s (Evaluation.noValue n) s := by
  cases t with
  | unary | left | right | assign | argument | answer =>
    obtain rfl := Option.some.inj ht
    exact Action.fails_bind.2 (.inl (fails_valueGiven.2 ⟨⟨hgiven, rfl⟩, rfl⟩))
  | _ => cases ht

/-! ## Tasks that succeed -/

/-- A node that is run moves as the machine says. -/
theorem moves_of_visit {n : Node} (h : (visit rules n).Yields s (tasks, given') left) :
    Moves rules (.visit n) given s tasks given' left := by
  cases n with
  | var name =>
    simp only [visit, Action.yields_bind, Action.yields_stack, Action.yields_ofExcept,
      Action.yields_pure] at h
    obtain ⟨_, _, ⟨rfl, rfl⟩, v, _, ⟨hread, rfl⟩, ⟨⟩, rfl⟩ := h
    exact .var hread
  | routine name kind params returnType declarations body =>
    simp only [visit, Action.yields_bind, Action.yields_set, Action.yields_pure] at h
    obtain ⟨_, _, hset, ⟨⟩, rfl⟩ := h
    exact .routine (r := ⟨name, kind, params, returnType, ⟨declarations, body⟩⟩) hset
  | call name args =>
    simp only [visit, Action.yields_bind, Action.yields_stack, Action.yields_ofExcept,
      Action.yields_pure] at h
    obtain ⟨_, _, ⟨rfl, rfl⟩, r, _, ⟨hcallee, rfl⟩, ⟨⟩, rfl⟩ := h
    exact .call hcallee
  | _ =>
    obtain ⟨⟨⟩, rfl⟩ := Action.yields_pure.1 h
    constructor

/-- A task that succeeds moves as the machine says. -/
theorem moves_of_perform (h : (t.perform rules given).Yields s (tasks, given') left) :
    Moves rules t given s tasks given' left := by
  cases t with
  | visit n => exact moves_of_visit h
  | unary | right =>
    simp only [Task.perform, Action.yields_bind, yields_valueGiven, Action.yields_ofExcept,
      Action.yields_pure] at h
    obtain ⟨v, _, ⟨rfl, rfl⟩, w, _, ⟨happly, rfl⟩, ⟨⟩, rfl⟩ := h
    constructor
    exact happly
  | left | argument | answer =>
    simp only [Task.perform, Action.yields_bind, yields_valueGiven, Action.yields_pure] at h
    obtain ⟨v, _, ⟨rfl, rfl⟩, ⟨⟩, rfl⟩ := h
    constructor
  | assign target value =>
    simp only [Task.perform, Action.yields_bind, yields_valueGiven, Action.yields_stack,
      Action.yields_emit, Action.yields_set, Action.yields_pure] at h
    obtain ⟨v, _, ⟨rfl, rfl⟩, _, _, ⟨rfl, rfl⟩, _, _, rfl, _, _, hset, ⟨⟩, rfl⟩ := h
    exact .assign hset
  | arguments r values more =>
    cases more with
    | cons arg more =>
      obtain ⟨⟨⟩, rfl⟩ := Action.yields_pure.1 h
      exact .argument
    | nil =>
      rw [Task.perform] at h
      split at h
      next hlength =>
        simp only [Action.yields_bind, Action.yields_stack, Action.yields_ofExcept, yields_enter,
          Action.yields_pure] at h
        obtain ⟨_, _, ⟨rfl, rfl⟩, _, _, ⟨hcheck, rfl⟩, _, _, rfl, ⟨⟩, rfl⟩ := h
        exact .enter hlength hcheck
      next => exact absurd h Action.not_yields_fail
  | leave r =>
    simp only [Task.perform, Machine.leave, Action.yields_bind, Action.yields_stack,
      Action.yields_pop, Action.yields_emit, Action.yields_pure] at h
    obtain ⟨_, _, ⟨frame, _, hpop, _, _, ⟨rfl, rfl⟩, _, _, rfl, rfl, rfl⟩, ⟨⟩, rfl⟩ := h
    obtain ⟨rfl, rfl⟩ := Prod.mk.inj hpop
    exact .leave
  | start p =>
    simp only [Task.perform, Action.yields_bind, Action.yields_emit, Action.yields_modify,
      Action.yields_pure] at h
    obtain ⟨_, _, rfl, _, _, rfl, ⟨⟩, rfl⟩ := h
    exact .start
  | finish name =>
    simp only [Task.perform, Action.yields_bind, Action.yields_stack, Action.yields_pop,
      Action.yields_emit, Action.yields_pure] at h
    obtain ⟨_, _, ⟨rfl, rfl⟩, frame, _, hpop, _, _, rfl, ⟨⟩, rfl⟩ := h
    obtain ⟨rfl, rfl⟩ := Prod.mk.inj hpop
    exact .finish
  | nothing =>
    obtain ⟨⟨⟩, rfl⟩ := Action.yields_pure.1 h
    exact .nothing

/-! ## Tasks that take frames off -/

/-- Whether a task takes off a frame. -/
def Task.closes : Task → Bool
  | .leave _ | .finish _ => true
  | _ => false

/-- How many frames the tasks take off. -/
def closers (agenda : List Task) : Nat :=
  agenda.countP Task.closes

@[simp] theorem closers_nil : closers [] = 0 := rfl

@[simp] theorem closers_append (ts us : List Task) : closers (ts ++ us) = closers ts + closers us :=
  List.countP_append

@[simp] theorem closers_cons (t : Task) (rest : List Task) :
    closers (t :: rest) = closers rest + if t.closes then 1 else 0 :=
  List.countP_cons

/-- The task behind a call takes off the frame of the routine. -/
theorem closers_leave (r : Routine) (rest : List Task) :
    closers (.leave r :: rest) = closers rest + 1 :=
  closers_cons _ _

/-- The task behind a program takes off the frame of the program. -/
theorem closers_finish (name : String) (rest : List Task) :
    closers (.finish name :: rest) = closers rest + 1 :=
  closers_cons _ _

@[simp] theorem closers_visits (ns : List Node) : closers (ns.map .visit) = 0 := by
  induction ns with
  | nil => rfl
  | cons n rest ih => simpa [Task.closes] using ih

@[simp] theorem closers_blockTasks (b : Block) : closers (blockTasks b) = 0 := by
  simp [blockTasks, Task.closes]

/-- Binding a name does not change how many frames are live. -/
theorem depth_set {name : String} {v : Value} (h : s.set name v = .ok left) :
    left.depth = s.depth := by
  obtain ⟨_ | ⟨f, below⟩⟩ := s
  · cases h
  · obtain rfl := Except.ok.inj h
    rfl

/-- As long as a run has not failed, each live frame is taken off by a task of its agenda, but for
those that were live before the run. -/
theorem Moves.depth_eq_add {rest : List Task} (below : Nat)
    (h : Moves rules t given s tasks given' left)
    (hdepth : s.depth = closers (t :: rest) + below) :
    left.depth = closers (tasks ++ rest) + below := by
  cases h with
  | routine hset | assign hset => simp [depth_set hset, hdepth, Task.closes]
  | enter | start =>
    simp [CallStack.push, CallStack.depth, Task.closes] at hdepth ⊢
    rw [hdepth, Nat.add_right_comm]
  | leave | finish =>
    have hpop : s.pop.2.depth = s.depth - 1 := List.length_tail
    simp [hpop, hdepth, Task.closes]
  | _ => simp [hdepth, Task.closes]

/-- The number of live frames stays that of the frames that are still to be taken off, whatever a
task does. -/
theorem Moves.depth_eq {rest : List Task} (h : Moves rules t given s tasks given' left)
    (hdepth : s.depth = closers (t :: rest)) : left.depth = closers (tasks ++ rest) :=
  h.depth_eq_add 0 hdepth

/-! ## What holds of each task of an agenda -/

/-- Each task of an agenda is as it should be in front of what stands behind it. -/
def Each (P : Task → List Task → Prop) : List Task → Prop
  | [] => True
  | t :: rest => P t rest ∧ Each P rest

@[simp] theorem each_cons {P : Task → List Task → Prop} {t : Task} {rest : List Task} :
    Each P (t :: rest) ↔ P t rest ∧ Each P rest := Iff.rfl

section

variable {P : Task → List Task → Prop} {rest : List Task}

/-- Tasks that are as they should be are so in any weaker sense. -/
theorem Each.imp {Q : Task → List Task → Prop} (hPQ : ∀ t rest, P t rest → Q t rest) :
    ∀ {agenda : List Task}, Each P agenda → Each Q agenda
  | [], _ => trivial
  | t :: rest, h => ⟨hPQ t rest h.1, h.2.imp hPQ⟩

/-- The tasks of nodes take off no frame, so the same frames are live for each of them. -/
theorem each_visits {ns : List Node}
    (hns : ∀ n ∈ ns, ∀ after, closers after = closers rest → P (.visit n) after)
    (hrest : Each P rest) : Each P (ns.map .visit ++ rest) := by
  induction ns with
  | nil => exact hrest
  | cons n ns ih =>
    have hclosers : closers (ns.map .visit ++ rest) = closers rest := by simp
    exact ⟨hns n (.head _) _ hclosers, ih fun n hn => hns n (.tail _ hn)⟩

/-- The same for the tasks of a block. -/
theorem each_blockTasks {b : Block}
    (hdeclarations : ∀ n ∈ b.declarations, ∀ after, closers after = closers rest →
      P (.visit n) after)
    (hbody : ∀ n ∈ b.body, ∀ after, closers after = closers rest → P (.visit n) after)
    (hnothing : P .nothing rest) (hrest : Each P rest) : Each P (blockTasks b ++ rest) := by
  have hclosers : closers (.nothing :: rest) = closers rest := closers_cons _ _
  rw [blockTasks, List.append_assoc, List.append_assoc, List.singleton_append]
  refine each_visits (fun n hn after hafter => hdeclarations n hn after ?_)
    (each_visits (fun n hn after hafter => hbody n hn after (hafter.trans hclosers))
      ⟨hnothing, hrest⟩)
  rw [hafter, closers_append, closers_visits, hclosers, Nat.zero_add]

end

/-! ## Moments of a run -/

variable {rest : List Task} {σ : State}

/-- A step either does the first task, or stops and leaves the stack as it was. -/
theorem step_cases (rules : Rules) (hagenda : σ.agenda = t :: rest) (hgiven : σ.given = .ok given) :
    (∃ tasks given', Moves rules t given σ.stack tasks given' (step rules σ).stack ∧
        (step rules σ).agenda = tasks ++ rest ∧ (step rules σ).given = .ok given') ∨
      ∃ e, (t.perform rules given).Fails σ.stack e (step rules σ).stack ∧
        (step rules σ).agenda = [] ∧ (step rules σ).given = .error e := by
  obtain ⟨agenda, _, s, events⟩ := σ
  obtain rfl : agenda = t :: rest := hagenda
  obtain rfl : _ = Except.ok given := hgiven
  rw [step_cons]
  rcases h : t.perform rules given s with ⟨⟨new, e | ⟨tasks, given'⟩⟩, left⟩
  · exact .inr ⟨e, ⟨by rw [h], by rw [h]; rfl⟩, rfl, rfl⟩
  · exact .inl ⟨tasks, given', moves_of_perform ⟨by rw [h], by rw [h]; rfl⟩, rfl, rfl⟩

/-- A step stops where its task fails. -/
theorem step_given_eq_error_iff (hagenda : σ.agenda = t :: rest) (hgiven : σ.given = .ok given)
    {e : RuntimeError} :
    (step rules σ).given = .error e ↔ ∃ left, (t.perform rules given).Fails σ.stack e left := by
  obtain ⟨agenda, _, s, events⟩ := σ
  obtain rfl : agenda = t :: rest := hagenda
  obtain rfl : _ = Except.ok given := hgiven
  rw [step_cons]
  unfold Action.Fails
  rcases t.perform rules given s with ⟨⟨new, e' | out⟩, left⟩ <;> simp [State.behind]

/-- What a step records. -/
theorem mem_events_step (hagenda : σ.agenda = t :: rest) (hgiven : σ.given = .ok given)
    {event : Event} :
    event ∈ (step rules σ).events ↔
      event ∈ σ.events ∨ (t.perform rules given).Records σ.stack event := by
  obtain ⟨agenda, _, s, events⟩ := σ
  obtain rfl : agenda = t :: rest := hagenda
  obtain rfl : _ = Except.ok given := hgiven
  rw [step_cons, Action.Records]
  rcases t.perform rules given s with ⟨⟨new, e | ⟨tasks, given'⟩⟩, left⟩ <;>
    exact List.mem_append

/-- What every task keeps that succeeds holds at every moment of a run that has not failed. -/
theorem running_induction {I : List Task → Option Answer → CallStack → Prop}
    (hstart : ∀ g, σ.given = .ok g → I σ.agenda g σ.stack)
    (hmoves : ∀ {t rest given s tasks given' left}, I (t :: rest) given s →
      Moves rules t given s tasks given' left → I (tasks ++ rest) given' left) (n : Nat) :
    ∀ g, (after rules n σ).given = .ok g →
      I (after rules n σ).agenda g (after rules n σ).stack := by
  refine after_induction (P := fun τ => ∀ g, τ.given = .ok g → I τ.agenda g τ.stack) hstart
    (fun τ ih g hg => ?_) n
  cases hgiven : τ.given with
  | error e =>
    rw [step_of_error hgiven, hgiven] at hg
    cases hg
  | ok g' =>
    cases hagenda : τ.agenda with
    | nil =>
      rw [step_of_agenda_nil hagenda] at hg ⊢
      exact ih g hg
    | cons t rest =>
      obtain ⟨tasks, g'', hmove, hnext, hok⟩ | ⟨e, -, -, herror⟩ := step_cases rules hagenda hgiven
      · obtain rfl := Except.ok.inj (hg.symm.trans hok)
        rw [hnext]
        exact hmoves (hagenda ▸ ih g' hgiven) hmove
      · exact nomatch hg.symm.trans herror

/-- As long as something is left to do, a run has not failed. -/
theorem exists_given_of_agenda (hstart : σ.given = .ok given) (n : Nat)
    (h : (after rules n σ).agenda ≠ []) : ∃ g, (after rules n σ).given = .ok g := by
  refine after_induction (P := fun τ => τ.agenda ≠ [] → ∃ g, τ.given = .ok g)
    (fun _ => ⟨_, hstart⟩) (fun τ ih hne => ?_) n h
  cases hagenda : τ.agenda with
  | nil =>
    rw [step_of_agenda_nil hagenda] at hne
    exact absurd hagenda hne
  | cons t rest =>
    obtain ⟨g, hg⟩ := ih (hagenda ▸ List.cons_ne_nil t rest)
    obtain ⟨_, g', -, -, hok⟩ | ⟨_, -, hnil, -⟩ := step_cases rules hagenda hg
    · exact ⟨g', hok⟩
    · exact absurd hnil hne

/-- A run that has failed did so at some moment, at a task that left the stack as it was. -/
theorem exists_failure {e : RuntimeError} {n : Nat} (hstart : σ.given = .ok given)
    (h : (after rules n σ).given = .error e) :
    ∃ m < n, ∃ t rest g, (after rules m σ).agenda = t :: rest ∧ (after rules m σ).given = .ok g ∧
      (t.perform rules g).Fails (after rules m σ).stack e (after rules n σ).stack := by
  induction n with
  | zero => exact nomatch hstart.symm.trans h
  | succ n ih =>
    rw [after_succ] at h ⊢
    cases hgiven : (after rules n σ).given with
    | error e' =>
      rw [step_of_error hgiven] at h ⊢
      obtain ⟨m, hm, hfails⟩ := ih h
      exact ⟨m, Nat.lt_succ_of_lt hm, hfails⟩
    | ok g =>
      cases hagenda : (after rules n σ).agenda with
      | nil =>
        rw [step_of_agenda_nil hagenda] at h
        exact nomatch hgiven.symm.trans h
      | cons t rest =>
        obtain ⟨_, _, -, -, hok⟩ | ⟨e', hfails, -, herror⟩ := step_cases rules hagenda hgiven
        · exact nomatch hok.symm.trans h
        · obtain rfl := Except.error.inj (herror.symm.trans h)
          exact ⟨n, n.lt_succ_self, t, rest, g, hagenda, hgiven, hfails⟩

/-! ## Calls that are recorded -/

/-- The beginning of a call is recorded where a routine is entered, with the frames that are live
then. -/
theorem perform_callEntered {name : String} {d : Nat}
    (h : (t.perform rules given).Records s (.callEntered name d)) :
    ∃ r values, t = .arguments r values [] ∧ values.length = r.params.length ∧
      rules.check s.depth = .ok () ∧ name = r.name ∧ d = s.depth + 1 := by
  cases t with
  | arguments r values more =>
    cases more with
    | cons => exact absurd h Action.not_records_pure
    | nil =>
      rw [Task.perform] at h
      split at h
      next hlength =>
        simp only [Action.records_bind, Action.not_records_stack, Action.yields_stack,
          Action.not_records_ofExcept, Action.yields_ofExcept, records_enter,
          Action.not_records_pure, and_false, exists_false, or_false, false_or] at h
        obtain ⟨_, _, ⟨rfl, rfl⟩, _, _, ⟨hcheck, rfl⟩, ⟨rfl, rfl⟩⟩ := h
        exact ⟨r, values, rfl, hlength, hcheck, rfl, rfl⟩
      next => exact absurd h Action.not_records_fail
  | visit n => cases n <;> simp [Task.perform, visit] at h
  | _ => simp [Task.perform, leave] at h

end

end Machine

end SmallPascal

import Mathlib.Logic.Function.Iterate
import SmallPascal.Evaluation

/-!
# The evaluator as a machine

`Evaluation.exec` gives what a whole run comes to and takes a budget to be a recursion at all. The
machine takes one small step after the other and has no budget: what is left to do is a list of
tasks (`State.agenda`), and where the evaluator calls itself, the machine puts tasks in front. So
every moment of a run is a state, and a run that does not end is one whose agenda is never empty.

The limit on live frames and the way callees are found are parameters (`Rules`), so that runs which
differ in nothing else can be compared step by step.
-/

namespace SmallPascal

/-- The value an answer is, if it is one. -/
def Session.Answer.value? : Session.Answer → Option Value
  | value v => some v
  | outcome _ => none

namespace Machine

open Session (Answer)

/-- What a run goes by. -/
structure Rules where
  /-- How many frames may be live when a call is made, if that is limited. -/
  limit : Option Nat
  /-- Whether the frame of a program is dumped when the program has finished. -/
  dumps : Bool
  /-- The routine that a call by a name reaches, or why there is none. -/
  callee : CallStack → String → Except RuntimeError Routine

/-- Whether a call may be made while so many frames are live. -/
def Rules.check (rules : Rules) (depth : Nat) : Except RuntimeError Unit :=
  match rules.limit with
  | some limit => if limit ≤ depth then .error (.callDepthExceeded limit) else .ok ()
  | none => .ok ()

/-- Something that is left to do. -/
inductive Task where
  /-- Run a node. -/
  | visit (n : Node)
  /-- Apply an operator to the value of its operand, which has been run. -/
  | unary (op : UnaryOp) (operand : Node)
  /-- Keep the value of the left operand, which has been run, and go on to the right one. -/
  | left (op : BinaryOp) (a b : Node)
  /-- Apply an operator to the value of the left operand and that of the right one, which has been
  run. -/
  | right (op : BinaryOp) (l : Value) (b : Node)
  /-- Bind the value of a node that has been run. -/
  | assign (target : String) (value : Node)
  /-- Go on to the next argument of a call, or enter the routine if there is none. -/
  | arguments (r : Routine) (values : List Value) (more : List Node)
  /-- Keep the value of an argument, which has been run. -/
  | argument (r : Routine) (values : List Value) (arg : Node) (more : List Node)
  /-- Take off the frame of a routine. -/
  | leave (r : Routine)
  /-- Put the frame of a program on top and go through its block. -/
  | start (p : Program)
  /-- Take off the frame of a program. -/
  | finish (program : String)
  /-- Forget what the last task gave. -/
  | nothing
  /-- Give the value of an expression, which has been run. -/
  | answer (n : Node)

/-- The tasks in which a block is run. -/
def blockTasks (b : Block) : List Task :=
  b.declarations.map Task.visit ++ (b.body.map Task.visit ++ [.nothing])

/-- The value of a node that has been run, where one is needed. -/
def valueGiven (n : Node) (given : Option Answer) : Action Value :=
  Evaluation.needValue n (return given.bind Answer.value?)

/-- Runs a node as far as that needs no other node: gives the tasks that are left of it and, if
there are none, what it gives. -/
def visit (rules : Rules) : Node → Action (List Task × Option Answer)
  | .number n => return ([], some (.value (.integer n)))
  | .boolean b => return ([], some (.value (.boolean b)))
  | .var name => do
    let v ← Action.ofExcept (Evaluation.read (← Action.stack) name)
    return ([], some (.value v))
  | .unary op operand => return ([.visit operand, .unary op operand], none)
  | .binary op left right => return ([.visit left, .left op left right], none)
  | .assign target value => return ([.visit value, .assign target value], none)
  | .compound children => return (children.map .visit ++ [.nothing], none)
  | .block declarations body => return (blockTasks ⟨declarations, body⟩, none)
  | .routine name kind params returnType declarations body => do
    Action.set name (.routine ⟨name, kind, params, returnType, ⟨declarations, body⟩⟩)
    return ([], none)
  | .call name args => do
    let r ← Action.ofExcept (rules.callee (← Action.stack) name)
    return ([.arguments r [] args], none)
  | .program name declarations body =>
    return ([.start ⟨name, ⟨declarations, body⟩⟩, .nothing], none)
  | .noOp | .varDecl .. | .typeSpec _ | .param _ => return ([], none)

/-- Puts the frame of a routine on top, with its parameters bound. -/
def enter (r : Routine) (values : List Value) : Action Unit := do
  Action.modify (·.enterCall r.name (.routine r.kind))
  let entered ← Action.stack
  Action.emit (.callEntered r.name entered.depth)
  Action.setAll ((r.params.map Param.name).zip values)

/-- Takes the frame of a routine off and looks up the value of the call in it. -/
def leave (r : Routine) : Action (Option Value) := do
  let frame ← Action.pop
  let left ← Action.stack
  Action.emit (.callExited r.name left.depth)
  return Evaluation.resultOf r frame

/-- Does a task. `given` is what the last one gave. -/
def Task.perform (rules : Rules) (given : Option Answer) : Task → Action (List Task × Option Answer)
  | .visit n => Machine.visit rules n
  | .unary op operand => do
    let v ← valueGiven operand given
    let result ← Action.ofExcept (op.apply v)
    return ([], some (.value result))
  | .left op a b => do
    let l ← valueGiven a given
    return ([.visit b, .right op l b], none)
  | .right op l b => do
    let r ← valueGiven b given
    let result ← Action.ofExcept (op.apply l r)
    return ([], some (.value result))
  | .assign target value => do
    let v ← valueGiven value given
    let s ← Action.stack
    Action.emit (.assigned target v.text s.depth)
    Action.set target v
    return ([], none)
  | .arguments r values (arg :: more) =>
    return ([.visit arg, .argument r values arg more], none)
  | .arguments r values [] =>
    if values.length = r.params.length then do
      Action.ofExcept (rules.check (← Action.stack).depth)
      enter r values
      return (blockTasks r.block ++ [.leave r], none)
    else Action.fail (.arityMismatch r.name r.params.length values.length)
  | .argument r values arg more => do
    let v ← valueGiven arg given
    return ([.arguments r (values ++ [v]) more], none)
  | .leave r => do
    let result ← Machine.leave r
    return ([], result.map .value)
  | .start p => do
    Action.emit (.programStarted p.name)
    Action.modify (·.enterProgram p.name)
    return (blockTasks p.block ++ [.finish p.name], none)
  | .finish name => do
    let s ← Action.stack
    let dump := if rules.dumps then some s.dump else none
    let root ← Action.pop
    Action.emit (.programFinished name dump)
    return ([], some (.outcome ⟨name, (root.map Frame.members).getD .empty, dump⟩))
  | .nothing => return ([], none)
  | .answer n => do
    let v ← valueGiven n given
    return ([], some (.value v))

/-- A moment of a run. -/
structure State where
  /-- What is left to do. -/
  agenda : List Task
  /-- What the last task gave, or why the run has stopped. -/
  given : Except RuntimeError (Option Answer)
  stack : CallStack
  /-- What has been recorded up to now. -/
  events : List Event

namespace State

/-- The state behind an action: what is left to do is dropped if the action has failed. -/
def behind (rest : List Task) (events : List Event) :
    Run (List Task × Option Answer) × CallStack → State
  | (⟨new, .ok (tasks, given)⟩, s) => ⟨tasks ++ rest, .ok given, s, events ++ new⟩
  | (⟨new, .error e⟩, s) => ⟨[], .error e, s, events ++ new⟩

/-- The run that has come to its end in this state, if nothing is left to do. -/
def run? (σ : State) : Option (Run Answer) :=
  match σ.agenda, σ.given with
  | [], .ok (some a) => some ⟨σ.events, .ok a⟩
  | [], .error e => some ⟨σ.events, .error e⟩
  | _, _ => none

/-- Where a request begins: an expression has a frame made for it. -/
def start : Session.Request → State
  | .program p => ⟨[.start p], .ok none, .empty, []⟩
  | .expression n =>
    ⟨[.visit n, .answer n], .ok none, CallStack.empty.enterProgram Session.expressionFrame, []⟩

end State

/-- One step: the first task is done. Where nothing is left to do, nothing happens. -/
def step (rules : Rules) (σ : State) : State :=
  match σ.agenda with
  | [] => σ
  | t :: rest =>
    .behind rest σ.events ((do t.perform rules (← Action.ofExcept σ.given)) σ.stack)

/-- The state after some steps. -/
def after (rules : Rules) (n : Nat) (σ : State) : State :=
  (step rules)^[n] σ

/-- A run from one state comes to another. -/
def Reaches (rules : Rules) (σ τ : State) : Prop :=
  ∃ n, after rules n σ = τ

variable {rules : Rules}

/-! ## Steps -/

/-- Nothing happens where nothing is left to do. -/
theorem step_of_agenda_nil {σ : State} (h : σ.agenda = []) : step rules σ = σ := by
  unfold step
  rw [h]

/-- A step does the first task, on what was given last and on the stack. -/
theorem step_cons {t : Task} {rest : List Task} {given : Option Answer} {s : CallStack}
    {events : List Event} :
    step rules ⟨t :: rest, .ok given, s, events⟩ =
      .behind rest events (t.perform rules given s) := by
  rw [step]
  show State.behind rest events ((pure given >>= fun g => t.perform rules g) s) = _
  rw [pure_bind]

/-- A machine that has stopped does nothing more than to drop what is left. -/
theorem step_of_error {σ : State} {e : RuntimeError} (h : σ.given = .error e) :
    step rules σ = { σ with agenda := [] } := by
  obtain ⟨_ | ⟨t, rest⟩, given, s, events⟩ := σ
  · rfl
  · obtain rfl : given = .error e := h
    show State.behind rest events (⟨[], .error e⟩, s) = _
    rw [State.behind, List.append_nil]

/-! ## Entering a routine -/

/-- The frame a routine is entered with. -/
def enteredFrame (s : CallStack) (r : Routine) (values : List Value) : Frame :=
  { s.callFrame r.name (.routine r.kind) with
    members := Bindings.empty.insertAll ((r.params.map Param.name).zip values) }

/-- Entering a routine records the call and puts its frame on top, with the parameters bound. -/
theorem enter_apply (r : Routine) (values : List Value) (s : CallStack) :
    enter r values s =
      (⟨[.callEntered r.name (s.depth + 1)], .ok ()⟩, s.push (enteredFrame s r values)) := by
  have hframe : (s.callFrame r.name (.routine r.kind)).members = .empty := by
    unfold CallStack.callFrame
    split <;> rfl
  simp only [enter, enteredFrame, bind, Action.bind, Action.modify, Action.stack, Action.emit,
    CallStack.enterCall, CallStack.push, Action.setAll_apply, hframe]
  rfl

@[simp] theorem not_fails_enter {r : Routine} {values : List Value} {s : CallStack}
    {left : CallStack} {e : RuntimeError} : ¬ (enter r values).Fails s e left := by
  rw [Action.Fails, enter_apply]
  rintro ⟨h, -⟩
  cases h

/-! ## Runs -/

@[simp] theorem after_zero (σ : State) : after rules 0 σ = σ := rfl

/-- One step more is a step from where the others have led. -/
theorem after_succ (n : Nat) (σ : State) : after rules (n + 1) σ = step rules (after rules n σ) :=
  Function.iterate_succ_apply' _ n σ

/-- Steps add up. -/
theorem after_add (m n : Nat) (σ : State) :
    after rules (n + m) σ = after rules n (after rules m σ) :=
  Function.iterate_add_apply _ n m σ

/-- Nothing happens any more where nothing is left to do. -/
theorem after_of_agenda_nil {σ : State} (h : σ.agenda = []) (n : Nat) : after rules n σ = σ :=
  Function.iterate_fixed (step_of_agenda_nil h) n

/-- What every step keeps, a run keeps. -/
theorem after_induction {P : State → Prop} {σ : State} (hstart : P σ)
    (hstep : ∀ τ, P τ → P (step rules τ)) (n : Nat) : P (after rules n σ) := by
  induction n with
  | zero => exact hstart
  | succ n ih => exact after_succ n σ ▸ hstep _ ih

/-- A run is over only if nothing is left to do. -/
theorem State.agenda_of_run? {σ : State} {r : Run Answer} (h : σ.run? = some r) :
    σ.agenda = [] := by
  unfold State.run? at h
  split at h <;> first | assumption | contradiction

/-- However often one looks, there is one state in which nothing is left to do. -/
theorem after_unique {σ : State} {m n : Nat} (h : (after rules m σ).agenda = [])
    (h' : (after rules n σ).agenda = []) : after rules m σ = after rules n σ := calc
  after rules m σ = after rules n (after rules m σ) := (after_of_agenda_nil h n).symm
  _ = after rules m (after rules n σ) := by rw [← after_add, Nat.add_comm, after_add]
  _ = after rules n σ := after_of_agenda_nil h' m

/-- And there is one way in which a run comes to its end. -/
theorem run?_unique {σ : State} {m n : Nat} {r r' : Run Answer}
    (h : (after rules m σ).run? = some r) (h' : (after rules n σ).run? = some r') : r = r' :=
  have heq := after_unique (State.agenda_of_run? h) (State.agenda_of_run? h')
  Option.some.inj (h.symm.trans (heq ▸ h'))

/-- A state reaches itself without a step. -/
theorem Reaches.refl (σ : State) : Reaches rules σ σ :=
  ⟨0, rfl⟩

/-- What a reached state reaches is reached. -/
theorem Reaches.trans {σ τ υ : State} (h : Reaches rules σ τ) (h' : Reaches rules τ υ) :
    Reaches rules σ υ := by
  obtain ⟨m, rfl⟩ := h
  obtain ⟨n, rfl⟩ := h'
  exact ⟨n + m, after_add m n σ⟩

/-- What the next state reaches is reached. -/
theorem Reaches.of_step {σ τ : State} (h : Reaches rules (step rules σ) τ) :
    Reaches rules σ τ :=
  Reaches.trans ⟨1, rfl⟩ h

end Machine

/-- The rules of the evaluator. -/
def Settings.rules (settings : Settings) : Machine.Rules where
  limit := some settings.maxCallDepth
  dumps := settings.dumpBindings
  callee := Evaluation.callee

end SmallPascal

import SmallPascal.Evaluation.Action

/-!
# Running trees

`exec` runs a node on the call stack. It gives a value if the node is an expression, and what the
node binds is bound in the newest frame. A call is handed to an `Invocation`, so that `exec` is a
recursion over the node alone.

`invoke` is the invocation that runs the routine's own block, in a frame that is put on top for it
and taken off behind it. Each call leaves one call less to be made inside it: `budget` bounds how
deep calls may nest. Since a call is refused as soon as `Settings.maxCallDepth` frames are live, a
budget of that number never runs out before, and `Evaluation.call` takes it.

A session runs one program or expression after the other with the same settings. Every program gets
a frame of its own; an expression is run in the frame that is active, or in a frame made for it.
A failure leaves whatever frames were live on the stack, so the session drops them all and is ready
for the next request.
-/

namespace SmallPascal

/-- What can be chosen about a run. -/
structure Settings where
  /-- How many frames may be live when a call is made; the next one is refused. -/
  maxCallDepth : Nat := 64
  /-- Whether the frame of a program is dumped when the program has finished. -/
  dumpBindings : Bool := false
deriving DecidableEq

/-- How a program ends. -/
structure Outcome where
  program : String
  bindings : Bindings
  /-- The dump of the frame, if one was asked for. -/
  dump : Option String

/-- A way to run a routine with its arguments. The result is the value of the call, if it has
one. -/
abbrev Invocation := Routine → List Value → Action (Option Value)

namespace Evaluation

/-- The routine that a call by a name reaches, or why there is none. -/
def callee (s : CallStack) (name : String) : Except RuntimeError Routine :=
  match s.routine? name with
  | some r => .ok r
  | none =>
    match s.get? name with
    | some v => .error (.notCallable name v.type)
    | none => .error (.undefinedFunction name)

/-- The value of a name. -/
def read (s : CallStack) (name : String) : Except RuntimeError Value :=
  match s.get? name with
  | some v => .ok v
  | none => .error (.undefinedVariable name)

/-- The value of a node where one is needed: `run` runs the node. -/
def needValue (n : Node) (run : Action (Option Value)) : Action Value := do
  match ← run with
  | some v => return v
  | none =>
    match n with
    | .call name _ => Action.fail (.noReturnValue name)
    | _ => Action.fail .statementOperand

/-- Runs a block as a program of its own, in a frame that is on top while it runs. -/
def inProgram (dumps : Bool) (name : String) (block : Action Unit) : Action Outcome := do
  Action.emit (.programStarted name)
  Action.modify (·.enterProgram name)
  block
  let s ← Action.stack
  let dump := if dumps then some s.dump else none
  let root ← Action.pop
  Action.emit (.programFinished name dump)
  return ⟨name, (root.map Frame.members).getD .empty, dump⟩

mutual

/-- Runs a node. -/
def exec (dumps : Bool) (invocation : Invocation) : Node → Action (Option Value)
  | .number n => return some (.integer n)
  | .boolean b => return some (.boolean b)
  | .var name => do
    let v ← Action.ofExcept (read (← Action.stack) name)
    return some v
  | .unary op operand => do
    let v ← needValue operand (exec dumps invocation operand)
    let result ← Action.ofExcept (op.apply v)
    return some result
  | .binary op left right => do
    let l ← needValue left (exec dumps invocation left)
    let r ← needValue right (exec dumps invocation right)
    let result ← Action.ofExcept (op.apply l r)
    return some result
  | .assign target value => do
    let v ← needValue value (exec dumps invocation value)
    let s ← Action.stack
    Action.emit (.assigned target v.text s.depth)
    Action.set target v
    return none
  | .compound children => do
    execAll dumps invocation children
    return none
  | .block declarations body => do
    execAll dumps invocation declarations
    execAll dumps invocation body
    return none
  | .routine name kind params returnType declarations body => do
    Action.set name (.routine ⟨name, kind, params, returnType, ⟨declarations, body⟩⟩)
    return none
  | .call name args => do
    let r ← Action.ofExcept (callee (← Action.stack) name)
    let values ← execArgs dumps invocation args
    if values.length = r.params.length then invocation r values
    else Action.fail (.arityMismatch r.name r.params.length values.length)
  | .program name declarations body => do
    let _ ← inProgram dumps name do
      execAll dumps invocation declarations
      execAll dumps invocation body
    return none
  | .noOp | .varDecl .. | .typeSpec _ | .param _ => return none

/-- Runs nodes one after the other, for what they bind. -/
def execAll (dumps : Bool) (invocation : Invocation) : List Node → Action Unit
  | [] => return
  | n :: rest => do
    let _ ← exec dumps invocation n
    execAll dumps invocation rest

/-- Runs nodes one after the other, for their values. -/
def execArgs (dumps : Bool) (invocation : Invocation) : List Node → Action (List Value)
  | [] => return []
  | n :: rest => do
    let v ← needValue n (exec dumps invocation n)
    let vs ← execArgs dumps invocation rest
    return v :: vs

end

/-- Runs a block. -/
def execBlock (dumps : Bool) (invocation : Invocation) (b : Block) : Action Unit := do
  execAll dumps invocation b.declarations
  execAll dumps invocation b.body

/-- The value of a call: what a function has bound to its own name in its frame. -/
def resultOf (r : Routine) (frame : Option Frame) : Option Value :=
  match r.kind with
  | .function => frame.bind fun f => f.members.get? r.name
  | .procedure => none

/-- Runs a routine, inside which calls may nest as deep as `budget`. -/
def invoke (settings : Settings) : (budget : Nat) → Invocation
  | 0, _, _ => Action.fail (.callDepthExceeded settings.maxCallDepth)
  | budget + 1, r, args => do
    let callers ← Action.stack
    if settings.maxCallDepth ≤ callers.depth then
      Action.fail (.callDepthExceeded settings.maxCallDepth)
    else
      Action.modify (·.enterCall r.name (.routine r.kind))
      let entered ← Action.stack
      Action.emit (.callEntered r.name entered.depth)
      Action.setAll ((r.params.map Param.name).zip args)
      execBlock settings.dumpBindings (invoke settings budget) r.block
      let frame ← Action.pop
      let left ← Action.stack
      Action.emit (.callExited r.name left.depth)
      return resultOf r frame

/-- Runs a routine. -/
def call (settings : Settings) : Invocation :=
  invoke settings settings.maxCallDepth

/-- Runs a program. -/
def program (settings : Settings) (p : Program) : Action Outcome :=
  inProgram settings.dumpBindings p.name
    (execBlock settings.dumpBindings (call settings) p.block)

/-- Runs an expression. -/
def expression (settings : Settings) (n : Node) : Action Value :=
  needValue n (exec settings.dumpBindings (call settings) n)

end Evaluation

/-! ## Sessions -/

/-- Settings, and the frames that are live between requests. -/
structure Session where
  settings : Settings
  stack : CallStack

namespace Session

/-- What a session can be asked to run. -/
inductive Request where
  | program (p : Program)
  | expression (n : Node)

/-- What a request gives. -/
inductive Answer where
  | outcome (o : Outcome)
  | value (v : Value)

/-- The name of the frame that is made for an expression. -/
def expressionFrame : String := "expression"

/-- A session in which nothing has been run. -/
def new (settings : Settings) : Session :=
  ⟨settings, .empty⟩

/-- Runs a program in a frame of its own. -/
def runProgram (s : Session) (p : Program) : Run Outcome × Session :=
  let (run, left) := Evaluation.program s.settings p s.stack
  (run, { s with stack := if run.failed then .empty else left })

/-- Runs an expression, in the active frame if there is one. -/
def runExpression (s : Session) (n : Node) : Run Value × Session :=
  let temporary := s.stack.isEmpty
  let start := if temporary then s.stack.enterProgram expressionFrame else s.stack
  let (run, left) := Evaluation.expression s.settings n start
  (run, { s with stack := if temporary || run.failed then .empty else left })

/-- Answers a request. -/
def perform (s : Session) : Request → Run Answer × Session
  | .program p =>
    let (run, s) := s.runProgram p
    (run.map .outcome, s)
  | .expression n =>
    let (run, s) := s.runExpression n
    (run.map .value, s)

/-- Answers requests one after the other. -/
def performAll (s : Session) : List Request → List (Run Answer)
  | [] => []
  | q :: rest =>
    let out := s.perform q
    out.1 :: out.2.performAll rest

end Session

end SmallPascal

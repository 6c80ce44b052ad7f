import SmallPascal.Proofs.Evaluation.Limit

/-!
# Two runs of one node

Many statements compare two evaluations of the same node: with other settings, on another stack, or
with other frames below. `Evaluation.Lockstep` says what a relation of actions has to keep to for
that: the parts that a node is run in are related, and so is what is put together from related
parts. The stack may only be looked at for a value or for a routine (`Action.query`), since it need
not be the same in both runs, and the limit on live frames may only be found exceeded in a call.
Then the two runs of a node are related (`Lockstep.exec`), and those of a block. The induction on
the node is done here once.
-/

namespace SmallPascal

/-- What a function of the stack gives. -/
def Action.query {α : Type} (f : CallStack → Except RuntimeError α) : Action α := do
  let s ← Action.stack
  Action.ofExcept (f s)

namespace Evaluation

variable {dumps dumps' : Bool} {invocation invocation' : Invocation}

/-- Reading a variable asks one thing of the stack. -/
theorem exec_var (name : String) :
    exec dumps invocation (.var name) = (do
      let v ← Action.query (read · name)
      return some v) := by
  simp only [exec, Action.query, bind_assoc]

/-- A call asks the stack for its routine, and then runs the arguments and the routine. -/
theorem exec_call (name : String) (args : List Node) :
    exec dumps invocation (.call name args) = (do
      let r ← Action.query (callee · name)
      let values ← execArgs dumps invocation args
      if values.length = r.params.length then invocation r values
      else Action.fail (.arityMismatch r.name r.params.length values.length)) := by
  simp only [exec, Action.query, bind_assoc]

/-- A missing value is never reported as an exceeded limit. -/
theorem noValue_ne_exceeded (n : Node) {limit : Nat} : noValue n ≠ .callDepthExceeded limit := by
  unfold noValue
  split <;> nofun

/-- An operator with one operand never exceeds a limit. -/
theorem unaryApply_ne_exceeded {op : UnaryOp} {v : Value} (limit : Nat) :
    op.apply v ≠ .error (.callDepthExceeded limit) := by
  intro h
  obtain ⟨_, -, h⟩ := Machine.unaryApply_eq_error h
  cases h

/-- An operator with two operands never exceeds a limit. -/
theorem binaryApply_ne_exceeded {op : BinaryOp} {v w : Value} (limit : Nat) :
    op.apply v w ≠ .error (.callDepthExceeded limit) := by
  intro h
  obtain ⟨_, -, h⟩ | h := Machine.binaryApply_eq_error h <;> cases h

/-- A relation of actions that holds between two runs of a node if it holds between calls. -/
structure Lockstep (dumps dumps' : Bool) (invocation invocation' : Invocation)
    (P : {α : Type} → Action α → Action α → Prop) : Prop where
  ofExcept : ∀ {α : Type} (r : Except RuntimeError α),
    (∀ limit, r ≠ .error (.callDepthExceeded limit)) → P (Action.ofExcept r) (Action.ofExcept r)
  read : ∀ name, P (Action.query (read · name)) (Action.query (read · name))
  callee : ∀ name, P (Action.query (callee · name)) (Action.query (callee · name))
  set : ∀ name v, P (Action.set name v) (Action.set name v)
  assign : ∀ target v, P (assign target v) (assign target v)
  bind : ∀ {α β : Type} {x y : Action α} {k l : α → Action β},
    P x y → (∀ a, P (k a) (l a)) → P (x >>= k) (y >>= l)
  call : ∀ r args, P (invocation r args) (invocation' r args)
  program : ∀ name (b : Block), P (execBlock dumps invocation b) (execBlock dumps' invocation' b) →
    P (inProgram dumps name (execBlock dumps invocation b) >>= fun _ => pure (none : Option Value))
      (inProgram dumps' name (execBlock dumps' invocation' b) >>= fun _ => pure none)

namespace Lockstep

variable {P : {α : Type} → Action α → Action α → Prop}
  (h : Lockstep dumps dumps' invocation invocation' P)

include h

/-- Giving the same value is in step. -/
theorem pure {α : Type} (a : α) : P (Pure.pure a : Action α) (Pure.pure a) :=
  h.ofExcept (.ok a) fun _ => nofun

/-- Running a node where a value is needed. -/
theorem needValue (n : Node) {run run' : Action (Option Value)} (hrun : P run run') :
    P (Evaluation.needValue n run) (Evaluation.needValue n run') := by
  rw [needValue_eq, needValue_eq]
  refine h.bind hrun fun v => ?_
  cases v with
  | some v => exact h.pure v
  | none => exact h.ofExcept _ fun _ hn => noValue_ne_exceeded n (Except.error.inj hn)

mutual

/-- The runs of a node are related. -/
theorem exec : ∀ n : Node,
    P (Evaluation.exec dumps invocation n) (Evaluation.exec dumps' invocation' n)
  | .number _ | .boolean _ | .noOp | .varDecl .. | .typeSpec _ | .param _ => by
    rw [Evaluation.exec, Evaluation.exec]
    exact h.pure _
  | .var name => by
    rw [exec_var, exec_var]
    exact h.bind (h.read name) fun v => h.pure _
  | .unary op operand => by
    rw [Evaluation.exec, Evaluation.exec]
    exact h.bind (h.needValue operand (exec operand)) fun v =>
      h.bind (h.ofExcept _ unaryApply_ne_exceeded) fun _ => h.pure _
  | .binary op left right => by
    rw [Evaluation.exec, Evaluation.exec]
    exact h.bind (h.needValue left (exec left)) fun l =>
      h.bind (h.needValue right (exec right)) fun r =>
        h.bind (h.ofExcept _ binaryApply_ne_exceeded) fun _ => h.pure _
  | .assign target value => by
    rw [exec_assign, exec_assign]
    exact h.bind (h.needValue value (exec value)) fun v =>
      h.bind (h.assign target v) fun _ => h.pure none
  | .compound children => by
    rw [Evaluation.exec, Evaluation.exec]
    exact h.bind (execAll children) fun _ => h.pure none
  | .block declarations body => by
    rw [Evaluation.exec, Evaluation.exec]
    exact h.bind (execAll declarations) fun _ => h.bind (execAll body) fun _ => h.pure none
  | .routine name kind params returnType declarations body => by
    rw [Evaluation.exec, Evaluation.exec]
    exact h.bind (h.set name _) fun _ => h.pure none
  | .call name args => by
    rw [exec_call, exec_call]
    refine h.bind (h.callee name) fun r => h.bind (execArgs args) fun values => ?_
    split
    · exact h.call r values
    · exact h.ofExcept _ fun _ => nofun
  | .program name declarations body => by
    rw [Evaluation.exec, Evaluation.exec]
    exact h.program name ⟨declarations, body⟩
      (h.bind (execAll declarations) fun _ => execAll body)

/-- The runs of nodes one after the other are related. -/
theorem execAll : ∀ ns : List Node,
    P (Evaluation.execAll dumps invocation ns) (Evaluation.execAll dumps' invocation' ns)
  | [] => by
    rw [Evaluation.execAll, Evaluation.execAll]
    exact h.pure ()
  | n :: rest => by
    rw [Evaluation.execAll, Evaluation.execAll]
    exact h.bind (exec n) fun _ => execAll rest

/-- The runs of nodes for their values are related. -/
theorem execArgs : ∀ ns : List Node,
    P (Evaluation.execArgs dumps invocation ns) (Evaluation.execArgs dumps' invocation' ns)
  | [] => by
    rw [Evaluation.execArgs, Evaluation.execArgs]
    exact h.pure []
  | n :: rest => by
    rw [Evaluation.execArgs, Evaluation.execArgs]
    exact h.bind (h.needValue n (exec n)) fun v => h.bind (execArgs rest) fun vs => h.pure _

end

/-- The runs of a block are related. -/
theorem execBlock (b : Block) :
    P (Evaluation.execBlock dumps invocation b) (Evaluation.execBlock dumps' invocation' b) :=
  h.bind (h.execAll b.declarations) fun _ => h.execAll b.body

end Lockstep

end Evaluation

end SmallPascal

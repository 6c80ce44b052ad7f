import SmallPascal.Proofs.Evaluation.Naming

/-!
# Operands are always run, from left to right

No operator leaves an operand out, and none goes on behind an operand that fails.
`valueOn_strict`: what an operation comes to on a stack is what its operator makes of what the
operands come to by themselves on the same stack, the left one first. So an expression fails if
anything fails that stands in it as an operand or as an argument of a call, at any depth, and an
expression that is made of operators fails as the first of its parts does, in the order in which
their values are needed (`Node.postorder`).

An operand is run behind other operands and calls, and by itself it is not; that this makes no
difference is the frame rule: what is run for its value leaves the stack as it was.
-/

namespace SmallPascal

/-! ## The parts of an expression -/

namespace Node

mutual

/-- The operands of operators and the arguments of calls that stand somewhere in a node, but not in
the body of a routine. -/
def operands : Node → List Node
  | .unary _ operand => operand :: operand.operands
  | .binary _ left right => left :: right :: (left.operands ++ right.operands)
  | .call _ args => args ++ operandsAll args
  | .assign _ value => value.operands
  | .compound children => operandsAll children
  | .block declarations body | .program _ declarations body =>
    operandsAll declarations ++ operandsAll body
  | .number _ | .boolean _ | .var _ | .noOp | .varDecl .. | .typeSpec _ | .param _
  | .routine .. => []

/-- The operands and arguments that stand somewhere in a list of nodes. -/
def operandsAll : List Node → List Node
  | [] => []
  | n :: rest => n.operands ++ operandsAll rest

end

/-- The parts of an expression that operators join, those on the left first and an operation behind
its operands. Anything that is no operation is one part; so is a call, with its arguments. -/
def postorder : Node → List Node
  | .unary op operand => operand.postorder ++ [.unary op operand]
  | .binary op left right => left.postorder ++ (right.postorder ++ [.binary op left right])
  | n => [n]

end Node

/-- A result that is computed from another one. -/
theorem RuntimeError.ok_of_bind {α β : Type} {x : Except RuntimeError α}
    {k : α → Except RuntimeError β} {b : β} (h : x >>= k = .ok b) :
    ∃ a, x = .ok a ∧ k a = .ok b := by
  cases x with
  | error e => cases h
  | ok a => exact ⟨a, rfl, h⟩

namespace Action

variable {α β : Type} {s : CallStack}

/-- The result of two actions, of which the first one leaves the stack as it was. -/
theorem result_bind {x : Action α} (hx : ∀ a left, x.Yields s a left → left = s)
    (k : α → Action β) :
    ((x >>= k) s).1.result = (x s).1.result >>= fun a => (k a s).1.result := by
  rcases h : x s with ⟨⟨events, e | a⟩, left⟩
  · rw [bind_of_error h]
    rfl
  · obtain rfl := hx a left (yields_of_eq h)
    rw [bind_of_ok h]
    rfl

end Action

namespace Evaluation

/-- What a node comes to by itself on a stack, where its value is needed. -/
def valueOn (settings : Settings) (s : CallStack) (n : Node) : Except RuntimeError Value :=
  (expression settings n s).1.result

/-! ## Operations -/

/-- An operator with one operand is applied to what the operand comes to as an expression. -/
theorem expression_unary (settings : Settings) (op : UnaryOp) (a : Node) :
    expression settings (.unary op a) = (do
      let v ← expression settings a
      Action.ofExcept (op.apply v)) := by
  simp only [expression, needValue_eq, exec, bind_assoc, pure_bind, bind_pure]

/-- An operator with two operands is applied to what they come to as expressions, the left one
first. -/
theorem expression_binary (settings : Settings) (op : BinaryOp) (l r : Node) :
    expression settings (.binary op l r) = (do
      let v ← expression settings l
      let w ← expression settings r
      Action.ofExcept (op.apply v w)) := by
  simp only [expression, needValue_eq, exec, bind_assoc, pure_bind, bind_pure]

section

variable {settings : Settings} {f : Frame} {callers : List Frame} {n : Node} {v : Value}

/-- What is run for its value leaves the stack as it was. -/
theorem eq_of_expression_yields (n : Node) (v : Value) (left : CallStack)
    (h : (expression settings n).Yields ⟨f :: callers⟩ v left) : left = ⟨f :: callers⟩ := by
  obtain ⟨g, rfl, hg⟩ := expression_updates settings n h
  rw [hg.eq_of_nil]

/-- The same for what a node comes to by itself on a stack. -/
theorem valueOn_unary (op : UnaryOp) (a : Node) :
    valueOn settings ⟨f :: callers⟩ (.unary op a) =
      valueOn settings ⟨f :: callers⟩ a >>= op.apply := by
  unfold valueOn
  rw [expression_unary, Action.result_bind (eq_of_expression_yields a)]
  rfl

/-- The same for two operands: the left one leaves the stack as it was, so the right one may be run
by itself. -/
theorem valueOn_binary (op : BinaryOp) (l r : Node) :
    valueOn settings ⟨f :: callers⟩ (.binary op l r) = (do
      op.apply (← valueOn settings ⟨f :: callers⟩ l) (← valueOn settings ⟨f :: callers⟩ r)) := by
  unfold valueOn
  rw [expression_binary, Action.result_bind (eq_of_expression_yields l)]
  refine bind_congr fun v => ?_
  rw [Action.result_bind (eq_of_expression_yields r)]
  rfl

/-! ## Whatever is in an expression has a value, if the expression has -/

/-- The arguments of a call that are run to the last one have values by themselves. -/
theorem valueOn_args {args : List Node} {vs : List Value} {left : CallStack}
    (h : (execArgs settings.dumpBindings (call settings) args).Yields ⟨f :: callers⟩ vs left) :
    ∀ a ∈ args, ∃ v, valueOn settings ⟨f :: callers⟩ a = .ok v := by
  induction args generalizing vs left with
  | nil => simp
  | cons a rest ih =>
    rw [execArgs] at h
    obtain ⟨v, mid, hv, h⟩ := Action.yields_bind.1 h
    obtain rfl := eq_of_expression_yields a v mid hv
    obtain ⟨vs', mid, hrest, -⟩ := Action.yields_bind.1 h
    exact List.forall_mem_cons.2 ⟨⟨v, hv.1⟩, ih hrest⟩

/-- So do the arguments of a call that has a value. -/
theorem valueOn_call {name : String} {args : List Node}
    (h : valueOn settings ⟨f :: callers⟩ (.call name args) = .ok v) :
    ∀ a ∈ args, ∃ w, valueOn settings ⟨f :: callers⟩ a = .ok w := by
  have hcall := yields_needValue.1 (⟨h, rfl⟩ : Action.Yields _ _ v _)
  rw [exec] at hcall
  obtain ⟨_, _, hstack, hcall⟩ := Action.yields_bind.1 hcall
  obtain ⟨rfl, rfl⟩ := Action.yields_stack.1 hstack
  obtain ⟨r, _, ⟨-, rfl⟩, hcall⟩ := Action.yields_bind.1 hcall
  obtain ⟨vs, mid, hargs, -⟩ := Action.yields_bind.1 hcall
  exact valueOn_args hargs

mutual

/-- Every operand and argument in an expression that has a value has a value by itself. -/
theorem valueOn_operands : ∀ (n : Node) (v : Value),
    valueOn settings ⟨f :: callers⟩ n = .ok v →
      ∀ m ∈ n.operands, ∃ w, valueOn settings ⟨f :: callers⟩ m = .ok w
  | .unary op a, v, h => by
    rw [valueOn_unary] at h
    obtain ⟨w, hw, -⟩ := RuntimeError.ok_of_bind h
    exact List.forall_mem_cons.2 ⟨⟨w, hw⟩, valueOn_operands a w hw⟩
  | .binary op l r, v, h => by
    rw [valueOn_binary] at h
    obtain ⟨x, hl, h⟩ := RuntimeError.ok_of_bind h
    obtain ⟨y, hr, -⟩ := RuntimeError.ok_of_bind h
    exact List.forall_mem_cons.2 ⟨⟨x, hl⟩, List.forall_mem_cons.2 ⟨⟨y, hr⟩,
      List.forall_mem_append.2 ⟨valueOn_operands l x hl, valueOn_operands r y hr⟩⟩⟩
  | .call name args, v, h => by
    have hargs := valueOn_call h
    exact List.forall_mem_append.2 ⟨hargs, valueOn_operandsAll args hargs⟩
  | .number _, _, _ | .boolean _, _, _ | .var _, _, _ | .noOp, _, _ | .varDecl .., _, _
  | .typeSpec _, _, _ | .param _, _, _ | .routine .., _, _ => nofun
  | .assign .., v, h | .compound _, v, h | .block .., v, h | .program .., v, h => by
    -- A statement has no value at all.
    have hn := yields_needValue.1 (⟨h, rfl⟩ : Action.Yields _ _ v _)
    simp [exec] at hn

/-- And so does everything in nodes that have values. -/
theorem valueOn_operandsAll : ∀ ns : List Node,
    (∀ n ∈ ns, ∃ v, valueOn settings ⟨f :: callers⟩ n = .ok v) →
      ∀ m ∈ Node.operandsAll ns, ∃ w, valueOn settings ⟨f :: callers⟩ m = .ok w
  | [], _ => nofun
  | n :: rest, h => by
    obtain ⟨⟨v, hv⟩, hrest⟩ := List.forall_mem_cons.1 h
    exact List.forall_mem_append.2 ⟨valueOn_operands n v hv, valueOn_operandsAll rest hrest⟩

end

/-! ## The first part that fails -/

/-- A node fails as the first of some nodes does that fails by itself, and has a value if none
does. -/
def FailsAsFirst (settings : Settings) (s : CallStack) (ns : List Node) (n : Node) : Prop :=
  match ns.find? fun m => !(valueOn settings s m).isOk with
  | some m => ∃ e, valueOn settings s m = .error e ∧ valueOn settings s n = .error e
  | none => ∃ v, valueOn settings s n = .ok v

/-- A node fails as itself. -/
theorem failsAsFirst_self (settings : Settings) (s : CallStack) (n : Node) :
    FailsAsFirst settings s [n] n := by
  unfold FailsAsFirst
  cases hn : valueOn settings s n with
  | error e => simp [hn, Except.isOk, Except.toBool]
  | ok v => simp [hn, Except.isOk, Except.toBool]

/-- A node that fails as another one does, and if that one has a value, as the first of further
nodes. -/
theorem FailsAsFirst.append {s : CallStack} {ns more : List Node} {a : Node}
    (ha : FailsAsFirst settings s ns a)
    (herror : ∀ e, valueOn settings s a = .error e → valueOn settings s n = .error e)
    (hok : ∀ v, valueOn settings s a = .ok v → FailsAsFirst settings s more n) :
    FailsAsFirst settings s (ns ++ more) n := by
  unfold FailsAsFirst at ha hok ⊢
  rw [List.find?_append]
  cases hfirst : ns.find? fun m => !(valueOn settings s m).isOk with
  | some m =>
    rw [hfirst] at ha
    obtain ⟨e, hm, hae⟩ := ha
    exact ⟨e, hm, herror e hae⟩
  | none =>
    rw [hfirst] at ha
    obtain ⟨v, hv⟩ := ha
    exact hok v hv

/-- An expression fails as the first of its parts does. -/
theorem failsAsFirst_postorder : ∀ n : Node,
    FailsAsFirst settings ⟨f :: callers⟩ n.postorder n
  | .unary op a => by
    refine (failsAsFirst_postorder a).append (fun e he => ?_) fun _ _ => failsAsFirst_self _ _ _
    rw [valueOn_unary, he]
    rfl
  | .binary op l r => by
    refine (failsAsFirst_postorder l).append (fun e he => ?_) fun v hv =>
      (failsAsFirst_postorder r).append (fun e he => ?_) fun _ _ => failsAsFirst_self _ _ _
    · rw [valueOn_binary, he]
      rfl
    · rw [valueOn_binary, hv, he]
      rfl
  | .number _ | .boolean _ | .var _ | .assign .. | .compound _ | .noOp | .varDecl .. | .typeSpec _
  | .param _ | .block .. | .routine .. | .call .. | .program .. => failsAsFirst_self _ _ _

/-- The error of an expression is that of its first part that fails by itself. -/
theorem valueOn_eq_error_iff {e : RuntimeError} :
    valueOn settings ⟨f :: callers⟩ n = .error e ↔
      ∃ m, (n.postorder.find? fun m => !(valueOn settings ⟨f :: callers⟩ m).isOk) = some m ∧
        valueOn settings ⟨f :: callers⟩ m = .error e := by
  have hn : FailsAsFirst settings ⟨f :: callers⟩ n.postorder n := failsAsFirst_postorder n
  unfold FailsAsFirst at hn
  cases hfirst : n.postorder.find? fun m => !(valueOn settings ⟨f :: callers⟩ m).isOk with
  | some m =>
    rw [hfirst] at hn
    obtain ⟨e', hm, hne⟩ := hn
    simp [hne, hm]
  | none =>
    rw [hfirst] at hn
    obtain ⟨v, hv⟩ := hn
    simp [hv]

end

end Evaluation

open Evaluation in
/-- Operators are strict and errors come in the order of evaluation. On any stack with a frame, a
node has no value if anything has none by itself that stands in it as an operand or argument, at any
depth and whatever the operators are. Of the parts that operators join, the first one that fails by
itself gives the error; those on the left come first, and an operation behind its operands. And what
an operation comes to is what its operator makes of what its operands come to by themselves. -/
theorem valueOn_strict (settings : Settings) (f : Frame) (callers : List Frame) :
    let value := valueOn settings ⟨f :: callers⟩
    (∀ n, ∀ m ∈ n.operands, (∃ e, value m = .error e) → ∃ e, value n = .error e) ∧
    (∀ n e, value n = .error e ↔
      ∃ m, (n.postorder.find? fun m => !(value m).isOk) = some m ∧ value m = .error e) ∧
    (∀ op a, value (.unary op a) = (do op.apply (← value a))) ∧
    ∀ op l r, value (.binary op l r) = (do op.apply (← value l) (← value r)) := by
  intro value
  refine ⟨fun n m hm => ?_, fun n e => valueOn_eq_error_iff, valueOn_unary, valueOn_binary⟩
  rintro ⟨e, he⟩
  cases hn : value n with
  | error e' => exact ⟨e', rfl⟩
  | ok v =>
    obtain ⟨w, hw⟩ := valueOn_operands n v hn m hm
    exact nomatch he.symm.trans hw

open Evaluation in
/-- A division by zero in an argument, where the left operand would decide the answer; and in front
of it a name that is not bound. -/
theorem valueOn_strict_or :
    let one : Routine :=
      ⟨"one", .function, [⟨"a", .integer⟩], none, ⟨[], [.assign "one" (.number 1)]⟩⟩
    let value := valueOn {} ⟨[(Frame.root "p").set "one" (.routine one)]⟩
    let quotient : Node := .binary .div (.number 1) (.number 0)
    let n : Node := .binary .or (.boolean true) (.call "one" [quotient])
    let m : Node := .binary .eq (.unary .minus (.var "y")) n
    (quotient ∈ n.operands ∧ value quotient = .error .divisionByZero ∧ ∃ e, value n = .error e) ∧
      (m.postorder.find? fun m => !(value m).isOk) = some (.var "y") ∧
        value m = .error (.undefinedVariable "y") := by
  intro one value quotient n m
  obtain ⟨hstrict, hfirst, -⟩ := valueOn_strict {} ((Frame.root "p").set "one" (.routine one)) []
  have hquotient : quotient ∈ n.operands := .tail _ (.tail _ (.head _))
  have hy : (m.postorder.find? fun m => !(value m).isOk) = some (.var "y") := rfl
  exact ⟨⟨hquotient, rfl, hstrict n quotient hquotient ⟨_, rfl⟩⟩, hy,
    (hfirst m _).2 ⟨_, hy, rfl⟩⟩

end SmallPascal

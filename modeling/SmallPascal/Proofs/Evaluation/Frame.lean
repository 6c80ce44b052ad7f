import SmallPascal.Evaluation

/-!
# What running a node changes on the call stack

`exec_frame` is the frame rule of `Evaluation.exec`: a node that runs successfully leaves as many
frames as it found, does not touch the frames below the newest one, and binds in that one at most
the names in `Node.written`. An expression writes nothing, and neither does a call, whatever its
routine does: the frames that calls and nested programs put on top are taken off again, with all
that was bound in them.

The recursion of `exec` goes through routine bodies that are found on the stack, so the rule is
proved in two steps: for every invocation that gives the stack back as it was (`Action.Restores`),
by induction on the node, and then for `invoke`, by induction on its budget, that it is such an
invocation (`invoke_restores`). The induction on the node is that of many properties and is done
once: `Composes` says what a property of actions has to keep to, and `Composes.exec` that running a
node has it then.
-/

namespace SmallPascal

/-! ## The names a node binds -/

namespace Node

mutual

/-- The names that a node binds in the frame it runs in: targets of assignments and names of
routines, where they stand as statements. What is bound inside a routine's body or a nested program
goes to frames of their own. -/
def written : Node → List String
  | .assign target _ => [target]
  | .routine name .. => [name]
  | .compound children => writtenAll children
  | .block declarations body => writtenAll declarations ++ writtenAll body
  | .number _ | .boolean _ | .var _ | .unary .. | .binary .. | .noOp | .varDecl .. | .typeSpec _
  | .param _ | .call .. | .program .. => []

/-- The names that a list of nodes binds. -/
def writtenAll : List Node → List String
  | [] => []
  | n :: rest => n.written ++ writtenAll rest

end

end Node

/-- The names that a block binds in the frame it runs in. -/
def Block.written (b : Block) : List String :=
  Node.writtenAll b.declarations ++ Node.writtenAll b.body

/-! ## What running a node is put together from -/

namespace Evaluation

variable {dumps : Bool} {invocation : Invocation}

/-- A value is bound to the target of an assignment. -/
def assign (target : String) (v : Value) : Action Unit := do
  let s ← Action.stack
  Action.emit (.assigned target v.text s.depth)
  Action.set target v

/-- Why a node has no value where one is needed. -/
def noValue : Node → RuntimeError
  | .call name _ => .noReturnValue name
  | _ => .statementOperand

/-- The error of a node without a value depends on the node alone. -/
theorem needValue_eq (n : Node) (run : Action (Option Value)) :
    needValue n run = (do
      match ← run with
      | some v => return v
      | none => Action.fail (noValue n)) := by
  unfold needValue noValue
  refine bind_congr fun v => ?_
  cases v with
  | some v => rfl
  | none => cases n <;> rfl

section

variable {n : Node} {run : Action (Option Value)} {s left : CallStack}

@[simp] theorem yields_needValue {v : Value} :
    (needValue n run).Yields s v left ↔ run.Yields s (some v) left := by
  rw [needValue_eq, Action.yields_bind]
  constructor
  · rintro ⟨_ | w, mid, hrun, h⟩
    · exact absurd h Action.not_yields_fail
    · obtain ⟨rfl, rfl⟩ := Action.yields_pure.1 h
      exact hrun
  · exact fun h => ⟨some v, left, h, Action.yields_pure.2 ⟨rfl, rfl⟩⟩

@[simp] theorem fails_needValue {e : RuntimeError} :
    (needValue n run).Fails s e left ↔
      run.Fails s e left ∨ run.Yields s none left ∧ noValue n = e := by
  rw [needValue_eq, Action.fails_bind]
  refine or_congr_right ⟨?_, fun h => ⟨none, left, h.1, Action.fails_fail.2 ⟨h.2, rfl⟩⟩⟩
  rintro ⟨_ | w, mid, hrun, h⟩
  · obtain ⟨he, rfl⟩ := Action.fails_fail.1 h
    exact ⟨hrun, he⟩
  · exact absurd h Action.fails_pure

end

/-- An assignment runs its right side and then binds the value. -/
theorem exec_assign (target : String) (value : Node) :
    exec dumps invocation (.assign target value) = (do
      let v ← needValue value (exec dumps invocation value)
      assign target v
      return none) := by
  simp only [exec, assign, bind_assoc]

/-- A property of actions, and of names that they bind, that running a node has if calls have it:
the parts that a node is run in have it, and it is kept where they are put together. -/
structure Composes (dumps : Bool) (invocation : Invocation)
    (P : {α : Type} → List String → Action α → Prop) : Prop where
  pure : ∀ {α : Type} (a : α), P [] (Pure.pure a : Action α)
  ofExcept : ∀ {α : Type} (r : Except RuntimeError α), P [] (Action.ofExcept r)
  stack : P [] Action.stack
  set : ∀ name v, P [name] (Action.set name v)
  assign : ∀ target v, P [target] (assign target v)
  bind : ∀ {α β : Type} {names more : List String} {x : Action α} {k : α → Action β},
    P names x → (∀ a, P more (k a)) → P (names ++ more) (x >>= k)
  value : ∀ n : Node, P n.written (exec dumps invocation n) →
    P [] (needValue n (exec dumps invocation n))
  call : ∀ r args, P [] (invocation r args)
  program : ∀ name (b : Block), P b.written (execBlock dumps invocation b) →
    P [] (inProgram dumps name (execBlock dumps invocation b))

namespace Composes

variable {P : {α : Type} → List String → Action α → Prop} (h : Composes dumps invocation P)

include h

/-- An action whose result is dropped. -/
theorem discard {α β : Type} {names : List String} {x : Action α} (hx : P names x) (b : β) :
    P names (x >>= fun _ => Pure.pure b) := by
  simpa only [List.append_nil] using h.bind hx fun _ => h.pure b

mutual

/-- Running a node has the property. -/
theorem exec : ∀ n : Node, P n.written (Evaluation.exec dumps invocation n)
  | .number _ | .boolean _ | .noOp | .varDecl .. | .typeSpec _ | .param _ => by
    rw [Evaluation.exec]
    exact h.pure _
  | .var name => by
    rw [Evaluation.exec]
    exact h.bind h.stack fun s => h.bind (h.ofExcept _) fun v => h.pure _
  | .unary op operand => by
    rw [Evaluation.exec]
    exact h.bind (h.value operand (exec operand)) fun v => h.bind (h.ofExcept _) fun _ => h.pure _
  | .binary op left right => by
    rw [Evaluation.exec]
    exact h.bind (h.value left (exec left)) fun l => h.bind (h.value right (exec right)) fun r =>
      h.bind (h.ofExcept _) fun _ => h.pure _
  | .assign target value => by
    rw [exec_assign]
    exact h.bind (h.value value (exec value)) fun v => h.discard (h.assign target v) none
  | .compound children => by
    rw [Evaluation.exec]
    exact h.discard (execAll children) none
  | .block declarations body => by
    rw [Evaluation.exec]
    exact h.bind (execAll declarations) fun _ => h.discard (execAll body) none
  | .routine name kind params returnType declarations body => by
    rw [Evaluation.exec]
    exact h.bind (h.set name _) fun _ => h.pure _
  | .call name args => by
    rw [Evaluation.exec]
    refine h.bind h.stack fun s => h.bind (h.ofExcept _) fun r =>
      h.bind (execArgs args) fun values => ?_
    split
    · exact h.call r values
    · exact h.ofExcept _
  | .program name declarations body => by
    rw [Evaluation.exec]
    -- What the block writes goes with the frame of the program, by `h.program`.
    have hblock : P (Block.written ⟨declarations, body⟩)
        (Evaluation.execBlock dumps invocation ⟨declarations, body⟩) :=
      h.bind (execAll declarations) fun _ => execAll body
    exact h.discard (h.program name _ hblock) none

/-- Running nodes one after the other has the property. -/
theorem execAll : ∀ ns : List Node,
    P (Node.writtenAll ns) (Evaluation.execAll dumps invocation ns)
  | [] => by
    rw [Evaluation.execAll]
    exact h.pure ()
  | n :: rest => by
    rw [Evaluation.execAll]
    exact h.bind (exec n) fun _ => execAll rest

/-- Running nodes for their values has the property. -/
theorem execArgs : ∀ ns : List Node, P [] (Evaluation.execArgs dumps invocation ns)
  | [] => by
    rw [Evaluation.execArgs]
    exact h.pure []
  | n :: rest => by
    rw [Evaluation.execArgs]
    exact h.bind (h.value n (exec n)) fun v => h.bind (execArgs rest) fun vs => h.pure _

end

/-- Running a block has the property. -/
theorem execBlock (b : Block) : P b.written (Evaluation.execBlock dumps invocation b) :=
  h.bind (h.execAll b.declarations) fun _ => h.execAll b.body

end Composes

end Evaluation

/-! ## What happens to a frame -/

/-- `g` is `f` but for the values of the names in `names`. -/
structure Frame.Updated (names : List String) (f g : Frame) : Prop where
  name_eq : g.name = f.name
  kind_eq : g.kind = f.kind
  level_eq : g.level = f.level
  parent_eq : g.parent = f.parent
  get?_eq : ∀ name, name ∉ names → g.members.get? name = f.members.get? name

namespace Frame.Updated

variable {names more : List String} {f g h : Frame}

/-- A frame that stays as it is counts as updated. -/
theorem refl : Updated names f f :=
  ⟨rfl, rfl, rfl, rfl, fun _ _ => rfl⟩

/-- Updates in a row change the names that either of them may. -/
theorem trans (hfg : Updated names f g) (hgh : Updated more g h) :
    Updated (names ++ more) f h where
  name_eq := hgh.name_eq.trans hfg.name_eq
  kind_eq := hgh.kind_eq.trans hfg.kind_eq
  level_eq := hgh.level_eq.trans hfg.level_eq
  parent_eq := hgh.parent_eq.trans hfg.parent_eq
  get?_eq name hname := by
    rw [List.mem_append, not_or] at hname
    rw [hgh.get?_eq name hname.2, hfg.get?_eq name hname.1]

/-- Binding a name changes the value of that name only. -/
theorem set (f : Frame) (name : String) (v : Value) : Updated [name] f (f.set name v) where
  name_eq := rfl
  kind_eq := rfl
  level_eq := rfl
  parent_eq := rfl
  get?_eq other hne := by
    rw [List.mem_singleton] at hne
    rw [Frame.set, Bindings.get?_insert, if_neg hne]

/-- A frame in which no name may have changed is the same frame. -/
theorem eq_of_nil (hfg : Updated [] f g) : g = f := by
  have hmembers := Bindings.ext_get? fun name => hfg.get?_eq name List.not_mem_nil
  obtain ⟨hname, hkind, hlevel, hparent, -⟩ := hfg
  cases f; cases g
  simp_all

end Frame.Updated

namespace Action

variable {α β : Type}

/-- Whenever the action succeeds, it leaves the stack as it was. -/
def Restores (x : Action α) : Prop :=
  ∀ ⦃s a left⦄, x.Yields s a left → left = s

/-- Whenever the action succeeds in a frame, it changes nothing but that frame, and there at most
the values of the given names. -/
def Updates (names : List String) (x : Action α) : Prop :=
  ∀ ⦃f callers a left⦄, x.Yields ⟨f :: callers⟩ a left →
    ∃ g, left = ⟨g :: callers⟩ ∧ f.Updated names g

/-- A value that is given leaves the stack as it was. -/
theorem Restores.pure (a : α) : (Pure.pure a : Action α).Restores := by
  rintro s _ left ⟨-, rfl⟩
  rfl

/-- A result that is known leaves the stack as it was. -/
theorem Restores.ofExcept (r : Except RuntimeError α) : (Action.ofExcept r).Restores := by
  rintro s _ left ⟨-, rfl⟩
  rfl

/-- Recording an event leaves the stack as it was. -/
theorem Restores.emit (e : Event) : (Action.emit e).Restores := by
  rintro s _ left ⟨-, rfl⟩
  rfl

/-- Looking at the stack leaves it as it was. -/
theorem Restores.stack : Action.stack.Restores := by
  rintro s _ left ⟨-, rfl⟩
  rfl

/-- An action that gives the stack back updates nothing. -/
theorem Restores.updates {x : Action α} (hx : x.Restores) : x.Updates [] := by
  intro f callers a left h
  exact ⟨f, hx h, .refl⟩

/-- Binding a name changes that name in the newest frame and nothing else. -/
theorem Updates.set (name : String) (v : Value) : Updates [name] (Action.set name v) := by
  intro f callers u left h
  obtain rfl := Except.ok.inj (yields_set.1 h)
  exact ⟨f.set name v, rfl, .set f name v⟩

/-- Two actions in a row update what either of them does. -/
theorem Updates.bind {names more : List String} {x : Action α} {k : α → Action β}
    (hx : x.Updates names) (hk : ∀ a, (k a).Updates more) : (x >>= k).Updates (names ++ more) := by
  intro f callers b left h
  obtain ⟨a, mid, hxa, hkb⟩ := yields_bind.1 h
  obtain ⟨g, rfl, hg⟩ := hx hxa
  obtain ⟨g', rfl, hg'⟩ := hk a hkb
  exact ⟨g', rfl, hg.trans hg'⟩

/-- Binding names changes these names in the newest frame and nothing else. -/
theorem Updates.setAll (entries : List (String × Value)) :
    Updates (entries.map Prod.fst) (Action.setAll entries) := by
  induction entries with
  | nil => exact (Restores.pure ()).updates
  | cons e rest ih => exact (Updates.set e.1 e.2).bind fun _ => ih

end Action

namespace Evaluation

variable {dumps : Bool} {invocation : Invocation}

/-- A program on top of a stack leaves the stack as it was: its frame is taken off behind it. -/
theorem inProgram_restores {name : String} {names : List String} {block : Action Unit}
    (hblock : block.Updates names) : (inProgram dumps name block).Restores := by
  intro s outcome left h
  simp only [inProgram, Action.yields_bind, Action.yields_emit, Action.yields_modify,
    Action.yields_stack, Action.yields_pop, Action.yields_pure] at h
  obtain ⟨_, _, rfl, _, _, rfl, _, ran, hran, _, _, ⟨rfl, rfl⟩, root, _, hpop, _, _, rfl, -,
    rfl⟩ := h
  obtain ⟨g, rfl, -⟩ := hblock hran
  exact (Prod.mk.inj hpop).2.symm

/-- Only a node that writes nothing has a value. -/
theorem written_of_value {n : Node} {s left : CallStack} {v : Value}
    (h : (exec dumps invocation n).Yields s (some v) left) : n.written = [] := by
  cases n with
  | assign | compound | block | routine => simp [exec] at h
  | _ => simp [Node.written]

/-- Where a node is needed for its value, it changes nothing. -/
theorem needValue_updates (n : Node) (hn : (exec dumps invocation n).Updates n.written) :
    (needValue n (exec dumps invocation n)).Updates [] := by
  intro f callers v left h
  have hv := yields_needValue.1 h
  exact written_of_value hv ▸ hn hv

/-! ## The frame rule -/

/-- What is done in running a node changes at most what the node writes, if calls change nothing. -/
theorem updates_composes (hcalls : ∀ r args, (invocation r args).Restores) :
    Composes dumps invocation @Action.Updates where
  pure a := (Action.Restores.pure a).updates
  ofExcept r := (Action.Restores.ofExcept r).updates
  stack := Action.Restores.stack.updates
  set := .set
  assign target v := Action.Restores.stack.updates.bind fun _ =>
    (Action.Restores.emit _).updates.bind fun _ => .set target v
  bind hx hk := hx.bind hk
  value := needValue_updates
  call r args := (hcalls r args).updates
  program _ _ hb := (inProgram_restores hb).updates

/-- Running a block changes at most what it writes. -/
theorem execBlock_updates (hcalls : ∀ r args, (invocation r args).Restores) (b : Block) :
    (execBlock dumps invocation b).Updates b.written :=
  (updates_composes hcalls).execBlock b

/-- A call leaves the stack as it was: the frame of the routine is taken off behind it. -/
theorem invoke_restores (settings : Settings) :
    ∀ (budget : Nat) (r : Routine) (args : List Value), (invoke settings budget r args).Restores
  | 0, r, args => fun s v left h => absurd h Action.not_yields_fail
  | budget + 1, r, args => by
    intro s v left h
    obtain ⟨callers, _, hstack, h⟩ := Action.yields_bind.1 h
    obtain ⟨rfl, rfl⟩ := Action.yields_stack.1 hstack
    split at h
    · exact absurd h Action.not_yields_fail
    · simp only [Action.yields_bind, Action.yields_emit, Action.yields_modify,
        Action.yields_stack, Action.yields_pop, Action.yields_pure] at h
      obtain ⟨_, _, rfl, _, _, ⟨rfl, rfl⟩, _, _, rfl, _, bound, hbound, _, ran, hran, frame, _,
        hpop, _, _, ⟨rfl, rfl⟩, _, _, rfl, -, rfl⟩ := h
      obtain ⟨g, rfl, -⟩ := Action.Updates.setAll _ hbound
      obtain ⟨g', rfl, -⟩ := execBlock_updates (invoke_restores settings budget) r.block hran
      exact (Prod.mk.inj hpop).2.symm

/-- The frame rule. A node that runs successfully leaves the frames below the newest one as they
were and changes in that one at most the values of the names it writes; where there is a value, or
the node is a call, the whole stack is as it was. -/
theorem exec_frame (settings : Settings) (n : Node) (f : Frame) (callers : List Frame)
    {v : Option Value} {left : CallStack}
    (h : (exec settings.dumpBindings (call settings) n).Yields ⟨f :: callers⟩ v left) :
    (∃ g, left = ⟨g :: callers⟩ ∧ f.Updated n.written g) ∧
      (v.isSome ∨ (∃ name args, n = .call name args) → left = ⟨f :: callers⟩) := by
  have hupdated := (updates_composes (invoke_restores settings _)).exec n h
  refine ⟨hupdated, fun hn => ?_⟩
  have hwritten : n.written = [] := by
    rcases hn with hv | ⟨name, args, rfl⟩
    · obtain ⟨a, rfl⟩ := Option.isSome_iff_exists.1 hv
      exact written_of_value h
    · rfl
  obtain ⟨g, rfl, hg⟩ := hupdated
  rw [hwritten] at hg
  rw [hg.eq_of_nil]

/-- The rule at an assignment of what a function gives, which binds its result in a frame of its
own. -/
theorem exec_frame_assign_call :
    let one : Routine := ⟨"one", .function, [], none, ⟨[], [.assign "one" (.number 1)]⟩⟩
    let f := (Frame.root "p").set "one" (.routine one)
    let n := Node.assign "x" (.call "one" [])
    let left : CallStack := ⟨[f.set "x" (.integer 1)]⟩
    (exec false (call {}) n).Yields ⟨[f]⟩ none left ∧
      (∃ g, left = ⟨[g]⟩ ∧ f.Updated n.written g) ∧
        ((none : Option Value).isSome ∨ (∃ name args, n = .call name args) → left = ⟨[f]⟩) := by
  intro one f n left
  have h : (exec false (call {}) n).Yields ⟨[f]⟩ none left := ⟨rfl, rfl⟩
  exact ⟨h, exec_frame {} n f [] h⟩

end Evaluation

end SmallPascal

import SmallPascal.Proofs.Evaluation.Dump

/-!
# An expression and an assignment of it

An expression by itself is run in a frame that is made for it and dropped; as the right side of an
assignment, in the frame of a program, which is taken off and becomes the outcome. `eval_iff_run`:
both come to the same, whatever node stands for the expression. The frames differ in their names
only, and names of frames are in nobody's sight while a node is run: lookups do not ask for them,
and a dump shows a program's own frame only, which is a newer one (`Action.Blind`). What else there
is to it, the frame rule says: a node that has a value has left the frame as it was.
-/

namespace SmallPascal

/-! ## Stacks without the names of their frames -/

/-- A frame without its name. -/
def Frame.nameless (f : Frame) : Frame :=
  { f with name := "" }

/-- A frame is what it is without its name, and its name. -/
theorem Frame.eq_of_nameless {f g : Frame} (h : f.nameless = g.nameless) (hname : f.name = g.name) :
    f = g := by
  obtain ⟨-, hkind, hlevel, hparent, hmembers⟩ := Frame.mk.inj h
  cases f; cases g
  simp_all

namespace CallStack

/-- A stack without the names of its frames. -/
def nameless (s : CallStack) : CallStack :=
  ⟨s.frames.map Frame.nameless⟩

/-- As many frames are live without their names. -/
theorem depth_nameless (s : CallStack) : s.nameless.depth = s.depth :=
  List.length_map _

/-- Stacks that differ in the names of their frames only have as many frames. -/
theorem depth_eq_of_nameless {s t : CallStack} (h : s.nameless = t.nameless) :
    s.depth = t.depth := by
  rw [← s.depth_nameless, h, t.depth_nameless]

/-- A frame that is put on top loses its name like the others. -/
theorem nameless_push (s : CallStack) (f : Frame) :
    (s.push f).nameless = s.nameless.push f.nameless := rfl

/-- Names are looked up in the same frames, as the search goes by callers and not by names of
frames. -/
theorem chain_nameless (s : CallStack) : s.nameless.chain = s.chain.map Frame.nameless := by
  obtain ⟨frames⟩ := s
  show chainOf (frames.map Frame.nameless) = (chainOf frames).map Frame.nameless
  induction frames with
  | nil => rfl
  | cons f below ih =>
    rw [List.map_cons, chainOf, chainOf, List.map_cons, ih]
    show _ :: (if f.parent.isSome then _ else _) = _
    split <;> rfl

/-- A name has the same value, however the frames are called. -/
theorem get?_nameless (s : CallStack) (name : String) :
    s.nameless.get? name = s.get? name := by
  rw [get?, chain_nameless, List.findSome?_map]
  rfl

/-- A call reaches the same routine, however the frames are called. -/
theorem routine?_nameless (s : CallStack) (name : String) :
    s.nameless.routine? name = s.routine? name := by
  rw [routine?, chain_nameless, List.findSome?_map]
  rfl

/-- The frame of a call takes nothing over from the name of its caller. -/
theorem callFrame_nameless (s : CallStack) (name : String) (kind : FrameKind) :
    s.nameless.callFrame name kind = s.callFrame name kind := by
  obtain ⟨_ | ⟨f, below⟩⟩ := s
  · rfl
  · simp [callFrame, nameless, Frame.nameless]

end CallStack

namespace Action

variable {α β : Type}

/-- On stacks that differ in the names of their frames only, the actions come to the same and leave
such stacks. -/
def Blind (x y : Action α) : Prop :=
  ∀ ⦃s t⦄, s.nameless = t.nameless →
    (x s).1 = (y t).1 ∧ (x s).2.nameless = (y t).2.nameless

namespace Blind

/-- A result that is known does not depend on the names of frames. -/
theorem ofExcept (r : Except RuntimeError α) : Blind (Action.ofExcept r) (Action.ofExcept r) :=
  fun _ _ h => ⟨rfl, h⟩

/-- What a function of the stack gives, if it does not ask for names of frames. -/
theorem query {f : CallStack → Except RuntimeError α} (hf : ∀ s, f s.nameless = f s) :
    Blind (Action.query f) (Action.query f) := by
  intro s t h
  rw [Action.query, stack_bind, stack_bind, ← hf s, ← hf t, h]
  exact ⟨rfl, h⟩

/-- An event is recorded whatever the names of frames are. -/
theorem emit (e : Event) : Blind (Action.emit e) (Action.emit e) :=
  fun _ _ h => ⟨rfl, h⟩

/-- Binding a name does not look at the names of frames. -/
theorem set (name : String) (v : Value) : Blind (Action.set name v) (Action.set name v) := by
  intro s t h
  obtain ⟨_ | ⟨f, callers⟩⟩ := s <;> obtain ⟨_ | ⟨g, callers'⟩⟩ := t
  · exact ⟨rfl, rfl⟩
  · cases h
  · cases h
  · obtain ⟨hf, hcallers⟩ := List.cons.inj (CallStack.mk.inj h)
    exact ⟨rfl, congrArg₂ (fun f below => CallStack.mk (Frame.set f name v :: below)) hf hcallers⟩

/-- Actions in a row do not depend on the names of frames if none of them does. -/
theorem bind {x y : Action α} {k l : α → Action β} (hxy : Blind x y)
    (hkl : ∀ a, Blind (k a) (l a)) : Blind (x >>= k) (y >>= l) := by
  intro s t h
  obtain ⟨hrun, hleft⟩ := hxy h
  rcases hx : x s with ⟨⟨events, r⟩, left⟩
  rcases hy : y t with ⟨run, left'⟩
  rw [hx, hy] at hrun hleft
  obtain rfl := hrun
  cases r with
  | error e =>
    rw [bind_of_error hx, bind_of_error hy]
    exact ⟨rfl, hleft⟩
  | ok a =>
    obtain ⟨hrun', hleft'⟩ := hkl a hleft
    rw [bind_of_ok hx, bind_of_ok hy, hrun']
    exact ⟨rfl, hleft'⟩

end Blind

end Action

namespace Evaluation

open SmallPascal.Action (Blind)

/-! ## Programs from their blocks -/

section

variable {dumps : Bool} {name : String} {block : Action Unit} {s left : CallStack}
  {events : List Event}

/-- A program whose block fails has recorded its beginning and what the block has. -/
theorem inProgram_of_error {e : RuntimeError}
    (h : block (s.enterProgram name) = (⟨events, .error e⟩, left)) :
    inProgram dumps name block s = (⟨.programStarted name :: events, .error e⟩, left) := by
  simp only [inProgram, bind, Action.bind, Action.emit, Action.modify, h]
  rfl

/-- A program whose block ends well takes its frame off and records the end, with the dump if it was
asked for. -/
theorem inProgram_of_ok {f : Frame} {below : List Frame}
    (h : block (s.enterProgram name) = (⟨events, .ok ()⟩, ⟨f :: below⟩)) :
    let dump := if dumps then some (CallStack.dump ⟨f :: below⟩) else none
    inProgram dumps name block s =
      (⟨.programStarted name :: (events ++ [.programFinished name dump]),
        .ok ⟨name, f.members, dump⟩⟩, ⟨below⟩) := by
  simp only [inProgram, bind, Action.bind, Action.emit, Action.modify, h]
  rfl

end

/-! ## Running nodes without a look at the names of frames -/

section

variable {dumps : Bool} {invocation : Invocation}

/-- A name is read in the same way, however the frames are called. -/
theorem read_nameless (s : CallStack) (name : String) : read s.nameless name = read s name := by
  rw [read, read, s.get?_nameless]

/-- A callee is looked up in the same way, however the frames are called. -/
theorem callee_nameless (s : CallStack) (name : String) :
    callee s.nameless name = callee s name := by
  rw [callee, callee, s.routine?_nameless, s.get?_nameless]

/-- An assignment does not look at the names of frames. -/
theorem assign_blind (target : String) (v : Value) : Blind (assign target v) (assign target v) := by
  intro s t h
  rw [assign, Action.stack_bind, Action.stack_bind, CallStack.depth_eq_of_nameless h]
  exact (Blind.emit (.assigned target v.text t.depth)).bind (fun _ => .set target v) h

/-- The frame of a program has the same name in both runs, so that its dumps are the same. -/
theorem inProgram_blind (name : String) {names : List String} {block : Action Unit}
    (hblock : Blind block block) (hupdates : block.Updates names) :
    Blind (inProgram dumps name block) (inProgram dumps name block) := by
  intro s t h
  have henter : (s.enterProgram name).nameless = (t.enterProgram name).nameless := by
    rw [CallStack.enterProgram, CallStack.enterProgram, CallStack.nameless_push, h,
      CallStack.nameless_push]
  obtain ⟨hrun, hleft⟩ := hblock henter
  rcases hs : block (s.enterProgram name) with ⟨⟨events, r⟩, left⟩
  rcases ht : block (t.enterProgram name) with ⟨run, left'⟩
  rw [hs, ht] at hrun hleft
  obtain rfl := hrun
  cases r with
  | error e =>
    rw [inProgram_of_error hs, inProgram_of_error ht]
    exact ⟨rfl, hleft⟩
  | ok u =>
    obtain ⟨f, rfl, hf⟩ := hupdates (Action.yields_of_eq hs)
    obtain ⟨g, rfl, hg⟩ := hupdates (Action.yields_of_eq ht)
    obtain ⟨hfg, hcallers⟩ := List.cons.inj (CallStack.mk.inj hleft)
    obtain rfl := Frame.eq_of_nameless hfg (hf.name_eq.trans hg.name_eq.symm)
    rw [inProgram_of_ok hs, inProgram_of_ok ht, CallStack.dump_of_root hf.parent_eq,
      CallStack.dump_of_root hf.parent_eq]
    exact ⟨rfl, h⟩

/-- Entering a routine does not look at the names of the frames below. -/
theorem enter_blind (r : Routine) (values : List Value) :
    Blind (Machine.enter r values) (Machine.enter r values) := by
  intro s t h
  have hframe : Machine.enteredFrame s r values = Machine.enteredFrame t r values := by
    rw [Machine.enteredFrame, Machine.enteredFrame, ← s.callFrame_nameless, h,
      t.callFrame_nameless]
  rw [Machine.enter_apply, Machine.enter_apply, CallStack.depth_eq_of_nameless h, hframe,
    CallStack.nameless_push, CallStack.nameless_push, h]
  exact ⟨rfl, rfl⟩

/-- The value of a call does not depend on the name of its frame. -/
theorem resultOf_nameless (r : Routine) (f : Frame) :
    resultOf r (some f.nameless) = resultOf r (some f) := rfl

/-- Leaving a routine takes off its frame, records the end of the call and gives its value. -/
theorem leave_apply (r : Routine) (f : Frame) (callers : List Frame) :
    Machine.leave r ⟨f :: callers⟩ =
      (⟨[.callExited r.name callers.length], .ok (resultOf r (some f))⟩, ⟨callers⟩) := rfl

/-- Leaving a routine does not look at the names of frames. -/
theorem leave_blind (r : Routine) : Blind (Machine.leave r) (Machine.leave r) := by
  intro s t h
  obtain ⟨_ | ⟨f, callers⟩⟩ := s <;> obtain ⟨_ | ⟨g, callers'⟩⟩ := t
  · exact ⟨rfl, rfl⟩
  · cases h
  · cases h
  · obtain ⟨hf, hcallers⟩ := List.cons.inj (CallStack.mk.inj h)
    have hcallers : CallStack.nameless ⟨callers⟩ = CallStack.nameless ⟨callers'⟩ :=
      congrArg CallStack.mk hcallers
    have hdepth : callers.length = callers'.length := CallStack.depth_eq_of_nameless hcallers
    have hresult : resultOf r (some f) = resultOf r (some g) := by
      rw [← resultOf_nameless, hf, resultOf_nameless]
    rw [leave_apply, leave_apply, hdepth, hresult]
    exact ⟨rfl, hcallers⟩

/-- Running a node is blind to the names of frames, if calls are. -/
theorem blind_lockstep (dumps : Bool)
    (hcalls : ∀ r args, Blind (invocation r args) (invocation r args))
    (hrestores : ∀ r args, (invocation r args).Restores) :
    Lockstep dumps dumps invocation invocation @Blind where
  ofExcept r _ := .ofExcept r
  read name := .query fun s => read_nameless s name
  callee name := .query fun s => callee_nameless s name
  set := .set
  assign := assign_blind
  bind hxy hkl := hxy.bind hkl
  call := hcalls
  program name b hb :=
    (inProgram_blind name hb (execBlock_updates hrestores b)).bind fun _ => .ofExcept (.ok none)

end

/-- A call is blind to the names of frames. -/
theorem invoke_blind (settings : Settings) : ∀ (budget : Nat) (r : Routine) (args : List Value),
    Blind (invoke settings budget r args) (invoke settings budget r args)
  | 0, _, _ => .ofExcept _
  | budget + 1, r, args => by
    have hblock := (blind_lockstep settings.dumpBindings (invoke_blind settings budget)
      (invoke_restores settings budget)).execBlock r.block
    intro s t h
    rw [Machine.invoke_succ, Action.stack_bind, Action.stack_bind,
      CallStack.depth_eq_of_nameless h]
    exact ((Blind.ofExcept _).bind fun _ => (enter_blind r args).bind fun _ =>
      hblock.bind fun _ => leave_blind r) h

/-- Running an expression is blind to the names of frames. -/
theorem expression_blind (settings : Settings) (n : Node) :
    Blind (expression settings n) (expression settings n) :=
  have hnode := blind_lockstep _ (invoke_blind settings _) (invoke_restores settings _)
  hnode.needValue n (hnode.exec n)

/-- What an expression comes to in the frame of any program. -/
theorem expression_apply (settings : Settings) (n : Node) (name : String) :
    (expression settings n (CallStack.empty.enterProgram name)).1 = n.eval settings :=
  have h : (CallStack.empty.enterProgram name).nameless =
    (CallStack.empty.enterProgram Session.expressionFrame).nameless := rfl
  (expression_blind settings n h).1

/-- An expression leaves the frame it is run in as it was. -/
theorem expression_updates (settings : Settings) (n : Node) :
    (expression settings n).Updates [] :=
  needValue_updates n ((updates_composes (invoke_restores settings _)).exec n)

/-- In a program that is an assignment, the expression is run and its value bound. -/
theorem run_assign (settings : Settings) (n : Node) (name target : String) :
    Program.run ⟨name, ⟨[], [.assign target n]⟩⟩ settings =
      (inProgram settings.dumpBindings name
        (expression settings n >>= assign target) .empty).1 := by
  have hblock : execBlock settings.dumpBindings (call settings) ⟨[], [.assign target n]⟩ =
      expression settings n >>= assign target := by
    simp only [expression, execBlock, execAll, exec_assign, bind_assoc, pure_bind]
    exact bind_congr fun v => bind_pure (assign target v)
  rw [← hblock]
  rfl

section

variable {settings : Settings} {n : Node}

/-- Where the expression fails, a program with its assignment as the only statement does, too. -/
theorem run_assign_of_error {e : RuntimeError} (h : (n.eval settings).result = .error e)
    (name target : String) :
    Program.run ⟨name, ⟨[], [.assign target n]⟩⟩ settings =
      ⟨.programStarted name :: (n.eval settings).events, .error e⟩ := by
  rw [← expression_apply settings n name] at h ⊢
  rw [run_assign, inProgram_of_error (Action.bind_of_error (Action.eq_of_error h) _)]

/-- Where the expression has a value, the program ends with the frame in which that is bound. -/
theorem run_assign_of_ok {v : Value} (h : (n.eval settings).result = .ok v)
    (name target : String) :
    let f := (Frame.root name).set target v
    let dump := if settings.dumpBindings then some f.dump else none
    Program.run ⟨name, ⟨[], [.assign target n]⟩⟩ settings =
      ⟨.programStarted name :: ((n.eval settings).events ++ [.assigned target v.text 1] ++
        [.programFinished name dump]), .ok ⟨name, f.members, dump⟩⟩ := by
  rw [← expression_apply settings n name] at h ⊢
  have hv := Action.eq_of_ok h
  obtain ⟨f, hleft, hf⟩ := expression_updates settings n (Action.yields_of_eq hv)
  rw [hleft, hf.eq_of_nil] at hv
  have hblock : (expression settings n >>= assign target) (CallStack.empty.enterProgram name) =
    (⟨_, .ok ()⟩, ⟨[(Frame.root name).set target v]⟩) := Action.bind_of_ok hv _
  rw [run_assign, inProgram_of_ok hblock, CallStack.dump_of_root rfl]
  rfl

end

end Evaluation

/-- To run an expression and to run a program that does nothing but assign it come to the same,
whatever node stands for the expression: the one has a value if the other ends well with that value
bound and nothing else, and they fail for the same reason. And the program records all that is
recorded of the expression. -/
theorem eval_iff_run (settings : Settings) (n : Node) (name target : String) :
    let alone := n.eval settings
    let assigned := Program.run ⟨name, ⟨[], [.assign target n]⟩⟩ settings
    (∀ v, alone.result = .ok v ↔
      ∃ o, assigned.result = .ok o ∧ o.bindings = Bindings.empty.insert target v) ∧
    (∀ e, alone.result = .error e ↔ assigned.result = .error e) ∧
    .programStarted name :: alone.events <+: assigned.events := by
  intro alone assigned
  cases hresult : alone.result with
  | error e =>
    have hassigned : assigned = _ := Evaluation.run_assign_of_error hresult name target
    rw [hassigned]
    simp [alone]
  | ok v =>
    have hassigned : assigned = _ := Evaluation.run_assign_of_ok hresult name target
    rw [hassigned]
    refine ⟨fun w => ⟨?_, ?_⟩, fun e => ⟨nofun, nofun⟩, ?_⟩
    · rintro ⟨⟩
      exact ⟨_, rfl, rfl⟩
    · rintro ⟨_, ⟨⟩, hw⟩
      have hget := congrArg (Bindings.get? · target) hw
      simpa [Frame.set] using hget
    · rw [List.append_assoc]
      exact List.prefix_append _ _

end SmallPascal

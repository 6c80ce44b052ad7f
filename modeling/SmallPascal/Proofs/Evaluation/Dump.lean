import SmallPascal.Interpreter
import SmallPascal.Proofs.Evaluation.Lockstep

/-!
# Dumps

`dump_faithful`: asking for dumps changes nothing but that the ends of programs are recorded with
them, and the dump of a program shows its outcome. The first part is a comparison of two runs,
action by action (`Action.Undumped`). The second one holds because the stack is again what it was
when the frame of the program had just been put on it, but for what that frame binds: the dump is
taken of that frame alone, and so are the bindings of the outcome.
-/

namespace SmallPascal

/-- An event without the dump that it may come with. -/
def Event.withoutDump : Event → Event
  | .programFinished program _ => .programFinished program none
  | e => e

/-- An outcome without its dump. -/
def Outcome.withoutDump (o : Outcome) : Outcome :=
  { o with dump := none }

namespace Action

variable {α β : Type}

/-- The second action does what the first one does, but records no dumps. -/
def Undumped (x y : Action α) : Prop :=
  ∀ s, y s = (⟨(x s).1.events.map Event.withoutDump, (x s).1.result⟩, (x s).2)

namespace Undumped

/-- A result that is known has nothing to do with dumps. -/
theorem ofExcept (r : Except RuntimeError α) : Undumped (Action.ofExcept r) (Action.ofExcept r) :=
  fun _ => rfl

/-- A value that is given has nothing to do with dumps. -/
theorem pure (a : α) : Undumped (Pure.pure a : Action α) (Pure.pure a) :=
  fun _ => rfl

/-- An event may be recorded without its dump. -/
theorem emit (e : Event) : Undumped (Action.emit e) (Action.emit e.withoutDump) :=
  fun _ => rfl

/-- The stack is the same with and without dumps. -/
theorem stack : Undumped Action.stack Action.stack :=
  fun _ => rfl

/-- The stack is changed in the same way. -/
theorem modify (f : CallStack → CallStack) : Undumped (Action.modify f) (Action.modify f) :=
  fun _ => rfl

/-- The same frame is taken off. -/
theorem pop : Undumped Action.pop Action.pop :=
  fun _ => rfl

/-- The same name is bound. -/
theorem set (name : String) (v : Value) : Undumped (Action.set name v) (Action.set name v) := by
  intro s
  obtain ⟨_ | ⟨f, callers⟩⟩ := s <;> rfl

/-- Actions in a row record no dumps if none of them does. -/
theorem bind {x y : Action α} {k l : α → Action β} (hxy : Undumped x y)
    (hkl : ∀ a, Undumped (k a) (l a)) : Undumped (x >>= k) (y >>= l) := by
  intro s
  have hs := hxy s
  rcases hx : x s with ⟨⟨events, e | a⟩, left⟩
  · rw [hx] at hs
    rw [bind_of_error hx, bind_of_error hs]
  · rw [hx] at hs
    rw [bind_of_ok hx, bind_of_ok hs, hkl a left, List.map_append]

/-- The same names are bound. -/
theorem setAll (entries : List (String × Value)) :
    Undumped (Action.setAll entries) (Action.setAll entries) := by
  induction entries with
  | nil => exact .pure ()
  | cons e rest ih => exact (Undumped.set e.1 e.2).bind fun _ => ih

/-- What is asked of the stack has nothing to do with dumps. -/
theorem query (f : CallStack → Except RuntimeError α) :
    Undumped (Action.query f) (Action.query f) :=
  stack.bind fun _ => .ofExcept _

end Undumped

end Action

namespace Evaluation

open SmallPascal.Action (Undumped)

variable {invocation invocation' : Invocation}

/-- A program of which no dump is taken ends with the same outcome but for the dump. -/
theorem inProgram_undumped (name : String) {block block' : Action Unit}
    (hblock : Undumped block block') :
    Undumped (Outcome.withoutDump <$> inProgram true name block) (inProgram false name block') := by
  simp only [inProgram, map_bind, map_pure]
  exact (Undumped.emit (.programStarted name)).bind fun _ => (Undumped.modify _).bind fun _ =>
    hblock.bind fun _ => Undumped.stack.bind fun s => Undumped.pop.bind fun root =>
      (Undumped.emit (.programFinished name (some s.dump))).bind fun _ => .pure _

/-- Whether dumps are taken does not matter to a node, if it does not matter to calls. -/
theorem undumped_lockstep
    (hcalls : ∀ r args, Undumped (invocation r args) (invocation' r args)) :
    Lockstep true false invocation invocation' @Undumped where
  ofExcept r _ := .ofExcept r
  read name := .query _
  callee name := .query _
  set := .set
  assign target v := Undumped.stack.bind fun s =>
    (Undumped.emit (.assigned target v.text s.depth)).bind fun _ => .set target v
  bind hxy hkl := hxy.bind hkl
  call := hcalls
  program name b hb := by
    -- As a node, a program drops its outcome, and the dump with it.
    have hprogram := (inProgram_undumped name hb).bind fun _ => Undumped.pure (none : Option Value)
    rwa [bind_map_left] at hprogram

/-- Whether dumps are taken does not matter to a call. -/
theorem invoke_undumped (limit : Nat) : ∀ (budget : Nat) (r : Routine) (args : List Value),
    Undumped (invoke ⟨limit, true⟩ budget r args) (invoke ⟨limit, false⟩ budget r args)
  | 0, _, _ => .ofExcept _
  | budget + 1, r, args => by
    have hblock := (undumped_lockstep (invoke_undumped limit budget)).execBlock r.block
    rw [invoke, invoke]
    refine Undumped.stack.bind fun callers => ?_
    split
    · exact .ofExcept _
    · exact (Undumped.modify _).bind fun _ => Undumped.stack.bind fun entered =>
        (Undumped.emit (.callEntered r.name entered.depth)).bind fun _ =>
          (Undumped.setAll _).bind fun _ => hblock.bind fun _ => Undumped.pop.bind fun frame =>
            Undumped.stack.bind fun left =>
              (Undumped.emit (.callExited r.name left.depth)).bind fun _ => .pure _

/-- Whether dumps are taken does not matter to a program, but for the dump in its outcome. -/
theorem program_undumped (limit : Nat) (p : Program) :
    Undumped (Outcome.withoutDump <$> program ⟨limit, true⟩ p) (program ⟨limit, false⟩ p) :=
  inProgram_undumped p.name ((undumped_lockstep (invoke_undumped limit limit)).execBlock p.block)

end Evaluation

/-! ## What a dump shows -/

/-- From a frame that names no caller, nothing else can be seen. -/
theorem CallStack.dump_of_root {f : Frame} {below : List Frame} (h : f.parent = none) :
    CallStack.dump ⟨f :: below⟩ = f.dump := by
  rw [dump, chain, chainOf, h]
  simp

/-- The dump of a frame in which nothing but values has changed since it was made for a program. -/
theorem Frame.Updated.dump_eq {name : String} {names : List String} {f : Frame}
    (h : Updated names (.root name) f) :
    f.dump = name ++ " (kind=PROGRAM, level=1)\n" ++
      String.join (f.members.entries.map fun e => "\t" ++ e.1 ++ " : " ++ e.2.text ++ "\n") := by
  have hheading : " (kind=" ++ FrameKind.program.label ++ ", level=" ++ toString 1 ++ ")\n" =
    " (kind=PROGRAM, level=1)\n" := by decide
  rw [Frame.dump, h.name_eq, h.kind_eq, h.level_eq, ← hheading]
  simp only [String.append_assoc]
  rfl

namespace Evaluation

/-- The outcome of a program is made of its frame as it is when the block has run, in which only
values have changed. -/
theorem outcome_of_inProgram {dumps : Bool} {name : String} {names : List String}
    {block : Action Unit} {s left : CallStack} {o : Outcome} (hblock : block.Updates names)
    (h : (inProgram dumps name block).Yields s o left) :
    ∃ f, (Frame.root name).Updated names f ∧
      o = ⟨name, f.members, if dumps then some f.dump else none⟩ := by
  simp only [inProgram, Action.yields_bind, Action.yields_emit, Action.yields_modify,
    Action.yields_stack, Action.yields_pop, Action.yields_pure] at h
  obtain ⟨_, _, rfl, _, _, rfl, _, ran, hran, _, _, ⟨rfl, rfl⟩, root, _, hpop, _, _, rfl, rfl,
    rfl⟩ := h
  obtain ⟨f, rfl, hf⟩ := hblock hran
  obtain ⟨rfl, rfl⟩ := Prod.mk.inj hpop
  refine ⟨f, hf, ?_⟩
  rw [CallStack.dump_of_root hf.parent_eq]
  rfl

/-- A program that ends well gives what its frame binds, and the dump of that frame if it was asked
for. -/
theorem outcome_of_program {settings : Settings} {p : Program} {s left : CallStack} {o : Outcome}
    (h : (program settings p).Yields s o left) :
    ∃ f, (Frame.root p.name).Updated p.block.written f ∧
      o = ⟨p.name, f.members, if settings.dumpBindings then some f.dump else none⟩ :=
  outcome_of_inProgram (execBlock_updates (invoke_restores settings _) p.block) h

end Evaluation

/-- Whether dumps are asked for makes no difference but in what the ends of programs are recorded
with: the program ends with the same error, or with the same name and bindings, and its events are
the same but for the dumps in them. If they are asked for, the dump of the outcome is a heading with
the name of the program and a line for each of the bindings, in the order of their names. -/
theorem dump_faithful (limit : Nat) (p : Program) :
    let dumped := p.run ⟨limit, true⟩
    let plain := p.run ⟨limit, false⟩
    plain.events = dumped.events.map Event.withoutDump ∧
      match dumped.result with
      | .error e => plain.result = .error e
      | .ok o => plain.result = .ok o.withoutDump ∧ o.program = p.name ∧
        o.dump = some (p.name ++ " (kind=PROGRAM, level=1)\n" ++
          String.join (o.bindings.entries.map fun e => "\t" ++ e.1 ++ " : " ++ e.2.text ++ "\n")) ∧
        o.bindings.entries.Pairwise fun a b => a.1 < b.1 := by
  intro dumped plain
  have hplain : plain = ⟨dumped.events.map Event.withoutDump,
      dumped.result.map Outcome.withoutDump⟩ := by
    have h := Evaluation.program_undumped limit p .empty
    rw [Action.map_apply] at h
    exact congrArg Prod.fst h
  rw [hplain]
  refine ⟨rfl, ?_⟩
  cases hresult : dumped.result with
  | error e => rfl
  | ok o =>
    obtain ⟨f, hf, rfl⟩ := Evaluation.outcome_of_program (s := .empty) ⟨hresult, rfl⟩
    exact ⟨rfl, rfl, congrArg some hf.dump_eq, f.members.sorted⟩

end SmallPascal

import SmallPascal.Proofs.Evaluation.Operand

/-!
# Which names end up bound

`binds_exactly_written`: what a block binds can be read off its text. When it has run, the newest
frame binds the names that it bound before and those in `Block.written`, no others and none less,
whatever was called on the way. The frame rule says that nothing else is changed; what is added here
is that every name that is written is bound when the run has succeeded, which is a matter of putting
actions together (`binds_composes`).

So the outcome of a program binds the names that its block writes; a variable that is declared and
never assigned is not among them. And a call has a value exactly if its routine binds the name that
it is declared with (`Routine.Gives`), under whatever name it is called.
-/

namespace SmallPascal

/-! ## The names a frame binds -/

namespace Bindings

/-- Binding a name adds that name and no other. -/
theorem mem_names_insert {b : Bindings} {name other : String} {v : Value} :
    other ∈ (b.insert name v).names ↔ other ∈ b.names ∨ other = name := by
  simp only [mem_names_iff, get?_insert]
  split <;> simp_all

/-- Binding entries adds their names and no others. -/
theorem mem_names_insertAll {b : Bindings} {entries : List (String × Value)} {name : String} :
    name ∈ (b.insertAll entries).names ↔ name ∈ b.names ∨ name ∈ entries.map Prod.fst := by
  induction entries generalizing b with
  | nil => simp [insertAll]
  | cons e rest ih =>
    rw [insertAll, List.foldl_cons, ← insertAll, ih, mem_names_insert, List.map_cons,
      List.mem_cons, or_assoc]

@[simp] theorem names_empty : empty.names = [] := rfl

end Bindings

/-- The newest frame binds a name. -/
def CallStack.Binds (s : CallStack) (name : String) : Prop :=
  ∃ f, s.current? = some f ∧ name ∈ f.members.names

@[simp] theorem CallStack.binds_cons {f : Frame} {callers : List Frame} {name : String} :
    CallStack.Binds ⟨f :: callers⟩ name ↔ name ∈ f.members.names := by
  simp [Binds, current?]

namespace Action

variable {α β : Type}

/-- Whenever the action succeeds, the newest frame binds what it bound before and the given names,
and nothing else. -/
def Binds (names : List String) (x : Action α) : Prop :=
  ∀ ⦃s a left⦄, x.Yields s a left → ∀ name, left.Binds name ↔ s.Binds name ∨ name ∈ names

/-- An action that gives the stack back binds nothing. -/
theorem Restores.binds {x : Action α} (hx : x.Restores) : x.Binds [] := by
  intro s a left h name
  rw [hx h]
  simp

/-- Binding a name binds it. -/
theorem Binds.set (target : String) (v : Value) : (Action.set target v).Binds [target] := by
  intro s u left h name
  rw [yields_set] at h
  obtain ⟨_ | ⟨f, callers⟩⟩ := s
  · cases h
  · obtain rfl := Except.ok.inj h
    simp [Frame.set, Bindings.mem_names_insert]

/-- Two actions in a row bind what either of them does. -/
theorem Binds.bind {names more : List String} {x : Action α} {k : α → Action β}
    (hx : x.Binds names) (hk : ∀ a, (k a).Binds more) : (x >>= k).Binds (names ++ more) := by
  intro s b left h name
  obtain ⟨a, mid, hxa, hkb⟩ := yields_bind.1 h
  rw [hk a hkb, hx hxa, List.mem_append, or_assoc]

end Action

/-! ## What running a block binds -/

/-- The text of a routine binds the name that the routine is declared with, in the frame of a call,
and the routine is a function, so that this name has its result. -/
def Routine.Gives (r : Routine) : Prop :=
  r.kind = .function ∧ (r.name ∈ r.params.map Param.name ∨ r.name ∈ r.block.written)

namespace Evaluation

section

variable {dumps : Bool} {invocation : Invocation}

/-- What is done in running a node binds what the node writes, if calls leave the stack as it
was. -/
theorem binds_composes (hcalls : ∀ r args, (invocation r args).Restores) :
    Composes dumps invocation @Action.Binds where
  pure a := (Action.Restores.pure a).binds
  ofExcept r := (Action.Restores.ofExcept r).binds
  stack := Action.Restores.stack.binds
  set := .set
  assign target v := Action.Restores.stack.binds.bind fun _ =>
    (Action.Restores.emit _).binds.bind fun _ => .set target v
  bind hx hk := hx.bind hk
  value n hn := by
    intro s v left h
    have hv := yields_needValue.1 h
    exact written_of_value hv ▸ hn hv
  call r args := (hcalls r args).binds
  program _ b _ := (inProgram_restores (execBlock_updates hcalls b)).binds

end

variable {settings : Settings} {s left : CallStack}

/-- Running a block binds what it writes. -/
theorem execBlock_binds (settings : Settings) (budget : Nat) (b : Block) :
    (execBlock settings.dumpBindings (invoke settings budget) b).Binds b.written :=
  (binds_composes (invoke_restores settings budget)).execBlock b

/-- The outcome of a program binds what its block writes. -/
theorem names_of_program {p : Program} {o : Outcome}
    (h : (program settings p).Yields s o left) (name : String) :
    name ∈ o.bindings.names ↔ name ∈ p.block.written := by
  simp only [program, inProgram, Action.yields_bind, Action.yields_emit, Action.yields_modify,
    Action.yields_stack, Action.yields_pop, Action.yields_pure] at h
  obtain ⟨_, _, rfl, _, _, rfl, _, ran, hran, _, _, ⟨rfl, rfl⟩, root, _, hpop, _, _, rfl, rfl,
    rfl⟩ := h
  have hbinds := execBlock_binds settings _ p.block hran name
  obtain ⟨g, rfl, -⟩ := execBlock_updates (invoke_restores settings _) p.block hran
  obtain ⟨rfl, rfl⟩ := Prod.mk.inj hpop
  simpa [CallStack.enterProgram, CallStack.push, Frame.root] using hbinds

/-- A routine that is run to its end gives a value if its text says so. -/
theorem isSome_of_invoke {budget : Nat} {r : Routine} {args : List Value} {v : Option Value}
    (h : (invoke settings budget r args).Yields s v left) (hargs : args.length = r.params.length) :
    v.isSome ↔ r.Gives := by
  cases budget with
  | zero => exact absurd h Action.not_yields_fail
  | succ budget =>
    simp only [Machine.invoke_succ, Machine.leave, Action.yields_bind, Action.yields_stack,
      Action.yields_ofExcept, Machine.yields_enter, Action.yields_pop, Action.yields_emit,
      Action.yields_pure] at h
    obtain ⟨_, _, ⟨rfl, rfl⟩, _, _, ⟨-, rfl⟩, _, _, rfl, _, ran, hran, frame, _, hpop, _, _,
      ⟨rfl, rfl⟩, _, _, rfl, rfl, rfl⟩ := h
    have hbinds := execBlock_binds settings budget r.block hran r.name
    obtain ⟨g, rfl, -⟩ := execBlock_updates (invoke_restores settings budget) r.block hran
    obtain ⟨rfl, rfl⟩ := Prod.mk.inj hpop
    have hentries : ((r.params.map Param.name).zip args).map Prod.fst = r.params.map Param.name :=
      List.map_fst_zip (by simp [hargs])
    simp only [CallStack.push, CallStack.binds_cons, Machine.enteredFrame,
      Bindings.mem_names_insertAll, hentries, Bindings.names_empty, List.not_mem_nil,
      false_or] at hbinds
    unfold resultOf Routine.Gives
    cases r.kind with
    | function =>
      simp only [true_and, List.head?_cons, Option.bind_some, ← hbinds, Bindings.mem_names_iff,
        Option.isSome_iff_exists]
    | procedure => simp

/-- A call that comes to its end has a value if the text of its routine says so. -/
theorem isSome_of_call {name : String} {args : List Node} {v : Option Value}
    (h : (exec settings.dumpBindings (call settings) (.call name args)).Yields s v left) :
    ∃ r, callee s name = .ok r ∧ (v.isSome ↔ r.Gives) := by
  simp only [exec, Action.yields_bind, Action.yields_stack, Action.yields_ofExcept] at h
  obtain ⟨_, _, ⟨rfl, rfl⟩, r, _, ⟨hcallee, rfl⟩, values, mid, -, h⟩ := h
  refine ⟨r, hcallee, ?_⟩
  split at h
  next hlength => exact isSome_of_invoke h hlength
  next => exact absurd h Action.not_yields_fail

/-- Which names end up bound is decided by the text alone. A block that runs successfully, on any
stack, binds the names it writes and no others; so the bindings of a program are those of the names
that its block writes. A call that comes to its end has a value exactly if its routine is a function
that binds the name it is declared with, as a parameter or in its block. And a request fails because
a call has no value exactly if a call to another routine is run for its value and comes to its
end. -/
theorem binds_exactly_written (settings : Settings) :
    (∀ (b : Block) (s left : CallStack),
      (execBlock settings.dumpBindings (call settings) b).Yields s () left →
        ∀ name, left.Binds name ↔ s.Binds name ∨ name ∈ b.written) ∧
    (∀ (stack : CallStack) (p : Program) (o : Outcome),
      ((Session.mk settings stack).runProgram p).1.result = .ok o →
        ∀ name, name ∈ o.bindings.names ↔ name ∈ p.block.written) ∧
    (∀ (name : String) (args : List Node) (s : CallStack) (v : Option Value) (left : CallStack),
      (exec settings.dumpBindings (call settings) (.call name args)).Yields s v left →
        ∃ r, callee s name = .ok r ∧ (v.isSome ↔ r.Gives)) ∧
    ∀ (q : Session.Request) (name : String),
      ((Session.new settings).perform q).1.result = .error (.noReturnValue name) ↔
        ∃ i args t rest r v left,
          Machine.Demands (Machine.after settings.rules i (.start q)) (.call name args) t rest ∧
          callee (Machine.after settings.rules i (.start q)).stack name = .ok r ∧ ¬ r.Gives ∧
          (exec settings.dumpBindings (call settings) (.call name args)).Yields
            (Machine.after settings.rules i (.start q)).stack v left := by
  refine ⟨fun b s left h => execBlock_binds settings _ b h,
    fun stack p o h => names_of_program ⟨h, rfl⟩, fun name args s v left => isSome_of_call,
    fun q name => ?_⟩
  rw [Machine.result_eq_noReturnValue_iff]
  constructor
  · rintro ⟨i, args, t, rest, left, hdemands, h⟩
    obtain ⟨r, hcallee, hr⟩ := isSome_of_call h
    exact ⟨i, args, t, rest, r, none, left, hdemands, hcallee,
      fun hgives => Bool.noConfusion (hr.2 hgives), h⟩
  · rintro ⟨i, args, t, rest, r, v, left, hdemands, hcallee, hgives, h⟩
    obtain ⟨r', hcallee', hr⟩ := isSome_of_call h
    obtain rfl := Except.ok.inj (hcallee.symm.trans hcallee')
    obtain rfl := Option.not_isSome_iff_eq_none.1 (mt hr.1 hgives)
    exact ⟨i, args, t, rest, left, hdemands, h⟩

/-- The names that are bound where a function is called by another name than the one it gives its
result under, a program runs inside, and a variable is declared and not assigned. -/
theorem binds_exactly_written_alias :
    let one : Routine := ⟨"one", .function, [], none, ⟨[], [.assign "one" (.number 1)]⟩⟩
    let b : Block := ⟨[.varDecl "y" .integer, one.node],
      [.assign "f" (.var "one"), .program "q" [] [.assign "z" (.number 2)],
        .assign "x" (.call "f" [])]⟩
    let p : Program := ⟨"p", b⟩
    let s : CallStack := ⟨[(Frame.root "p").set "f" (.routine one)]⟩
    (∃ left, (execBlock false (call {}) b).Yields s () left ∧
        ∀ name, left.Binds name ↔ s.Binds name ∨ name ∈ ["one", "f", "x"]) ∧
      (∃ o, ((Session.new {}).runProgram p).1.result = .ok o ∧
        ∀ name, name ∈ o.bindings.names ↔ name ∈ ["one", "f", "x"]) ∧
      ∃ v left, (exec false (call {}) (.call "f" [])).Yields s v left ∧
        ∃ r, callee s "f" = .ok r ∧ (v.isSome ↔ r.Gives) := by
  obtain ⟨hblock, hprogram, hcall, -⟩ := binds_exactly_written {}
  refine ⟨⟨_, ⟨rfl, rfl⟩, hblock _ _ _ ⟨rfl, rfl⟩⟩, ?_,
    _, _, ⟨rfl, rfl⟩, hcall "f" [] _ _ _ ⟨rfl, rfl⟩⟩
  exact Exists.imp (fun o ho => ⟨ho, hprogram .empty _ o ho⟩) ⟨_, rfl⟩

end Evaluation

end SmallPascal

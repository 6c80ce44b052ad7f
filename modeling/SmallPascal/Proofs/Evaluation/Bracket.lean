import SmallPascal.Interpreter
import SmallPascal.Proofs.Evaluation.Frame
import SmallPascal.Proofs.Evaluation.Simulation

/-!
# The events of a run are bracketed

`trace_bracketed`: what a program records is one block from its beginning to its end, in which the
beginnings and ends of calls and of programs inside are nested properly, and a run that fails has
recorded the beginning of such a block. The depth that an event records is the number of brackets
that are open around it.

`Bracketed` is the grammar of what is recorded where so many brackets are open. An action that
succeeds records a word of it and leaves as many frames as it found, one that fails records the
beginning of a word (`Action.Traces`). What has been opened is closed in two places only, where a
program is run (`inProgram_traced`) and where a routine is (`invoke_traces`).
-/

namespace SmallPascal

/-! ## Brackets -/

/-- An event that opens a bracket where `d` are open, and one that closes it. -/
inductive Event.Encloses (dumps : Bool) (d : Nat) : Event → Event → Prop where
  | call (routine : String) :
    Encloses dumps d (.callEntered routine (d + 1)) (.callExited routine d)
  | program (program : String) {dump : Option String} (hdump : dump.isSome = dumps) :
    Encloses dumps d (.programStarted program) (.programFinished program dump)

/-- Events that are recorded one after the other where `d` brackets are open: assignments, which
record that number, and brackets with such events between them. -/
inductive Bracketed (dumps : Bool) : Nat → List Event → Prop where
  | nil : Bracketed dumps d []
  | assigned (name value : String) (hrest : Bracketed dumps d rest) :
    Bracketed dumps d (.assigned name value d :: rest)
  | enclosed (h : Event.Encloses dumps d opening closing) (hbody : Bracketed dumps (d + 1) body)
    (hrest : Bracketed dumps d rest) : Bracketed dumps d (opening :: (body ++ closing :: rest))

/-- What is recorded between an event that opens a bracket where `d` are open and the event that
closes it, with both of them. -/
inductive Bracket (dumps : Bool) (d : Nat) (opening : Event) : List Event → Prop where
  | mk (h : Event.Encloses dumps d opening closing) (hbody : Bracketed dumps (d + 1) body) :
    Bracket dumps d opening (opening :: (body ++ [closing]))

section

variable {dumps : Bool} {d : Nat} {events more : List Event}

/-- Bracketed events may follow each other. -/
theorem Bracketed.append (h : Bracketed dumps d events) (hmore : Bracketed dumps d more) :
    Bracketed dumps d (events ++ more) := by
  induction h with
  | nil => exact hmore
  | assigned name value _ ih => exact .assigned name value (ih hmore)
  | enclosed hevents hbody _ _ ih =>
    rw [List.cons_append, List.append_assoc, List.cons_append]
    exact .enclosed hevents hbody (ih hmore)

/-- A bracket with what stands in it is bracketed. -/
theorem Bracket.bracketed {opening : Event} (h : Bracket dumps d opening events) :
    Bracketed dumps d events := by
  cases h with
  | mk hencloses hbody => exact .enclosed hencloses hbody .nil

end

/-! ## The depth of an event -/

namespace Event

/-- The number of brackets that are open behind an event, if it is `d` in front of it. -/
def openBehind (d : Nat) : Event → Nat
  | programStarted _ | callEntered .. => d + 1
  | programFinished .. | callExited .. => d - 1
  | assigned .. | wordRead .. => d

/-- An event fits where `d` brackets are open in front of it: the depth of an assignment is that
number, that of the beginning of a call is one more and that of its end one less, and what has not
been opened is not closed. -/
def TrueAt (d : Nat) : Event → Prop
  | assigned _ _ depth => depth = d
  | callEntered _ depth => depth = d + 1
  | callExited _ depth => depth + 1 = d
  | programFinished .. => 0 < d
  | programStarted _ | wordRead .. => True

end Event

/-- The depths that events record are true, if `d` brackets are open in front of the first one. -/
def DepthsTrue (d : Nat) : List Event → Prop
  | [] => True
  | e :: rest => e.TrueAt d ∧ DepthsTrue (e.openBehind d) rest

section

variable {dumps : Bool} {d : Nat} {events more : List Event}

/-- If the depths in some events are true, so are those in the first part of them. -/
theorem DepthsTrue.of_append (h : DepthsTrue d (events ++ more)) : DepthsTrue d events := by
  induction events generalizing d with
  | nil => trivial
  | cons e rest ih => exact ⟨h.1, ih h.2⟩

/-- An event that opens a bracket and one that closes it fit in their places, and count the brackets
up and down. -/
theorem Event.Encloses.depthsTrue_cons {opening closing : Event}
    (h : Event.Encloses dumps d opening closing) :
    (DepthsTrue d (opening :: events) ↔ DepthsTrue (d + 1) events) ∧
      (DepthsTrue (d + 1) (closing :: events) ↔ DepthsTrue d events) := by
  cases h <;> simp [DepthsTrue, TrueAt, openBehind]

/-- Events that are bracketed record true depths, and behind them as many brackets are open as in
front of them. -/
theorem Bracketed.depthsTrue_append (h : Bracketed dumps d events) (more : List Event) :
    DepthsTrue d (events ++ more) ↔ DepthsTrue d more := by
  induction h generalizing more with
  | nil => rfl
  | assigned name value _ ih =>
    rw [List.cons_append, DepthsTrue, ← ih more]
    exact and_iff_right rfl
  | enclosed hevents _ _ ihbody ih =>
    rw [List.cons_append, List.append_assoc, List.cons_append, hevents.depthsTrue_cons.1, ihbody,
      hevents.depthsTrue_cons.2, ih]

end

/-! ## What actions record -/

namespace Action

variable {α β : Type} {dumps : Bool}

/-- Where `d` frames were live and as many are left, the events are such; if there has been a
failure, they are the beginning of such events. -/
def Traced (Such : List Event → Prop) (d : Nat) (out : Run α × CallStack) : Prop :=
  match out.1.result with
  | .ok _ => Such out.1.events ∧ out.2.depth = d
  | .error _ => ∃ more, Such (out.1.events ++ more)

/-- What is recorded is also what is asked for less strictly. -/
theorem Traced.imp {Such Those : List Event → Prop} {d : Nat} {out : Run α × CallStack}
    (hout : Traced Such d out) (h : ∀ events, Such events → Those events) : Traced Those d out := by
  unfold Traced at *
  split at hout
  · exact ⟨h _ hout.1, hout.2⟩
  · exact hout.imp fun _ => h _

/-- What the action records is bracketed. Each live frame stands for an open bracket. -/
def Traces (dumps : Bool) (x : Action α) : Prop :=
  ∀ s, Traced (Bracketed dumps s.depth) s.depth (x s)

/-- An action that records nothing and leaves as many frames as it found. -/
theorem Traces.silent {x : Action α} (hevents : ∀ s, (x s).1.events = [])
    (hdepth : ∀ s, (x s).2.depth = s.depth) : x.Traces dumps := by
  intro s
  unfold Traced
  split
  · exact ⟨hevents s ▸ .nil, hdepth s⟩
  · exact ⟨[], by rw [hevents, List.append_nil]; exact .nil⟩

/-- A result that is known records nothing. -/
theorem Traces.ofExcept (r : Except RuntimeError α) : (Action.ofExcept r).Traces dumps :=
  .silent (fun _ => rfl) fun _ => rfl

/-- Binding a name records nothing. -/
theorem Traces.set (name : String) (v : Value) : (Action.set name v).Traces dumps := by
  refine .silent (fun s => ?_) fun s => ?_ <;> obtain ⟨_ | ⟨f, callers⟩⟩ := s <;> rfl

/-- Actions in a row record bracketed events if each of them does. -/
theorem Traces.bind {x : Action α} {k : α → Action β} (hx : x.Traces dumps)
    (hk : ∀ a, (k a).Traces dumps) : (x >>= k).Traces dumps := by
  intro s
  have hs := hx s
  rcases h : x s with ⟨⟨events, e | a⟩, mid⟩
  · rw [h] at hs
    rw [bind_of_error h]
    exact hs
  · rw [h] at hs
    obtain ⟨hevents, hmid⟩ := hs
    have hmore := hmid ▸ hk a mid
    rw [bind_of_ok h]
    rcases hk : k a mid with ⟨⟨more, e | b⟩, left⟩
    · rw [hk] at hmore
      obtain ⟨rest, hrest⟩ := hmore
      exact ⟨rest, by rw [List.append_assoc]; exact hevents.append hrest⟩
    · rw [hk] at hmore
      exact ⟨hevents.append hmore.1, hmore.2⟩

/-- An action between two others, of which the first puts a frame on top and opens a bracket and the
last one takes the frame off and closes the bracket. -/
theorem Traced.enclosed {first body : Action Unit} {last : Action α} {opening : Event}
    {s entered : CallStack} (hfirst : first s = (⟨[opening], .ok ()⟩, entered))
    (hentered : entered.depth = s.depth + 1) (hbody : body.Traces dumps)
    (hlast : ∀ ran : CallStack, ran.depth = s.depth + 1 → ∃ closing a left,
      last ran = (⟨[closing], .ok a⟩, left) ∧ left.depth = s.depth ∧
        Event.Encloses dumps s.depth opening closing) :
    Traced (Bracket dumps s.depth opening) s.depth
      ((first >>= fun _ => body >>= fun _ => last) s) := by
  have hs := hentered ▸ hbody entered
  rw [bind_of_ok hfirst]
  rcases h : body entered with ⟨⟨events, e | u⟩, ran⟩
  · rw [h] at hs
    obtain ⟨more, hmore⟩ := hs
    -- The closing event was never recorded; any that fits completes the block.
    obtain ⟨closing, -, -, -, -, hencloses⟩ := hlast entered hentered
    rw [bind_of_error h]
    refine ⟨more ++ [closing], ?_⟩
    rw [List.cons_append, List.nil_append, ← List.append_assoc]
    exact .mk hencloses hmore
  · rw [h] at hs
    obtain ⟨closing, a, left, hran, hleft, hencloses⟩ := hlast ran hs.2
    rw [bind_of_ok h, hran]
    exact ⟨.mk hencloses hs.1, hleft⟩

end Action

namespace Evaluation

section

variable {dumps : Bool} {invocation : Invocation}

/-- Taking off a frame leaves one frame less. -/
theorem depth_pop {s : CallStack} {d : Nat} (h : s.depth = d + 1) : s.pop.2.depth = d := by
  show s.frames.tail.length = d
  rw [List.length_tail]
  exact Nat.sub_eq_of_eq_add h

/-- A program is enclosed by its beginning and its end. -/
theorem inProgram_traced (name : String) {block : Action Unit} (hblock : block.Traces dumps)
    (s : CallStack) : Action.Traced (Bracket dumps s.depth (.programStarted name)) s.depth
      (inProgram dumps name block s) := by
  rw [inProgram, ← bind_assoc]
  refine .enclosed rfl rfl hblock fun ran hran => ⟨_, _, _, rfl, ?_, .program name ?_⟩
  · exact depth_pop hran
  · cases dumps <;> rfl

/-- An assignment is recorded with the number of live frames. -/
theorem assign_traces (target : String) (v : Value) : (assign target v).Traces dumps := by
  intro s
  have hevent : Bracketed dumps s.depth [.assigned target v.text s.depth] := .assigned _ _ .nil
  obtain ⟨_ | ⟨f, callers⟩⟩ := s
  · exact ⟨[], hevent⟩
  · exact ⟨hevent, rfl⟩

/-- What is done in running a node is bracketed, if calls are. -/
theorem traces_composes (hcalls : ∀ r args, (invocation r args).Traces dumps) :
    Composes dumps invocation fun _ x => x.Traces dumps where
  pure a := .silent (fun _ => rfl) fun _ => rfl
  ofExcept := .ofExcept
  stack := .silent (fun _ => rfl) fun _ => rfl
  set := .set
  assign := assign_traces
  bind hx hk := hx.bind hk
  value n hn := by
    rw [needValue_eq]
    exact hn.bind fun v => by
      split
      · exact .silent (fun _ => rfl) fun _ => rfl
      · exact .ofExcept _
  call := hcalls
  program name _ hb s := (inProgram_traced name hb s).imp fun _ => Bracket.bracketed

end

/-- A call is enclosed by its beginning and its end. -/
theorem invoke_traces (settings : Settings) : ∀ (budget : Nat) (r : Routine) (args : List Value),
    (invoke settings budget r args).Traces settings.dumpBindings
  | 0, _, _ => .ofExcept _
  | budget + 1, r, args => by
    have hblock := (traces_composes (invoke_traces settings budget)).execBlock r.block
    rw [Machine.invoke_succ]
    refine .bind (.silent (fun _ => rfl) fun _ => rfl) fun _ => .bind (.ofExcept _) fun _ s => ?_
    refine (Action.Traced.enclosed (Machine.enter_apply r args s) rfl hblock fun ran hran => ?_).imp
      fun _ => Bracket.bracketed
    exact ⟨_, _, _, rfl, depth_pop hran, by rw [depth_pop hran]; exact .call r.name⟩

end Evaluation

/-- The events of a program are one block from its beginning to its end, if it runs to its end, and
otherwise the beginning of such a block: between the two stand assignments, calls and programs
inside, nested properly, each closed under the name it was opened with. The depths they record are
true: that of an assignment is the number of programs and calls that are open around it, that of the
beginning of a call is one more, and that of its end does not count the call any more. -/
theorem trace_bracketed (settings : Settings) (p : Program) :
    (∀ o, (p.run settings).result = .ok o →
        Bracket settings.dumpBindings 0 (.programStarted p.name) (p.run settings).events) ∧
      (∀ e, (p.run settings).result = .error e → ∃ more,
        Bracket settings.dumpBindings 0 (.programStarted p.name)
          ((p.run settings).events ++ more)) ∧
      DepthsTrue 0 (p.run settings).events := by
  have hblock := (Evaluation.traces_composes
    (Evaluation.invoke_traces settings settings.maxCallDepth)).execBlock p.block
  have h : Action.Traced (Bracket settings.dumpBindings 0 (.programStarted p.name)) 0
      (Evaluation.program settings p .empty) := Evaluation.inProgram_traced p.name hblock .empty
  have htrue : ∀ events more,
      Bracket settings.dumpBindings 0 (.programStarted p.name) (events ++ more) →
        DepthsTrue 0 events := fun events more hevents => by
    have happend := hevents.bracketed.depthsTrue_append []
    rw [List.append_nil] at happend
    exact (happend.2 trivial).of_append
  change (∀ o, (Evaluation.program settings p .empty).1.result = .ok o → _) ∧
    (∀ e, (Evaluation.program settings p .empty).1.result = .error e → _) ∧ _
  unfold Action.Traced at h
  split at h
  next o ho =>
    rw [ho]
    exact ⟨fun _ _ => h.1, nofun, htrue _ [] (by rw [List.append_nil]; exact h.1)⟩
  next e he =>
    rw [he]
    obtain ⟨more, hmore⟩ := h
    exact ⟨nofun, fun _ _ => ⟨more, hmore⟩, htrue _ more hmore⟩

/-- The events of a program that makes a call, and of one that fails inside a call. -/
theorem trace_bracketed_call :
    let one : Routine := ⟨"one", .function, [], none, ⟨[], [.assign "one" (.number 1)]⟩⟩
    let p : Program := ⟨"p", ⟨[one.node], [.assign "x" (.call "one" [])]⟩⟩
    let fails : Routine := ⟨"f", .function, [], none, ⟨[], [.assign "f" (.var "y")]⟩⟩
    let q : Program := ⟨"q", ⟨[fails.node], [.assign "x" (.call "f" [])]⟩⟩
    (∃ o, (p.run {}).result = .ok o) ∧
      Bracket false 0 (.programStarted "p") (p.run {}).events ∧
      (p.run {}).events = [.programStarted "p", .callEntered "one" 2, .assigned "one" "1" 2,
        .callExited "one" 1, .assigned "x" "1" 1, .programFinished "p" none] ∧
      (q.run {}).result = .error (.undefinedVariable "y") ∧
      (∃ more, Bracket false 0 (.programStarted "q") ((q.run {}).events ++ more)) ∧
      (q.run {}).events = [.programStarted "q", .callEntered "f" 2] := by
  intro one p fails q
  have hp : ∃ o, (p.run {}).result = .ok o := ⟨_, rfl⟩
  have hq : (q.run {}).result = .error (.undefinedVariable "y") := rfl
  obtain ⟨o, ho⟩ := hp
  exact ⟨⟨o, ho⟩, (trace_bracketed {} p).1 o ho, rfl, hq,
    (trace_bracketed {} q).2.1 _ hq, rfl⟩

end SmallPascal

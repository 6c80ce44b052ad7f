import SmallPascal.Proofs.Evaluation.Bracket
import SmallPascal.Proofs.Evaluation.Naming

/-!
# The events of a program account for its outcome

`bindings_accounted`: when a program has run to its end, a name that is not the name of a routine
it declares is bound exactly if an assignment to the name is recorded at depth 1, and then to what
the last such assignment shows. An assignment at a greater depth is one to a name in another frame,
though it may be the same name.

Calls and programs inside are bracketed, so what they record they record at a greater depth than
that of the frame they are run from (`Action.Traces.le_of_records`). What is left are the
assignments of the program's own block, and each of them binds what it shows; only a declaration
binds a name and shows nothing (`exec_accounts`).
-/

namespace SmallPascal

/-! ## The routines a node declares -/

namespace Node

mutual

/-- The names of the routines that a node declares in the frame it runs in. -/
def declared : Node → List String
  | .routine name .. => [name]
  | .compound children => declaredAll children
  | .block declarations body => declaredAll declarations ++ declaredAll body
  | .number _ | .boolean _ | .var _ | .unary .. | .binary .. | .assign .. | .noOp | .varDecl ..
  | .typeSpec _ | .param _ | .call .. | .program .. => []

/-- The names of the routines that a list of nodes declares. -/
def declaredAll : List Node → List String
  | [] => []
  | n :: rest => n.declared ++ declaredAll rest

end

end Node

/-- The names of the routines that a block declares in the frame it runs in. -/
def Block.declared (b : Block) : List String :=
  Node.declaredAll b.declarations ++ Node.declaredAll b.body

/-! ## What events show -/

/-- The value that an event shows for a name, if it is an assignment to the name at a depth. -/
def Event.shown? (name : String) (depth : Nat) : Event → Option String
  | .assigned target value d => if target = name ∧ d = depth then some value else none
  | _ => none

/-- An event shows a value for a name at a depth if it is the assignment of that value there. -/
theorem Event.shown?_eq_some_iff {name value : String} {depth : Nat} {e : Event} :
    e.shown? name depth = some value ↔ e = .assigned name value depth := by
  cases e with
  | assigned target text d =>
    rw [shown?, Option.ite_none_right_eq_some, Option.some_inj, Event.assigned.injEq, and_assoc,
      and_comm (a := d = depth)]
  | wordRead | programStarted | programFinished | callEntered | callExited =>
    exact ⟨nofun, nofun⟩

/-- The value that the last assignment to a name at a depth shows. -/
def lastShown? (name : String) (depth : Nat) (events : List Event) : Option String :=
  events.reverse.findSome? (Event.shown? name depth)

section

variable {name value : String} {depth : Nat} {events more : List Event}

@[simp] theorem lastShown?_singleton {e : Event} :
    lastShown? name depth [e] = e.shown? name depth := by
  rw [lastShown?, List.reverse_singleton, List.findSome?_singleton]

/-- Of events in two parts the later ones decide, and the earlier ones only where these show
nothing. -/
theorem lastShown?_append :
    lastShown? name depth (events ++ more) =
      (lastShown? name depth more).or (lastShown? name depth events) := by
  rw [lastShown?, List.reverse_append, List.findSome?_append]
  rfl

/-- Nothing is shown for a name at a depth if there is no assignment to it. -/
theorem lastShown?_eq_none_iff :
    lastShown? name depth events = none ↔ ∀ value, .assigned name value depth ∉ events := by
  rw [lastShown?, List.findSome?_eq_none_iff]
  simp only [List.mem_reverse, Option.eq_none_iff_forall_ne_some, ne_eq,
    Event.shown?_eq_some_iff]
  exact ⟨fun h value hmem => h _ hmem value rfl, fun h e he value heq => h value (heq ▸ he)⟩

/-- The value that is shown last is that of an assignment behind which there is no other one. -/
theorem lastShown?_eq_some_iff :
    lastShown? name depth events = some value ↔ ∃ before after,
      events = before ++ .assigned name value depth :: after ∧
        ∀ other, .assigned name other depth ∉ after := by
  constructor
  · intro h
    obtain ⟨after, e, before, hevents, he, hafter⟩ := List.findSome?_eq_some_iff.1 h
    obtain rfl := Event.shown?_eq_some_iff.1 he
    refine ⟨before.reverse, after.reverse, ?_, fun other hother => ?_⟩
    · rw [← List.reverse_inj, hevents]
      simp
    · have hnone := hafter _ (List.mem_reverse.1 hother)
      rw [Event.shown?_eq_some_iff.2 rfl] at hnone
      cases hnone
  · rintro ⟨before, after, rfl, hafter⟩
    rw [lastShown?_append, ← List.singleton_append, lastShown?_append,
      lastShown?_eq_none_iff.2 hafter, lastShown?_singleton, Event.shown?_eq_some_iff.2 rfl]
    rfl

end

/-! ## The depth of what is recorded -/

section

variable {dumps : Bool} {d depth : Nat} {name value : String}

/-- No assignment is recorded at a smaller depth than that of the events it is among. -/
theorem Bracketed.le_of_mem {events : List Event} (h : Bracketed dumps d events)
    (hmem : .assigned name value depth ∈ events) : d ≤ depth := by
  induction h with
  | nil => cases hmem
  | assigned target text _ ih =>
    rcases List.mem_cons.1 hmem with heq | hmem
    · exact Nat.le_of_eq (Event.assigned.inj heq).2.2.symm
    · exact ih hmem
  | enclosed hencloses _ _ ihbody ih =>
    rw [List.mem_cons, List.mem_append, List.mem_cons] at hmem
    rcases hmem with rfl | hbody | rfl | hrest
    · cases hencloses
    · exact Nat.le_of_succ_le (ihbody hbody)
    · cases hencloses
    · exact ih hrest

end

namespace Action

variable {α β : Type} {dumps : Bool} {s : CallStack} {name value : String} {depth : Nat}

/-- What is assigned while an action runs is assigned at its depth or deeper. -/
theorem Traces.le_of_records {x : Action α} (hx : x.Traces dumps)
    (h : x.Records s (.assigned name value depth)) : s.depth ≤ depth := by
  have hs := hx s
  unfold Traced at hs
  split at hs
  · exact hs.1.le_of_mem h
  · obtain ⟨more, hmore⟩ := hs
    exact hmore.le_of_mem (List.mem_append_left more h)

/-- Whenever the action succeeds, there are as many frames as before, and what it has assigned at
that depth are the given names. -/
def Shows (names : List String) (x : Action α) : Prop :=
  ∀ ⦃s a left⦄, x.Yields s a left → left.depth = s.depth ∧
    ∀ ⦃name value⦄, x.Records s (.assigned name value s.depth) → name ∈ names

/-- An action that gives the stack back and assigns behind more frames only. -/
theorem Restores.shows {x : Action α} (hx : x.Restores)
    (hdeeper : ∀ ⦃s name value depth⦄, x.Records s (.assigned name value depth) → s.depth < depth) :
    x.Shows [] := by
  intro s a left h
  obtain rfl := hx h
  exact ⟨rfl, fun name value hassigned => absurd (hdeeper hassigned) (Nat.lt_irrefl _)⟩

/-- Binding a name assigns it. -/
theorem Shows.set (name : String) (v : Value) : Shows [name] (Action.set name v) := by
  rintro ⟨_ | ⟨f, callers⟩⟩ u left h
  · cases yields_set.1 h
  · obtain rfl := Except.ok.inj (yields_set.1 h)
    exact ⟨rfl, fun _ _ hassigned => absurd hassigned not_records_set⟩

/-- Actions in a row assign what each of them does. -/
theorem Shows.bind {names more : List String} {x : Action α} {k : α → Action β}
    (hx : x.Shows names) (hk : ∀ a, (k a).Shows more) : (x >>= k).Shows (names ++ more) := by
  intro s b left h
  obtain ⟨a, mid, hxa, hkb⟩ := yields_bind.1 h
  obtain ⟨hmid, hnames⟩ := hx hxa
  obtain ⟨hleft, hmore⟩ := hk a hkb
  refine ⟨hleft.trans hmid, fun name value hassigned => List.mem_append.2 ?_⟩
  rcases records_bind.1 hassigned with hfirst | ⟨a', mid', hxa', hsecond⟩
  · exact .inl (hnames hfirst)
  · obtain rfl := Except.ok.inj (hxa.1.symm.trans hxa'.1)
    obtain rfl := hxa.2.symm.trans hxa'.2
    exact .inr (hmore (hmid ▸ hsecond))

end Action

namespace Evaluation

/-- What a program assigns it assigns behind its own frame. -/
theorem depth_lt_of_inProgram {dumps : Bool} {name : String} {block : Action Unit}
    (hblock : block.Traces dumps) {s : CallStack} {target value : String} {depth : Nat}
    (h : (inProgram dumps name block).Records s (.assigned target value depth)) :
    s.depth < depth := by
  simp only [inProgram, Action.records_bind, Action.records_emit, Action.yields_emit,
    Action.not_records_modify, Action.yields_modify, Action.not_records_stack,
    Action.not_records_pop, Action.not_records_pure, reduceCtorEq, and_false, exists_false,
    or_false, false_or] at h
  obtain ⟨_, _, rfl, _, _, rfl, h⟩ := h
  exact hblock.le_of_records h

/-- What a call assigns it assigns behind a frame for the call. -/
theorem depth_lt_of_invoke {settings : Settings} {r : Routine} {values : List Value}
    {s : CallStack} {target value : String} {depth : Nat} : ∀ {budget : Nat},
    (invoke settings budget r values).Records s (.assigned target value depth) → s.depth < depth
  | 0, h => absurd h Action.not_records_fail
  | budget + 1, h => by
    have hblock := (traces_composes (invoke_traces settings budget)).execBlock r.block
    rw [Machine.invoke_succ] at h
    simp only [Action.records_bind, Action.not_records_stack, Action.yields_stack,
      Action.not_records_ofExcept, Action.yields_ofExcept, Machine.records_enter,
      Machine.yields_enter, Machine.leave, Action.not_records_pop, Action.records_emit,
      Action.not_records_pure, reduceCtorEq, and_false, exists_false, or_false, false_or] at h
    obtain ⟨_, _, ⟨rfl, rfl⟩, _, _, ⟨-, rfl⟩, _, _, rfl, h⟩ := h
    exact hblock.le_of_records h

/-- Asking for the value of a node records nothing more than running it does. -/
theorem records_needValue {n : Node} {run : Action (Option Value)} {s : CallStack} {event : Event} :
    (needValue n run).Records s event ↔ run.Records s event := by
  rw [needValue_eq, Action.records_bind]
  refine or_iff_left ?_
  rintro ⟨_ | v, mid, -, h⟩
  · exact Action.not_records_fail h
  · exact Action.not_records_pure h

/-- An assignment shows its target, at the depth at which it is made. -/
theorem assign_shows (target : String) (v : Value) : (assign target v).Shows [target] := by
  rintro ⟨_ | ⟨f, callers⟩⟩ u left h
  · exact nomatch h.1
  · obtain ⟨-, rfl⟩ := h
    refine ⟨rfl, fun name value hassigned => List.mem_singleton.2 ?_⟩
    exact (Event.assigned.inj (List.mem_singleton.1 hassigned)).1

section

variable {dumps : Bool} {invocation : Invocation} {name : String}

/-- What is done in running a node assigns the names that the node writes, if calls and programs
assign behind more frames. -/
theorem shows_composes (hrestores : ∀ r args, (invocation r args).Restores)
    (htraces : ∀ r args, (invocation r args).Traces dumps)
    (hdeeper : ∀ ⦃r args s target value depth⦄,
      (invocation r args).Records s (.assigned target value depth) → s.depth < depth) :
    Composes dumps invocation @Action.Shows where
  pure a := (Action.Restores.pure a).shows fun _ _ _ _ h => absurd h Action.not_records_pure
  ofExcept r := (Action.Restores.ofExcept r).shows fun _ _ _ _ h =>
    absurd h Action.not_records_ofExcept
  stack := Action.Restores.stack.shows fun _ _ _ _ h => absurd h Action.not_records_stack
  set := .set
  assign := assign_shows
  bind hx hk := hx.bind hk
  value n hn := by
    intro s v left h
    have hv := yields_needValue.1 h
    obtain ⟨hdepth, hnames⟩ := hn hv
    rw [written_of_value hv] at hnames
    exact ⟨hdepth, fun name value hassigned => hnames (records_needValue.1 hassigned)⟩
  call r args := (hrestores r args).shows fun _ _ _ _ h => hdeeper h
  program name b _ := (inProgram_restores (execBlock_updates hrestores b)).shows fun _ _ _ _ h =>
    depth_lt_of_inProgram ((traces_composes htraces).execBlock b) h

end

end Evaluation

/-! ## What the assignments account for -/

/-- What a frame binds a name to, as it is shown. -/
def Frame.text? (f : Frame) (name : String) : Option String :=
  (f.members.get? name).map Value.text

namespace Action

variable {α β : Type} {name : String}

/-- Whenever the action succeeds in a frame, that frame binds the name to what the last assignment
to it at that depth shows, or to what it has bound it to before if there is none. -/
def Accounts (name : String) (x : Action α) : Prop :=
  ∀ ⦃f callers a left⦄, x.Yields ⟨f :: callers⟩ a left → ∃ g, left = ⟨g :: callers⟩ ∧
    g.text? name =
      (lastShown? name (callers.length + 1) (x ⟨f :: callers⟩).1.events).or (f.text? name)

/-- An action accounts for a name that it neither binds nor assigns. -/
theorem Accounts.of_shows {names : List String} {x : Action α} (hupdates : x.Updates names)
    (hshows : x.Shows names) (hname : name ∉ names) : x.Accounts name := by
  intro f callers a left h
  obtain ⟨g, rfl, hg⟩ := hupdates h
  have hnone := lastShown?_eq_none_iff.2 fun value hassigned => hname ((hshows h).2 hassigned)
  refine ⟨g, rfl, ?_⟩
  rw [show callers.length + 1 = CallStack.depth ⟨f :: callers⟩ from rfl, hnone, Option.none_or,
    Frame.text?, Frame.text?, hg.get?_eq name hname]

/-- An action that does nothing leaves nothing unaccounted. -/
theorem Accounts.pure (a : α) : (Pure.pure a : Action α).Accounts name := by
  rintro f callers _ left ⟨-, rfl⟩
  exact ⟨f, rfl, rfl⟩

/-- Actions in a row account for a name if each of them does. -/
theorem Accounts.bind {x : Action α} {k : α → Action β} (hx : x.Accounts name)
    (hk : ∀ a, (k a).Accounts name) : (x >>= k).Accounts name := by
  intro f callers b left h
  obtain ⟨a, mid, hxa, hkb⟩ := yields_bind.1 h
  obtain ⟨g, rfl, hg⟩ := hx hxa
  obtain ⟨g', rfl, hg'⟩ := hk a hkb
  have hrun := eq_of_ok hxa.1
  rw [hxa.2] at hrun
  exact ⟨g', rfl, by rw [bind_of_ok hrun, lastShown?_append, hg', hg, Option.or_assoc]⟩

end Action

namespace Evaluation

/-- An assignment binds what it shows. -/
theorem assign_accounts (name target : String) (v : Value) : (assign target v).Accounts name := by
  rintro f callers u left ⟨-, rfl⟩
  refine ⟨f.set target v, rfl, ?_⟩
  show ((f.members.insert target v).get? name).map Value.text =
    (lastShown? name _ [.assigned target v.text (callers.length + 1)]).or (f.text? name)
  rw [Bindings.get?_insert, lastShown?_singleton, Event.shown?]
  by_cases hname : name = target
  · simp [hname]
  · simp [hname, Ne.symm hname, Frame.text?]

section

variable {dumps : Bool} {invocation : Invocation} {name : String}

mutual

/-- A node accounts for every name but those of the routines it declares. -/
theorem exec_accounts (hupdates : Composes dumps invocation @Action.Updates)
    (hshows : Composes dumps invocation @Action.Shows) :
    ∀ n : Node, name ∉ n.declared → (exec dumps invocation n).Accounts name
  | .assign target value, _ => by
    -- The value binds nothing in the frame, so that the assignment alone has to be accounted for.
    have hvalue := Action.Accounts.of_shows (hupdates.value value (hupdates.exec value))
      (hshows.value value (hshows.exec value)) (List.not_mem_nil (a := name))
    rw [exec_assign]
    exact hvalue.bind fun v => (assign_accounts name target v).bind fun _ => .pure none
  | .compound children, h => by
    rw [exec]
    exact (execAll_accounts hupdates hshows children h).bind fun _ => .pure none
  | .block declarations body, h => by
    obtain ⟨hdeclarations, hbody⟩ := not_or.1 (mt List.mem_append.2 h)
    rw [exec]
    exact (execAll_accounts hupdates hshows declarations hdeclarations).bind fun _ =>
      (execAll_accounts hupdates hshows body hbody).bind fun _ => .pure none
  | .routine .., h => .of_shows (hupdates.exec _) (hshows.exec _) h
  | .number _, h | .boolean _, h | .var _, h | .unary .., h | .binary .., h | .noOp, h
  | .varDecl .., h | .typeSpec _, h | .param _, h | .call .., h | .program .., h =>
    .of_shows (hupdates.exec _) (hshows.exec _) h

/-- Nodes that are run one after the other account for the same names as each of them does. -/
theorem execAll_accounts (hupdates : Composes dumps invocation @Action.Updates)
    (hshows : Composes dumps invocation @Action.Shows) :
    ∀ ns : List Node, name ∉ Node.declaredAll ns → (execAll dumps invocation ns).Accounts name
  | [], _ => by
    rw [execAll]
    exact .pure ()
  | n :: rest, h => by
    obtain ⟨hn, hrest⟩ := not_or.1 (mt List.mem_append.2 h)
    rw [execAll]
    exact (exec_accounts hupdates hshows n hn).bind fun _ =>
      execAll_accounts hupdates hshows rest hrest

end

end

/-- The block of a program accounts for every name but those of the routines it declares. -/
theorem execBlock_accounts (settings : Settings) (b : Block) {name : String}
    (hname : name ∉ b.declared) :
    (execBlock settings.dumpBindings (call settings) b).Accounts name := by
  have hupdates : Composes settings.dumpBindings (call settings) @Action.Updates :=
    updates_composes (invoke_restores settings settings.maxCallDepth)
  have hshows := shows_composes (invoke_restores settings settings.maxCallDepth)
    (invoke_traces settings _) fun _ _ _ _ _ _ => depth_lt_of_invoke
  obtain ⟨hdeclarations, hbody⟩ := not_or.1 (mt List.mem_append.2 hname)
  exact (execAll_accounts hupdates hshows b.declarations hdeclarations).bind fun _ =>
    execAll_accounts hupdates hshows b.body hbody

/-- A program that has run to its end binds a name that it does not declare a routine under to what
the last assignment at depth 1 shows. -/
theorem text?_of_program {settings : Settings} {p : Program} {o : Outcome} {name : String}
    (h : (p.run settings).result = .ok o) (hname : name ∉ p.block.declared) :
    (o.bindings.get? name).map Value.text = lastShown? name 1 (p.run settings).events := by
  change (program settings p .empty).1.result = .ok o at h
  show _ = lastShown? name 1 (program settings p .empty).1.events
  rcases hblock : execBlock settings.dumpBindings (call settings) p.block ⟨[.root p.name]⟩ with
    ⟨⟨events, e | u⟩, left⟩
  · have hrun : program settings p .empty = _ := inProgram_of_error (s := .empty) hblock
    rw [hrun] at h
    cases h
  · obtain ⟨g, rfl, hg⟩ := execBlock_accounts settings p.block hname (Action.yields_of_eq hblock)
    have hrun : program settings p .empty = _ := inProgram_of_ok (s := .empty) hblock
    rw [hrun] at h ⊢
    cases h
    rw [hblock] at hg
    -- The beginning and the end of the program show nothing, and its frame was empty at first.
    show g.text? name = lastShown? name 1 ([.programStarted p.name] ++
      (events ++ [.programFinished p.name _]))
    rw [lastShown?_append, lastShown?_append, lastShown?_singleton, lastShown?_singleton]
    exact hg

end Evaluation

/-- The events of a program account for its outcome. When it has run to its end, a name that it does
not declare a routine under is bound exactly if an assignment to the name is recorded at depth 1;
and then the last of these shows the value it is bound to, whatever is recorded at other depths. -/
theorem bindings_accounted (settings : Settings) (p : Program) {o : Outcome} {name : String}
    (h : (p.run settings).result = .ok o) (hname : name ∉ p.block.declared) :
    (name ∈ o.bindings.names ↔
        ∃ value, .assigned name value 1 ∈ (p.run settings).events) ∧
      ∀ v, o.bindings.get? name = some v → ∃ before after,
        (p.run settings).events = before ++ .assigned name v.text 1 :: after ∧
          ∀ value, .assigned name value 1 ∉ after := by
  have htext := Evaluation.text?_of_program h hname
  constructor
  · rw [Bindings.mem_names_iff]
    cases hlast : lastShown? name 1 (p.run settings).events with
    | none =>
      have hnone := lastShown?_eq_none_iff.1 hlast
      rw [hlast, Option.map_eq_none_iff] at htext
      simp [htext, hnone]
    | some value =>
      obtain ⟨v, hv, -⟩ := Option.map_eq_some_iff.1 (htext.trans hlast)
      obtain ⟨before, after, hevents, -⟩ := lastShown?_eq_some_iff.1 hlast
      exact iff_of_true ⟨v, hv⟩ ⟨value, by simp [hevents]⟩
  · intro v hv
    rw [hv] at htext
    exact lastShown?_eq_some_iff.1 htext.symm

/-- A variable that is assigned twice, and in between another time in the frame of a call. -/
theorem bindings_accounted_call :
    let p : Program := ⟨"p",
      ⟨[.routine "one" .function [] none [] [.assign "x" (.number 7), .assign "one" (.number 1)]],
        [.assign "x" (.number 5), .assign "x" (.call "one" [])]⟩⟩
    ∃ o, (p.run {}).result = .ok o ∧ "x" ∉ p.block.declared ∧
      ("x" ∈ o.bindings.names ↔ ∃ value, .assigned "x" value 1 ∈ (p.run {}).events) ∧
      o.bindings.get? "x" = some (.integer 1) ∧
      (∃ before after, (p.run {}).events = before ++ .assigned "x" "1" 1 :: after ∧
        ∀ value, .assigned "x" value 1 ∉ after) ∧
      (p.run {}).events = [.programStarted "p", .assigned "x" "5" 1, .callEntered "one" 2,
        .assigned "x" "7" 2, .assigned "one" "1" 2, .callExited "one" 1, .assigned "x" "1" 1,
        .programFinished "p" none] := by
  intro p
  obtain ⟨o, ho, hx⟩ :
      ∃ o, (p.run {}).result = .ok o ∧ o.bindings.get? "x" = some (.integer 1) := by
    refine ⟨_, rfl, ?_⟩
    rfl
  have hname : "x" ∉ p.block.declared := by decide
  obtain ⟨hbound, hlast⟩ := bindings_accounted {} p ho hname
  exact ⟨o, ho, hname, hbound, hx, hlast (.integer 1) hx, rfl⟩

end SmallPascal

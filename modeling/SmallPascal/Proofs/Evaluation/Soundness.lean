import SmallPascal.Proofs.Evaluation.Operand
import SmallPascal.Proofs.Evaluation.Table
import SmallPascal.Proofs.Evaluation.Values
import SmallPascal.Proofs.Grammar.RoundTrip

/-!
# What trees that have been read never come to

The machine runs any tree, also one in which a statement stands where a value is needed, or a
program inside another one, or an assignment that is run where no frame is live. For each of these
it has an answer. `perform_read_sound`: trees that have been read from a text never come to that, so
that a type error is about a routine that is an operand, and an undefined variable is one that has
been read.

The grammar puts expressions where values are needed (`Node.Grammatical`), and what is left to do
keeps to that (`Moves.grammatical`), because tasks come from nodes and from the blocks of routines.
A routine may have come a long way, as a value through variables, arguments and results, but every
value on the stack has a well-formed block if it is a routine (`Moves.holds`). And a frame is live
for as long as anything is left to do, because the last thing to do is to take off that of the
program (`Sound.frames_ne_nil`).
-/

namespace SmallPascal

/-- A request for a tree that has been read from a text. -/
def Session.Request.IsRead : Session.Request → Prop
  | .program p => ∃ c, Program.ofSource c = .ok p
  | .expression n => ∃ c, Node.ofSource c = .ok n

/-! ## What is left to do of a well-formed tree -/

/-- Whether the parts of a node are what the grammar has there. -/
def Node.Grammatical : Node → Prop
  | .number _ | .boolean _ | .var _ | .noOp | .varDecl .. => True
  | .unary _ operand => operand.IsExpression
  | .binary _ left right => left.IsExpression ∧ right.IsExpression
  | .assign _ value => value.IsExpression
  | .compound children => ∀ c ∈ children, c.IsStatement
  | .call _ args => ∀ a ∈ args, a.IsExpression
  | .routine _ _ _ _ declarations body => Block.WellFormed ⟨declarations, body⟩
  | .typeSpec _ | .param _ | .block .. | .program .. => False

/-- The parts of an expression of the grammar are what the grammar has there. -/
theorem Node.IsExpression.grammatical {n : Node} (h : n.IsExpression) : n.Grammatical := by
  cases h with
  | number | boolean | var => trivial
  | unary _ hoperand => exact hoperand
  | binary _ hleft hright => exact ⟨hleft, hright⟩
  | call _ hargs => exact hargs

/-- The parts of a statement of the grammar are what the grammar has there. -/
theorem Node.IsStatement.grammatical {n : Node} (h : n.IsStatement) : n.Grammatical := by
  cases h with
  | noOp => trivial
  | assign _ hvalue => exact hvalue
  | call _ hargs => exact hargs
  | compound _ hchildren => exact hchildren

/-- Whether a value is no routine but one with a well-formed block. -/
def Value.WellFormed (v : Value) : Prop :=
  ∀ r, v.routine? = some r → r.block.WellFormed

/-- A value that is no routine has no block that could be ill-formed. -/
theorem Value.wellFormed_of_routine? {v : Value} (h : v.routine? = none) : v.WellFormed :=
  fun _ hr => nomatch h.symm.trans hr

/-- A routine with a well-formed block is a well-formed value. -/
theorem Value.wellFormed_routine {r : Routine} (h : r.block.WellFormed) :
    (Value.routine r).WellFormed := by
  rintro _ ⟨⟩
  exact h

/-- The number of live frames that are those of programs. -/
def CallStack.roots (s : CallStack) : Nat :=
  s.frames.countP (·.kind = .program)

namespace Machine

open Session (Answer)

/-- Whether a task has to do with grammatical nodes and well-formed values only, and does not start
a program. -/
def Task.Grammatical : Task → Prop
  | .visit n => n.Grammatical
  | .unary _ n | .right _ _ n | .assign _ n | .answer n => n.IsExpression
  | .left _ a b => a.IsExpression ∧ b.IsExpression
  | .arguments r values more =>
    r.block.WellFormed ∧ (∀ v ∈ values, v.WellFormed) ∧ ∀ a ∈ more, a.IsExpression
  | .argument r values arg more =>
    r.block.WellFormed ∧ (∀ v ∈ values, v.WellFormed) ∧ arg.IsExpression ∧
      ∀ a ∈ more, a.IsExpression
  | .leave _ | .finish _ | .nothing => True
  | .start _ => False

/-- What a grammatical task takes the value of is an expression. -/
theorem Task.Grammatical.isExpression {t : Task} {n : Node} (h : t.Grammatical)
    (ht : t.operand? = some n) : n.IsExpression := by
  cases t with
  | left => exact Option.some.inj ht ▸ h.1
  | argument => exact Option.some.inj ht ▸ h.2.2.1
  | unary | right | assign | answer => exact Option.some.inj ht ▸ h
  | _ => cases ht

/-- The statements of a well-formed block are grammatical, and so are its declarations. -/
theorem grammatical_blockTasks {b : Block} (h : b.WellFormed) :
    ∀ t ∈ blockTasks b, t.Grammatical := by
  refine List.forall_mem_append.2 ⟨List.forall_mem_map.2 fun n hn => ?_,
    List.forall_mem_append.2 ⟨List.forall_mem_map.2 fun n hn => (h.isStatement n hn).grammatical,
      List.forall_mem_singleton.2 trivial⟩⟩
  obtain ⟨_, _⟩ | ⟨r, rfl, hr⟩ := h.isVariable_or_routine n hn
  · trivial
  · exact hr

/-- Whether what has been given is no ill-formed value. -/
def GivenWellFormed (given : Option Answer) : Prop :=
  ∀ v, given = some (.value v) → v.WellFormed

section

variable {rules : Rules} {t : Task} {tasks rest : List Task} {given given' : Option Answer}
  {s left : CallStack}

/-- A grammatical task leaves grammatical tasks. -/
theorem Moves.grammatical (hcallee : rules.callee = Evaluation.callee)
    (h : Moves rules t given s tasks given' left) (ht : t.Grammatical)
    (hs : s.Holds Value.WellFormed) (hgiven : GivenWellFormed given) :
    ∀ u ∈ tasks, u.Grammatical := by
  cases h with
  | operand | source =>
    exact List.forall_mem_cons.2 ⟨Node.IsExpression.grammatical ht, List.forall_mem_singleton.2 ht⟩
  | leftOperand =>
    obtain ⟨ha, hb⟩ := ht
    exact List.forall_mem_cons.2 ⟨ha.grammatical, List.forall_mem_singleton.2 ⟨ha, hb⟩⟩
  | left =>
    obtain ⟨-, hb⟩ := ht
    exact List.forall_mem_cons.2 ⟨hb.grammatical, List.forall_mem_singleton.2 hb⟩
  | compound =>
    exact List.forall_mem_append.2 ⟨List.forall_mem_map.2 fun c hc => (ht c hc).grammatical,
      List.forall_mem_singleton.2 trivial⟩
  | call hcall =>
    have hr := hs.of_callee (hcallee ▸ hcall)
    exact List.forall_mem_singleton.2 ⟨hr _ rfl, nofun, ht⟩
  | argument =>
    obtain ⟨hr, hvalues, hmore⟩ := ht
    have harg := List.forall_mem_cons.1 hmore
    exact List.forall_mem_cons.2
      ⟨harg.1.grammatical, List.forall_mem_singleton.2 ⟨hr, hvalues, harg⟩⟩
  | value =>
    obtain ⟨hr, hvalues, -, hmore⟩ := ht
    have hvalues' := List.forall_mem_append.2 ⟨hvalues, List.forall_mem_singleton.2 (hgiven _ rfl)⟩
    exact List.forall_mem_singleton.2 ⟨hr, hvalues', hmore⟩
  | enter =>
    exact List.forall_mem_append.2
      ⟨grammatical_blockTasks ht.1, List.forall_mem_singleton.2 trivial⟩
  | block | program | start => exact ht.elim
  | _ => exact List.forall_mem_nil _

/-- A grammatical task binds well-formed values only. -/
theorem Moves.holds (h : Moves rules t given s tasks given' left) (ht : t.Grammatical)
    (hs : s.Holds Value.WellFormed) (hgiven : GivenWellFormed given) :
    left.Holds Value.WellFormed := by
  cases h with
  | routine hset => exact hs.set (Value.wellFormed_routine ht) hset
  | assign hset => exact hs.set (hgiven _ rfl) hset
  | enter => exact hs.push (holds_enteredFrame ht.2.1 _ _)
  | start => exact ht.elim
  | leave | finish => exact hs.pop
  | _ => exact hs

/-- A task gives no ill-formed value. -/
theorem Moves.givenWellFormed (h : Moves rules t given s tasks given' left)
    (hs : s.Holds Value.WellFormed) (hgiven : GivenWellFormed given) :
    GivenWellFormed given' := by
  cases h with
  | number | boolean =>
    rintro _ ⟨⟩
    exact Value.wellFormed_of_routine? rfl
  | var hread =>
    rintro _ ⟨⟩
    exact hs.of_read hread
  | unary happly =>
    rintro _ ⟨⟩
    exact Value.wellFormed_of_routine? (unaryApply_eq_ok happly)
  | right happly =>
    rintro _ ⟨⟩
    exact Value.wellFormed_of_routine? (binaryApply_eq_ok happly)
  | leave =>
    intro v hv
    obtain ⟨w, hw, hwv⟩ := Option.map_eq_some_iff.1 hv
    cases hwv
    exact hs.of_resultOf hw
  | answer => exact hgiven
  | _ => exact nofun

/-! ## The frame of the program -/

/-- Binding a name does not change how many programs run. -/
theorem roots_set {name : String} {v : Value} (h : s.set name v = .ok left) :
    left.roots = s.roots := by
  obtain ⟨_ | ⟨f, below⟩⟩ := s
  · cases h
  · obtain rfl := Except.ok.inj h
    rw [CallStack.roots, CallStack.roots, List.countP_cons, List.countP_cons]
    rfl

/-- The frame of a routine is not that of a program. -/
theorem roots_enteredFrame (s : CallStack) (r : Routine) (values : List Value) :
    (s.push (enteredFrame s r values)).roots = s.roots := by
  have hkind : (enteredFrame s r values).kind = .routine r.kind := by
    unfold enteredFrame CallStack.callFrame
    split <;> rfl
  rw [CallStack.roots, CallStack.push, List.countP_cons_of_neg (by simp [hkind])]
  rfl

/-- A task that starts no program puts no frame of one on top. -/
theorem Moves.roots_le (h : Moves rules t given s tasks given' left) (ht : t.Grammatical) :
    left.roots ≤ s.roots := by
  cases h with
  | routine hset | assign hset => exact Nat.le_of_eq (roots_set hset)
  | enter => exact Nat.le_of_eq (roots_enteredFrame _ _ _)
  | start => exact ht.elim
  | leave | finish => exact List.Sublist.countP_le (List.tail_sublist _)
  | _ => exact Nat.le_refl _

/-- What holds while a tree that has been read is run, with so many frames below those that are
taken off. -/
structure Sound (below : Nat) (agenda : List Task) (given : Option Answer) (s : CallStack) :
    Prop where
  grammatical : ∀ t ∈ agenda, t.Grammatical
  depth_eq : s.depth = closers agenda + below
  /-- The last thing to do is to take off a frame, if there is none below it. -/
  last : below = 0 → ∀ t ∈ agenda.getLast?, t.closes
  holds : s.Holds Value.WellFormed
  givenWellFormed : GivenWellFormed given
  roots_le : s.roots ≤ 1

/-- A task that takes off a frame leaves no tasks. -/
theorem Moves.eq_nil_of_closes (h : Moves rules t given s tasks given' left) (ht : t.closes) :
    tasks = [] := by
  cases h with
  | leave | finish => rfl
  | _ => cases ht

/-- As long as something is left to do, a frame is live. -/
theorem Sound.frames_ne_nil {below : Nat} (h : Sound below (t :: rest) given s) :
    s.frames ≠ [] := by
  intro hnil
  have hdepth : s.depth = 0 := congrArg List.length hnil
  have hlast : (t :: rest).getLast (List.cons_ne_nil t rest) ∈ (t :: rest).getLast? :=
    List.getLast?_eq_some_getLast _
  have hpos : 0 < closers (t :: rest) ∨ 0 < below := by
    by_cases hbelow : below = 0
    · exact .inl (List.countP_pos_iff.2 ⟨_, List.getLast_mem _, h.last hbelow _ hlast⟩)
    · exact .inr (Nat.pos_of_ne_zero hbelow)
  have := h.depth_eq
  omega

/-- Each task keeps to it. -/
theorem Sound.move {below : Nat} (hcallee : rules.callee = Evaluation.callee)
    (h : Sound below (t :: rest) given s) (hmove : Moves rules t given s tasks given' left) :
    Sound below (tasks ++ rest) given' left := by
  obtain ⟨ht, hrest⟩ := List.forall_mem_cons.1 h.grammatical
  have htasks := hmove.grammatical hcallee ht h.holds h.givenWellFormed
  refine ⟨List.forall_mem_append.2 ⟨htasks, hrest⟩, hmove.depth_eq_add below h.depth_eq,
    fun hbelow u hu => ?_, hmove.holds ht h.holds h.givenWellFormed,
    hmove.givenWellFormed h.holds h.givenWellFormed, Nat.le_trans (hmove.roots_le ht) h.roots_le⟩
  cases rest with
  | nil =>
    -- The task is the last one, so it takes off a frame and leaves nothing.
    obtain rfl := hmove.eq_nil_of_closes (h.last hbelow t rfl)
    cases hu
  | cons v more =>
    have hlast : (tasks ++ v :: more).getLast? = (t :: v :: more).getLast? := by
      rw [List.getLast?_append, List.getLast?_cons_cons, List.getLast?_cons, Option.some_or]
    exact h.last hbelow u (hlast ▸ hu)

end

/-! ## Requests -/

/-- A program that has been read is well-formed. -/
theorem wellFormed_of_isRead {p : Program} (h : Session.Request.IsRead (.program p)) :
    p.WellFormed := by
  obtain ⟨c, hc⟩ := h
  exact Grammar.program_wellFormed hc

/-- An expression that has been read is one of the grammar. -/
theorem isExpression_of_isRead {n : Node} (h : Session.Request.IsRead (.expression n)) :
    n.IsExpression := by
  obtain ⟨c, hc⟩ := h
  exact Grammar.expression_isExpression hc

/-- A well-formed program begins soundly: its own frame is the only one, and it is taken off at the
end. -/
theorem sound_program {p : Program} (hp : p.WellFormed) :
    Sound 0 (blockTasks p.block ++ [.finish p.name]) none ⟨[.root p.name]⟩ where
  grammatical := List.forall_mem_append.2
    ⟨grammatical_blockTasks hp.block, List.forall_mem_singleton.2 trivial⟩
  depth_eq := by simp [CallStack.depth, Task.closes]
  last _ t ht := by
    rw [List.getLast?_concat] at ht
    obtain rfl := Option.some.inj ht
    rfl
  holds := List.forall_mem_singleton.2 (Frame.holds_root _ _)
  givenWellFormed := nofun
  roots_le := Nat.le_refl 1

/-- An expression of the grammar begins soundly, above the frame that was made for it. -/
theorem sound_expression {n : Node} (hn : n.IsExpression) :
    Sound 1 [.visit n, .answer n] none (CallStack.empty.enterProgram Session.expressionFrame) where
  grammatical := List.forall_mem_cons.2 ⟨hn.grammatical, List.forall_mem_singleton.2 hn⟩
  depth_eq := rfl
  last := nofun
  holds := List.forall_mem_singleton.2 (Frame.holds_root _ _)
  givenWellFormed := nofun
  roots_le := Nat.le_refl 1

section

variable {rules : Rules} {q : Session.Request}

/-- A run of a tree that has been read is sound from the moment at which its program has been
started. -/
theorem start_or_sound (hcallee : rules.callee = Evaluation.callee) (hq : q.IsRead) (i : Nat)
    {g : Option Answer} (hg : (after rules i (.start q)).given = .ok g) :
    (i = 0 ∧ ∃ p, q = .program p) ∨
      ∃ below,
        Sound below (after rules i (.start q)).agenda g (after rules i (.start q)).stack := by
  cases q with
  | program p =>
    cases i with
    | zero => exact .inl ⟨rfl, p, rfl⟩
    | succ i =>
      right
      -- The first step puts the frame of the program there, and the invariant holds from then on.
      have hstarted : after rules 1 (.start (.program p)) =
          ⟨blockTasks p.block ++ [.finish p.name], .ok none, ⟨[.root p.name]⟩,
            [.programStarted p.name]⟩ := by
        show (⟨_ ++ [], _, _, _⟩ : State) = _
        rw [List.append_nil]
        rfl
      rw [after_add, hstarted] at hg ⊢
      refine ⟨0, running_induction (I := Sound 0) (fun g hg => ?_)
        (fun h hmove => h.move hcallee hmove) i g hg⟩
      obtain rfl := Except.ok.inj hg
      exact sound_program (wellFormed_of_isRead hq)
  | expression n =>
    right
    refine ⟨1, running_induction (I := Sound 1) (fun g hg => ?_)
      (fun h hmove => h.move hcallee hmove) i g hg⟩
    obtain rfl := Except.ok.inj hg
    exact sound_expression (isExpression_of_isRead hq)

end

section

variable {settings : Settings} {q : Session.Request} {s left : CallStack}

/-- Where a tree that has been read is run and something is left to do, the program is yet to be
started, or a frame is live and no program is started any more. -/
theorem start_or_live (hq : q.IsRead) {i : Nat} {t : Task} {rest : List Task}
    (hagenda : (after settings.rules i (.start q)).agenda = t :: rest) :
    (i = 0 ∧ ∃ p, q = .program p ∧ t = .start p) ∨
      (∀ p, t ≠ .start p) ∧ (after settings.rules i (.start q)).stack.frames ≠ [] := by
  obtain ⟨g, hg⟩ := exists_given_of_agenda (State.given_start q) i
    (hagenda ▸ List.cons_ne_nil t rest)
  obtain ⟨rfl, p, rfl⟩ | ⟨_, hsound⟩ := start_or_sound rfl hq i hg
  · obtain ⟨rfl, -⟩ := List.cons.inj hagenda
    exact .inl ⟨rfl, p, rfl, rfl⟩
  · rw [hagenda] at hsound
    refine .inr ⟨?_, hsound.frames_ne_nil⟩
    rintro p rfl
    exact hsound.grammatical _ (.head _)

/-- In a run of a tree that has been read, no more than one live frame is that of a program. -/
theorem roots_after_le (hq : q.IsRead) (i : Nat) :
    (after settings.rules i (.start q)).stack.roots ≤ 1 := by
  have hrunning (j : Nat) {g : Option Answer}
      (hg : (after settings.rules j (.start q)).given = .ok g) :
      (after settings.rules j (.start q)).stack.roots ≤ 1 := by
    obtain ⟨rfl, p, rfl⟩ | ⟨_, hsound⟩ := start_or_sound rfl hq j hg
    · exact Nat.zero_le 1
    · exact hsound.roots_le
  cases hgiven : (after settings.rules i (.start q)).given with
  | ok g => exact hrunning i hgiven
  | error e =>
    obtain ⟨j, -, _, _, g, -, hg, hfails⟩ := exists_failure (State.given_start q) hgiven
    rw [perform_fails_left hfails]
    exact hrunning j hg

/-- An expression that is no call gives a value if it gives anything. -/
theorem isSome_of_isExpression {dumps : Bool} {invocation : Invocation} {n : Node}
    {v : Option Value} (hn : n.IsExpression) (hcall : ∀ x args, n ≠ .call x args)
    (h : (Evaluation.exec dumps invocation n).Yields s v left) : v.isSome := by
  cases hn with
  | call => exact absurd rfl (hcall _ _)
  | number | boolean | var | unary | binary =>
    simp only [Evaluation.exec, Action.yields_bind, Action.yields_pure] at h
    grind

/-- A name can be bound as long as there is a frame. -/
theorem exists_set (h : s.frames ≠ []) (name : String) (v : Value) :
    ∃ left, s.set name v = .ok left := by
  obtain ⟨_ | ⟨f, below⟩⟩ := s
  · exact absurd rfl h
  · exact ⟨_, rfl⟩

/-- In a run of a tree that has been read, no statement stands where a value is needed. -/
theorem result_ne_statementOperand (hq : q.IsRead) :
    ((Session.new settings).perform q).1.result ≠ .error .statementOperand := by
  intro h
  obtain ⟨i, t, rest, g, hagenda, hg, -, n, ht, hnone, hcall⟩ := exists_cause h
  obtain ⟨rfl, p, rfl⟩ | ⟨_, hsound⟩ := start_or_sound rfl hq i hg
  · obtain ⟨rfl, -⟩ := List.cons.inj hagenda
    cases ht
  · obtain ⟨_, v, -, hv, rfl⟩ := exists_demand hagenda hg ht
    rw [hagenda] at hsound
    have hn : n.IsExpression := (hsound.grammatical t (.head _)).isExpression ht
    obtain ⟨w, rfl⟩ := Option.isSome_iff_exists.1 (isSome_of_isExpression hn hcall hv)
    cases hnone

end

end Machine

namespace Session

open Machine

/-- Trees that have been read never bring the machine to what other trees can. At every moment of
the run at most one live frame is that of a program; a program is started at the first moment or
never, and at every other moment at which something is left to do, a frame is live, so that names
can be bound. No statement is found where a value is needed. If the request fails because a routine
is an operand, an operator was about to be applied to a routine; and if because a variable is
undefined, the variable was about to be read, and bound in no frame in which names are looked
up. -/
theorem perform_read_sound (settings : Settings) {q : Request} (hq : q.IsRead) :
    let moment i := after settings.rules i (.start q)
    let run := ((new settings).perform q).1
    (∃ n, (moment n).run? = some run) ∧
    (∀ i, (moment i).stack.roots ≤ 1) ∧
    (∀ i t rest, (moment i).agenda = t :: rest →
      (i = 0 ∧ ∃ p, q = .program p ∧ t = .start p) ∨
        (∀ p, t ≠ .start p) ∧ ∀ name v, ∃ left, (moment i).stack.set name v = .ok left) ∧
    run.result ≠ .error .statementOperand ∧
    (∀ kind, run.result = .error (.routineOperand kind) →
      ∃ i t rest g r, (moment i).agenda = t :: rest ∧ (moment i).given = .ok g ∧
        (moment (i + 1)).given = .error (.routineOperand kind) ∧
          .routine r ∈ t.operands g ∧ r.kind = kind) ∧
    ∀ x, run.result = .error (.undefinedVariable x) →
      ∃ i rest, (moment i).agenda = .visit (.var x) :: rest ∧
        (moment (i + 1)).given = .error (.undefinedVariable x) ∧
          ∀ f ∈ (moment i).stack.chain, f.members.get? x = none := by
  intro moment run
  refine ⟨exists_run?_eq_perform settings q, roots_after_le hq, fun i t rest hagenda => ?_,
    result_ne_statementOperand hq, fun kind h => ?_, fun x h => ?_⟩
  · exact (start_or_live hq hagenda).imp_right fun h => ⟨h.1, exists_set h.2⟩
  · obtain ⟨i, t, rest, g, hagenda, hg, hfailed, r, hr, hkind⟩ := exists_cause h
    exact ⟨i, t, rest, g, r, hagenda, hg, hfailed, hr, hkind⟩
  · obtain ⟨i, t, rest, g, hagenda, -, hfailed, ⟨rfl, hget⟩ | ⟨htarget, hnil⟩⟩ := exists_cause h
    · exact ⟨i, rest, hagenda, hfailed, List.findSome?_eq_none_iff.1 hget⟩
    · obtain ⟨-, p, -, rfl⟩ | ⟨-, hne⟩ := start_or_live hq hagenda
      · cases htarget
      · exact absurd hnil hne

/-- A variable that is not bound is read in a program. -/
theorem perform_read_sound_undefined :
    let q : Request := .program ⟨"p", ⟨[], [.assign "x" (.var "y")]⟩⟩
    q.IsRead ∧ ((new {}).perform q).1.result = .error (.undefinedVariable "y") ∧
      ∃ i rest, (after (Settings.rules {}) i (.start q)).agenda = .visit (.var "y") :: rest := by
  have hblock : Block.WellFormed ⟨[] ++ [].map Routine.node, [.assign "x" (.var "y")]⟩ :=
    .mk nofun nofun nofun (.compound (List.cons_ne_nil _ _)
      (List.forall_mem_singleton.2 (.assign (by decide) (.var (by decide)))))
  have hread : Request.IsRead (.program ⟨"p", ⟨[], [.assign "x" (.var "y")]⟩⟩) :=
    ⟨_, Grammar.program_ofSource_text ⟨by decide, hblock⟩ .none⟩
  have hfails : ((new {}).perform (.program ⟨"p", ⟨[], [.assign "x" (.var "y")]⟩⟩)).1.result =
      .error (.undefinedVariable "y") := rfl
  obtain ⟨i, rest, hagenda, -⟩ := (perform_read_sound {} hread).2.2.2.2.2 "y" hfails
  exact ⟨hread, hfails, i, rest, hagenda⟩

end Session

end SmallPascal

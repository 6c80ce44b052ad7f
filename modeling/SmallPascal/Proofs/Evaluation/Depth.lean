import Mathlib.Data.List.Forall2
import SmallPascal.Proofs.Evaluation.Limit
import SmallPascal.Proofs.Evaluation.Values
import SmallPascal.Proofs.Grammar.WellFormed

/-!
# How many frames are live

`live_frames_bounded`: the limit of the settings bounds the live frames, but for those of nested
programs, which are put on top without a look at the limit. That is an invariant of runs
(`Orderly`): the frames are counted on the agenda, and each task there says what its nodes may still
put on top (`Task.Fits`), which needs a bound on the nesting of programs not only in the nodes that
are left, but also in every routine that is bound or handed on as a value.

The limit is found exceeded only where a routine is about to be entered, and there is only one way
to get there: a call has reached the routine, and one argument after the other has given its value.
That is a property of the run up to that moment, and is kept with each task that goes on with a call
(`Task.Pending`).
-/

namespace SmallPascal

/-! ## How deep programs are nested -/

namespace Node

mutual

/-- How many programs are nested inside one another in a node at most, the node included. -/
def nesting : Node → Nat
  | .unary _ operand => operand.nesting
  | .binary _ left right => max left.nesting right.nesting
  | .assign _ value => value.nesting
  | .compound children => nestingAll children
  | .block declarations body => max (nestingAll declarations) (nestingAll body)
  | .routine _ _ _ _ declarations body => max (nestingAll declarations) (nestingAll body)
  | .call _ args => nestingAll args
  | .program _ declarations body => max (nestingAll declarations) (nestingAll body) + 1
  | .number _ | .boolean _ | .var _ | .noOp | .varDecl .. | .typeSpec _ | .param _ => 0

/-- How many programs are nested inside one another in a list of nodes at most. -/
def nestingAll : List Node → Nat
  | [] => 0
  | n :: rest => max n.nesting (nestingAll rest)

end

end Node

/-- How many programs are nested inside one another in a block. -/
def Block.nesting (b : Block) : Nat :=
  max (Node.nestingAll b.declarations) (Node.nestingAll b.body)

/-- How many programs are nested inside one another in what a call of the value runs. -/
def Value.nesting : Value → Nat
  | .routine r => r.block.nesting
  | .integer _ | .boolean _ => 0

namespace Node

/-- A list of nodes nests programs as deep as each of its nodes. -/
theorem nesting_le_nestingAll {n : Node} {ns : List Node} (h : n ∈ ns) :
    n.nesting ≤ nestingAll ns := by
  induction h with
  | head => exact Nat.le_max_left _ _
  | tail _ _ ih => exact Nat.le_trans ih (Nat.le_max_right _ _)

/-- Nodes in which there is no program. -/
theorem nestingAll_eq_zero {ns : List Node} (h : ∀ n ∈ ns, n.nesting = 0) : nestingAll ns = 0 := by
  induction ns with
  | nil => rfl
  | cons n rest ih =>
    rw [nestingAll, h n (.head _), ih fun n hn => h n (.tail _ hn), Nat.max_self]

/-- No program stands in an expression of the grammar. -/
theorem IsExpression.nesting_eq_zero {e : Node} (h : e.IsExpression) : e.nesting = 0 := by
  induction h with
  | number | boolean | var => rfl
  | unary op _ ih => rw [nesting, ih]
  | binary op _ _ ihl ihr => rw [nesting, ihl, ihr, Nat.max_self]
  | call _ _ ih => rw [nesting, nestingAll_eq_zero ih]

/-- No program stands in a statement of the grammar. -/
theorem IsStatement.nesting_eq_zero {n : Node} (h : n.IsStatement) : n.nesting = 0 := by
  induction h with
  | noOp => rfl
  | assign _ hvalue => rw [nesting, hvalue.nesting_eq_zero]
  | call _ hargs =>
    rw [nesting, nestingAll_eq_zero fun a ha => (hargs a ha).nesting_eq_zero]
  | compound _ _ ih => rw [nesting, nestingAll_eq_zero ih]

end Node

/-- No program is nested in a block that a text can spell. -/
theorem Block.WellFormed.nesting_eq_zero {b : Block} (h : b.WellFormed) : b.nesting = 0 := by
  induction h with
  | @mk vars routines body hvars _ _ hbody ih =>
    have hdeclarations : Node.nestingAll (vars ++ routines.map Routine.node) = 0 := by
      refine Node.nestingAll_eq_zero fun n hn => ?_
      rcases List.mem_append.1 hn with hn | hn
      · obtain ⟨_, _⟩ := hvars n hn
        rfl
      · obtain ⟨r, hr, rfl⟩ := List.mem_map.1 hn
        exact ih r hr
    have hstatements : Node.nestingAll body = 0 := hbody.nesting_eq_zero
    rw [nesting, hdeclarations, hstatements, Nat.max_self]

/-- A value that is no routine runs nothing. -/
theorem Value.nesting_of_routine? {v : Value} (h : v.routine? = none) : v.nesting = 0 := by
  cases v <;> first | rfl | cases h

namespace Machine

open Session (Answer)

/-! ## The bounds on a stack -/

/-- Every frame of a routine is among the first `L` frames. -/
def RoutinesWithin (L : Nat) : List Frame → Prop
  | [] => True
  | f :: below => (f.kind ≠ .program → below.length + 1 ≤ L) ∧ RoutinesWithin L below

/-- No more than `m` frames are live, and those of routines are among the first `L`. -/
structure Bounded (L m : Nat) (s : CallStack) : Prop where
  depth_le : s.depth ≤ m
  routines : RoutinesWithin L s.frames

namespace Bounded

variable {L m : Nat} {s left : CallStack}

/-- Binding a name keeps to the bounds, as no frame is added. -/
theorem set {name : String} {v : Value} (h : Bounded L m s) (hset : s.set name v = .ok left) :
    Bounded L m left := by
  obtain ⟨_ | ⟨f, below⟩⟩ := s
  · cases hset
  · obtain rfl := Except.ok.inj hset
    exact ⟨h.depth_le, h.routines.1, h.routines.2⟩

/-- Taking off a frame keeps to the bounds. -/
theorem pop (h : Bounded L m s) : Bounded L m s.pop.2 := by
  obtain ⟨_ | ⟨f, below⟩⟩ := s
  · exact h
  · exact ⟨Nat.le_of_succ_le h.depth_le, h.routines.2⟩

/-- Putting a frame on top keeps to the bounds if there is room for it, and for a routine among the
first `L`. -/
theorem push {f : Frame} (h : Bounded L m s) (hm : s.depth + 1 ≤ m)
    (hL : f.kind ≠ .program → s.depth + 1 ≤ L) : Bounded L m (s.push f) :=
  ⟨hm, hL, h.routines⟩

end Bounded

/-! ## The bounds on an agenda -/

/-- A task keeps to the bounds if `live` frames are live behind it: `k` on the nesting of programs,
and `m` on the frames that are live while it is done. -/
def Task.Fits (k m live : Nat) : Task → Prop
  | .visit n | .left _ _ n => n.nesting ≤ k ∧ n.nesting + live ≤ m
  | .arguments r values more | .argument r values _ more =>
    r.block.nesting ≤ k ∧ (∀ v ∈ values, v.nesting ≤ k) ∧
      Node.nestingAll more ≤ k ∧ Node.nestingAll more + live ≤ m
  | .start p => p.block.nesting ≤ k ∧ p.block.nesting + 1 + live ≤ m
  | .unary .. | .right .. | .assign .. | .leave _ | .finish _ | .nothing | .answer _ => True

/-- Every task of the agenda keeps to the bounds. -/
def Fits (k m : Nat) : List Task → Prop :=
  Each fun t rest => t.Fits k m (closers rest)

@[simp] theorem fits_cons {k m : Nat} {t : Task} {rest : List Task} :
    Fits k m (t :: rest) ↔ t.Fits k m (closers rest) ∧ Fits k m rest := Iff.rfl

/-- The tasks of nodes keep to the bounds that the nesting of the nodes sets. -/
theorem fits_visits {k m : Nat} {ns : List Node} {rest : List Task}
    (hk : Node.nestingAll ns ≤ k) (hm : Node.nestingAll ns + closers rest ≤ m)
    (hrest : Fits k m rest) : Fits k m (ns.map .visit ++ rest) := by
  refine each_visits (fun n hn after hafter => ?_) hrest
  have hle := Node.nesting_le_nestingAll hn
  exact ⟨by omega, by omega⟩

/-- The tasks of a block keep to the bounds that the nesting of the block sets. -/
theorem fits_blockTasks {k m : Nat} {b : Block} {rest : List Task} (hk : b.nesting ≤ k)
    (hm : b.nesting + closers rest ≤ m) (hrest : Fits k m rest) :
    Fits k m (blockTasks b ++ rest) := by
  have hfits : ∀ n ∈ b.declarations ++ b.body, ∀ after, closers after = closers rest →
      (Task.visit n).Fits k m (closers after) := fun n hn after hafter => by
    have hle : n.nesting ≤ b.nesting := by
      rcases List.mem_append.1 hn with hn | hn
      · exact Nat.le_trans (Node.nesting_le_nestingAll hn) (Nat.le_max_left _ _)
      · exact Nat.le_trans (Node.nesting_le_nestingAll hn) (Nat.le_max_right _ _)
    exact ⟨by omega, by omega⟩
  exact each_blockTasks (fun n hn => hfits n (List.mem_append_left _ hn))
    (fun n hn => hfits n (List.mem_append_right _ hn)) trivial hrest

/-- A node, and the task that goes on with its value. -/
theorem fits_visit {k m : Nat} {n : Node} {t : Task} {rest : List Task} (hk : n.nesting ≤ k)
    (hm : n.nesting + closers rest ≤ m) (ht : t.closes = false) (hfits : Fits k m (t :: rest)) :
    Fits k m ([.visit n, t] ++ rest) := by
  refine ⟨⟨hk, ?_⟩, hfits⟩
  show n.nesting + closers (t :: rest) ≤ m
  rwa [closers_cons, ht]

/-! ## The bounds on a run -/

/-- A call is let pass only while fewer frames are live than the limit says. -/
theorem lt_of_check {rules : Rules} {L d : Nat} (hlimit : rules.limit = some L)
    (h : rules.check d = .ok ()) : d < L := by
  by_contra hge
  rw [check_eq_error_iff.2 ⟨L, hlimit, Nat.le_of_not_lt hge, rfl⟩] at h
  cases h

/-- The moments of a run that has not failed keep to the bounds. -/
structure Orderly (L k m : Nat) (agenda : List Task) (given : Option Answer) (s : CallStack) :
    Prop where
  bounded : Bounded L m s
  /-- Each live frame is taken off by a task of the agenda. -/
  depth_eq : s.depth = closers agenda
  fits : Fits k m agenda
  holds : s.Holds (·.nesting ≤ k)
  given_le : ∀ v, given = some (.value v) → v.nesting ≤ k

section

variable {rules : Rules} {k m L : Nat} {t : Task} {rest tasks : List Task}
  {given given' : Option Answer} {s left : CallStack}

namespace Orderly

variable {agenda : List Task}

/-- A task that leaves the stack alone. -/
theorem keep (h : Orderly L k m (t :: rest) given s) (hdepth : s.depth = closers agenda)
    (hfits : Fits k m agenda) (hgiven : ∀ v, given' = some (.value v) → v.nesting ≤ k) :
    Orderly L k m agenda given' s :=
  ⟨h.bounded, hdepth, hfits, h.holds, hgiven⟩

/-- A task that binds a name. -/
theorem set (h : Orderly L k m (t :: rest) given s) (hdepth : left.depth = closers rest)
    {name : String} {v : Value} (hset : s.set name v = .ok left) (hv : v.nesting ≤ k) :
    Orderly L k m rest none left :=
  ⟨h.bounded.set hset, hdepth, h.fits.2, h.holds.set hv hset, nofun⟩

/-- A task that puts a frame on top. -/
theorem push (h : Orderly L k m (t :: rest) given s) {f : Frame}
    (hdepth : (s.push f).depth = closers agenda) (hf : f.Holds (·.nesting ≤ k))
    (hm : s.depth + 1 ≤ m) (hL : f.kind ≠ .program → s.depth + 1 ≤ L) (hfits : Fits k m agenda) :
    Orderly L k m agenda none (s.push f) :=
  ⟨h.bounded.push hm hL, hdepth, hfits, h.holds.push hf, nofun⟩

/-- A task that takes a frame off. -/
theorem pop (h : Orderly L k m (t :: rest) given s) (hdepth : s.pop.2.depth = closers rest)
    (hgiven : ∀ v, given' = some (.value v) → v.nesting ≤ k) :
    Orderly L k m rest given' s.pop.2 :=
  ⟨h.bounded.pop, hdepth, h.fits.2, h.holds.pop, hgiven⟩

/-- Every task keeps to the bounds. -/
theorem move (hcallee : rules.callee = Evaluation.callee) (hlimit : rules.limit = some L)
    (hm : max 1 L + k ≤ m) (h : Orderly L k m (t :: rest) given s)
    (hmove : Moves rules t given s tasks given' left) :
    Orderly L k m (tasks ++ rest) given' left := by
  have hdepth := hmove.depth_eq h.depth_eq
  obtain ⟨hfits, hrest⟩ := h.fits
  cases hmove with
  | number | boolean =>
    refine h.keep hdepth hrest ?_
    rintro v ⟨⟩
    exact Nat.zero_le _
  | var hread =>
    refine h.keep hdepth hrest ?_
    rintro _ ⟨⟩
    exact h.holds.of_read hread
  | operand | source => exact h.keep hdepth (fits_visit hfits.1 hfits.2 rfl ⟨trivial, hrest⟩) nofun
  | leftOperand =>
    obtain ⟨hk, hm⟩ := hfits
    rw [Node.nesting] at hk hm
    exact h.keep hdepth
      (fits_visit (by omega) (by omega) rfl ⟨⟨by omega, by omega⟩, hrest⟩) nofun
  | compound =>
    refine h.keep hdepth ?_ nofun
    rw [List.append_assoc]
    exact fits_visits hfits.1 hfits.2 ⟨trivial, hrest⟩
  | block => exact h.keep hdepth (fits_blockTasks hfits.1 hfits.2 hrest) nofun
  | routine hset => exact h.set hdepth hset hfits.1
  | call hr =>
    rw [hcallee] at hr
    exact h.keep hdepth ⟨⟨h.holds.of_callee hr, nofun, hfits⟩, hrest⟩ nofun
  | program =>
    exact h.keep hdepth ⟨⟨Nat.le_of_succ_le hfits.1, hfits.2⟩, trivial, hrest⟩ nofun
  | noOp | varDecl | typeSpec | param | nothing => exact h.keep hdepth hrest nofun
  | unary happly =>
    refine h.keep hdepth hrest ?_
    rintro _ ⟨⟩
    exact Value.nesting_of_routine? (unaryApply_eq_ok happly) ▸ Nat.zero_le k
  | left => exact h.keep hdepth (fits_visit hfits.1 hfits.2 rfl ⟨trivial, hrest⟩) nofun
  | right happly =>
    refine h.keep hdepth hrest ?_
    rintro _ ⟨⟩
    exact Value.nesting_of_routine? (binaryApply_eq_ok happly) ▸ Nat.zero_le k
  | assign hset => exact h.set hdepth hset (h.given_le _ rfl)
  | argument =>
    obtain ⟨hr, hvalues, hk, hm⟩ := hfits
    rw [Node.nestingAll] at hk hm
    exact h.keep hdepth
      (fits_visit (by omega) (by omega) rfl ⟨⟨hr, hvalues, by omega, by omega⟩, hrest⟩) nofun
  | value =>
    obtain ⟨hr, hvalues, hk, hm⟩ := hfits
    have hvalues := List.forall_mem_append.2
      ⟨hvalues, List.forall_mem_singleton.2 (h.given_le _ rfl)⟩
    exact h.keep hdepth ⟨⟨hr, hvalues, hk, hm⟩, hrest⟩ nofun
  | enter hlength hcheck =>
    obtain ⟨hr, hvalues, -, -⟩ := hfits
    -- The frame is within the limit, and what is nested in the routine may still come on top.
    have hlive := lt_of_check hlimit hcheck
    have hbelow : s.depth = closers rest := h.depth_eq
    refine h.push hdepth (holds_enteredFrame hvalues s _) (by omega) (fun _ => hlive) ?_
    rw [List.append_assoc]
    refine fits_blockTasks hr ?_ ⟨trivial, hrest⟩
    rw [List.singleton_append, closers_leave]
    omega
  | leave =>
    refine h.pop hdepth fun v hv => ?_
    obtain ⟨_, hresult, ⟨⟩⟩ := Option.map_eq_some_iff.1 hv
    exact h.holds.of_resultOf hresult
  | start =>
    -- The limit is not asked for a program: its frame is one of those that the nesting counts.
    obtain ⟨hk, hm⟩ := hfits
    have hbelow : s.depth = closers rest := h.depth_eq
    refine h.push hdepth (Frame.holds_root _ _) (by omega) (absurd rfl) ?_
    rw [List.append_assoc]
    refine fits_blockTasks hk ?_ ⟨trivial, hrest⟩
    rw [List.singleton_append, closers_finish]
    omega
  | finish => exact h.pop hdepth nofun
  | answer => exact h.keep hdepth hrest h.given_le

end Orderly

end

/-! ## Calls that are refused -/

section

variable {rules : Rules} {σ : State} {r : Routine} {rest : List Task}

/-- A call is about to be made, and reaches a routine. -/
structure CallMade (rules : Rules) (σ : State) (name : String) (args : List Node) (r : Routine)
    (rest : List Task) : Prop where
  agenda_eq : σ.agenda = .visit (.call name args) :: rest
  running : ∃ g, σ.given = .ok g
  reached : rules.callee σ.stack name = .ok r

/-- An argument of a call has been run and has given its value. -/
structure ArgumentGiven (σ : State) (r : Routine) (arg : Node) (v : Value) (rest : List Task) :
    Prop where
  agenda_eq : ∃ values more, σ.agenda = .argument r values arg more :: rest
  given_eq : σ.given = .ok (some (.value v))

/-- At moment `i` of a run a call was made that reached a routine, and up to moment `n` its first
arguments have given these values; the other ones are left. -/
def Called (rules : Rules) (σ : State) (i n : Nat) (r : Routine) (values : List Value)
    (more : List Node) (rest : List Task) : Prop :=
  i < n ∧ ∃ name args, CallMade rules (after rules i σ) name (args ++ more) r rest ∧
    List.Forall₂ (fun arg v => ∃ j, i < j ∧ j < n ∧ ArgumentGiven (after rules j σ) r arg v rest)
      args values

section

variable {i n : Nat} {values : List Value} {more : List Node}

/-- A call whose arguments are being run is still that a moment later. -/
theorem Called.succ (h : Called rules σ i n r values more rest) :
    Called rules σ i (n + 1) r values more rest := by
  obtain ⟨hi, name, args, hmade, hvalues⟩ := h
  exact ⟨Nat.lt_succ_of_lt hi, name, args, hmade, hvalues.imp fun _ _ ⟨j, hij, hj, h⟩ =>
    ⟨j, hij, Nat.lt_succ_of_lt hj, h⟩⟩

/-- The first of the arguments that are left has given its value. -/
theorem Called.snoc {arg : Node} {v : Value} (h : Called rules σ i n r values (arg :: more) rest)
    (hgiven : ArgumentGiven (after rules n σ) r arg v rest) :
    Called rules σ i (n + 1) r (values ++ [v]) more rest := by
  obtain ⟨hi, name, args, hmade, hvalues⟩ := h
  refine ⟨Nat.lt_succ_of_lt hi, name, args ++ [arg], by rwa [List.append_assoc], ?_⟩
  exact List.rel_append
    (hvalues.imp fun _ _ ⟨j, hij, hj, h⟩ => ⟨j, hij, Nat.lt_succ_of_lt hj, h⟩)
    (.cons ⟨n, hi, n.lt_succ_self, hgiven⟩ .nil)

end

/-- A task that goes on with a call has that call behind it. -/
def Task.Pending (rules : Rules) (σ : State) (n : Nat) : Task → List Task → Prop
  | .arguments r values more, rest => ∃ i, Called rules σ i n r values more rest
  | .argument r values arg more, rest => ∃ i, Called rules σ i n r values (arg :: more) rest
  | _, _ => True

/-- A task that goes on with a call still does so a moment later. -/
theorem Task.Pending.succ {n : Nat} {t : Task} (h : t.Pending rules σ n rest) :
    t.Pending rules σ (n + 1) rest := by
  cases t with
  | arguments | argument =>
    obtain ⟨i, h⟩ := h
    exact ⟨i, h.succ⟩
  | _ => trivial

/-- Every task keeps the calls behind the tasks that go on with them. -/
theorem pending_move {n : Nat} {t : Task} {tasks : List Task} {given given' : Option Answer}
    {left : CallStack} (hagenda : (after rules n σ).agenda = t :: rest)
    (hgiven : (after rules n σ).given = .ok given)
    (hmove : Moves rules t given (after rules n σ).stack tasks given' left)
    (h : Each (Task.Pending rules σ n) (t :: rest)) :
    Each (Task.Pending rules σ (n + 1)) (tasks ++ rest) := by
  have hrest := h.2.imp fun t rest h => h.succ
  generalize hs : (after rules n σ).stack = s at hmove
  cases hmove with
  | call hcallee =>
    subst hs
    exact ⟨⟨n, n.lt_succ_self, _, [], ⟨hagenda, ⟨_, hgiven⟩, hcallee⟩, .nil⟩, hrest⟩
  | argument => exact ⟨trivial, h.1.succ, hrest⟩
  | value =>
    obtain ⟨i, hcalled⟩ := h.1
    exact ⟨⟨i, hcalled.snoc ⟨⟨_, _, hagenda⟩, hgiven⟩⟩, hrest⟩
  | compound =>
    rw [List.append_assoc]
    exact each_visits (fun _ _ _ _ => trivial) ⟨trivial, hrest⟩
  | block => exact each_blockTasks (fun _ _ _ _ => trivial) (fun _ _ _ _ => trivial) trivial hrest
  | enter | start =>
    rw [List.append_assoc]
    exact each_blockTasks (fun _ _ _ _ => trivial) (fun _ _ _ _ => trivial) trivial ⟨trivial, hrest⟩
  | operand | leftOperand | source | program | left => exact ⟨trivial, trivial, hrest⟩
  | _ => exact hrest

/-- Every task that goes on with a call has that call behind it, all through a run. -/
theorem pending_after (hstart : Each (Task.Pending rules σ 0) σ.agenda) :
    ∀ n, Each (Task.Pending rules σ n) (after rules n σ).agenda
  | 0 => hstart
  | n + 1 => by
    have ih := pending_after hstart n
    rw [after_succ]
    cases hgiven : (after rules n σ).given with
    | error e =>
      rw [step_of_error hgiven]
      trivial
    | ok g =>
      cases hagenda : (after rules n σ).agenda with
      | nil =>
        rw [step_of_agenda_nil hagenda, hagenda]
        trivial
      | cons t rest =>
        obtain ⟨tasks, given', hmove, hnext, -⟩ | ⟨_, -, hnext, -⟩ :=
          step_cases rules hagenda hgiven
        · rw [hnext]
          exact pending_move hagenda hgiven hmove (hagenda ▸ ih)
        · rw [hnext]
          trivial

end

/-! ## The run of a program -/

section

variable {settings : Settings} {p : Program}

/-- The beginning of a program keeps to its bounds. -/
theorem orderly_start (L : Nat) (p : Program) :
    Orderly L p.block.nesting (max 1 L + p.block.nesting) [.start p] none .empty where
  bounded := ⟨Nat.zero_le _, trivial⟩
  depth_eq := rfl
  fits := ⟨⟨Nat.le_refl _, by rw [closers_nil]; omega⟩, trivial⟩
  holds := nofun
  given_le := nofun

/-- A program keeps to its bounds as long as it has not failed. -/
theorem orderly_after (n : Nat) {g : Option Answer}
    (h : (after settings.rules n (.start (.program p))).given = .ok g) :
    Orderly settings.maxCallDepth p.block.nesting (max 1 settings.maxCallDepth + p.block.nesting)
      (after settings.rules n (.start (.program p))).agenda g
      (after settings.rules n (.start (.program p))).stack := by
  refine running_induction (fun g hg => ?_) (fun h hmove => h.move rfl rfl (Nat.le_refl _) hmove)
    n g h
  obtain rfl := Except.ok.inj hg
  exact orderly_start _ p

/-- And so do the frames that are live when it has failed. -/
theorem bounded_after (n : Nat) :
    Bounded settings.maxCallDepth (max 1 settings.maxCallDepth + p.block.nesting)
      (after settings.rules n (.start (.program p))).stack := by
  cases h : (after settings.rules n (.start (.program p))).given with
  | ok g => exact (orderly_after n h).bounded
  | error e =>
    obtain ⟨m, -, t, rest, g, -, hg, hfails⟩ := exists_failure (State.given_start _) h
    rw [perform_fails_left hfails]
    exact (orderly_after m hg).bounded

/-- No call is recorded at a depth above the limit. -/
theorem callEntered_le {σ : State} {rules : Rules} {L : Nat} (hlimit : rules.limit = some L)
    (hstart : ∀ name d, .callEntered name d ∈ σ.events → d ≤ L) (n : Nat) :
    ∀ name d, .callEntered name d ∈ (after rules n σ).events → d ≤ L := by
  refine after_induction (P := fun τ => ∀ name d, .callEntered name d ∈ τ.events → d ≤ L) hstart
    (fun τ ih name d h => ?_) n
  cases hgiven : τ.given with
  | error e =>
    rw [step_of_error hgiven] at h
    exact ih name d h
  | ok g =>
    cases hagenda : τ.agenda with
    | nil =>
      rw [step_of_agenda_nil hagenda] at h
      exact ih name d h
    | cons t rest =>
      rcases (mem_events_step hagenda hgiven).1 h with h | h
      · exact ih name d h
      · obtain ⟨_, _, -, -, hcheck, -, rfl⟩ := perform_callEntered h
        exact lt_of_check hlimit hcheck

/-- A program that exceeds the limit does so with a call that has reached a routine, whose arguments
have all been given, as many as there are parameters, and that was made at that depth. -/
theorem exists_refused_call {n l : Nat}
    (h : (after settings.rules n (.start (.program p))).given = .error (.callDepthExceeded l)) :
    ∃ i j r values rest, i < j ∧ j < n ∧
      Called settings.rules (.start (.program p)) i j r values [] rest ∧
      (after settings.rules j (.start (.program p))).agenda = .arguments r values [] :: rest ∧
      values.length = r.params.length ∧
      l ≤ (after settings.rules i (.start (.program p))).stack.depth := by
  obtain ⟨j, hj, t, rest, g, hagenda, hg, hfails⟩ := exists_failure (State.given_start _) h
  obtain ⟨r, values, rfl, hlength, -, hfull⟩ :=
    perform_exceeded (fun _ => callee_ne_exceeded) hfails
  have hstart : Each (Task.Pending settings.rules (.start (.program p)) 0) [.start p] :=
    ⟨trivial, trivial⟩
  have hpending := pending_after hstart j
  rw [hagenda] at hpending
  obtain ⟨⟨i, hij, _, _, hmade, hvalues⟩, -⟩ := hpending
  obtain ⟨g', hg'⟩ := hmade.running
  -- Both moments have the same tasks behind the call, so the same frames are live.
  have hdepth : (after settings.rules i (.start (.program p))).stack.depth = closers rest := by
    rw [(orderly_after i hg').depth_eq, hmade.agenda_eq]
    rfl
  have hdepth' : (after settings.rules j (.start (.program p))).stack.depth = closers rest := by
    rw [(orderly_after j hg).depth_eq, hagenda]
    rfl
  exact ⟨i, j, r, values, rest, hij, hj, ⟨hij, _, _, hmade, hvalues⟩, hagenda, hlength,
    hdepth.trans hdepth'.symm ▸ hfull⟩

/-- The live frames are bounded. At every moment of the run of a program there are at most as many
as the limit allows, or one, and one more for each program that is nested in the program and in
those around it; there is none of these in a program that has been read. The frames of routines are
among the first that the limit allows, and no call is recorded at a greater depth. That the limit is
exceeded is said of the limit of the settings and of no call but one that reached a routine, whose
arguments have all given their values, as many as there are parameters, and that was made where as
many frames were live. -/
theorem live_frames_bounded (settings : Settings) (p : Program) :
    let L := settings.maxCallDepth
    let σ (n : Nat) := after settings.rules n (.start (.program p))
    (∃ n, (σ n).run? = some ((Session.new settings).perform (.program p)).1) ∧
      (∀ n, (σ n).stack.depth ≤ max 1 L + p.block.nesting ∧ RoutinesWithin L (σ n).stack.frames ∧
        (∀ name d, .callEntered name d ∈ (σ n).events → d ≤ L) ∧
        ∀ l, (σ n).given = .error (.callDepthExceeded l) → l = L ∧
          ∃ i j r values rest, i < j ∧ j < n ∧
            Called settings.rules (σ 0) i j r values [] rest ∧
            (σ j).agenda = .arguments r values [] :: rest ∧ values.length = r.params.length ∧
            L ≤ (σ i).stack.depth) ∧
      ((∃ c, Program.ofSource c = .ok p) → p.block.nesting = 0) := by
  intro L σ
  refine ⟨exists_run?_eq_perform settings _, fun n => ⟨(bounded_after n).depth_le,
    (bounded_after n).routines, callEntered_le rfl (fun _ _ h => absurd h List.not_mem_nil) n,
    fun l h => ?_⟩, ?_⟩
  · obtain rfl := after_exceeded h
    exact ⟨rfl, exists_refused_call h⟩
  · rintro ⟨c, hc⟩
    exact (Grammar.program_wellFormed hc).block.nesting_eq_zero

/-- A program inside a program is the only frame above the limit, and makes a call there. -/
theorem live_frames_bounded_nested :
    let settings : Settings := ⟨1, false⟩
    let f : Routine := ⟨"f", .procedure, [], none, ⟨[], []⟩⟩
    let p : Program := ⟨"p", ⟨[], [.program "q" [f.node] [.call "f" []]]⟩⟩
    let σ (n : Nat) := after settings.rules n (.start (.program p))
    (σ 6).stack.depth = 2 ∧ (σ 6).stack.depth ≤ max 1 settings.maxCallDepth + p.block.nesting ∧
      (σ 6).given = .error (.callDepthExceeded 1) ∧
      ∃ i j r values rest, i < j ∧ j < 6 ∧ Called settings.rules (σ 0) i j r values [] rest ∧
        (σ j).agenda = .arguments r values [] :: rest ∧ values.length = r.params.length ∧
        1 ≤ (σ i).stack.depth := by
  intro settings f p σ
  have hdepth : (σ 6).stack.depth = 2 := by decide +kernel
  have hfails : (σ 6).given = .error (.callDepthExceeded 1) := by rfl
  obtain ⟨hle, -, -, hrefused⟩ := (live_frames_bounded settings p).2.1 6
  exact ⟨hdepth, hle, hfails, (hrefused 1 hfails).2⟩

end

end Machine

end SmallPascal

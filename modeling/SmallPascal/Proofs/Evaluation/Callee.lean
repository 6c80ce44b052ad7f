import SmallPascal.Proofs.Evaluation.Limit
import SmallPascal.Proofs.Evaluation.Table
import SmallPascal.Proofs.Evaluation.Values
import SmallPascal.Proofs.Grammar.RoundTrip

/-!
# What a call reaches

A call looks its routine up on the stack, so in general what it reaches depends on who calls.
`callee_eq_calleeIn`: in a program that declares its routines side by side and uses their names for
nothing else where a routine could be lost or handed on (`Program.HasTable`), a call reaches the
declaration of its name, whatever frames are live, and the run is that of an evaluator that looks
callees up in a table.

The invariant is about what frames can bind. Once all routines have been declared, the lowest frame
binds the routines of the table, and the frames above it bind none (`Tabled`), so that a search for
a routine passes them over. A routine could only get there as a value, and nothing that is left to
do reads one (`Task.Tame`).
-/

namespace SmallPascal

namespace Machine

open Session (Answer)

/-- The routine that a call by a name reaches if callees are looked up in a table, or why there is
none: the stack is only asked whether the name is visible. -/
def calleeIn (table : List Routine) (s : CallStack) (name : String) : Except RuntimeError Routine :=
  match lookup table name with
  | some r => .ok r
  | none =>
    match s.get? name with
    | some v => .error (.notCallable name v.type)
    | none => .error (.undefinedFunction name)

/-- The rules of an evaluator that looks callees up in a table. -/
def Rules.withTable (rules : Rules) (table : List Routine) : Rules :=
  { rules with callee := calleeIn table }

/-- A callee that is found in a table is the routine that the table has for its name. -/
theorem calleeIn_eq_ok {table : List Routine} {s : CallStack} {name : String} {r : Routine}
    (h : calleeIn table s name = .ok r) : lookup table name = some r := by
  unfold calleeIn at h
  split at h
  next hlookup => rw [hlookup, Except.ok.inj h]
  next => split at h <;> cases h

/-! ## Stacks on which callees are those of a table -/

section

variable {table : List Routine} {name : String}

/-- A frame binds the names of a table to its routines, and no other routines. -/
def Declares (table : List Routine) (f : Frame) : Prop :=
  ∀ name, match lookup table name with
    | some r => f.members.get? name = some (.routine r)
    | none => ∀ v, f.members.get? name = some v → v.routine? = none

namespace Declares

variable {f : Frame} {v : Value} {r : Routine}

/-- A name that is not in the table is bound to something other than a routine. -/
theorem set (h : Declares table f) (hname : lookup table name = none) (hv : v.routine? = none) :
    Declares table (f.set name v) := by
  intro other
  have hother := h other
  rw [Frame.set, Bindings.get?_insert]
  by_cases heq : other = name
  · subst heq
    rw [hname, if_pos rfl]
    rintro _ ⟨⟩
    exact hv
  · rwa [if_neg heq]

/-- A routine is declared behind those of the table. -/
theorem snoc (h : Declares table f) (hname : lookup table r.name = none) :
    Declares (table ++ [r]) (f.set r.name (.routine r)) := by
  intro other
  have hother := h other
  rw [Frame.set, Bindings.get?_insert, lookup, List.find?_append]
  by_cases heq : other = r.name
  · subst heq
    rw [lookup] at hname
    simp [hname]
  · have hlast : [r].find? (fun r => r.name == other) = none := by
      simp [Ne.symm heq]
    rw [if_neg heq, hlast, Option.or_none]
    exact hother

end Declares

/-- The lowest frame binds the routines of a table; the frames above it are called from it, and bind
none. -/
def Tabled (table : List Routine) : List Frame → Prop
  | [] => True
  | [root] => Declares table root
  | f :: g :: below =>
    f.parent.isSome ∧ f.Holds (·.routine? = none) ∧ Tabled table (g :: below)

namespace Tabled

variable {s left : CallStack} {v : Value}

/-- A routine of the table is reached from every frame. -/
theorem routine?_eq (h : Tabled table s.frames) (hne : s.frames ≠ []) :
    s.routine? name = lookup table name := by
  obtain ⟨frames⟩ := s
  rw [CallStack.routine?, CallStack.chain]
  show (CallStack.chainOf frames).findSome? _ = _
  induction frames with
  | nil => exact absurd rfl hne
  | cons f below ih =>
    cases below with
    | nil =>
      have hchain : CallStack.chainOf [f] = [f] := by simp [CallStack.chainOf]
      have hf := h name
      rw [hchain, List.findSome?_singleton]
      cases hlookup : lookup table name with
      | some r =>
        rw [hlookup] at hf
        rw [hf]
        rfl
      | none =>
        rw [hlookup] at hf
        exact Option.bind_eq_none_iff.2 hf
    | cons g below =>
      -- The frame of a call binds no routine, so the walk goes on to its caller.
      obtain ⟨hparent, hholds, hbelow⟩ := h
      rw [CallStack.chainOf, if_pos hparent, List.findSome?_cons_of_isNone]
      · exact ih hbelow (List.cons_ne_nil _ _)
      · rw [Option.isNone_iff_eq_none]
        exact Option.bind_eq_none_iff.2 (hholds name)

/-- What a name that is not in the table is bound to is no routine. -/
theorem routine?_of_mem {f : Frame} (h : Tabled table s.frames) (hf : f ∈ s.frames)
    (hname : lookup table name = none) (hget : f.members.get? name = some v) :
    v.routine? = none := by
  obtain ⟨frames⟩ := s
  induction frames with
  | nil => cases hf
  | cons f' below ih =>
    cases below with
    | nil =>
      obtain rfl := List.mem_singleton.1 hf
      have hdeclares := h name
      rw [hname] at hdeclares
      exact hdeclares v hget
    | cons g below =>
      obtain ⟨-, hholds, hbelow⟩ := h
      rcases List.mem_cons.1 hf with rfl | hf
      · exact hholds name v hget
      · exact ih hbelow hf

/-- A name that the table does not have is never read as a routine. -/
theorem routine?_of_read (h : Tabled table s.frames) (hname : lookup table name = none)
    (hread : Evaluation.read s name = .ok v) : v.routine? = none := by
  unfold Evaluation.read at hread
  split at hread
  next hget =>
    obtain rfl := Except.ok.inj hread
    obtain ⟨f, hf, hget⟩ := CallStack.exists_of_get? hget
    exact h.routine?_of_mem hf hname hget
  next => cases hread

/-- A call reaches the routine of the table. -/
theorem callee_eq (h : Tabled table s.frames) (hne : s.frames ≠ []) :
    Evaluation.callee s name = calleeIn table s name := by
  have hroutine : s.routine? name = lookup table name := h.routine?_eq hne
  unfold Evaluation.callee calleeIn
  exact hroutine ▸ rfl

/-- Taking off a frame leaves the table where it is, in the lowest frame. -/
theorem pop (h : Tabled table s.frames) : Tabled table s.pop.2.frames := by
  obtain ⟨_ | ⟨f, _ | ⟨g, below⟩⟩⟩ := s
  · exact h
  · trivial
  · exact h.2.2

/-- What the frame that is taken off gives is no routine, unless it is the lowest one. -/
theorem routine?_of_resultOf {r : Routine} (h : Tabled table s.frames) (hdepth : 1 < s.depth)
    (hresult : Evaluation.resultOf r s.frames.head? = some v) : v.routine? = none := by
  obtain ⟨_ | ⟨f, _ | ⟨g, below⟩⟩⟩ := s
  · cases hdepth
  · exact absurd hdepth (Nat.lt_irrefl 1)
  · have hf : CallStack.Holds (·.routine? = none) ⟨[f]⟩ := fun f' hf' =>
      List.mem_singleton.1 hf' ▸ h.2.1
    exact hf.of_resultOf hresult

/-- A name is bound to something other than a routine. In the lowest frame it is not one of the
table. -/
theorem set (h : Tabled table s.frames) (hv : v.routine? = none)
    (hname : s.depth = 1 → lookup table name = none) (hset : s.set name v = .ok left) :
    Tabled table left.frames := by
  obtain ⟨_ | ⟨f, _ | ⟨g, below⟩⟩⟩ := s
  · cases hset
  · obtain rfl := Except.ok.inj hset
    exact Declares.set h (hname rfl) hv
  · obtain rfl := Except.ok.inj hset
    obtain ⟨hparent, hholds, hbelow⟩ := h
    exact ⟨hparent, hholds.set hv name, hbelow⟩

/-- The frame of a call binds no routine. -/
theorem push (h : Tabled table s.frames) (hne : s.frames ≠ []) {values : List Value}
    (hvalues : ∀ v ∈ values, v.routine? = none) (r : Routine) :
    Tabled table (s.push (enteredFrame s r values)).frames := by
  obtain ⟨_ | ⟨f, below⟩⟩ := s
  · exact absurd rfl hne
  · exact ⟨rfl, holds_enteredFrame hvalues _ r, h⟩

end Tabled

/-! ## Tasks that leave the table alone -/

/-- No name of the table is read in a node. -/
def Unread (table : List Routine) (n : Node) : Prop :=
  ∀ name ∈ n.reads, lookup table name = none

/-- A task leaves the table alone if `live` frames are live behind it: no routine is declared, no
program begins, and no name of the table is read, or bound in the lowest frame. -/
def Task.Tame (table : List Routine) (live : Nat) : Task → Prop
  | .visit n => (n.IsExpression ∨ n.IsStatement ∨ n.IsVariable) ∧ Unread table n ∧ 0 < live ∧
    (live = 1 → ∀ name ∈ n.written, lookup table name = none)
  | .left _ _ n => n.IsExpression ∧ Unread table n ∧ 0 < live
  | .arguments r values more | .argument r values _ more =>
    r ∈ table ∧ (∀ v ∈ values, v.routine? = none) ∧
      (∀ a ∈ more, a.IsExpression ∧ Unread table a) ∧ 0 < live
  | .assign target _ => live = 1 → lookup table target = none
  | .leave _ => 0 < live
  | .start _ => False
  | .unary .. | .right .. | .finish _ | .nothing | .answer _ => True

/-- A routine that leaves the table alone. -/
structure TameRoutine (table : List Routine) (r : Routine) : Prop where
  areVariables : ∀ n ∈ r.block.declarations, n.IsVariable
  areStatements : ∀ n ∈ r.block.body, n.IsStatement
  unread : ∀ n ∈ r.block.declarations ++ r.block.body, Unread table n

/-- The moments of a run that has not failed and in which all routines have been declared. -/
structure Static (table : List Routine) (agenda : List Task) (given : Option Answer)
    (s : CallStack) : Prop where
  tabled : Tabled table s.frames
  depth_eq : s.depth = closers agenda
  tame : Each (fun t rest => t.Tame table (closers rest)) agenda
  plain : ∀ v, given = some (.value v) → v.routine? = none

/-- An expression that reads no name of the table leaves the table alone. -/
theorem tame_expression {n : Node} {live : Nat} (hn : n.IsExpression) (hunread : Unread table n)
    (hlive : 0 < live) : (Task.visit n).Tame table live := by
  refine ⟨.inl hn, hunread, hlive, fun _ name h => ?_⟩
  cases hn <;> cases h

/-- What is run in a routine is run above the lowest frame. -/
theorem TameRoutine.tame {r : Routine} {n : Node} {live : Nat} (h : TameRoutine table r)
    (hn : n ∈ r.block.declarations ++ r.block.body) (hlive : 1 < live) :
    (Task.visit n).Tame table live := by
  refine ⟨?_, h.unread n hn, Nat.lt_of_succ_lt hlive, fun hroot =>
    absurd hroot (Nat.ne_of_gt hlive)⟩
  rcases List.mem_append.1 hn with hn | hn
  · exact .inr (.inr (h.areVariables n hn))
  · exact .inr (.inl (h.areStatements n hn))

namespace Static

variable {rules : Rules} {t : Task} {rest tasks agenda : List Task} {given given' : Option Answer}
  {s left : CallStack}

/-- While frames are still to be taken off there are frames. -/
theorem frames_ne_nil (h : Static table (t :: rest) given s) (hlive : 0 < closers rest) :
    s.frames ≠ [] := by
  intro hnil
  have hdepth := h.depth_eq
  rw [CallStack.depth, hnil, closers_cons, List.length_nil] at hdepth
  omega

/-- Every task of a run leaves the table alone. -/
theorem move (htable : ∀ r ∈ table, TameRoutine table r)
    (hcallee : rules.callee = Evaluation.callee) (h : Static table (t :: rest) given s)
    (hmove : Moves rules t given s tasks given' left) :
    Static table (tasks ++ rest) given' left := by
  have hdepth := hmove.depth_eq h.depth_eq
  obtain ⟨htame, hrest⟩ := h.tame
  cases hmove with
  | number | boolean => exact ⟨h.tabled, hdepth, hrest, by rintro _ ⟨⟩; rfl⟩
  | var hread =>
    refine ⟨h.tabled, hdepth, hrest, ?_⟩
    rintro _ ⟨⟩
    exact h.tabled.routine?_of_read (htame.2.1 _ (.head _)) hread
  | operand =>
    obtain ⟨hkind | ⟨⟨⟩⟩ | ⟨⟨⟩⟩, hunread, hlive, -⟩ := htame
    cases hkind with
    | unary op ha =>
      exact ⟨h.tabled, hdepth, ⟨tame_expression ha hunread hlive, trivial, hrest⟩, nofun⟩
  | leftOperand =>
    obtain ⟨hkind | ⟨⟨⟩⟩ | ⟨⟨⟩⟩, hunread, hlive, -⟩ := htame
    cases hkind with
    | binary op ha hb =>
      have hleft := tame_expression ha (fun x hx => hunread x (List.mem_append_left _ hx)) hlive
      have hright : Unread table _ := fun x hx => hunread x (List.mem_append_right _ hx)
      exact ⟨h.tabled, hdepth, ⟨hleft, ⟨hb, hright, hlive⟩, hrest⟩, nofun⟩
  | source =>
    obtain ⟨⟨⟨⟩⟩ | hkind | ⟨⟨⟩⟩, hunread, hlive, hwritten⟩ := htame
    cases hkind with
    | assign _ hn =>
      have htarget : closers rest = 1 → lookup table _ = none := fun hroot =>
        hwritten hroot _ (List.mem_singleton_self _)
      exact ⟨h.tabled, hdepth, ⟨tame_expression hn hunread hlive, htarget, hrest⟩, nofun⟩
  | compound =>
    obtain ⟨⟨⟨⟩⟩ | hkind | ⟨⟨⟩⟩, hunread, hlive, hwritten⟩ := htame
    cases hkind with
    | compound _ hchildren =>
      refine ⟨h.tabled, hdepth, ?_, nofun⟩
      rw [List.append_assoc]
      refine each_visits (fun n hn after (hafter : _ = closers rest) => ?_) ⟨trivial, hrest⟩
      refine ⟨.inr (.inl (hchildren n hn)), fun x hx => hunread x ?_, hafter ▸ hlive,
        fun hroot x hx => hwritten (hafter ▸ hroot) x ?_⟩
      · exact Node.mem_readsAll.2 ⟨n, hn, hx⟩
      · exact Node.mem_writtenAll.2 ⟨n, hn, hx⟩
  | block | program | routine => obtain ⟨⟨⟨⟩⟩ | ⟨⟨⟩⟩ | ⟨⟨⟩⟩, -⟩ := htame
  | @call _ name r args _ hr =>
    obtain ⟨hkind, hunread, hlive, -⟩ := htame
    rw [hcallee, h.tabled.callee_eq (h.frames_ne_nil hlive)] at hr
    have hargs : ∀ a ∈ args, a.IsExpression := by
      obtain hkind | hkind | ⟨⟨⟩⟩ := hkind <;> cases hkind <;> assumption
    have hmore : ∀ a ∈ args, a.IsExpression ∧ Unread table a := fun a ha =>
      ⟨hargs a ha, fun x hx => hunread x (Node.mem_readsAll.2 ⟨a, ha, hx⟩)⟩
    exact ⟨h.tabled, hdepth, ⟨⟨(mem_of_lookup (calleeIn_eq_ok hr)).1, nofun, hmore, hlive⟩, hrest⟩,
      nofun⟩
  | noOp | varDecl | typeSpec | param | nothing => exact ⟨h.tabled, hdepth, hrest, nofun⟩
  | unary happly =>
    refine ⟨h.tabled, hdepth, hrest, ?_⟩
    rintro _ ⟨⟩
    exact unaryApply_eq_ok happly
  | left =>
    obtain ⟨hb, hunread, hlive⟩ := htame
    exact ⟨h.tabled, hdepth, ⟨tame_expression hb hunread hlive, trivial, hrest⟩, nofun⟩
  | right happly =>
    refine ⟨h.tabled, hdepth, hrest, ?_⟩
    rintro _ ⟨⟩
    exact binaryApply_eq_ok happly
  | assign hset =>
    refine ⟨h.tabled.set (h.plain _ rfl) (fun hroot => htame ?_) hset, hdepth, hrest, nofun⟩
    exact h.depth_eq.symm.trans hroot
  | argument =>
    obtain ⟨hr, hvalues, hmore, hlive⟩ := htame
    obtain ⟨⟨harg, hunread⟩, hmore⟩ := List.forall_mem_cons.1 hmore
    exact ⟨h.tabled, hdepth,
      ⟨tame_expression harg hunread hlive, ⟨hr, hvalues, hmore, hlive⟩, hrest⟩, nofun⟩
  | value =>
    obtain ⟨hr, hvalues, hmore, hlive⟩ := htame
    have hvalues := List.forall_mem_append.2 ⟨hvalues, List.forall_mem_singleton.2 (h.plain _ rfl)⟩
    exact ⟨h.tabled, hdepth, ⟨⟨hr, hvalues, hmore, hlive⟩, hrest⟩, nofun⟩
  | @enter r _ _ _ _ _ =>
    obtain ⟨hr, hvalues, -, hlive⟩ := htame
    refine ⟨h.tabled.push (h.frames_ne_nil hlive) hvalues _, hdepth, ?_, nofun⟩
    rw [List.append_assoc]
    -- The body runs in a frame of its own, above the lowest one.
    have habove : 1 < closers (.leave r :: rest) :=
      closers_leave r rest ▸ Nat.succ_lt_succ hlive
    exact each_blockTasks
      (fun n hn _ hafter => (htable r hr).tame (List.mem_append_left _ hn) (hafter ▸ habove))
      (fun n hn _ hafter => (htable r hr).tame (List.mem_append_right _ hn) (hafter ▸ habove))
      trivial ⟨hlive, hrest⟩
  | leave =>
    refine ⟨h.tabled.pop, hdepth, hrest, fun v hv => ?_⟩
    obtain ⟨_, hresult, ⟨⟩⟩ := Option.map_eq_some_iff.1 hv
    refine h.tabled.routine?_of_resultOf ?_ hresult
    rw [h.depth_eq, closers_leave]
    exact Nat.succ_lt_succ htame
  | start => exact htame.elim
  | finish => exact ⟨h.tabled.pop, hdepth, hrest, nofun⟩
  | answer => exact ⟨h.tabled, hdepth, hrest, h.plain⟩

end Static

end

/-! ## The declarations of a program -/

section

variable {p : Program} {rules : Rules}

/-- The routines of a program with a fixed table leave the table alone. -/
theorem tame_routines (hp : p.WellFormed) (h : p.HasTable) :
    ∀ r ∈ p.block.routines, TameRoutine p.block.routines r := by
  intro r hr
  have hblock := hp.block.of_mem_routines hr
  refine ⟨hblock.isVariable (h.flat r hr), hblock.isStatement, fun n hn name hname => ?_⟩
  have hread : name ∈ r.node.reads := Block.mem_reads.2 ⟨n, hn, hname⟩
  exact h.lookup_of_reads
    (Block.mem_reads.2 ⟨_, List.mem_append_left _ (mem_declarations hr), hread⟩)

/-- A node that declares a routine does nothing else. -/
theorem moves_node {r : Routine} {given given' : Option Answer} {s left : CallStack}
    {tasks : List Task} (h : Moves rules (.visit r.node) given s tasks given' left) :
    tasks = [] ∧ given' = none ∧ s.set r.name (.routine r) = .ok left := by
  generalize hn : Task.visit r.node = t at h
  cases h with
  | routine hset =>
    obtain rfl := Routine.node_injective (Task.visit.inj hn)
    exact ⟨rfl, rfl, hset⟩
  | _ => cases hn

/-- The tasks that are left when all routines have been declared. -/
def mainTasks (p : Program) : List Task :=
  p.block.body.map .visit ++ [.nothing, .finish p.name]

/-- The moments at which there are declarations left. -/
def Declaring (p : Program) (agenda : List Task) (s : CallStack) : Prop :=
  ∃ done n more f, p.block.declarations = done ++ n :: more ∧
    agenda = (n :: more).map .visit ++ mainTasks p ∧ s = ⟨[f]⟩ ∧
    Declares (done.filterMap Node.routine?) f

/-- Behind some declarations there are more left, or all routines have been declared. -/
theorem declaring_or_static (hp : p.WellFormed) (h : p.HasTable) {done more : List Node} {f : Frame}
    (hdone : p.block.declarations = done ++ more) (hf : Declares (done.filterMap Node.routine?) f) :
    Declaring p (more.map .visit ++ mainTasks p) ⟨[f]⟩ ∨
      Static p.block.routines (more.map .visit ++ mainTasks p) none ⟨[f]⟩ := by
  cases more with
  | cons n more => exact .inl ⟨done, n, more, f, hdone, rfl, rfl, hf⟩
  | nil =>
    rw [List.append_nil] at hdone
    refine .inr ⟨?_, ?_, ?_, nofun⟩
    · show Declares p.block.routines f
      rwa [Block.routines, hdone]
    · simp [mainTasks, CallStack.depth, Task.closes]
    · show Each _ (p.block.body.map .visit ++ _)
      refine each_visits (fun n hn after (hafter : closers after = 1) => ?_)
        ⟨trivial, trivial, trivial⟩
      refine ⟨.inr (.inl (hp.block.isStatement n hn)), fun x hx => h.lookup_of_reads ?_,
        hafter ▸ Nat.one_pos, fun _ x hx => h.lookup_of_written ?_⟩
      · exact Block.mem_reads.2 ⟨n, List.mem_append_right _ hn, hx⟩
      · exact Node.mem_writtenAll.2 ⟨n, hn, hx⟩

/-- While there are declarations left a task works on them, and behind the last one all routines
have been declared. -/
theorem Declaring.move (hp : p.WellFormed) (h : p.HasTable) {t : Task} {rest tasks : List Task}
    {given given' : Option Answer} {s left : CallStack} (hs : Declaring p (t :: rest) s)
    (hmove : Moves rules t given s tasks given' left) :
    Declaring p (tasks ++ rest) left ∨ Static p.block.routines (tasks ++ rest) given' left := by
  obtain ⟨done, n, more, f, hdone, hagenda, rfl, hf⟩ := hs
  obtain ⟨rfl, rfl⟩ := List.cons.inj hagenda
  have hnext : p.block.declarations = (done ++ [n]) ++ more := by
    rw [hdone, List.append_assoc, List.singleton_append]
  have hn : n ∈ p.block.declarations := hdone ▸ List.mem_append_right _ (.head _)
  obtain hvar | ⟨r, rfl, -⟩ := hp.block.isVariable_or_routine n hn
  · have hsame : (done ++ [n]).filterMap Node.routine? = done.filterMap Node.routine? := by
      rw [List.filterMap_append, List.filterMap_cons_none hvar.routine?_eq_none, List.filterMap_nil,
        List.append_nil]
    cases hvar
    cases hmove
    exact declaring_or_static hp h hnext (hsame ▸ hf)
  · obtain ⟨rfl, rfl, hset⟩ := moves_node hmove
    obtain rfl := Except.ok.inj hset
    refine declaring_or_static hp h hnext ?_
    rw [List.filterMap_append]
    exact hf.snoc (h.lookup_of_declarations hdone)

/-- At every moment behind the first one there are declarations left, or all routines have been
declared. -/
theorem declaring_or_static_after (hcallee : rules.callee = Evaluation.callee) (hp : p.WellFormed)
    (h : p.HasTable) (n : Nat) {g : Option Answer}
    (hg : (after rules (n + 1) (.start (.program p))).given = .ok g) :
    let σ := after rules (n + 1) (.start (.program p))
    Declaring p σ.agenda σ.stack ∨ Static p.block.routines σ.agenda g σ.stack := by
  rw [after_add] at hg ⊢
  refine running_induction
    (I := fun agenda g s => Declaring p agenda s ∨ Static p.block.routines agenda g s)
    (fun g hg => ?_) (fun hs hmove => ?_) n g hg
  · obtain rfl := Except.ok.inj hg
    have hroot : Declares [] (Frame.root p.name) := fun name v hv => nomatch hv
    have hagenda : (after rules 1 (.start (.program p))).agenda =
        p.block.declarations.map .visit ++ mainTasks p := by
      show (blockTasks p.block ++ [.finish p.name]) ++ [] = _
      simp [blockTasks, mainTasks]
    rw [hagenda]
    exact declaring_or_static hp h (List.nil_append _).symm hroot
  · obtain hs | hs := hs
    · exact hs.move hp h hmove
    · exact .inr (hs.move (tame_routines hp h) hcallee hmove)

/-- At every moment of the run of a program with a table, a call reaches what the table says. -/
theorem callee_after (hcallee : rules.callee = Evaluation.callee) (hp : p.WellFormed)
    (h : p.HasTable) (n : Nat) {name : String} {args : List Node} {rest : List Task}
    (hagenda : (after rules n (.start (.program p))).agenda = .visit (.call name args) :: rest) :
    Evaluation.callee (after rules n (.start (.program p))).stack name =
      calleeIn p.block.routines (after rules n (.start (.program p))).stack name := by
  cases n with
  | zero => cases hagenda
  | succ n =>
    obtain ⟨g, hg⟩ := exists_given_of_agenda (State.given_start _) (n + 1)
      (hagenda ▸ List.cons_ne_nil _ _)
    obtain ⟨done, m, _, _, hdone, hagenda', -⟩ | hstatic :=
      declaring_or_static_after hcallee hp h n hg
    · rw [hagenda] at hagenda'
      obtain ⟨hm, -⟩ := List.cons.inj hagenda'
      have hcall : m ∈ p.block.declarations := hdone ▸ List.mem_append_right _ (.head _)
      rw [← Task.visit.inj hm] at hcall
      obtain ⟨⟨⟩⟩ | ⟨_, ⟨⟩, -⟩ := hp.block.isVariable_or_routine _ hcall
    · rw [hagenda] at hstatic
      exact hstatic.tabled.callee_eq (hstatic.frames_ne_nil hstatic.tame.1.2.2.1)

/-! ## The run with a table -/

/-- A run is the same under rules by which its calls reach the same routines. -/
theorem after_congr {a b : Rules} (hlimit : b.limit = a.limit) (hdumps : b.dumps = a.dumps)
    {σ : State} (hcallee : ∀ n name args rest,
      (after a n σ).agenda = .visit (.call name args) :: rest →
        b.callee (after a n σ).stack name = a.callee (after a n σ).stack name) :
    ∀ n, after b n σ = after a n σ
  | 0 => rfl
  | n + 1 => by
    rw [after_succ, after_succ, after_congr hlimit hdumps hcallee n]
    refine step_congr fun t rest g hagenda _ => perform_congr hdumps (fun name args ht => ?_) ?_
    · exact hcallee n name args rest (ht ▸ hagenda)
    · exact fun _ _ _ _ => by rw [Rules.check, Rules.check, hlimit]

/-- In a program that has been read and has a table of routines, dynamic lookup is static. At every
moment of its run, whatever frames are live, a call reaches the routine of that name which the
program declares, and if there is none, it fails with whether the name is visible. So an evaluator
that looks callees up in the table goes through the same moments, and comes to the same answer. -/
theorem callee_eq_calleeIn (settings : Settings) {c : Cursor} {p : Program}
    (hread : Program.ofSource c = .ok p) (h : p.HasTable) :
    let table := p.block.routines
    let σ (n : Nat) := after settings.rules n (.start (.program p))
    let reference (n : Nat) := after (settings.rules.withTable table) n (.start (.program p))
    (∀ n name args rest, (σ n).agenda = .visit (.call name args) :: rest →
        Evaluation.callee (σ n).stack name = calleeIn table (σ n).stack name) ∧
      (∀ n, reference n = σ n) ∧
      ∃ n, (reference n).run? = some ((Session.new settings).perform (.program p)).1 := by
  intro table σ reference
  have hp := Grammar.program_wellFormed hread
  have hcallee : ∀ n name args rest, (σ n).agenda = .visit (.call name args) :: rest →
      Evaluation.callee (σ n).stack name = calleeIn table (σ n).stack name :=
    fun n _ _ _ hagenda => callee_after rfl hp h n hagenda
  have hsame : ∀ n, reference n = σ n :=
    after_congr (a := settings.rules) (b := settings.rules.withTable table) rfl rfl
      fun n name args rest hagenda => (hcallee n name args rest hagenda).symm
  obtain ⟨n, hn⟩ := exists_run?_eq_perform settings (.program p)
  exact ⟨hcallee, hsame, n, (congrArg State.run? (hsame n)).trans hn⟩

/-- A procedure whose parameter has the name of a function, and which calls the function. -/
theorem callee_eq_calleeIn_parameter :
    let f : Routine := ⟨"f", .function, [], some .integer, ⟨[], [.assign "f" (.number 1)]⟩⟩
    let g : Routine :=
      ⟨"g", .procedure, [⟨"f", .integer⟩], none, ⟨[], [.assign "x" (.call "f" [])]⟩⟩
    let p : Program := ⟨"p", ⟨[f.node, g.node], [.call "g" [.number 2]]⟩⟩
    ∃ c, Program.ofSource c = .ok p ∧ p.HasTable ∧ ∃ n,
      (after (Rules.withTable (Settings.rules {}) [f, g]) n (.start (.program p))).run? =
        some ((Session.new {}).perform (.program p)).1 := by
  intro f g p
  have hboth {P : Routine → Prop} (hPf : P f) (hPg : P g) : ∀ r ∈ [f, g], P r :=
    List.forall_mem_cons.2 ⟨hPf, List.forall_mem_singleton.2 hPg⟩
  have hf : IsName "f" := by decide
  have hg : IsName "g" := by decide
  have h1 : Node.IsExpression (.number 1) := .number (by decide)
  have h2 : Node.IsExpression (.number 2) := .number (by decide)
  have hfunction : Block.WellFormed ⟨[] ++ [].map Routine.node, [.assign "f" (.number 1)]⟩ :=
    .mk nofun nofun nofun
      (.compound (List.cons_ne_nil _ _) (List.forall_mem_singleton.2 (.assign hf h1)))
  have hprocedure : Block.WellFormed ⟨[] ++ [].map Routine.node, [.assign "x" (.call "f" [])]⟩ :=
    .mk nofun nofun nofun (.compound (List.cons_ne_nil _ _)
      (List.forall_mem_singleton.2 (.assign (by decide) (.call hf nofun))))
  have hmain : Node.IsStatement (.compound [.call "g" [.number 2]]) :=
    .compound (List.cons_ne_nil _ _)
      (List.forall_mem_singleton.2 (.call hg (List.forall_mem_singleton.2 h2)))
  have hblock : Block.WellFormed ⟨[] ++ [f, g].map Routine.node, [.call "g" [.number 2]]⟩ :=
    .mk nofun (hboth ⟨hf, nofun, nofun⟩ ⟨hg, List.forall_mem_singleton.2 hf, fun _ => rfl⟩)
      (hboth hfunction hprocedure) hmain
  have hread := Grammar.program_ofSource_text (p := p) ⟨by decide, hblock⟩ .none
  have htable : p.HasTable :=
    { flat := hboth rfl rfl
      distinct := by decide
      unassigned := hboth (by decide) (by decide)
      unread := hboth (by decide) (by decide) }
  exact ⟨_, hread, htable, (callee_eq_calleeIn {} hread htable).2.2⟩

end

end Machine

end SmallPascal

import Mathlib.Data.List.Forall2
import SmallPascal.CallStack

/-!
# Looking things up on a call stack

A frame names its caller by the caller's index from the bottom of the stack, and lookups follow
these indices. `lookups_agree` says what there is to know about a stack on which frames have been
put and taken off in any order: a frame names the one below it, but for frames of programs and the
oldest frame, which name none. So the walk along the indices goes down frame by frame and ends at
the first one that names none, and everything that can be asked of the stack is about the frames of
this walk: the value of a name, the routine of a name, all that is visible and the dump.

Which operation has put a frame on the stack cannot be told from the frame, because a call may be
entered with any kind of frame. The history tells it (`origins`), and `Stacked` relates the frames
to it.
-/

namespace SmallPascal

/-! ## Looking names up in two maps -/

namespace Bindings

/-- Binding the entries of a map gives each of its names the value it has there, and leaves the
other names alone. -/
theorem get?_insertAll {entries : List (String × Value)}
    (h : entries.Pairwise fun a b => a.1 < b.1) (b : Bindings) (name : String) :
    (b.insertAll entries).get? name = (entries.lookup name).or (b.get? name) := by
  induction entries generalizing b with
  | nil => rfl
  | cons e rest ih =>
    obtain ⟨hfirst, hrest⟩ := List.pairwise_cons.1 h
    rw [insertAll, List.foldl_cons, ← insertAll, ih hrest, get?_insert]
    by_cases hname : name = e.1
    · have hnone : rest.lookup name = none := List.lookup_eq_none_iff.2 fun e' he' => by
        have hlt := hfirst e' he'
        simpa using fun heq : name = e'.1 => String.lt_irrefl _ (heq ▸ hname ▸ hlt)
      rw [hnone, if_pos hname, List.lookup_cons, beq_iff_eq.2 hname]
      rfl
    · rw [if_neg hname, List.lookup_cons, beq_eq_false_iff_ne.2 hname]

/-- Of two maps put together the first decides, and the second only where the first binds
nothing. -/
theorem get?_orElse (b c : Bindings) (name : String) :
    (b.orElse c).get? name = (b.get? name).or (c.get? name) :=
  get?_insertAll b.sorted c name

end Bindings

namespace CallStack

/-! ## Histories of a stack -/

/-- What can be done to a stack. -/
inductive Operation where
  | enterProgram (name : String)
  | enterCall (name : String) (kind : FrameKind)
  | pop
  | set (name : String) (v : Value)
  | clear

/-- The stack behind an operation. Binding a name fails where there is no frame, and changes
nothing. -/
def perform (s : CallStack) : Operation → CallStack
  | .enterProgram name => s.enterProgram name
  | .enterCall name kind => s.enterCall name kind
  | .pop => s.pop.2
  | .set name v => (s.set name v).toOption.getD s
  | .clear => .empty

/-- The stack behind operations that are done one after the other. -/
def performAll (s : CallStack) (ops : List Operation) : CallStack :=
  ops.foldl perform s

/-- What a frame was put on a stack for. -/
inductive Origin where
  | program
  | call
deriving DecidableEq

/-- The origins of the live frames behind an operation, the newest first. -/
def Operation.origins (os : List Origin) : Operation → List Origin
  | .enterProgram _ => .program :: os
  | .enterCall .. => .call :: os
  | .pop => os.tail
  | .set .. => os
  | .clear => []

/-- The origins of the frames that are live behind operations on the stack without frames, the
newest first. -/
def origins (ops : List Operation) : List Origin :=
  ops.foldl Operation.origins []

/-! ## Which frames name a caller -/

/-- The index of the newest of so many frames. -/
def newestOf : Nat → Option Nat
  | 0 => none
  | n + 1 => some n

/-- The caller that a frame names if there are so many frames below it. -/
def Origin.parent : Origin → Nat → Option Nat
  | program, _ => none
  | call, below => newestOf below

/-- Frames that were put on top of each other, with their origins: all are of the same level, and
each names the caller that its origin tells. -/
inductive Stacked : List Origin → List Frame → Prop
  | nil : Stacked [] []
  | cons {o : Origin} {os : List Origin} {f : Frame} {below : List Frame} (hlevel : f.level = 1)
    (hparent : f.parent = o.parent below.length) (hbelow : Stacked os below) :
    Stacked (o :: os) (f :: below)

namespace Stacked

variable {os : List Origin} {frames : List Frame} {s : CallStack}

/-- Every frame has its origin. -/
theorem length_eq (h : Stacked os frames) : os.length = frames.length := by
  induction h with
  | nil => rfl
  | cons _ _ _ ih => rw [List.length_cons, List.length_cons, ih]

/-- Without the newest frame the others are still stacked. -/
theorem tail (h : Stacked os frames) : Stacked os.tail frames.tail := by
  cases h with
  | nil => exact .nil
  | cons _ _ hbelow => exact hbelow

/-- A call takes over the level of its caller. -/
theorem enterCall (h : Stacked os s.frames) (name : String) (kind : FrameKind) :
    Stacked (.call :: os) (s.enterCall name kind).frames := by
  obtain ⟨frames⟩ := s
  cases h with
  | nil => exact .cons rfl rfl .nil
  | cons hlevel hparent hbelow => exact .cons hlevel rfl (.cons hlevel hparent hbelow)

/-- An operation keeps the frames stacked. -/
theorem perform (h : Stacked os s.frames) (op : Operation) :
    Stacked (op.origins os) (s.perform op).frames := by
  cases op with
  | enterProgram name => exact .cons rfl rfl h
  | enterCall name kind => exact h.enterCall name kind
  | pop => exact h.tail
  | set name v =>
    obtain ⟨frames⟩ := s
    cases h with
    | nil => exact .nil
    | cons hlevel hparent hbelow => exact .cons hlevel hparent hbelow
  | clear => exact .nil

/-- Any operations keep the frames stacked. -/
theorem foldl_perform (h : Stacked os s.frames) (ops : List Operation) :
    Stacked (ops.foldl Operation.origins os) (s.performAll ops).frames := by
  induction ops generalizing os s with
  | nil => exact h
  | cons op rest ih => exact ih (h.perform op)

end Stacked

/-- The frames behind any operations are stacked. -/
theorem stacked_performAll (ops : List Operation) :
    Stacked (origins ops) (CallStack.empty.performAll ops).frames :=
  Stacked.nil.foldl_perform ops

/-! ## The walk along the indices -/

/-- The frame with an index, counted from the bottom of the stack. -/
def frame? (s : CallStack) (i : Nat) : Option Frame :=
  s.frames.reverse[i]?

/-- A frame is found under the number of frames below it. -/
theorem frame?_of_append {s : CallStack} {above below : List Frame} {f : Frame}
    (h : s.frames = above ++ f :: below) : s.frame? below.length = some f := by
  have hreverse : s.frames.reverse = below.reverse ++ f :: above.reverse := by simp [h]
  rw [frame?, hreverse, ← List.length_reverse, List.getElem?_append_right (Nat.le_refl _),
    Nat.sub_self, List.getElem?_cons_zero]

/-- The frames that are passed from an index on, where each frame names the next one by its
index. -/
inductive Walk (s : CallStack) : Option Nat → List Frame → Prop
  | stop : Walk s none []
  | step {i : Nat} {f : Frame} {rest : List Frame} (hframe : s.frame? i = some f)
    (hrest : Walk s f.parent rest) : Walk s (some i) (f :: rest)

/-- There is no more than one walk from an index. -/
theorem Walk.unique {s : CallStack} {i : Option Nat} {fs gs : List Frame} (hfs : s.Walk i fs)
    (hgs : s.Walk i gs) : fs = gs := by
  induction hfs generalizing gs with
  | stop =>
    cases hgs
    rfl
  | step hframe _ ih =>
    cases hgs with
    | step hframe' hrest' =>
      obtain rfl := Option.some.inj (hframe.symm.trans hframe')
      rw [ih hrest']

/-- The walk from the newest of the frames that are left goes through those in which names are
looked up. -/
theorem Stacked.walk {s : CallStack} {os : List Origin} {frames above : List Frame}
    (h : Stacked os frames) (hs : s.frames = above ++ frames) :
    s.Walk (newestOf frames.length) (chainOf frames) := by
  induction h generalizing above with
  | nil => exact .stop
  | @cons o os f below hlevel hparent hbelow ih =>
    have hrest : s.Walk (newestOf below.length) (chainOf below) :=
      @ih (above ++ [f]) (by rw [hs, List.append_assoc, List.singleton_append])
    refine .step (frame?_of_append hs) ?_
    cases o with
    | program =>
      rw [hparent]
      exact .stop
    | call =>
      -- Below the oldest frame there is nothing to look names up in, even if it names a caller.
      cases below with
      | nil =>
        rw [hparent]
        exact .stop
      | cons g below =>
        rw [if_pos (by rw [hparent]; rfl), hparent]
        exact hrest

/-- Names are looked up in the frames that name a caller and in the first one that names none. -/
theorem chainOf_eq (frames : List Frame) :
    chainOf frames = frames.takeWhile (fun f => f.parent.isSome) ++
      (frames.find? fun f => f.parent.isNone).toList := by
  induction frames with
  | nil => rfl
  | cons f below ih =>
    cases hparent : f.parent with
    | none => simp [chainOf, hparent]
    | some i => simp [chainOf, hparent, ih]

/-- What a frame is, by its index and by what it was put there for. -/
theorem Stacked.of_index {os : List Origin} {frames : List Frame} (h : Stacked os frames) {i : Nat}
    {f : Frame} (hf : frames.reverse[i]? = some f) :
    f.level = 1 ∧ ∃ o, os.reverse[i]? = some o ∧ f.parent = o.parent i := by
  induction h with
  | nil => cases hf
  | @cons o os g below hlevel hparent hbelow ih =>
    have hlength : os.reverse.length = below.reverse.length := by simpa using hbelow.length_eq
    rw [List.reverse_cons] at hf ⊢
    rcases Nat.lt_trichotomy i below.reverse.length with hlt | rfl | hgt
    · rw [List.getElem?_append_left hlt] at hf
      rw [List.getElem?_append_left (hlength ▸ hlt)]
      exact ih hf
    · rw [List.getElem?_concat_length] at hf
      obtain rfl := Option.some.inj hf
      rw [← hlength, List.getElem?_concat_length, hlength, List.length_reverse]
      exact ⟨hlevel, o, rfl, hparent⟩
    · rw [List.getElem?_eq_none (by rw [List.length_append]; exact hgt)] at hf
      cases hf

/-! ## What is found in the frames of the walk -/

variable {s : CallStack} {name : String}

/-- The value of a name is that in the first frame that binds it. -/
theorem get?_eq_some_iff {v : Value} :
    s.get? name = some v ↔ ∃ newer f older, s.chain = newer ++ f :: older ∧
      f.members.get? name = some v ∧ ∀ g ∈ newer, g.members.get? name = none :=
  List.findSome?_eq_some_iff

/-- A value is taken for a routine if it is one. -/
theorem bind_routine?_eq_some_iff {v : Option Value} {r : Routine} :
    v.bind Value.routine? = some r ↔ v = some (.routine r) := by
  rcases v with _ | _ | _ | r' <;> simp [Value.routine?]

/-- Nothing is taken for a routine where no routine is bound. -/
theorem bind_routine?_eq_none_iff {v : Option Value} :
    v.bind Value.routine? = none ↔ ∀ r, v ≠ some (.routine r) := by
  rw [Option.eq_none_iff_forall_ne_some]
  exact forall_congr' fun r => not_congr bind_routine?_eq_some_iff

/-- The routine of a name is that in the first frame that binds the name to a routine. -/
theorem routine?_eq_some_iff {r : Routine} :
    s.routine? name = some r ↔ ∃ newer f older, s.chain = newer ++ f :: older ∧
      f.members.get? name = some (.routine r) ∧
        ∀ g ∈ newer, ∀ r', g.members.get? name ≠ some (.routine r') := by
  rw [routine?, List.findSome?_eq_some_iff]
  simp only [bind_routine?_eq_some_iff, bind_routine?_eq_none_iff]

/-- What a name is bound to is the routine of the name, if it is a routine. -/
theorem routine?_of_get? {r : Routine} (h : s.get? name = some (.routine r)) :
    s.routine? name = some r := by
  obtain ⟨newer, f, older, hchain, hf, hnewer⟩ := get?_eq_some_iff.1 h
  refine routine?_eq_some_iff.2 ⟨newer, f, older, hchain, hf, fun g hg r' hr' => ?_⟩
  rw [hnewer g hg] at hr'
  cases hr'

/-- Joining the bindings of frames from the newest outwards gives a name the value in the first
frame that binds it, unless it was known before. -/
theorem get?_foldl_orElse (frames : List Frame) (seen : Bindings) (name : String) :
    (frames.foldl (fun seen f => seen.orElse f.members) seen).get? name =
      (seen.get? name).or (frames.findSome? fun f => f.members.get? name) := by
  induction frames generalizing seen with
  | nil => exact (Option.or_none).symm
  | cons f older ih =>
    rw [List.foldl_cons, ih, Bindings.get?_orElse, Option.or_assoc, List.findSome?_cons]
    cases f.members.get? name <;> rfl

/-- What can be seen under a name is its value. -/
theorem get?_visible (s : CallStack) (name : String) : s.visible.get? name = s.get? name :=
  get?_foldl_orElse s.chain .empty name

end CallStack

/-- A text is what a dump shows of a frame: a heading, and a line for each binding, in the order of
the names. -/
def Frame.ShownBy (f : Frame) (text : String) : Prop :=
  ∃ entries : List (String × Value),
    (∀ name v, (name, v) ∈ entries ↔ f.members.get? name = some v) ∧
      entries.Pairwise (fun a b => a.1 < b.1) ∧
        text = f.name ++ " (kind=" ++ f.kind.label ++ ", level=" ++ toString f.level ++ ")\n" ++
          String.join (entries.map fun e => "\t" ++ e.1 ++ " : " ++ e.2.text ++ "\n")

/-- What a dump writes for a frame is its heading and a line for each binding. -/
theorem Frame.shownBy_dump (f : Frame) : f.ShownBy f.dump :=
  ⟨f.members.entries, fun _ _ => Bindings.get?_eq_some_iff.symm, f.members.sorted, rfl⟩

namespace CallStack

/-! ## Calls leave nothing behind -/

/-- Operations are performed in their order, wherever the list of them is cut. -/
theorem performAll_append (s : CallStack) (ops more : List Operation) :
    s.performAll (ops ++ more) = (s.performAll ops).performAll more :=
  List.foldl_append

/-- Binding names changes nothing below the newest frame. -/
theorem performAll_sets (entries : List (String × Value)) (f : Frame) (below : List Frame) :
    ∃ g, performAll ⟨f :: below⟩ (entries.map fun e => .set e.1 e.2) = ⟨g :: below⟩ := by
  induction entries generalizing f with
  | nil => exact ⟨f, rfl⟩
  | cons e rest ih => exact ih (f.set e.1 e.2)

/-- A call that has bound names and is over has left the stack as it was. -/
theorem performAll_call (s : CallStack) (name : String) (kind : FrameKind)
    (entries : List (String × Value)) :
    s.performAll (.enterCall name kind :: (entries.map fun e => .set e.1 e.2) ++ [.pop]) = s := by
  rw [performAll_append]
  -- All that is bound is bound in the new frame, which is taken off again.
  obtain ⟨g, hg⟩ := performAll_sets entries (s.callFrame name kind) s.frames
  show (performAll ⟨s.callFrame name kind :: s.frames⟩ _).performAll [.pop] = s
  rw [hg]
  rfl

/-- Whatever has been done to a stack, beginning without frames: a frame names no caller if it is
that of a program or the oldest one, and the frame below it otherwise, and all are of the first
level. So the walk along the callers ends, and goes from the newest frame to the first one that
names no caller. The value of a name is what is visible under it, and it is that in the first frame
of the walk that binds the name; the routine of a name is that in the first frame of the walk that
binds it to a routine, so only values that are no routines are passed over. The dump shows the
frames of the walk in their order. And a call that has bound names and is over has changed nothing.
-/
theorem lookups_agree (ops : List Operation) :
    let s := CallStack.empty.performAll ops
    let walk := s.frames.takeWhile (fun f => f.parent.isSome) ++
      (s.frames.find? fun f => f.parent.isNone).toList
    (∀ i f, s.frame? i = some f → f.level = 1 ∧ ∃ o, (origins ops).reverse[i]? = some o ∧
      f.parent = if o = .program ∨ i = 0 then none else some (i - 1)) ∧
    (∀ frames, s.Walk (newestOf s.depth) frames ↔ frames = walk) ∧
    (∀ name, s.get? name = s.visible.get? name ∧
      (∀ v, s.get? name = some v ↔ ∃ newer f older, walk = newer ++ f :: older ∧
        f.members.get? name = some v ∧ ∀ g ∈ newer, g.members.get? name = none) ∧
      (∀ r, s.routine? name = some r ↔ ∃ newer f older, walk = newer ++ f :: older ∧
        f.members.get? name = some (.routine r) ∧
          ∀ g ∈ newer, ∀ r', g.members.get? name ≠ some (.routine r')) ∧
      ∀ r, s.get? name = some (.routine r) → s.routine? name = some r) ∧
    (∃ texts, List.Forall₂ Frame.ShownBy walk texts ∧ s.dump = String.join texts) ∧
    ∀ name kind (entries : List (String × Value)),
      s.performAll (.enterCall name kind :: (entries.map fun e => .set e.1 e.2) ++ [.pop]) = s := by
  intro s walk
  have hstacked : Stacked (origins ops) s.frames := stacked_performAll ops
  have hwalk : s.chain = walk := chainOf_eq s.frames
  rw [← hwalk]
  refine ⟨fun i f hf => ?_, fun frames => ?_, fun name => ?_, ?_, performAll_call s⟩
  · obtain ⟨hlevel, o, ho, hparent⟩ := hstacked.of_index hf
    refine ⟨hlevel, o, ho, hparent.trans ?_⟩
    cases o <;> cases i <;> rfl
  · have hchain : s.Walk (newestOf s.depth) s.chain := hstacked.walk (List.nil_append s.frames).symm
    exact ⟨fun h => h.unique hchain, fun h => h ▸ hchain⟩
  · exact ⟨(get?_visible s name).symm, fun v => get?_eq_some_iff, fun r => routine?_eq_some_iff,
      fun r => routine?_of_get?⟩
  · refine ⟨s.chain.map Frame.dump, List.forall₂_map_right_iff.2 (List.forall₂_same.2 ?_), rfl⟩
    exact fun f _ => f.shownBy_dump

/-- A program inside another one has called a routine that it has bound itself. -/
theorem lookups_agree_inside :
    let r : Routine := ⟨"r", .procedure, [], none, ⟨[], []⟩⟩
    let ops : List Operation := [.enterProgram "outer", .set "x" (.integer 1),
      .enterProgram "inner", .set "f" (.routine r), .enterCall "r" (.routine .procedure)]
    let s := CallStack.empty.performAll ops
    (∃ f, s.frame? 2 = some f ∧ f.level = 1 ∧ f.parent = some 1) ∧
      s.get? "x" = none ∧ s.visible.get? "x" = none ∧
        s.get? "f" = some (.routine r) ∧ s.routine? "f" = some r := by
  intro r ops s
  have hframe : s.frame? 2 = some ⟨"r", .routine .procedure, 1, some 1, .empty⟩ := rfl
  have hget : s.get? "f" = some (.routine r) := rfl
  obtain ⟨hframes, -, hnames, -, -⟩ := lookups_agree ops
  obtain ⟨hlevel, o, ho, hparent⟩ := hframes 2 _ hframe
  obtain ⟨hvisible, -, -, -⟩ := hnames "x"
  obtain ⟨-, -, -, hroutine⟩ := hnames "f"
  obtain rfl : Origin.call = o := Option.some.inj ho
  exact ⟨⟨_, hframe, hlevel, hparent⟩, rfl, hvisible, hget, hroutine r hget⟩

end CallStack

end SmallPascal

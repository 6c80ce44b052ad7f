import Mathlib.Data.List.Forall2
import SmallPascal.Proofs.Evaluation.Frame

/-!
# Runs that differ in the blocks of routines only

Routines are values: they are bound, passed on and shown, and all that is looked at then is the
heading, the name, the kind and the names of the parameters. The block is looked at when the routine
is called, and there it is run. So let `R` relate blocks that come to the same when they are run.
Then two evaluations go side by side on stacks that are the same but for blocks that are related
(`CallStack.Alike`), with the same events, and with the same error or results that are the same but
for such blocks (`Action.Alike`).

`exec_alike` says so of running the same node, if calls are alike, and `invoke_alike` of calls, if
running related blocks is alike wherever calls are.
-/

namespace SmallPascal

variable {R : Block → Block → Prop}

/-! ## Values, frames and stacks -/

/-- Routines with related blocks that have the same heading but for the types in it. -/
structure Routine.Alike (R : Block → Block → Prop) (r r' : Routine) : Prop where
  name_eq : r'.name = r.name
  kind_eq : r'.kind = r.kind
  params_eq : r'.params.map Param.name = r.params.map Param.name
  block : R r.block r'.block

/-- Values that are the same, or routines that are alike. -/
inductive Value.Alike (R : Block → Block → Prop) : Value → Value → Prop where
  | integer (n : Int64) : Alike R (.integer n) (.integer n)
  | boolean (b : Bool) : Alike R (.boolean b) (.boolean b)
  | routine {r r' : Routine} (h : r.Alike R r') : Alike R (.routine r) (.routine r')

/-- The same name, bound to values that are alike. -/
def EntryAlike (R : Block → Block → Prop) (e e' : String × Value) : Prop :=
  e'.1 = e.1 ∧ e.2.Alike R e'.2

/-- Bindings of the same names to values that are alike. -/
def Bindings.Alike (R : Block → Block → Prop) (b b' : Bindings) : Prop :=
  List.Forall₂ (EntryAlike R) b.entries b'.entries

/-- Frames that are the same but for bindings that are alike. -/
structure Frame.Alike (R : Block → Block → Prop) (f f' : Frame) : Prop where
  name_eq : f'.name = f.name
  kind_eq : f'.kind = f.kind
  level_eq : f'.level = f.level
  parent_eq : f'.parent = f.parent
  members : f.members.Alike R f'.members

/-- Stacks of frames that are alike. -/
def CallStack.Alike (R : Block → Block → Prop) (s s' : CallStack) : Prop :=
  List.Forall₂ (Frame.Alike R) s.frames s'.frames

/-- The same error, or results that are related. -/
inductive ResultAlike {α β : Type} (A : α → β → Prop) :
    Except RuntimeError α → Except RuntimeError β → Prop where
  | ok {a : α} {b : β} (h : A a b) : ResultAlike A (.ok a) (.ok b)
  | error (e : RuntimeError) : ResultAlike A (.error e) (.error e)

/-- Routines that are alike take as many arguments. -/
theorem Routine.Alike.length_params_eq {r r' : Routine} (h : r.Alike R r') :
    r'.params.length = r.params.length := by
  simpa using congrArg List.length h.params_eq

/-- A routine is like itself if its block is related to itself. -/
theorem Routine.Alike.refl (hR : ∀ b, R b b) (r : Routine) : r.Alike R r :=
  ⟨rfl, rfl, rfl, hR _⟩

namespace Value.Alike

variable {v v' w w' : Value}

/-- A value is like itself if all blocks are related to themselves. -/
theorem refl (hR : ∀ b, R b b) : ∀ v : Value, v.Alike R v
  | .integer n => .integer n
  | .boolean b => .boolean b
  | .routine r => .routine (.refl hR r)

/-- Values that are alike are shown alike, since a routine shows its heading only. -/
theorem text_eq (h : v.Alike R v') : v'.text = v.text := by
  cases h with
  | integer | boolean => rfl
  | routine h => simp only [Value.text, Routine.label, h.name_eq, h.kind_eq]

/-- Values that are alike are of the same sort. -/
theorem type_eq (h : v.Alike R v') : v'.type = v.type := by
  cases h with
  | integer | boolean => rfl
  | routine h => simp only [Value.type, h.kind_eq]

/-- Of values that are alike either none is a routine, or both are and the routines are alike. -/
theorem routine? (h : v.Alike R v') :
    Option.Rel (Routine.Alike R) v.routine? v'.routine? := by
  cases h with
  | integer | boolean => exact .none
  | routine h => exact .some h

/-- Operators with one operand cannot tell values that are alike. -/
theorem unaryApply (hR : ∀ b, R b b) (op : UnaryOp) (h : v.Alike R v') :
    ResultAlike (Value.Alike R) (op.apply v) (op.apply v') := by
  cases h with
  | integer | boolean => cases op <;> exact .ok (refl hR _)
  | routine h =>
    simp only [UnaryOp.apply, Value.toInteger, h.kind_eq]
    exact .error _

/-- Operators with two operands cannot tell values that are alike. -/
theorem binaryApply (hR : ∀ b, R b b) (op : BinaryOp) (h : v.Alike R v') (h' : w.Alike R w') :
    ResultAlike (Value.Alike R) (op.apply v w) (op.apply v' w') := by
  have hsame : ∀ r : Except RuntimeError Value, ResultAlike (Value.Alike R) r r
    | .ok v => .ok (refl hR v)
    | .error e => .error e
  cases h with
  | routine h =>
    simp only [BinaryOp.apply, Value.toInteger, h.kind_eq]
    exact .error _
  | integer | boolean =>
    cases h' with
    | integer | boolean => exact hsame _
    | routine h' =>
      simp only [BinaryOp.apply, Value.toInteger, h'.kind_eq]
      exact .error _

end Value.Alike

/-- Related lists have the same image under a function that does not tell related elements apart. -/
theorem map_eq_of_forall₂ {α β : Type} {P : α → α → Prop} {f : α → β} {as bs : List α}
    (h : List.Forall₂ P as bs) (hf : ∀ a b, P a b → f b = f a) : bs.map f = as.map f := by
  induction h with
  | nil => rfl
  | cons hab _ ih => rw [List.map_cons, List.map_cons, ih, hf _ _ hab]

/-- What is found first in related lists is related. -/
theorem findSome?_of_forall₂ {α β γ δ : Type} {P : α → β → Prop} {A : γ → δ → Prop} {as : List α}
    {bs : List β} {f : α → Option γ} {g : β → Option δ} (h : List.Forall₂ P as bs)
    (hfg : ∀ a b, P a b → Option.Rel A (f a) (g b)) :
    Option.Rel A (as.findSome? f) (bs.findSome? g) := by
  induction h with
  | nil => exact .none
  | @cons a b _ _ hab _ ih =>
    have hfirst := hfg a b hab
    rw [List.findSome?_cons, List.findSome?_cons]
    generalize f a = x at hfirst ⊢
    generalize g b = y at hfirst ⊢
    cases hfirst with
    | some h => exact .some h
    | none => exact ih

section

variable {entries entries' : List (String × Value)}

/-- Entries stay alike when values that are alike are bound to a name. -/
theorem insertEntry_alike (h : List.Forall₂ (EntryAlike R) entries entries') (name : String)
    {v v' : Value} (hv : v.Alike R v') :
    List.Forall₂ (EntryAlike R) (Bindings.insertEntry name v entries)
      (Bindings.insertEntry name v' entries') := by
  induction h with
  | nil => exact .cons ⟨rfl, hv⟩ .nil
  | cons he hrest ih =>
    rw [Bindings.insertEntry, Bindings.insertEntry, he.1]
    split
    · exact .cons ⟨rfl, hv⟩ (.cons he hrest)
    · split
      · exact .cons ⟨rfl, hv⟩ hrest
      · exact .cons he ih

/-- A name is bound to values that are alike in entries that are. -/
theorem lookup_alike (h : List.Forall₂ (EntryAlike R) entries entries') (name : String) :
    Option.Rel (Value.Alike R) (entries.lookup name) (entries'.lookup name) := by
  induction h with
  | nil => exact .none
  | cons he _ ih =>
    rw [List.lookup_cons, List.lookup_cons, he.1]
    split
    · exact .some he.2
    · exact ih

/-- Arguments that are alike are bound to parameters as entries that are alike. -/
theorem zip_alike (names : List String) {values values' : List Value}
    (h : List.Forall₂ (Value.Alike R) values values') :
    List.Forall₂ (EntryAlike R) (names.zip values) (names.zip values') := by
  induction h generalizing names with
  | nil => simp
  | cons hv _ ih =>
    cases names with
    | nil => exact .nil
    | cons name rest => exact .cons ⟨rfl, hv⟩ (ih rest)

/-- Names are looked up in as many frames, which are alike. -/
theorem chainOf_alike {frames frames' : List Frame}
    (h : List.Forall₂ (Frame.Alike R) frames frames') :
    List.Forall₂ (Frame.Alike R) (CallStack.chainOf frames) (CallStack.chainOf frames') := by
  induction h with
  | nil => exact .nil
  | cons hf _ ih =>
    rw [CallStack.chainOf, CallStack.chainOf, hf.parent_eq]
    refine .cons hf ?_
    split
    · exact ih
    · exact .nil

end

namespace Bindings.Alike

variable {b b' : Bindings}

/-- Bindings stay alike when values that are alike are bound to a name. -/
theorem insert (h : b.Alike R b') (name : String) {v v' : Value} (hv : v.Alike R v') :
    (b.insert name v).Alike R (b'.insert name v') :=
  insertEntry_alike h name hv

/-- Bindings that are alike give a name values that are alike. -/
theorem get? (h : b.Alike R b') (name : String) :
    Option.Rel (Value.Alike R) (b.get? name) (b'.get? name) :=
  lookup_alike h name

end Bindings.Alike

/-- Frames that are alike are dumped alike. -/
theorem Frame.Alike.dump_eq {f f' : Frame} (h : f.Alike R f') : f'.dump = f.dump := by
  have hlines := map_eq_of_forall₂ (f := fun e => s!"\t{e.1} : {e.2.text}\n") h.members
    fun e e' he => by rw [he.1, he.2.text_eq]
  rw [Frame.dump, Frame.dump, h.name_eq, h.kind_eq, h.level_eq, hlines]

namespace CallStack.Alike

variable {s s' : CallStack}

/-- Stacks that are alike have as many frames. -/
theorem depth_eq (h : s.Alike R s') : s'.depth = s.depth :=
  h.length_eq.symm

/-- Frames that are alike may be put on top. -/
theorem push (h : s.Alike R s') {f f' : Frame} (hf : f.Alike R f') :
    (s.push f).Alike R (s'.push f') :=
  .cons hf h

/-- A program may be entered on both stacks. -/
theorem enterProgram (h : s.Alike R s') (name : String) :
    (s.enterProgram name).Alike R (s'.enterProgram name) :=
  h.push ⟨rfl, rfl, rfl, rfl, .nil⟩

/-- A call may be entered on both stacks, and its frames name the same caller. -/
theorem enterCall (h : s.Alike R s') (name : String) (kind : FrameKind) :
    (s.enterCall name kind).Alike R (s'.enterCall name kind) := by
  refine h.push ?_
  obtain ⟨frames⟩ := s
  obtain ⟨frames'⟩ := s'
  cases h with
  | nil => exact ⟨rfl, rfl, rfl, rfl, .nil⟩
  | cons hf hrest => exact ⟨rfl, rfl, hf.level_eq, congrArg some hrest.length_eq.symm, .nil⟩

/-- Taking off the newest frames leaves stacks that are alike, and the frames are alike, too. -/
theorem pop (h : s.Alike R s') :
    Option.Rel (Frame.Alike R) s.pop.1 s'.pop.1 ∧ s.pop.2.Alike R s'.pop.2 := by
  obtain ⟨frames⟩ := s
  obtain ⟨frames'⟩ := s'
  cases h with
  | nil => exact ⟨.none, .nil⟩
  | cons hf hrest => exact ⟨.some hf, hrest⟩

/-- Binding values that are alike fails on both stacks or leaves them alike. -/
theorem set (h : s.Alike R s') (name : String) {v v' : Value} (hv : v.Alike R v') :
    ResultAlike (CallStack.Alike R) (s.set name v) (s'.set name v') := by
  obtain ⟨frames⟩ := s
  obtain ⟨frames'⟩ := s'
  cases h with
  | nil => exact .error _
  | cons hf hrest =>
    exact .ok (.cons ⟨hf.name_eq, hf.kind_eq, hf.level_eq, hf.parent_eq, hf.members.insert name hv⟩
      hrest)

/-- A name has values that are alike on both stacks. -/
theorem get? (h : s.Alike R s') (name : String) :
    Option.Rel (Value.Alike R) (s.get? name) (s'.get? name) :=
  findSome?_of_forall₂ (chainOf_alike h) fun _ _ hf => hf.members.get? name

/-- A call reaches routines that are alike on both stacks. -/
theorem routine? (h : s.Alike R s') (name : String) :
    Option.Rel (Routine.Alike R) (s.routine? name) (s'.routine? name) := by
  refine findSome?_of_forall₂ (chainOf_alike h) fun f f' hf => ?_
  have hv := hf.members.get? name
  generalize f.members.get? name = x at hv ⊢
  generalize f'.members.get? name = y at hv ⊢
  cases hv with
  | some hv => exact hv.routine?
  | none => exact .none

/-- Stacks that are alike are dumped alike. -/
theorem dump_eq (h : s.Alike R s') : s'.dump = s.dump :=
  congrArg String.join (map_eq_of_forall₂ (chainOf_alike h) fun _ _ hf => hf.dump_eq)

end CallStack.Alike

/-! ## Actions -/

/-- The same events, and the same error or related results, with stacks that are alike. -/
structure RunAlike {α β : Type} (R : Block → Block → Prop) (A : α → β → Prop)
    (out : Run α × CallStack) (out' : Run β × CallStack) : Prop where
  events_eq : out'.1.events = out.1.events
  result : ResultAlike A out.1.result out'.1.result
  left : out.2.Alike R out'.2

namespace Action

variable {α β γ δ : Type} {A : α → β → Prop} {B : γ → δ → Prop}

/-- On stacks that are alike, two actions do the same, with related results. -/
def Alike (R : Block → Block → Prop) (A : α → β → Prop) (x : Action α) (y : Action β) : Prop :=
  ∀ s s', s.Alike R s' → RunAlike R A (x s) (y s')

namespace Alike

/-- Related results are given alike. -/
theorem ofExcept {r : Except RuntimeError α} {r' : Except RuntimeError β} (h : ResultAlike A r r') :
    Alike R A (Action.ofExcept r) (Action.ofExcept r') :=
  fun _ _ hs => ⟨rfl, h, hs⟩

/-- Related values are given alike. -/
theorem pure {a : α} {b : β} (h : A a b) :
    Alike R A (Pure.pure a : Action α) (Pure.pure b : Action β) :=
  fun _ _ hs => ⟨rfl, .ok h, hs⟩

/-- The same failure is alike. -/
theorem fail (e : RuntimeError) : Alike R A (Action.fail e) (Action.fail e) :=
  .ofExcept (.error e)

/-- The same event is recorded alike. -/
theorem emit (e : Event) : Alike R Eq (Action.emit e) (Action.emit e) :=
  fun _ _ hs => ⟨rfl, .ok rfl, hs⟩

/-- Looking at stacks that are alike sees stacks that are alike. -/
theorem stack : Alike R (CallStack.Alike R) Action.stack Action.stack :=
  fun _ _ hs => ⟨rfl, .ok hs, hs⟩

/-- Stacks may be changed in any way that keeps them alike. -/
theorem modify {f g : CallStack → CallStack} (h : ∀ s s', s.Alike R s' → (f s).Alike R (g s')) :
    Alike R Eq (Action.modify f) (Action.modify g) :=
  fun s s' hs => ⟨rfl, .ok rfl, h s s' hs⟩

/-- Taking off the newest frame gives frames that are alike. -/
theorem pop : Alike R (Option.Rel (Frame.Alike R)) Action.pop Action.pop :=
  fun _ _ hs => ⟨rfl, .ok hs.pop.1, hs.pop.2⟩

/-- Binding values that are alike does the same. -/
theorem set (name : String) {v v' : Value} (hv : v.Alike R v') :
    Alike R Eq (Action.set name v) (Action.set name v') := by
  intro s s' hs
  have h := hs.set name hv
  unfold Action.set
  generalize s.set name v = r at h ⊢
  generalize s'.set name v' = r' at h ⊢
  cases h with
  | ok h => exact ⟨rfl, .ok rfl, h⟩
  | error e => exact ⟨rfl, .error e, hs⟩

/-- Actions in a row are alike if each of them is, for related results. -/
theorem bind {x : Action α} {y : Action β} {k : α → Action γ} {l : β → Action δ}
    (hxy : Alike R A x y) (hkl : ∀ a b, A a b → Alike R B (k a) (l b)) :
    Alike R B (x >>= k) (y >>= l) := by
  intro s s' hs
  have h := hxy s s' hs
  rcases hx : x s with ⟨⟨events, r⟩, left⟩
  rcases hy : y s' with ⟨⟨events', r'⟩, left'⟩
  rw [hx, hy] at h
  obtain ⟨rfl, hresult, hleft⟩ := h
  cases hresult with
  | error e =>
    rw [bind_of_error hx, bind_of_error hy]
    exact ⟨rfl, .error e, hleft⟩
  | ok hab =>
    have hmore := hkl _ _ hab _ _ hleft
    rw [bind_of_ok hx, bind_of_ok hy]
    exact ⟨congrArg _ hmore.events_eq, hmore.result, hmore.left⟩

/-- An action whose result is dropped. -/
theorem discard {x : Action α} {y : Action β} (hxy : Alike R A x y) {c : γ} {d : δ} (h : B c d) :
    Alike R B (x >>= fun _ => Pure.pure c) (y >>= fun _ => Pure.pure d) :=
  hxy.bind fun _ _ _ => .pure h

/-- Binding entries that are alike does the same. -/
theorem setAll {entries entries' : List (String × Value)}
    (h : List.Forall₂ (EntryAlike R) entries entries') :
    Alike R Eq (Action.setAll entries) (Action.setAll entries') := by
  induction h with
  | nil => exact .pure rfl
  | cons he _ ih =>
    rw [Action.setAll, Action.setAll, he.1]
    exact (Alike.set _ he.2).bind fun _ _ _ => ih

end Alike

end Action

/-! ## Running the same node -/

/-- What a program comes to, but for routines that are alike. -/
structure Outcome.Alike (R : Block → Block → Prop) (o o' : Outcome) : Prop where
  program_eq : o'.program = o.program
  bindings : o.bindings.Alike R o'.bindings
  dump_eq : o'.dump = o.dump

/-- Calls that are alike, if routines and arguments are. -/
def InvocationAlike (R : Block → Block → Prop) (invocation invocation' : Invocation) : Prop :=
  ∀ r r', r.Alike R r' → ∀ args args', List.Forall₂ (Value.Alike R) args args' →
    Action.Alike R (Option.Rel (Value.Alike R)) (invocation r args) (invocation' r' args')

namespace Evaluation

open SmallPascal.Action (Alike)

variable {dumps : Bool} {invocation invocation' : Invocation}

/-- Reading a name gives values that are alike, or the same error. -/
theorem read_alike {s s' : CallStack} (h : s.Alike R s') (name : String) :
    ResultAlike (Value.Alike R) (read s name) (read s' name) := by
  have hv := h.get? name
  unfold read
  generalize s.get? name = x at hv ⊢
  generalize s'.get? name = y at hv ⊢
  cases hv with
  | some hv => exact .ok hv
  | none => exact .error _

/-- Looking up a callee gives routines that are alike, or the same error. -/
theorem callee_alike {s s' : CallStack} (h : s.Alike R s') (name : String) :
    ResultAlike (Routine.Alike R) (callee s name) (callee s' name) := by
  have hr := h.routine? name
  have hv := h.get? name
  unfold callee
  generalize s.routine? name = x at hr ⊢
  generalize s'.routine? name = y at hr ⊢
  cases hr with
  | some hr => exact .ok hr
  | none =>
    generalize s.get? name = x at hv ⊢
    generalize s'.get? name = y at hv ⊢
    cases hv with
    | some hv =>
      simp only [hv.type_eq]
      exact .error _
    | none => exact .error _

/-- Asking for the value of a node does not tell runs apart that are alike. -/
theorem needValue_alike (n : Node) {run run' : Action (Option Value)}
    (h : Alike R (Option.Rel (Value.Alike R)) run run') :
    Alike R (Value.Alike R) (needValue n run) (needValue n run') := by
  rw [needValue_eq, needValue_eq]
  refine h.bind fun v v' hv => ?_
  cases hv with
  | some hv => exact .pure hv
  | none => exact .fail _

/-- Assigning values that are alike shows the same, as they are shown alike. -/
theorem assign_alike (target : String) {v v' : Value} (hv : v.Alike R v') :
    Alike R Eq (assign target v) (assign target v') := by
  refine Alike.stack.bind fun s s' hs => ?_
  rw [hv.text_eq, hs.depth_eq]
  exact (Alike.emit _).bind fun _ _ _ => .set target hv

/-- Running a program, if running its block is alike. -/
theorem inProgram_alike (name : String) {block block' : Action Unit}
    (hblock : Alike R Eq block block') :
    Alike R (Outcome.Alike R) (inProgram dumps name block) (inProgram dumps name block') := by
  refine (Alike.emit _).bind fun _ _ _ => .bind (.modify fun s s' hs => hs.enterProgram name)
    fun _ _ _ => hblock.bind fun _ _ _ => Alike.stack.bind fun s s' hs => ?_
  rw [hs.dump_eq]
  refine Alike.pop.bind fun f f' hf => (Alike.emit _).bind fun _ _ _ => .pure ⟨rfl, ?_, rfl⟩
  cases hf with
  | some hf => exact hf.members
  | none => exact .nil

mutual

/-- Running a node is alike, if calls are. -/
theorem exec_alike (hR : ∀ b, R b b) (hcalls : InvocationAlike R invocation invocation') :
    ∀ n : Node,
    Alike R (Option.Rel (Value.Alike R)) (exec dumps invocation n) (exec dumps invocation' n)
  | .number _ | .boolean _ => by
    rw [exec, exec]
    exact .pure (.some (.refl hR _))
  | .noOp | .varDecl .. | .typeSpec _ | .param _ => by
    rw [exec, exec]
    exact .pure .none
  | .var name => by
    rw [exec, exec]
    exact Alike.stack.bind fun s s' hs => (Alike.ofExcept (read_alike hs name)).bind
      fun _ _ hv => .pure (.some hv)
  | .unary op operand => by
    rw [exec, exec]
    exact (needValue_alike operand (exec_alike hR hcalls operand)).bind fun _ _ hv =>
      (Alike.ofExcept (hv.unaryApply hR op)).bind fun _ _ hw => .pure (.some hw)
  | .binary op left right => by
    rw [exec, exec]
    exact (needValue_alike left (exec_alike hR hcalls left)).bind fun _ _ hl =>
      (needValue_alike right (exec_alike hR hcalls right)).bind fun _ _ hr =>
        (Alike.ofExcept (hl.binaryApply hR op hr)).bind fun _ _ hw => .pure (.some hw)
  | .assign target value => by
    rw [exec_assign, exec_assign]
    exact (needValue_alike value (exec_alike hR hcalls value)).bind fun _ _ hv =>
      (assign_alike target hv).discard .none
  | .compound children => by
    rw [exec, exec]
    exact (execAll_alike hR hcalls children).discard .none
  | .block declarations body => by
    rw [exec, exec]
    exact (execAll_alike hR hcalls declarations).bind fun _ _ _ =>
      (execAll_alike hR hcalls body).discard .none
  | .routine name kind params returnType declarations body => by
    rw [exec, exec]
    exact (Alike.set name (.refl hR _)).discard .none
  | .call name args => by
    rw [exec, exec]
    refine Alike.stack.bind fun s s' hs => (Alike.ofExcept (callee_alike hs name)).bind
      fun r r' hr => (execArgs_alike hR hcalls args).bind fun values values' hvalues => ?_
    rw [hr.length_params_eq, ← hvalues.length_eq, hr.name_eq]
    split
    · exact hcalls r r' hr values values' hvalues
    · exact .fail _
  | .program name declarations body => by
    rw [exec, exec]
    have hblock := (execAll_alike hR hcalls declarations).bind fun _ _ _ =>
      execAll_alike hR hcalls body
    exact (inProgram_alike name hblock).discard .none

/-- Running nodes one after the other is alike, if calls are. -/
theorem execAll_alike (hR : ∀ b, R b b) (hcalls : InvocationAlike R invocation invocation') :
    ∀ ns : List Node,
    Alike R Eq (execAll dumps invocation ns) (execAll dumps invocation' ns)
  | [] => by
    rw [execAll, execAll]
    exact .pure rfl
  | n :: rest => by
    rw [execAll, execAll]
    exact (exec_alike hR hcalls n).bind fun _ _ _ => execAll_alike hR hcalls rest

/-- Running nodes for their values is alike, if calls are. -/
theorem execArgs_alike (hR : ∀ b, R b b) (hcalls : InvocationAlike R invocation invocation') :
    ∀ ns : List Node,
    Alike R (List.Forall₂ (Value.Alike R)) (execArgs dumps invocation ns)
      (execArgs dumps invocation' ns)
  | [] => by
    rw [execArgs, execArgs]
    exact .pure .nil
  | n :: rest => by
    rw [execArgs, execArgs]
    exact (needValue_alike n (exec_alike hR hcalls n)).bind fun _ _ hv =>
      (execArgs_alike hR hcalls rest).bind fun _ _ hvs => .pure (.cons hv hvs)

end

/-! ## Calls -/

/-- The value of a call, if the frames of the routines are alike. -/
theorem resultOf_alike {r r' : Routine} (hr : r.Alike R r') {f f' : Option Frame}
    (hf : Option.Rel (Frame.Alike R) f f') :
    Option.Rel (Value.Alike R) (resultOf r f) (resultOf r' f') := by
  rw [resultOf, resultOf, hr.kind_eq, hr.name_eq]
  split
  · cases hf with
    | some hf => exact hf.members.get? r.name
    | none => exact .none
  · exact .none

/-- Calls are alike, if running related blocks is alike wherever calls are. -/
theorem invoke_alike {settings : Settings}
    (hblock : ∀ invocation invocation', InvocationAlike R invocation invocation' →
      ∀ b b', R b b' → Alike R Eq (execBlock settings.dumpBindings invocation b)
        (execBlock settings.dumpBindings invocation' b')) :
    ∀ budget, InvocationAlike R (invoke settings budget) (invoke settings budget)
  | 0 => fun _ _ _ _ _ _ => .fail _
  | budget + 1 => by
    intro r r' hr args args' hargs
    rw [invoke, invoke]
    refine Alike.stack.bind fun s s' hs => ?_
    rw [hs.depth_eq, hr.name_eq, hr.kind_eq, hr.params_eq]
    split
    · exact .fail _
    · refine (Alike.modify fun _ _ hs => hs.enterCall r.name _).bind fun _ _ _ =>
        Alike.stack.bind fun s s' hs => ?_
      rw [hs.depth_eq]
      refine (Alike.emit _).bind fun _ _ _ => (Alike.setAll ?_).bind fun _ _ _ =>
        (hblock _ _ (invoke_alike hblock budget) _ _ hr.block).bind fun _ _ _ =>
          Alike.pop.bind fun f f' hf => Alike.stack.bind fun s s' hs => ?_
      · exact zip_alike _ hargs
      · rw [hs.depth_eq]
        exact (Alike.emit _).bind fun _ _ _ => .pure (resultOf_alike hr hf)

end Evaluation

end SmallPascal

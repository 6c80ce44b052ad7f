import SmallPascal.Interpreter
import SmallPascal.Proofs.Evaluation.Lockstep

/-!
# Programs inside programs

A program that is a node of another one runs in a frame that names no caller, so whatever is below
that frame is out of its sight: names are looked up no further down, and only the newest frame is
written to. All that the run can notice of the frames below is how many they are, because frames
name their callers by index, events tell the depth, and the limit is on all live frames. So the
nested program does what it does by itself under a limit that is lower by that number, with events
that are deeper by that number, and the frames below stay as they are (`exec_program_isolated`).

A stack that is put on top of other frames is `CallStack.onto`. `Action.Lifts` says of two actions
that the second one does on the higher stack what the first one does by itself. The numbers of
frames before and behind an action are part of the relation: actions that put frames on top and
take them off again are then composed like others.
-/

namespace SmallPascal

/-! ## Stacks on top of other frames -/

/-- An event with so many frames more below it. -/
def Event.deeper (d : Nat) : Event → Event
  | .callEntered routine depth => .callEntered routine (depth + d)
  | .callExited routine depth => .callExited routine (depth + d)
  | .assigned name value depth => .assigned name value (depth + d)
  | e => e

/-- An error with the limit that it reports replaced. -/
def RuntimeError.withLimit (limit : Nat) : RuntimeError → RuntimeError
  | .callDepthExceeded _ => .callDepthExceeded limit
  | e => e

/-- A frame with so many frames more below it. -/
def Frame.raised (d : Nat) (f : Frame) : Frame :=
  { f with parent := f.parent.map (· + d) }

namespace CallStack

/-- The frames of a stack on top of those of another one. -/
def onto (t below : CallStack) : CallStack :=
  ⟨t.frames.map (Frame.raised below.depth) ++ below.frames⟩

/-- The lookup from the top of a stack does not get to the frames below its root. -/
theorem chainOf_onto (d : Nat) {frames : List Frame} (below : List Frame) (hne : frames ≠ [])
    (hroot : ∀ f ∈ frames.getLast?, f.parent = none) :
    chainOf (frames.map (Frame.raised d) ++ below) =
      (chainOf frames).map (Frame.raised d) := by
  induction frames with
  | nil => contradiction
  | cons f rest ih =>
    rw [List.map_cons, List.cons_append, chainOf, chainOf, List.map_cons]
    cases rest with
    | nil =>
      have hparent : f.parent = none := hroot f rfl
      simp [Frame.raised, hparent]
    | cons g rest =>
      have hrest := ih (List.cons_ne_nil g rest) (by simpa using hroot)
      cases hparent : f.parent with
      | none => simp [Frame.raised, hparent]
      | some i => simpa [Frame.raised, hparent] using hrest

/-- A stack of `n` frames of which the oldest names no caller. -/
structure Stands (n : Nat) (t : CallStack) : Prop where
  depth_eq : t.depth = n
  root : ∀ f ∈ t.frames.getLast?, f.parent = none

/-- No frames on top of others are those others. -/
theorem onto_empty (t : CallStack) : CallStack.empty.onto t = t := rfl

/-- The empty stack has no frame that could name a caller. -/
theorem stands_empty : Stands 0 .empty := ⟨rfl, nofun⟩

/-- A stack of no frames is empty. -/
theorem eq_empty_of_stands {t : CallStack} (h : t.Stands 0) : t = .empty := by
  obtain ⟨frames⟩ := t
  exact congrArg _ (List.eq_nil_of_length_eq_zero h.depth_eq)

/-- The frames of both stacks are live. -/
theorem depth_onto (t below : CallStack) : (t.onto below).depth = t.depth + below.depth := by
  simp [depth, onto]

/-- A program is entered in the same way, whatever lies below. -/
theorem enterProgram_onto (t below : CallStack) (name : String) :
    (t.onto below).enterProgram name = (t.enterProgram name).onto below := rfl

namespace Stands

variable {n : Nat} {t below : CallStack}

/-- A stack of some frames has a newest one. -/
theorem exists_cons (h : t.Stands (n + 1)) : ∃ f rest, t = ⟨f :: rest⟩ := by
  obtain ⟨_ | ⟨f, rest⟩⟩ := t
  · cases h.depth_eq
  · exact ⟨f, rest, rfl⟩

/-- Names are looked up in the same frames, as the oldest of them names no caller and the search
ends there. -/
theorem chain_onto (h : t.Stands (n + 1)) :
    (t.onto below).chain = t.chain.map (Frame.raised below.depth) := by
  obtain ⟨f, rest, rfl⟩ := h.exists_cons
  exact chainOf_onto _ _ (List.cons_ne_nil f rest) h.root

/-- A name has the same value, whatever lies below. -/
theorem get?_onto (h : t.Stands (n + 1)) (name : String) :
    (t.onto below).get? name = t.get? name := by
  rw [get?, h.chain_onto, List.findSome?_map]
  rfl

/-- A call reaches the same routine, whatever lies below. -/
theorem routine?_onto (h : t.Stands (n + 1)) (name : String) :
    (t.onto below).routine? name = t.routine? name := by
  rw [routine?, h.chain_onto, List.findSome?_map]
  rfl

/-- The same is dumped, whatever lies below. -/
theorem dump_onto (h : t.Stands (n + 1)) : (t.onto below).dump = t.dump := by
  rw [dump, h.chain_onto, List.map_map]
  rfl

/-- A call is entered in the same way, but its caller stands higher. -/
theorem enterCall_onto (h : t.Stands (n + 1)) (name : String) (kind : FrameKind) :
    (t.onto below).enterCall name kind = (t.enterCall name kind).onto below := by
  obtain ⟨f, rest, rfl⟩ := h.exists_cons
  simp [onto, enterCall, push, callFrame, Frame.raised, depth]

/-- The same frame is taken off, whatever lies below. -/
theorem pop_onto (h : t.Stands (n + 1)) :
    (t.onto below).pop = (t.pop.1.map (Frame.raised below.depth), t.pop.2.onto below) := by
  obtain ⟨f, rest, rfl⟩ := h.exists_cons
  rfl

/-- Entering a program makes a stack one frame higher. -/
theorem enterProgram (h : t.Stands n) (name : String) : (t.enterProgram name).Stands (n + 1) := by
  refine ⟨congrArg (· + 1) h.depth_eq, ?_⟩
  obtain ⟨_ | ⟨f, rest⟩⟩ := t
  · rintro _ ⟨⟩
    rfl
  · simpa [CallStack.enterProgram, push] using h.root

/-- Entering a call makes a stack one frame higher, and the oldest frame is still the same. -/
theorem enterCall (h : t.Stands (n + 1)) (name : String) (kind : FrameKind) :
    (t.enterCall name kind).Stands (n + 2) := by
  refine ⟨congrArg (· + 1) h.depth_eq, ?_⟩
  obtain ⟨f, rest, rfl⟩ := h.exists_cons
  simpa [CallStack.enterCall, push] using h.root

/-- Taking off a frame makes a stack one frame lower. -/
theorem pop (h : t.Stands (n + 1)) : t.pop.2.Stands n := by
  obtain ⟨f, rest, rfl⟩ := h.exists_cons
  refine ⟨Nat.succ.inj h.depth_eq, ?_⟩
  cases rest with
  | nil => nofun
  | cons g rest => simpa [CallStack.pop] using h.root

/-- The newest frame may be changed as long as it names the same caller. -/
theorem update {f g : Frame} {rest : List Frame} (h : Stands n ⟨f :: rest⟩)
    (hparent : g.parent = f.parent) : Stands n ⟨g :: rest⟩ := by
  refine ⟨h.depth_eq, ?_⟩
  have hroot := h.root
  cases rest with
  | nil =>
    rintro _ ⟨⟩
    exact hparent.trans (hroot f rfl)
  | cons f' rest => simpa using hroot

end Stands

end CallStack

/-- The settings under which a run by itself is like one on top of other frames. -/
def Settings.lowered (settings : Settings) (below : CallStack) : Settings :=
  { settings with maxCallDepth := settings.maxCallDepth - below.depth }

/-! ## Actions on top of other frames -/

/-- The same error but for the limit that it reports, or results that are related. -/
inductive ResultLifts {α β : Type} (limit : Nat) (A : α → β → Prop) :
    Except RuntimeError α → Except RuntimeError β → Prop where
  | ok {a : α} {b : β} (h : A a b) : ResultLifts limit A (.ok a) (.ok b)
  | error (e : RuntimeError) : ResultLifts limit A (.error e) (.error (e.withLimit limit))

/-- Only an exceeded limit is reported with a limit. -/
theorem RuntimeError.withLimit_eq {e : RuntimeError} (h : ∀ l, e ≠ .callDepthExceeded l)
    (limit : Nat) : e.withLimit limit = e := by
  cases e with
  | callDepthExceeded l => exact absurd rfl (h l)
  | _ => rfl

/-- An error that is not about the limit is the same under any limit. -/
theorem ResultLifts.refl {α : Type} {limit : Nat} {r : Except RuntimeError α}
    (h : ∀ l, r ≠ .error (.callDepthExceeded l)) : ResultLifts limit Eq r r := by
  cases r with
  | ok a => exact .ok rfl
  | error e =>
    have he : ∀ l, e ≠ .callDepthExceeded l := fun l hl => h l (congrArg _ hl)
    have herror : ResultLifts limit (@Eq α) (.error e) _ := .error e
    rwa [e.withLimit_eq he] at herror

/-- A run that succeeds by itself succeeds on top of other frames. -/
theorem ResultLifts.of_ok {α β : Type} {limit : Nat} {A : α → β → Prop} {a : α}
    {r : Except RuntimeError β} (h : ResultLifts limit A (.ok a) r) : ∃ b, r = .ok b ∧ A a b := by
  cases h with
  | ok hab => exact ⟨_, rfl, hab⟩

/-- A run that fails by itself fails on top of other frames, with the limit that is set there. -/
theorem ResultLifts.of_error {α β : Type} {limit : Nat} {A : α → β → Prop} {e : RuntimeError}
    {r : Except RuntimeError β} (h : ResultLifts limit A (.error e) r) :
    r = .error (e.withLimit limit) := by
  cases h
  rfl

/-- A run by itself leaves no choice of the result on top of other frames. -/
theorem ResultLifts.unique {α β : Type} {limit : Nat} {A : α → β → Prop}
    (hA : ∀ a b b', A a b → A a b' → b = b') {r : Except RuntimeError α}
    {r₁ r₂ : Except RuntimeError β} (h₁ : ResultLifts limit A r r₁)
    (h₂ : ResultLifts limit A r r₂) : r₁ = r₂ := by
  cases r with
  | ok a =>
    obtain ⟨b, rfl, hab⟩ := h₁.of_ok
    obtain ⟨b', rfl, hab'⟩ := h₂.of_ok
    rw [hA a b b' hab hab']
  | error e => rw [h₁.of_error, h₂.of_error]

/-- The second run comes to the same on top of the frames `below`, and if they succeed, `m` frames
are left on top. -/
structure RunLifts {α β : Type} (below : CallStack) (limit m : Nat) (A : α → β → Prop)
    (out : Run α × CallStack) (out' : Run β × CallStack) : Prop where
  events_eq : out'.1.events = out.1.events.map (Event.deeper below.depth)
  result : ResultLifts limit A out.1.result out'.1.result
  left_eq : out'.2 = out.2.onto below
  stands : ∀ a, out.1.result = .ok a → out.2.Stands m

/-- On top of as many frames, a run comes to the same. -/
theorem RunLifts.run_eq {α β : Type} {below below' : CallStack} {limit m : Nat} {A : α → β → Prop}
    {out : Run α × CallStack} {out₁ out₂ : Run β × CallStack}
    (hdepth : below.depth = below'.depth) (hA : ∀ a b b', A a b → A a b' → b = b')
    (h₁ : RunLifts below limit m A out out₁) (h₂ : RunLifts below' limit m A out out₂) :
    out₁.1 = out₂.1 := by
  obtain ⟨⟨events₁, r₁⟩, left₁⟩ := out₁
  obtain ⟨⟨events₂, r₂⟩, left₂⟩ := out₂
  have hevents : events₁ = events₂ :=
    h₁.events_eq.trans (hdepth ▸ h₂.events_eq.symm)
  have hresult : r₁ = r₂ := h₁.result.unique hA h₂.result
  rw [hevents, hresult]

namespace Action

variable {α β γ δ : Type} {A : α → β → Prop} {B : γ → δ → Prop}
  {below : CallStack} {limit n m k : Nat}

/-- On top of the frames `below`, the second action does what the first one does by itself. The
actions find `n` frames and leave `m`. -/
def Lifts (below : CallStack) (limit n m : Nat) (A : α → β → Prop) (x : Action α) (y : Action β) :
    Prop :=
  ∀ t, t.Stands n → RunLifts below limit m A (x t) (y (t.onto below))

namespace Lifts

/-- Results that are known do not depend on what lies below. -/
theorem ofExcept {r : Except RuntimeError α} {r' : Except RuntimeError β}
    (h : ResultLifts limit A r r') :
    Lifts below limit n n A (Action.ofExcept r) (Action.ofExcept r') :=
  fun _ ht => ⟨rfl, h, rfl, fun _ _ => ht⟩

/-- Values that are given do not depend on what lies below. -/
theorem pure {a : α} {b : β} (h : A a b) :
    Lifts below limit n n A (Pure.pure a : Action α) (Pure.pure b : Action β) :=
  .ofExcept (.ok h)

/-- Events are recorded with the frames below counted in. -/
theorem emit (e : Event) :
    Lifts below limit n n Eq (Action.emit e) (Action.emit (e.deeper below.depth)) :=
  fun _ ht => ⟨rfl, .ok rfl, rfl, fun _ _ => ht⟩

/-- The stack that is seen has the frames below it. -/
theorem stack :
    Lifts below limit n n (fun t t' => t.Stands n ∧ t' = t.onto below) Action.stack Action.stack :=
  fun _ ht => ⟨rfl, .ok ⟨ht, rfl⟩, rfl, fun _ _ => ht⟩

/-- A change of the stack that leaves alone what lies below is the same change. -/
theorem modify {f : CallStack → CallStack}
    (h : ∀ t, t.Stands n → f (t.onto below) = (f t).onto below ∧ (f t).Stands m) :
    Lifts below limit n m Eq (Action.modify f) (Action.modify f) :=
  fun t ht => ⟨rfl, .ok rfl, (h t ht).1, fun _ _ => (h t ht).2⟩

/-- The frame that is taken off is the same, but for the place of its caller. -/
theorem pop :
    Lifts below limit (n + 1) n (fun f f' => f' = f.map (Frame.raised below.depth)) Action.pop
      Action.pop :=
  fun _ ht => ⟨rfl, .ok (congrArg Prod.fst ht.pop_onto), congrArg Prod.snd ht.pop_onto,
    fun _ _ => ht.pop⟩

/-- Binding a name is the same, as it is bound in the newest frame. -/
theorem set (name : String) (v : Value) :
    Lifts below limit (n + 1) (n + 1) Eq (Action.set name v) (Action.set name v) := by
  intro t ht
  obtain ⟨f, rest, rfl⟩ := ht.exists_cons
  exact ⟨rfl, .ok rfl, rfl, fun _ _ => ht.update rfl⟩

/-- Actions in a row are the same on top of other frames if each of them is. -/
theorem bind {x : Action α} {y : Action β} {f : α → Action γ} {g : β → Action δ}
    (hxy : Lifts below limit n m A x y) (hfg : ∀ a b, A a b → Lifts below limit m k B (f a) (g b)) :
    Lifts below limit n k B (x >>= f) (y >>= g) := by
  intro t ht
  have h := hxy t ht
  rcases hx : x t with ⟨⟨events, r⟩, left⟩
  rcases hy : y (t.onto below) with ⟨⟨events', r'⟩, left'⟩
  rw [hx, hy] at h
  obtain ⟨rfl, hresult, rfl, hleft⟩ := h
  cases hresult with
  | error e =>
    rw [bind_of_error hx, bind_of_error hy]
    exact ⟨rfl, .error e, rfl, nofun⟩
  | @ok a b hab =>
    have hmore := hfg a b hab left (hleft a rfl)
    rw [bind_of_ok hx, bind_of_ok hy]
    exact ⟨by rw [hmore.events_eq, List.map_append], hmore.result, hmore.left_eq, hmore.stands⟩

/-- Binding names is the same, as they are bound in the newest frame. -/
theorem setAll (entries : List (String × Value)) :
    Lifts below limit (n + 1) (n + 1) Eq (Action.setAll entries) (Action.setAll entries) := by
  induction entries with
  | nil => exact .pure rfl
  | cons e rest ih => exact (Lifts.set e.1 e.2).bind fun _ _ _ => ih

/-- What a function of the stack gives, if the frames below do not matter to it. -/
theorem query {f : CallStack → Except RuntimeError α}
    (honto : ∀ t, t.Stands n → f (t.onto below) = f t)
    (hlimit : ∀ t l, f t ≠ .error (.callDepthExceeded l)) :
    Lifts below limit n n Eq (Action.query f) (Action.query f) := by
  refine Lifts.stack.bind fun t t' ht => .ofExcept ?_
  obtain ⟨ht, rfl⟩ := ht
  rw [honto t ht]
  exact .refl (hlimit t)

end Lifts

end Action

/-! ## Running nodes on top of other frames -/

namespace Evaluation

open SmallPascal.Action (Lifts)

variable {below : CallStack} {limit n : Nat} {dumps : Bool} {invocation invocation' : Invocation}

/-- A name is read in the same way, whatever lies below. -/
theorem read_onto {t : CallStack} (h : t.Stands (n + 1)) (name : String) :
    read (t.onto below) name = read t name := by
  rw [read, read, h.get?_onto]

/-- A callee is looked up in the same way, whatever lies below. -/
theorem callee_onto {t : CallStack} (h : t.Stands (n + 1)) (name : String) :
    callee (t.onto below) name = callee t name := by
  rw [callee, callee, h.routine?_onto, h.get?_onto]

/-- An assignment is the same, at a depth that counts the frames below in. -/
theorem assign_lifts (target : String) (v : Value) :
    Lifts below limit (n + 1) (n + 1) Eq (assign target v) (assign target v) := by
  refine Lifts.stack.bind fun t t' ht => ?_
  obtain ⟨ht, rfl⟩ := ht
  rw [CallStack.depth_onto]
  exact (Lifts.emit (.assigned target v.text t.depth)).bind fun _ _ _ => .set target v

/-- A program brings a frame of its own, so it may find no frame on top. -/
theorem inProgram_lifts (name : String) {block block' : Action Unit}
    (hblock : Lifts below limit (n + 1) (n + 1) Eq block block') :
    Lifts below limit n n Eq (inProgram dumps name block) (inProgram dumps name block') := by
  refine (Lifts.emit (.programStarted name)).bind fun _ _ _ =>
    (Lifts.modify fun t ht => ⟨t.enterProgram_onto below name, ht.enterProgram name⟩).bind
      fun _ _ _ => hblock.bind fun _ _ _ => Lifts.stack.bind fun t t' ht => ?_
  obtain ⟨ht, rfl⟩ := ht
  rw [ht.dump_onto]
  refine Lifts.pop.bind fun f f' hf => (Lifts.emit (.programFinished name _)).bind fun _ _ _ =>
    .pure ?_
  subst hf
  cases f <;> rfl

/-- Running a node on top of other frames is running it by itself, if that is so of calls wherever
at least `n` frames are on top. -/
theorem lifts_lockstep
    (hcalls : ∀ k, n ≤ k → ∀ r args,
      Lifts below limit (k + 1) (k + 1) Eq (invocation r args) (invocation' r args)) :
    Lockstep dumps dumps invocation invocation' fun x y =>
      ∀ k, n ≤ k → Lifts below limit (k + 1) (k + 1) Eq x y where
  ofExcept r hr k _ := .ofExcept (.refl hr)
  read name k _ := .query (fun t ht => read_onto ht name) fun t l h => by
    cases Machine.read_eq_error h
  callee name k _ := .query (fun t ht => callee_onto ht name) fun t l => Machine.callee_ne_exceeded
  set name v k _ := .set name v
  assign target v k _ := assign_lifts target v
  bind hxy hkl k hk := (hxy k hk).bind fun a b hab => hab ▸ hkl a k hk
  call r args k hk := hcalls k hk r args
  program name b hb k hk :=
    (inProgram_lifts name (hb (k + 1) (Nat.le_succ_of_le hk))).bind fun _ _ _ => .pure rfl

/-- A block runs in the same way on top of other frames if calls inside of it do. -/
theorem execBlock_lifts
    (hcalls : ∀ k, n ≤ k → ∀ r args,
      Lifts below limit (k + 1) (k + 1) Eq (invocation r args) (invocation' r args)) (b : Block) :
    Lifts below limit (n + 1) (n + 1) Eq (execBlock dumps invocation b)
      (execBlock dumps invocation' b) :=
  (lifts_lockstep hcalls).execBlock b n (Nat.le_refl n)

/-- With no fewer frames than the limit, no call is made. -/
theorem invoke_of_full {settings : Settings} {s : CallStack} (h : settings.maxCallDepth ≤ s.depth)
    (budget : Nat) (r : Routine) (args : List Value) :
    invoke settings budget r args s =
      Action.fail (.callDepthExceeded settings.maxCallDepth) s := by
  cases budget with
  | zero => rfl
  | succ budget => rw [invoke, Action.stack_bind, if_pos h]

/-- The value of a call does not depend on where the frame of the routine was. -/
theorem resultOf_raised (d : Nat) (r : Routine) (f : Option Frame) :
    resultOf r (f.map (Frame.raised d)) = resultOf r f := by
  unfold resultOf
  split
  · cases f <;> rfl
  · rfl

/-- A call on top of other frames is the call by itself under a limit that is lower by their number,
if neither budget runs out before its limit is reached. -/
theorem invoke_lifts (settings : Settings) (below : CallStack) :
    ∀ budget budget' k, (settings.lowered below).maxCallDepth ≤ k + 1 + budget →
      settings.maxCallDepth ≤ k + 1 + below.depth + budget' → ∀ r args,
      Lifts below settings.maxCallDepth (k + 1) (k + 1) Eq
        (invoke (settings.lowered below) budget r args) (invoke settings budget' r args)
  | budget, budget', k, hbudget, hbudget', r, args => by
    have hlimit : (settings.lowered below).maxCallDepth = settings.maxCallDepth - below.depth := rfl
    intro t ht
    have hdepth := ht.depth_eq
    have hdepth' := t.depth_onto below
    by_cases hfull : (settings.lowered below).maxCallDepth ≤ t.depth
    · rw [invoke_of_full hfull, invoke_of_full (by omega)]
      exact ⟨rfl, .error (.callDepthExceeded _), rfl, nofun⟩
    · -- A call that the limit lets pass finds some budget left on either side.
      obtain ⟨budget, rfl⟩ : ∃ b, budget = b + 1 := ⟨budget - 1, by omega⟩
      obtain ⟨budget', rfl⟩ : ∃ b, budget' = b + 1 := ⟨budget' - 1, by omega⟩
      rw [invoke, invoke, Action.stack_bind, Action.stack_bind, if_neg hfull, if_neg (by omega)]
      refine Lifts.bind (n := k + 1) (m := k + 2) (.modify fun t ht =>
        ⟨ht.enterCall_onto r.name _, ht.enterCall r.name _⟩) (fun _ _ _ => ?_) t ht
      refine Lifts.stack.bind fun t t' ht => ?_
      obtain ⟨-, rfl⟩ := ht
      rw [CallStack.depth_onto]
      refine (Lifts.emit (.callEntered r.name t.depth)).bind fun _ _ _ =>
        (Lifts.setAll _).bind fun _ _ _ => (execBlock_lifts (fun j hj =>
          invoke_lifts settings below budget budget' j (by omega) (by omega)) r.block).bind
        fun _ _ _ => Lifts.pop.bind fun f f' hf => Lifts.stack.bind fun t t' ht => ?_
      obtain ⟨-, rfl⟩ := ht
      rw [CallStack.depth_onto, hf, resultOf_raised]
      exact (Lifts.emit (.callExited r.name t.depth)).bind fun _ _ _ => .pure rfl

/-- A program on top of other frames is the program by itself under a limit that is lower by their
number. -/
theorem program_lifts (settings : Settings) (below : CallStack) (q : Program) :
    Lifts below settings.maxCallDepth 0 0 Eq (program (settings.lowered below) q)
      (program settings q) :=
  inProgram_lifts q.name (execBlock_lifts (fun k _ => invoke_lifts settings below _ _ k
    (by omega) (by omega)) q.block)

/-- A program as a node of another one is on top of the frames `below` what it is by itself under a
limit that is lower by their number, but that it has no value. -/
theorem node_lifts (settings : Settings) (below : CallStack) (q : Program) :
    Lifts below settings.maxCallDepth 0 0 (fun _ v => v = none) (program (settings.lowered below) q)
      (exec settings.dumpBindings (call settings) q.node) := by
  rw [← bind_pure (program (settings.lowered below) q)]
  exact (program_lifts settings below q).bind fun _ _ _ => .pure rfl

/-- A program as a node of another one, run on the frames `s`, does what it does by itself under a
limit that is lower by the number of those frames. It has no value and leaves the frames as they
were, or it fails for the same reason, where the limit that is reported is the one of the settings;
and its events are deeper by the number of the frames. So nothing but that number matters to it. -/
theorem exec_program_isolated (settings : Settings) (q : Program) (s : CallStack) :
    let alone := q.run { settings with maxCallDepth := settings.maxCallDepth - s.depth }
    let nested := exec settings.dumpBindings (call settings) q.node s
    nested.1.events = alone.events.map (Event.deeper s.depth) ∧
      (match alone.result with
        | .ok _ => nested.1.result = .ok none ∧ nested.2 = s
        | .error (.callDepthExceeded _) =>
          nested.1.result = .error (.callDepthExceeded settings.maxCallDepth)
        | .error e => nested.1.result = .error e) ∧
      ∀ s' : CallStack, s'.depth = s.depth →
        (exec settings.dumpBindings (call settings) q.node s').1 = nested.1 := by
  -- The program by itself finds no frames: it is lifted from the empty stack.
  have hnode (s' : CallStack) := node_lifts settings s' q .empty CallStack.stands_empty
  simp only [CallStack.onto_empty] at hnode
  refine ⟨(hnode s).events_eq, ?_, fun s' hs' => ?_⟩
  · have hresult := (hnode s).result
    change match (program (settings.lowered s) q .empty).1.result with
      | .ok _ => _
      | .error (.callDepthExceeded _) => _
      | .error e => _
    cases hr : (program (settings.lowered s) q .empty).1.result with
    | ok o =>
      rw [hr] at hresult
      obtain ⟨_, hnone, rfl⟩ := hresult.of_ok
      have hgone := CallStack.eq_empty_of_stands ((hnode s).stands o hr)
      exact ⟨hnone, by rw [(hnode s).left_eq, hgone, CallStack.onto_empty]⟩
    | error e =>
      rw [hr] at hresult
      cases e <;> exact hresult.of_error
  · have hlowered : settings.lowered s' = settings.lowered s := by
      rw [Settings.lowered, Settings.lowered, hs']
    have hlike := hnode s'
    rw [hlowered] at hlike
    exact hlike.run_eq hs' (fun _ _ _ h h' => h.trans h'.symm) (hnode s)

/-- What is bound below a program is not in its sight. -/
example :
    let outer := (CallStack.empty.enterProgram "outer").set "x" (.integer 1)
    let inner : Program := ⟨"inner", ⟨[], [.assign "y" (.var "x")]⟩⟩
    outer.map (fun s => (exec false (call {}) inner.node s).1.result) =
      .ok (.error (.undefinedVariable "x")) := by
  cbv

end Evaluation

end SmallPascal

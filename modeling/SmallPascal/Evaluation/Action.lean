import SmallPascal.CallStack
import SmallPascal.Trace

/-!
# Actions on the call stack

A run is what happened and how it came out. What was recorded before a failure stays recorded.

An action is a run that works on the call stack. What it has done to the stack stays done when it
fails: frames that were put on top before the failure are still there, until they are dropped.
Actions are put one after the other by joining their events, as long as the first one succeeds.

`Action.Yields` says that an action succeeds, with which result and with which stack,
`Action.Fails` that it fails, why and with which stack, and `Action.Records` that an event is
recorded. The lemmas behind them say when that is so for each way to build an action.
-/

namespace SmallPascal

/-! ## Runs -/

/-- The events of a run, in order, and its result or why it stopped. -/
structure Run (α : Type) where
  events : List Event
  result : Except RuntimeError α

namespace Run

variable {α β : Type}

/-- A run whose result is changed. -/
def map (f : α → β) (r : Run α) : Run β :=
  ⟨r.events, r.result.map f⟩

/-- Whether a run has stopped without a result. -/
def failed (r : Run α) : Bool :=
  match r.result with
  | .ok _ => false
  | .error _ => true

end Run

/-! ## Actions -/

/-- Something done on a call stack: what happens and how it comes out, and the stack it leaves. -/
def Action (α : Type) : Type :=
  CallStack → Run α × CallStack

namespace Action

variable {α β : Type}

/-- Nothing is done. -/
protected def pure (a : α) : Action α := fun s =>
  (⟨[], .ok a⟩, s)

/-- One action and then another, if the first one succeeds. -/
protected def bind (x : Action α) (f : α → Action β) : Action β := fun s =>
  match x s with
  | (⟨events, .error e⟩, left) => (⟨events, .error e⟩, left)
  | (⟨events, .ok a⟩, left) =>
    let next := f a left
    (⟨events ++ next.1.events, next.1.result⟩, next.2)

instance : Monad Action where
  pure := Action.pure
  bind := Action.bind

/-- A result that is known without doing anything. -/
def ofExcept (r : Except RuntimeError α) : Action α := fun s =>
  (⟨[], r⟩, s)

/-- A failure. -/
def fail (e : RuntimeError) : Action α :=
  ofExcept (.error e)

/-- One event is recorded. -/
def emit (e : Event) : Action Unit := fun s =>
  (⟨[e], .ok ()⟩, s)

/-- The stack is looked at. -/
def stack : Action CallStack := fun s =>
  (⟨[], .ok s⟩, s)

/-- The stack is changed. -/
def modify (f : CallStack → CallStack) : Action Unit := fun s =>
  (⟨[], .ok ()⟩, f s)

/-- The newest frame is taken off. -/
def pop : Action (Option Frame) := fun s =>
  (⟨[], .ok s.pop.1⟩, s.pop.2)

/-- A name is bound in the newest frame. -/
def set (name : String) (v : Value) : Action Unit := fun s =>
  match s.set name v with
  | .ok left => (⟨[], .ok ()⟩, left)
  | .error e => (⟨[], .error e⟩, s)

/-- Names are bound in the newest frame, one after the other. -/
def setAll : List (String × Value) → Action Unit
  | [] => return
  | e :: rest => do
    set e.1 e.2
    setAll rest

variable {s left : CallStack}

/-! ## The laws of a monad -/

/-- Behind an action that succeeds, the next one goes on with its result and with the stack that it
has left, and the events of both are recorded. -/
theorem bind_of_ok {x : Action α} {events : List Event} {a : α}
    (h : x s = (⟨events, .ok a⟩, left)) (f : α → Action β) :
    (x >>= f) s = (⟨events ++ (f a left).1.events, (f a left).1.result⟩, (f a left).2) := by
  simp only [bind, Action.bind, h]

/-- Behind an action that fails nothing more is done. -/
theorem bind_of_error {x : Action α} {events : List Event} {e : RuntimeError}
    (h : x s = (⟨events, .error e⟩, left)) (f : α → Action β) :
    (x >>= f) s = (⟨events, .error e⟩, left) := by
  simp only [bind, Action.bind, h]

/-- Nothing is done behind an action. -/
theorem bind_nothing (x : Action α) : (x >>= fun a => pure a) = x := by
  funext s
  rcases h : x s with ⟨⟨events, e | a⟩, left⟩
  · rw [bind_of_error h]
  · rw [bind_of_ok h]
    simp [pure, Action.pure]

/-- Nothing is done before an action. -/
theorem nothing_bind (a : α) (f : α → Action β) : (pure a >>= f) = f a := by
  funext s
  rw [bind_of_ok (rfl : (pure a : Action _) s = (⟨[], .ok a⟩, s))]
  rfl

/-- Of three actions in a row, it does not matter which two are taken together. -/
theorem bind_bind {γ : Type} (x : Action α) (f : α → Action β) (g : β → Action γ) :
    (x >>= f >>= g) = x >>= fun a => f a >>= g := by
  funext s
  rcases h : x s with ⟨⟨events, e | a⟩, left⟩
  · rw [bind_of_error h, bind_of_error (bind_of_error h f)]
  · rw [bind_of_ok h]
    rcases h' : f a left with ⟨⟨events', e | b⟩, left'⟩
    · rw [bind_of_error h', bind_of_error (by rw [bind_of_ok h, h'])]
    · rw [bind_of_ok h', bind_of_ok (by rw [bind_of_ok h, h']), List.append_assoc]

instance : LawfulMonad Action :=
  LawfulMonad.mk' Action bind_nothing nothing_bind bind_bind

/-- Changing the result of an action changes nothing else of it. -/
theorem map_apply (f : α → β) (x : Action α) : (f <$> x) s = ((x s).1.map f, (x s).2) := by
  rw [map_eq_pure_bind]
  rcases h : x s with ⟨⟨events, e | a⟩, left⟩
  · rw [bind_of_error h]
    rfl
  · rw [bind_of_ok h]
    simp [pure, Action.pure, Run.map, Except.map]

/-- An action that looks at the stack first is done on the stack it has seen. -/
theorem stack_bind (f : CallStack → Action α) : (stack >>= f) s = f s s := by
  rw [bind_of_ok (rfl : stack s = (⟨[], .ok s⟩, s))]
  rfl

/-- Names are bound in the newest frame without fail. -/
theorem setAll_apply (entries : List (String × Value)) (f : Frame) (below : List Frame) :
    setAll entries ⟨f :: below⟩ =
      (⟨[], .ok ()⟩, ⟨{ f with members := f.members.insertAll entries } :: below⟩) := by
  induction entries generalizing f with
  | nil => rfl
  | cons e rest ih =>
    have hset : set e.1 e.2 ⟨f :: below⟩ = (⟨[], .ok ()⟩, ⟨f.set e.1 e.2 :: below⟩) := rfl
    rw [setAll, bind_of_ok hset, ih]
    rfl

/-- What an action does is told by its events, its result and the stack it leaves. -/
theorem eq_of_ok {x : Action α} {a : α} (h : (x s).1.result = .ok a) :
    x s = (⟨(x s).1.events, .ok a⟩, (x s).2) := by
  rw [← h]

/-- The same for an action that fails. -/
theorem eq_of_error {x : Action α} {e : RuntimeError} (h : (x s).1.result = .error e) :
    x s = (⟨(x s).1.events, .error e⟩, (x s).2) := by
  rw [← h]

/-! ## Actions that succeed -/

/-- An action on `s` succeeds, and this is its result and the stack it leaves. -/
def Yields (x : Action α) (s : CallStack) (a : α) (left : CallStack) : Prop :=
  (x s).1.result = .ok a ∧ (x s).2 = left

/-- An action that is known in full yields its result. -/
theorem yields_of_eq {x : Action α} {events : List Event} {a : α}
    (h : x s = (⟨events, .ok a⟩, left)) : x.Yields s a left := by
  rw [Yields, h]
  exact ⟨rfl, rfl⟩

@[simp] theorem yields_pure {a b : α} :
    (pure b : Action α).Yields s a left ↔ b = a ∧ s = left := by
  simp [Yields, pure, Action.pure]

@[simp] theorem yields_bind {x : Action α} {f : α → Action β} {b : β} :
    (x >>= f).Yields s b left ↔ ∃ a mid, x.Yields s a mid ∧ (f a).Yields mid b left := by
  simp only [Yields, bind, Action.bind]
  rcases x s with ⟨⟨events, e | a⟩, mid⟩
  · simp
  · exact ⟨fun h => ⟨a, mid, ⟨rfl, rfl⟩, h⟩, by rintro ⟨_, _, ⟨⟨⟩, rfl⟩, h⟩; exact h⟩

@[simp] theorem yields_map {x : Action α} {f : α → β} {b : β} :
    (f <$> x).Yields s b left ↔ ∃ a, x.Yields s a left ∧ f a = b := by
  rw [map_eq_pure_bind]
  simp only [yields_bind, yields_pure]
  exact ⟨fun ⟨a, _, h, hb, rfl⟩ => ⟨a, h, hb⟩, fun ⟨a, h, hb⟩ => ⟨a, left, h, hb, rfl⟩⟩

@[simp] theorem yields_ofExcept {r : Except RuntimeError α} {a : α} :
    (ofExcept r).Yields s a left ↔ r = .ok a ∧ s = left := Iff.rfl

@[simp] theorem not_yields_fail {e : RuntimeError} {a : α} : ¬ (fail e).Yields s a left := by
  simp [fail]

@[simp] theorem yields_emit {e : Event} {u : Unit} : (emit e).Yields s u left ↔ s = left := by
  simp [Yields, emit]

@[simp] theorem yields_stack {t : CallStack} : stack.Yields s t left ↔ s = t ∧ s = left := by
  simp [Yields, stack]

@[simp] theorem yields_modify {f : CallStack → CallStack} {u : Unit} :
    (modify f).Yields s u left ↔ f s = left := by
  simp [Yields, modify]

@[simp] theorem yields_pop {f : Option Frame} :
    pop.Yields s f left ↔ s.pop = (f, left) := by
  simp [Yields, pop, Prod.ext_iff]

@[simp] theorem yields_set {name : String} {v : Value} {u : Unit} :
    (set name v).Yields s u left ↔ s.set name v = .ok left := by
  unfold Yields set
  cases s.set name v <;> simp

/-! ## Actions that fail -/

variable {e : RuntimeError}

/-- An action on `s` fails for this reason, and this is the stack it leaves. -/
def Fails (x : Action α) (s : CallStack) (e : RuntimeError) (left : CallStack) : Prop :=
  (x s).1.result = .error e ∧ (x s).2 = left

@[simp] theorem fails_pure {a : α} : ¬ (pure a : Action α).Fails s e left :=
  fun h => nomatch h.1

@[simp] theorem fails_bind {x : Action α} {f : α → Action β} :
    (x >>= f).Fails s e left ↔
      x.Fails s e left ∨ ∃ a mid, x.Yields s a mid ∧ (f a).Fails mid e left := by
  rcases h : x s with ⟨⟨events, e' | a⟩, mid⟩
  · simp [Fails, Yields, bind_of_error h, h]
  · simp only [Fails, Yields, bind_of_ok h, h]
    exact ⟨fun hf => .inr ⟨a, mid, ⟨rfl, rfl⟩, hf⟩, by
      rintro (⟨⟨⟩, -⟩ | ⟨_, _, ⟨⟨⟩, rfl⟩, hf⟩)
      exact hf⟩

@[simp] theorem fails_map {x : Action α} {f : α → β} :
    (f <$> x).Fails s e left ↔ x.Fails s e left := by
  rw [map_eq_pure_bind]
  simp only [fails_bind, fails_pure, and_false, exists_false, or_false]

@[simp] theorem fails_ofExcept {r : Except RuntimeError α} :
    (ofExcept r).Fails s e left ↔ r = .error e ∧ s = left := Iff.rfl

@[simp] theorem fails_fail {e' : RuntimeError} :
    (fail e' : Action α).Fails s e left ↔ e' = e ∧ s = left := by
  simp [fail]

@[simp] theorem not_fails_emit {event : Event} : ¬ (emit event).Fails s e left :=
  fun h => nomatch h.1

@[simp] theorem not_fails_stack : ¬ stack.Fails s e left :=
  fun h => nomatch h.1

@[simp] theorem not_fails_modify {f : CallStack → CallStack} : ¬ (modify f).Fails s e left :=
  fun h => nomatch h.1

@[simp] theorem not_fails_pop : ¬ pop.Fails s e left :=
  fun h => nomatch h.1

@[simp] theorem fails_set {name : String} {v : Value} :
    (set name v).Fails s e left ↔ s.frames = [] ∧ e = .undefinedVariable name ∧ s = left := by
  obtain ⟨_ | ⟨f, below⟩⟩ := s
  · simp [Fails, set, CallStack.set, eq_comm]
  · simp [Fails, set, CallStack.set]

/-! ## What actions record -/

variable {event : Event}

/-- An action on `s` records an event. -/
def Records (x : Action α) (s : CallStack) (event : Event) : Prop :=
  event ∈ (x s).1.events

@[simp] theorem not_records_pure {a : α} : ¬ (pure a : Action α).Records s event :=
  List.not_mem_nil

@[simp] theorem records_bind {x : Action α} {f : α → Action β} :
    (x >>= f).Records s event ↔
      x.Records s event ∨ ∃ a mid, x.Yields s a mid ∧ (f a).Records mid event := by
  rcases h : x s with ⟨⟨events, e | a⟩, mid⟩
  · simp [Records, Yields, bind_of_error h, h]
  · simp only [Records, Yields, bind_of_ok h, h, List.mem_append]
    refine or_congr_right ⟨fun hf => ⟨a, mid, ⟨rfl, rfl⟩, hf⟩, ?_⟩
    rintro ⟨_, _, ⟨⟨⟩, rfl⟩, hf⟩
    exact hf

@[simp] theorem records_map {x : Action α} {f : α → β} :
    (f <$> x).Records s event ↔ x.Records s event := by
  rw [map_eq_pure_bind]
  simp only [records_bind, not_records_pure, and_false, exists_false, or_false]

@[simp] theorem not_records_ofExcept {r : Except RuntimeError α} :
    ¬ (ofExcept r).Records s event :=
  List.not_mem_nil

@[simp] theorem not_records_fail : ¬ (fail e : Action α).Records s event :=
  List.not_mem_nil

@[simp] theorem records_emit {event' : Event} : (emit event').Records s event ↔ event = event' :=
  List.mem_singleton

@[simp] theorem not_records_stack : ¬ stack.Records s event :=
  List.not_mem_nil

@[simp] theorem not_records_modify {f : CallStack → CallStack} : ¬ (modify f).Records s event :=
  List.not_mem_nil

@[simp] theorem not_records_pop : ¬ pop.Records s event :=
  List.not_mem_nil

@[simp] theorem not_records_set {name : String} {v : Value} : ¬ (set name v).Records s event := by
  unfold Records set
  cases s.set name v <;> exact List.not_mem_nil

end Action

end SmallPascal

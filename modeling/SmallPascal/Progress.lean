/-!
# Steps that make progress

A step over a list either fails or gives a result and the rest of the list. `Progress` bounds the
length of that rest in the type, so a recursion over rests is seen to end without any further
argument: a step that takes something from `xs` is a `Progress` bounded by `xs.length`, one that may
take nothing is bounded by `xs.length + 1`. The arithmetic that this needs is done where a step is
built, and seldom has to be written.

`Progress.toExcept` forgets the bound; `toExcept_bind_eq_ok_iff` and its companions say what is then
left of each combinator.
-/

namespace SmallPascal

/-- A failure, or a result and a rest of fewer than `bound` items. -/
def Progress (ε σ : Type) (bound : Nat) (α : Type) : Type :=
  Except ε { out : α × List σ // out.2.length < bound }

namespace Progress

variable {ε σ α β : Type} {bound m n : Nat}

/-! The bounds that steps are built with, by the items that were taken. -/

/-- Something was taken from the front. -/
theorem lt_cons (x : σ) (xs : List σ) : xs.length < (x :: xs).length :=
  Nat.lt_succ_self _

/-- Nothing has to be taken where one item more is allowed. -/
theorem lt_succ (xs : List σ) : xs.length < xs.length + 1 :=
  Nat.lt_succ_self _

/-- The same for a rest whose first item is known. -/
theorem cons_lt_succ (x : σ) (xs : List σ) : (x :: xs).length < (x :: xs).length + 1 :=
  Nat.lt_succ_self _

/-- A step behind one item is a step from that item on. -/
theorem le_cons (x : σ) (xs : List σ) : xs.length ≤ (x :: xs).length :=
  Nat.le_succ _

/-- A bound may be raised by one. -/
theorem le_succ (xs : List σ) : xs.length ≤ xs.length + 1 :=
  Nat.le_succ _

/-- The same for a rest whose first item is known. -/
theorem cons_le (x : σ) (xs : List σ) : (x :: xs).length ≤ (x :: xs).length + 1 :=
  Nat.le_succ _

/-- A step behind one item, whose next item is known, may be allowed one item more. -/
theorem cons_le_succ (x y : σ) (xs : List σ) :
    (y :: xs).length ≤ (x :: y :: xs).length + 1 :=
  Nat.le_add_right _ 2

/-- A result and the rest behind it. -/
def done (a : α) (rest : List σ)
    (h : rest.length < bound := by
      first
      | exact SmallPascal.Progress.lt_cons _ _
      | exact SmallPascal.Progress.cons_lt_succ _ _
      | exact SmallPascal.Progress.lt_succ _
      | ((try simp only [List.length_cons]); omega)) :
    Progress ε σ bound α :=
  Except.ok ⟨(a, rest), h⟩

/-- A failure. -/
def fail (e : ε) : Progress ε σ bound α :=
  Except.error e

/-- A step that is used where less progress is asked for. -/
def weaken (x : Progress ε σ m α)
    (h : m ≤ n := by
      first
      | exact SmallPascal.Progress.le_cons _ _
      | exact SmallPascal.Progress.cons_le _ _
      | exact SmallPascal.Progress.cons_le_succ _ _ _
      | exact SmallPascal.Progress.le_succ _
      | ((try simp only [List.length_cons]); omega)) : Progress ε σ n α :=
  match x with
  | .error e => .error e
  | .ok out => .ok ⟨out.1, Nat.lt_of_lt_of_le out.2 h⟩

/-- A step whose result is changed. -/
def map (f : α → β) : Progress ε σ n α → Progress ε σ n β
  | .error e => .error e
  | .ok out => .ok ⟨(f out.1.1, out.1.2), out.2⟩

/-- One step and then another on its rest, which need not take anything. -/
def bind (x : Progress ε σ n α)
    (f : (a : α) → (rest : List σ) → rest.length < n → Progress ε σ (rest.length + 1) β) :
    Progress ε σ n β :=
  match x with
  | .error e => .error e
  | .ok ⟨(a, rest), h⟩ => (f a rest h).weaken h

/-- A step without the bound on its rest. -/
def toExcept : Progress ε σ n α → Except ε (α × List σ)
  | .error e => .error e
  | .ok out => .ok out.1

@[simp] theorem toExcept_done (a : α) (rest : List σ) (h : rest.length < bound) :
    (done a rest h : Progress ε σ bound α).toExcept = .ok (a, rest) := rfl

@[simp] theorem toExcept_fail (e : ε) :
    (fail e : Progress ε σ bound α).toExcept = .error e := rfl

@[simp] theorem toExcept_weaken (h : m ≤ n) (x : Progress ε σ m α) :
    (x.weaken h).toExcept = x.toExcept := by
  cases x <;> rfl

@[simp] theorem toExcept_map (f : α → β) (x : Progress ε σ n α) :
    (x.map f).toExcept = x.toExcept.map fun out => (f out.1, out.2) := by
  cases x <;> rfl

/-- A rest is shorter than the bound of the step that left it. -/
theorem length_lt_of_toExcept {x : Progress ε σ n α} {a : α} {rest : List σ}
    (h : x.toExcept = .ok (a, rest)) : rest.length < n := by
  cases x with
  | error e => cases h
  | ok out => cases out with | mk out hlt => cases h; exact hlt

variable {x : Progress ε σ n α}
  {f : (a : α) → (rest : List σ) → rest.length < n → Progress ε σ (rest.length + 1) β}

@[simp] theorem toExcept_bind_done (a : α) (rest : List σ) (h : rest.length < n) :
    ((done a rest h).bind f).toExcept = (f a rest h).toExcept :=
  toExcept_weaken h (f a rest h)

/-- Two steps in a row succeed if both do. -/
theorem toExcept_bind_eq_ok_iff {out : β × List σ} :
    (x.bind f).toExcept = .ok out ↔
      ∃ a rest h, x.toExcept = .ok (a, rest) ∧ (f a rest h).toExcept = .ok out := by
  cases x with
  | error e => exact ⟨nofun, nofun⟩
  | ok y =>
    obtain ⟨⟨a, rest⟩, hlt⟩ := y
    show ((f a rest hlt).weaken hlt).toExcept = .ok out ↔ _
    rw [toExcept_weaken]
    exact ⟨fun h => ⟨a, rest, hlt, rfl, h⟩, by rintro ⟨_, _, _, ⟨⟩, h⟩; exact h⟩

/-- Two steps in a row fail if the first one does, or else the second. -/
theorem toExcept_bind_eq_error_iff {e : ε} :
    (x.bind f).toExcept = .error e ↔ x.toExcept = .error e ∨
      ∃ a rest h, x.toExcept = .ok (a, rest) ∧ (f a rest h).toExcept = .error e := by
  cases x with
  | error e' =>
    refine ⟨fun h => .inl (congrArg _ (Except.error.inj h)), ?_⟩
    rintro (h | ⟨_, _, _, h, -⟩)
    · exact congrArg _ (Except.error.inj h)
    · cases h
  | ok y =>
    obtain ⟨⟨a, rest⟩, hlt⟩ := y
    show ((f a rest hlt).weaken hlt).toExcept = .error e ↔ _
    rw [toExcept_weaken]
    refine ⟨fun h => .inr ⟨a, rest, hlt, rfl, h⟩, ?_⟩
    rintro (h | ⟨_, _, _, ⟨⟩, h⟩)
    · cases h
    · exact h

/-- Steps in a row agree if the second ones do. -/
theorem toExcept_bind_congr {x : Progress ε σ n α}
    {f g : (a : α) → (rest : List σ) → rest.length < n → Progress ε σ (rest.length + 1) β}
    (h : ∀ a rest hlt, (f a rest hlt).toExcept = (g a rest hlt).toExcept) :
    (x.bind f).toExcept = (x.bind g).toExcept := by
  cases x with
  | error e => rfl
  | ok y =>
    show ((f _ _ y.2).weaken y.2).toExcept = ((g _ _ y.2).weaken y.2).toExcept
    rw [toExcept_weaken, toExcept_weaken, h]

/-- Of three steps in a row, it does not matter which two are taken together. -/
theorem toExcept_bind_assoc {γ : Type} {x : Progress ε σ n α}
    {f : (a : α) → (rest : List σ) → rest.length < n → Progress ε σ (rest.length + 1) β}
    {g : (b : β) → (rest : List σ) → Progress ε σ (rest.length + 1) γ} :
    ((x.bind f).bind fun b rest _ => g b rest).toExcept =
      (x.bind fun a rest h => (f a rest h).bind fun b rest' _ => g b rest').toExcept := by
  cases x with
  | error e => rfl
  | ok y =>
    simp only [bind, toExcept_weaken]
    cases f y.1.1 y.1.2 y.2 with
    | error e => rfl
    | ok z =>
      simp only [weaken]
      cases g z.1.1 z.1.2 <;> rfl

end Progress

end SmallPascal

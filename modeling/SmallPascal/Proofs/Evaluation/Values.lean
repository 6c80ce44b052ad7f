import SmallPascal.Proofs.Evaluation.Machine

/-!
# Where values come from

A value that is found on the stack has been bound in a frame, so that what is so of every value that
is bound (`Frame.Holds`, `CallStack.Holds`) is so of every value that is found, and stays so as long
as nothing else is bound. Operators give numbers and truth values, never routines.
-/

namespace SmallPascal

/-- Every value in a map has a property if those that were there have it and those that are bound on
top. -/
theorem Bindings.of_get?_insertAll {P : Value → Prop} {entries : List (String × Value)}
    {b : Bindings} (hb : ∀ name v, b.get? name = some v → P v) (hentries : ∀ e ∈ entries, P e.2) :
    ∀ name v, (b.insertAll entries).get? name = some v → P v := by
  induction entries generalizing b with
  | nil => exact hb
  | cons e rest ih =>
    refine ih (fun name v h => ?_) fun e' he' => hentries e' (.tail _ he')
    rw [get?_insert] at h
    split at h
    · obtain rfl := Option.some.inj h
      exact hentries e (.head _)
    · exact hb name v h

/-- Every value that is bound in a frame has a property. -/
def Frame.Holds (P : Value → Prop) (f : Frame) : Prop :=
  ∀ name v, f.members.get? name = some v → P v

/-- The frame of a program binds nothing at first. -/
theorem Frame.holds_root (P : Value → Prop) (name : String) : (Frame.root name).Holds P :=
  nofun

/-- A frame keeps the property when a value that has it is bound. -/
theorem Frame.Holds.set {P : Value → Prop} {f : Frame} {v : Value} (hf : f.Holds P) (hv : P v)
    (name : String) : (f.set name v).Holds P :=
  have hentries : ∀ e ∈ [(name, v)], P e.2 := List.forall_mem_singleton.2 hv
  Bindings.of_get?_insertAll hf hentries

/-- Every value that is bound on a stack has a property. -/
def CallStack.Holds (P : Value → Prop) (s : CallStack) : Prop :=
  ∀ f ∈ s.frames, f.Holds P

namespace CallStack

variable {P : Value → Prop} {s : CallStack}

/-- Names are looked up in frames that are live. -/
theorem chainOf_subset (frames : List Frame) : ∀ f ∈ chainOf frames, f ∈ frames := by
  induction frames with
  | nil => simp [chainOf]
  | cons f below ih =>
    intro g hg
    rw [chainOf, List.mem_cons] at hg
    rcases hg with rfl | hg
    · exact .head _
    · split at hg
      · exact .tail _ (ih g hg)
      · exact absurd hg List.not_mem_nil

/-- A value that is found has been bound in a frame. -/
theorem exists_of_get? {name : String} {v : Value} (h : s.get? name = some v) :
    ∃ f ∈ s.frames, f.members.get? name = some v := by
  obtain ⟨f, hf, hv⟩ := List.exists_of_findSome?_eq_some h
  exact ⟨f, chainOf_subset _ f hf, hv⟩

/-- A routine that is found has been bound in a frame. -/
theorem exists_of_routine? {name : String} {r : Routine} (h : s.routine? name = some r) :
    ∃ f ∈ s.frames, f.members.get? name = some (.routine r) := by
  obtain ⟨f, hf, hr⟩ := List.exists_of_findSome?_eq_some h
  obtain ⟨v, hv, hvr⟩ := Option.bind_eq_some_iff.1 hr
  refine ⟨f, chainOf_subset _ f hf, ?_⟩
  cases v with
  | routine r' =>
    obtain rfl := Option.some.inj hvr
    exact hv
  | integer | boolean => cases hvr

/-- A call succeeds in finding a routine if one is seen under its name. -/
theorem callee_eq_ok_iff {name : String} {r : Routine} :
    Evaluation.callee s name = .ok r ↔ s.routine? name = some r := by
  unfold Evaluation.callee
  split
  next h => simp [h]
  next h => split <;> simp [h]

/-- A value that is seen has the property. -/
theorem Holds.of_get? (hs : s.Holds P) {name : String} {v : Value} (h : s.get? name = some v) :
    P v := by
  obtain ⟨f, hf, hv⟩ := exists_of_get? h
  exact hs f hf name v hv

/-- A routine that is seen has the property. -/
theorem Holds.of_routine? (hs : s.Holds P) {name : String} {r : Routine}
    (h : s.routine? name = some r) : P (.routine r) := by
  obtain ⟨f, hf, hv⟩ := exists_of_routine? h
  exact hs f hf name _ hv

/-- A value that is read has the property. -/
theorem Holds.of_read (hs : s.Holds P) {name : String} {v : Value}
    (h : Evaluation.read s name = .ok v) : P v := by
  unfold Evaluation.read at h
  split at h
  · obtain rfl := Except.ok.inj h
    exact hs.of_get? (by assumption)
  · cases h

/-- A routine that a call reaches has the property. -/
theorem Holds.of_callee (hs : s.Holds P) {name : String} {r : Routine}
    (h : Evaluation.callee s name = .ok r) : P (.routine r) :=
  hs.of_routine? (callee_eq_ok_iff.1 h)

/-- A stack keeps the property under a frame that has it. -/
theorem Holds.push (hs : s.Holds P) {f : Frame} (hf : f.Holds P) : (s.push f).Holds P :=
  List.forall_mem_cons.2 ⟨hf, hs⟩

/-- A stack keeps the property when a frame is taken off. -/
theorem Holds.pop (hs : s.Holds P) : s.pop.2.Holds P :=
  fun f hf => hs f (List.mem_of_mem_tail hf)

/-- A stack keeps the property when a value that has it is bound. -/
theorem Holds.set (hs : s.Holds P) {name : String} {v : Value} (hv : P v) {left : CallStack}
    (h : s.set name v = .ok left) : left.Holds P := by
  obtain ⟨_ | ⟨f, below⟩⟩ := s
  · cases h
  · obtain rfl := Except.ok.inj h
    obtain ⟨hf, hbelow⟩ := List.forall_mem_cons.1 hs
    exact List.forall_mem_cons.2 ⟨hf.set hv name, hbelow⟩

/-- What a routine gives has been bound in its frame. -/
theorem Holds.of_resultOf (hs : s.Holds P) {r : Routine} {v : Value}
    (h : Evaluation.resultOf r s.frames.head? = some v) : P v := by
  unfold Evaluation.resultOf at h
  split at h
  · obtain ⟨f, hf, hv⟩ := Option.bind_eq_some_iff.1 h
    exact hs f (List.mem_of_mem_head? hf) _ v hv
  · cases h

end CallStack

namespace Machine

/-- A routine's frame holds the arguments. -/
theorem holds_enteredFrame {P : Value → Prop} {values : List Value} (h : ∀ v ∈ values, P v)
    (s : CallStack) (r : Routine) : (enteredFrame s r values).Holds P :=
  Bindings.of_get?_insertAll nofun fun _ he => h _ (List.of_mem_zip he).2

/-- A routine that is entered without arguments reaches what its caller does. -/
theorem routine?_enteredFrame {s : CallStack} {name : String} {r : Routine} (r' : Routine)
    (h : s.routine? name = some r) : (s.push (enteredFrame s r' [])).routine? name = some r := by
  obtain ⟨_ | ⟨f, below⟩⟩ := s
  · cases h
  · have hmembers : (enteredFrame ⟨f :: below⟩ r' []).members = .empty := by
      rw [enteredFrame, List.zip_nil_right]
      rfl
    have hparent : (enteredFrame ⟨f :: below⟩ r' []).parent.isSome := rfl
    rw [CallStack.routine?, CallStack.chain, CallStack.push, CallStack.chainOf, if_pos hparent,
      List.findSome?_cons_of_isNone (by rw [hmembers]; rfl)]
    exact h

end Machine

/-! ## What operators give -/

/-- A value that can be taken for an integer is no routine. -/
theorem toInteger_routine {v : Value} {n : Int64} (h : v.toInteger = .ok n) :
    v.routine? = none := by
  cases v <;> first | rfl | cases h

/-- An operator gives no routine. -/
theorem unaryApply_eq_ok {op : UnaryOp} {v w : Value} (h : op.apply v = .ok w) :
    w.routine? = none := by
  unfold UnaryOp.apply at h
  cases hv : v.toInteger with
  | error e =>
    rw [hv] at h
    cases h
  | ok n =>
    rw [hv] at h
    cases op with
    | plus => exact Except.ok.inj h ▸ toInteger_routine hv
    | minus | not => exact Except.ok.inj h ▸ rfl

/-- What an operator gives is no routine. -/
theorem binaryApply_eq_ok {op : BinaryOp} {v w x : Value} (h : op.apply v w = .ok x) :
    x.routine? = none := by
  unfold BinaryOp.apply at h
  cases hv : v.toInteger with
  | error e =>
    rw [hv] at h
    cases h
  | ok n =>
    cases hw : w.toInteger with
    | error e =>
      rw [hv, hw] at h
      cases h
    | ok m =>
      rw [hv, hw] at h
      cases op with
      | div =>
        change (if m = 0 then Except.error RuntimeError.divisionByZero else .ok _) = _ at h
        split at h
        · cases h
        · exact Except.ok.inj h ▸ rfl
      | _ => exact Except.ok.inj h ▸ rfl

end SmallPascal

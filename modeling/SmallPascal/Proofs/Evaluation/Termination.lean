import SmallPascal.Proofs.Evaluation.Limit
import SmallPascal.Proofs.Evaluation.Values

/-!
# Evaluation ends

`Session.evaluation_ends`: the machine, which has no budget, comes to an end from whatever state it
is put in, and for a request with the answer of the session. What could run for ever without a limit
on live frames ends by exceeding it.

The measure behind this is the budget of `Evaluation.invoke`, frames that may still be put on top,
and then the size of the node: `Performs` says of every task that the machine works it off
(`exists_performs`), and an agenda is a list of tasks.
-/

namespace SmallPascal

namespace Machine

/-- What comes after a state in which something is left to do. -/
def Next (rules : Rules) (τ σ : State) : Prop :=
  σ.agenda ≠ [] ∧ τ = step rules σ

/-- The same rules without a limit. -/
def Rules.unlimited (rules : Rules) : Rules :=
  { rules with limit := none }

/-- Rules without a limit are as lenient as any. -/
theorem Rules.loosens_unlimited (rules : Rules) : rules.Loosens rules.unlimited :=
  ⟨rfl, rfl, fun _ _ => rfl⟩

/-- Every task does what some action does, and so is worked off. -/
theorem exists_performs (settings : Settings) (t : Task) :
    ∃ x, Performs settings.rules 0 0 [t] x := by
  have hserves := call_serves settings
  have hnode (n : Node) := exec_performs hserves n 0 (Nat.le_refl 0)
  have hmore (r : Routine) (more : List Node) (values : List Value) :=
    execArgs_performs hserves more 0 (Nat.le_refl 0) r values
  cases t with
  | visit n => exact ⟨_, hnode n⟩
  | unary op operand => exact ⟨_, unary_performs op operand⟩
  | left op a b => exact ⟨_, left_performs op a b (hnode b)⟩
  | right op l b => exact ⟨_, right_performs op l b⟩
  | assign target value => exact ⟨_, assign_performs target value⟩
  | arguments r values more => exact ⟨_, hmore r more values⟩
  | argument r values arg more => exact ⟨_, argument_performs r values arg more (hmore r more)⟩
  | leave r => exact ⟨_, leave_performs (d := 0) r⟩
  | start p => exact ⟨_, start_performs p (execBlock_performs hserves p.block (Nat.zero_le 1))⟩
  | finish name => exact ⟨_, finish_performs (d := 0) name⟩
  | nothing => exact ⟨_, nothing_performs⟩
  | answer n => exact ⟨_, answer_performs n⟩

/-- Whatever is left to do, the machine comes to its end. -/
theorem exists_agenda_nil (settings : Settings) (σ : State) :
    ∃ n, (after settings.rules n σ).agenda = [] := by
  obtain ⟨agenda, given, s, events⟩ := σ
  induction agenda generalizing given s events with
  | nil => exact ⟨0, rfl⟩
  | cons t rest ih =>
    cases given with
    | error e => exact ⟨1, by rw [after_succ, after_zero, step_of_error rfl]⟩
    | ok given =>
      obtain ⟨x, hx⟩ := exists_performs settings t
      obtain ⟨m, hm⟩ := hx.reaches rest given s events (Nat.zero_le _)
      rw [List.singleton_append] at hm
      rcases h : x given s with ⟨⟨new, e | g⟩, left⟩
      · rw [State.behind_bind_of_error h] at hm
        exact ⟨m, by rw [hm]⟩
      · rw [State.behind_bind_of_ok h, State.behind_pure, List.nil_append] at hm
        obtain ⟨n, hn⟩ := ih (.ok g) left (events ++ new)
        exact ⟨n + m, by rw [after_add, hm, hn]⟩

/-- No run goes on for ever. -/
theorem wellFounded_next (settings : Settings) : WellFounded (Next settings.rules) := by
  refine ⟨fun σ => ?_⟩
  obtain ⟨n, hn⟩ := exists_agenda_nil settings σ
  induction n generalizing σ with
  | zero => exact ⟨σ, fun τ hτ => absurd hn hτ.1⟩
  | succ n ih =>
    refine ⟨σ, ?_⟩
    rintro τ ⟨-, rfl⟩
    refine ih (step settings.rules σ) ?_
    rwa [after, Function.iterate_succ_apply] at hn

/-! ## Recursion without an end -/

/-- A call of a routine is about to be made, or the routine is about to be entered, and it is still
the routine that its name reaches. -/
structure Recurs (r : Routine) (σ : State) : Prop where
  running : ∃ g, σ.given = .ok g
  calls : ∃ rest,
    σ.agenda = .visit (.call r.name []) :: rest ∨ σ.agenda = .arguments r [] [] :: rest
  reached : Evaluation.callee σ.stack r.name = .ok r

namespace Recurs

variable {rules : Rules} {r : Routine} {σ : State} {more : List Node}

/-- While a routine is about to be called something is left to do. -/
theorem agenda_ne_nil (h : Recurs r σ) : σ.agenda ≠ [] := by
  obtain ⟨rest, h | h⟩ := h.calls <;> rw [h] <;> exact List.cons_ne_nil _ _

/-- Without a limit, a routine that first of all calls itself is entered again and again. -/
theorem step (hlimit : rules.limit = none) (hcallee : rules.callee = Evaluation.callee)
    (hparams : r.params = []) (hblock : r.block = ⟨[], .call r.name [] :: more⟩)
    (h : Recurs r σ) : Recurs r (Machine.step rules σ) := by
  obtain ⟨⟨g, hg⟩, ⟨rest, hagenda⟩, hreached⟩ := h
  obtain ⟨agenda, _, s, events⟩ := σ
  obtain rfl : _ = Except.ok g := hg
  obtain rfl | rfl : agenda = _ ∨ agenda = _ := hagenda
  · have hvisit : (Task.visit (.call r.name [])).perform rules g s =
        (⟨[], .ok ([.arguments r [] []], none)⟩, s) := by
      simp only [Task.perform, visit, Action.stack_bind, hcallee, hreached]
      rfl
    rw [step_cons, hvisit]
    exact ⟨⟨_, rfl⟩, ⟨rest, .inr rfl⟩, hreached⟩
  · -- No limit refuses the call, and the body begins with the next one.
    have henter : (Task.arguments r [] []).perform rules g s =
        (⟨[.callEntered r.name (s.depth + 1)],
          .ok (blockTasks r.block ++ [.leave r], none)⟩, s.push (enteredFrame s r [])) := by
      have hcheck : rules.check s.depth = .ok () := by rw [Rules.check, hlimit]
      rw [Task.perform, if_pos (by rw [hparams]; rfl), Action.stack_bind, hcheck]
      exact Action.bind_of_ok (enter_apply r [] s) _
    have hagenda : blockTasks r.block ++ [.leave r] ++ rest = .visit (.call r.name []) ::
        (more.map .visit ++ [.nothing] ++ [.leave r] ++ rest) := by
      rw [hblock]
      rfl
    rw [step_cons, henter]
    exact ⟨⟨_, rfl⟩, ⟨_, .inl hagenda⟩, CallStack.callee_eq_ok_iff.2
      (routine?_enteredFrame r (CallStack.callee_eq_ok_iff.1 hreached))⟩

end Recurs

end Machine

namespace Session

open Machine

/-- The steps of the machine are well-founded, whatever state it is put in; for a request it ends
with the answer of the session; and where it would go on for ever without a limit on live frames,
the answer is that the limit is exceeded. -/
theorem evaluation_ends (settings : Settings) :
    WellFounded (Next settings.rules) ∧
      ∀ q : Request,
        (∃ n, (after settings.rules n (.start q)).run? = some ((new settings).perform q).1) ∧
        ((∀ n, (after settings.rules.unlimited n (.start q)).agenda ≠ []) →
          ((new settings).perform q).1.result =
            .error (.callDepthExceeded settings.maxCallDepth)) := by
  refine ⟨wellFounded_next settings, fun q =>
    ⟨exists_run?_eq_perform settings q, fun hforever => ?_⟩⟩
  by_contra hne
  have h : ∀ l, ((new settings).perform q).1.result ≠ .error (.callDepthExceeded l) := fun l hl =>
    hne (perform_exceeded hl ▸ hl)
  obtain ⟨n, hn⟩ := perform_loosened settings.rules.loosens_unlimited h
  exact hforever n (State.agenda_of_run? hn)

/-- A procedure that calls itself would go on for ever. -/
theorem evaluation_ends_recursion :
    let f : Routine := ⟨"f", .procedure, [], none, ⟨[], [.call "f" []]⟩⟩
    let q : Request := .program ⟨"p", ⟨[f.node], [.call "f" []]⟩⟩
    (∀ n, (after (Settings.rules {}).unlimited n (.start q)).agenda ≠ []) ∧
      ((new {}).perform q).1.result = .error (.callDepthExceeded (Settings.maxCallDepth {})) := by
  intro f q
  have hrecurs : Recurs f (after (Settings.rules {}).unlimited 2 (.start q)) :=
    ⟨⟨_, rfl⟩, ⟨_, .inl rfl⟩, rfl⟩
  have hforever : ∀ n, (after (Settings.rules {}).unlimited n (.start q)).agenda ≠ []
    | 0 => List.cons_ne_nil _ _
    | 1 => List.cons_ne_nil _ _
    | n + 2 => by
      rw [after_add]
      exact (after_induction hrecurs (fun σ h => h.step rfl rfl rfl rfl) n).agenda_ne_nil
  exact ⟨hforever, ((evaluation_ends {}).2 q).2 hforever⟩

end Session

end SmallPascal

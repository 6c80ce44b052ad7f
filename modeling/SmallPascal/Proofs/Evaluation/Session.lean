import SmallPascal.Evaluation
import SmallPascal.Proofs.Evaluation.Frame

/-!
# A session has no memory

`performAll_new`: whatever a session has been asked before, and however that came out, its stack is
empty between requests and it answers the next one, events included, as a session in which nothing
has been run. A program that ends well takes its own frame off, and no other frame is left, because
running its block changes no frame below the newest (`program_restores`); after a failure there is
no telling how many frames are live, and the session drops them all.
-/

namespace SmallPascal

namespace Evaluation

/-- A program that ends well leaves the stack as it was. -/
theorem program_restores (settings : Settings) (p : Program) : (program settings p).Restores :=
  inProgram_restores (execBlock_updates (invoke_restores settings _) p.block)

end Evaluation

namespace Session

/-- The session that requests leave behind. -/
def afterAll (s : Session) (requests : List Request) : Session :=
  requests.foldl (fun s q => (s.perform q).2) s

/-- A session without frames has none after a program. -/
theorem runProgram_new (settings : Settings) (p : Program) :
    ((new settings).runProgram p).2 = new settings := by
  unfold runProgram new
  simp only [Session.mk.injEq, true_and]
  cases hfailed : (Evaluation.program settings p .empty).1.failed with
  | true => rfl
  | false =>
    rw [if_neg Bool.false_ne_true]
    unfold Run.failed at hfailed
    split at hfailed
    · next outcome hok => exact Evaluation.program_restores settings p ⟨hok, rfl⟩
    · contradiction

/-- A session without frames has none after an expression: the frame made for it is dropped. -/
theorem runExpression_new (settings : Settings) (n : Node) :
    ((new settings).runExpression n).2 = new settings := rfl

/-- A session without frames has none after any request. -/
theorem perform_new (settings : Settings) (q : Request) :
    ((new settings).perform q).2 = new settings := by
  cases q with
  | program p => exact runProgram_new settings p
  | expression n => exact runExpression_new settings n

/-- No request leaves a trace in a session: behind any requests it is as good as new, and it
answers each of them like a session that has been asked nothing else. -/
theorem performAll_new (settings : Settings) (requests : List Request) :
    ((new settings).afterAll requests).stack = .empty ∧
      (new settings).performAll requests = requests.map fun q => ((new settings).perform q).1 := by
  induction requests with
  | nil => exact ⟨rfl, rfl⟩
  | cons q rest ih =>
    rw [afterAll, List.foldl_cons, performAll, List.map_cons, perform_new]
    exact ⟨ih.1, congrArg _ ih.2⟩

end Session

end SmallPascal

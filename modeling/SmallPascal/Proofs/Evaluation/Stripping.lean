import SmallPascal.Interpreter
import SmallPascal.Proofs.Evaluation.Alike
import SmallPascal.Value.Encoding

/-!
# What has no meaning when a program runs

`run_strips`: declarations of variables, the types in the headings of routines, empty statements and
the brackets around statements can be taken away or changed, anywhere in a program and in its
routines, and the program runs as before, with the same events, and with the same error or the same
outcome but for the routines in it, in which the same has been taken away.

The two runs go side by side, on stacks that are the same but for what has been taken away in the
blocks of routines (`Strips`), and the evaluator looks into a routine only to run it.
-/

namespace SmallPascal

/-! ## Taking away -/

/-- What has no meaning is taken away from statements or declarations, or changed: declarations of
variables and empty statements are dropped, statements in brackets stand in the place of the
brackets, and the heading of a routine keeps the names of the parameters only. It need not be done
at all places. -/
inductive Strips : List Node → List Node → Prop where
  | nil : Strips [] []
  | keep (n : Node) (hrest : Strips rest rest') : Strips (n :: rest) (n :: rest')
  | varDecl (name : String) (type : TypeName) (hrest : Strips rest rest') :
    Strips (.varDecl name type :: rest) rest'
  | noOp (hrest : Strips rest rest') : Strips (.noOp :: rest) rest'
  | compound (hchildren : Strips children children') (hrest : Strips rest rest') :
    Strips (.compound children :: rest) (children' ++ rest')
  | routine (name : String) (kind : RoutineKind) {params params' : List Param}
    (returnType returnType' : Option TypeName)
    (hparams : params'.map Param.name = params.map Param.name)
    (hdeclarations : Strips declarations declarations') (hbody : Strips body body')
    (hrest : Strips rest rest') :
    Strips (.routine name kind params returnType declarations body :: rest)
      (.routine name kind params' returnType' declarations' body' :: rest')

/-- Nothing need be taken away. -/
theorem Strips.refl (ns : List Node) : Strips ns ns := by
  induction ns with
  | nil => exact .nil
  | cons n rest ih => exact .keep n ih

/-- What has no meaning is taken away from a block. -/
structure Block.Strips (b b' : Block) : Prop where
  declarations : SmallPascal.Strips b.declarations b'.declarations
  body : SmallPascal.Strips b.body b'.body

/-- Nothing need be taken away from a block. -/
theorem Block.Strips.refl (b : Block) : b.Strips b :=
  ⟨.refl _, .refl _⟩

/-- What has no meaning is taken away from a program. -/
structure Program.Strips (p q : Program) : Prop where
  name_eq : q.name = p.name
  block : p.block.Strips q.block

/-! ## Running what is left -/

namespace Evaluation

open SmallPascal.Action (Alike)

variable {dumps : Bool} {invocation invocation' : Invocation}

/-- Nodes are run in their order, wherever the list of them is cut. -/
theorem execAll_append (ns ms : List Node) :
    execAll dumps invocation (ns ++ ms) =
      (do execAll dumps invocation ns; execAll dumps invocation ms) := by
  induction ns with
  | nil => rw [List.nil_append, execAll, pure_bind]
  | cons n rest ih => simp only [List.cons_append, execAll, ih, bind_assoc]

/-- Running statements and what is left of them is alike, if calls are. -/
theorem execAll_strips (hcalls : InvocationAlike Block.Strips invocation invocation')
    {ns ns' : List Node} (h : Strips ns ns') :
    Alike Block.Strips Eq (execAll dumps invocation ns) (execAll dumps invocation' ns') := by
  induction h with
  | nil => exact execAll_alike Block.Strips.refl hcalls []
  | keep n _ ih =>
    rw [execAll, execAll]
    exact (exec_alike Block.Strips.refl hcalls n).bind fun _ _ _ => ih
  | varDecl | noOp =>
    rw [execAll, exec, pure_bind]
    assumption
  | compound _ _ ihchildren ih =>
    rw [execAll, exec, execAll_append]
    simp only [bind_assoc, pure_bind]
    exact ihchildren.bind fun _ _ _ => ih
  | routine name kind returnType returnType' hparams hdeclarations hbody _ _ _ ih =>
    rw [execAll, execAll, exec, exec]
    simp only [bind_assoc, pure_bind]
    refine (Alike.set name (.routine ?_)).bind fun _ _ _ => ih
    exact ⟨rfl, rfl, hparams, hdeclarations, hbody⟩

/-- A block from which something without meaning is taken away runs like the whole block, if calls
inside of it do. -/
theorem execBlock_strips (hcalls : InvocationAlike Block.Strips invocation invocation')
    {b b' : Block} (h : b.Strips b') :
    Alike Block.Strips Eq (execBlock dumps invocation b) (execBlock dumps invocation' b') :=
  (execAll_strips hcalls h.declarations).bind fun _ _ _ => execAll_strips hcalls h.body

/-- Running a program and what is left of it is alike. -/
theorem program_strips {p q : Program} (h : p.Strips q) (settings : Settings) :
    Alike Block.Strips (Outcome.Alike Block.Strips) (program settings p) (program settings q) := by
  have hcalls : InvocationAlike Block.Strips (call settings) (call settings) :=
    invoke_alike (fun _ _ hcalls _ _ hb => execBlock_strips hcalls hb) settings.maxCallDepth
  rw [program, program, h.name_eq]
  exact inProgram_alike p.name (execBlock_strips hcalls h.block)

end Evaluation

/-- Values that are alike are shown alike. -/
theorem Value.Alike.toJson_eq {R : Block → Block → Prop} {v v' : Value} (h : v.Alike R v') :
    v'.toJson = v.toJson := by
  cases h with
  | integer | boolean => rfl
  | routine h => simp only [Value.toJson, Routine.label, h.name_eq, h.kind_eq]

/-- Bindings that are alike are written alike, since a routine is written as its label. -/
theorem Bindings.Alike.toJson_eq {R : Block → Block → Prop} {b b' : Bindings} (h : b.Alike R b') :
    b'.toJson = b.toJson :=
  congrArg Json.object (map_eq_of_forall₂ h fun _ _ he => by rw [he.1, he.2.toJson_eq])

/-- Declarations of variables, types in headings, empty statements and the brackets around
statements have no meaning when a program runs. If they are taken away or changed, in the program
and in the bodies of its routines, it records the same events and ends with the same error, or with
the same outcome but for the routines that are bound, from which the same has been taken away; shown
as JSON the bindings are equal. -/
theorem run_strips {p q : Program} (h : p.Strips q) (settings : Settings) :
    (q.run settings).events = (p.run settings).events ∧
      ((∃ e, (p.run settings).result = .error e ∧ (q.run settings).result = .error e) ∨
        ∃ o o', (p.run settings).result = .ok o ∧ (q.run settings).result = .ok o' ∧
          o'.program = o.program ∧ o'.dump = o.dump ∧
          o.bindings.Alike Block.Strips o'.bindings ∧ o'.bindings.toJson = o.bindings.toJson) := by
  obtain ⟨hevents, hresult, -⟩ := Evaluation.program_strips h settings .empty .empty .nil
  refine ⟨hevents, ?_⟩
  change (∃ e, (Evaluation.program settings p .empty).1.result = _ ∧
    (Evaluation.program settings q .empty).1.result = _) ∨ ∃ o o',
      (Evaluation.program settings p .empty).1.result = _ ∧
        (Evaluation.program settings q .empty).1.result = _ ∧ _
  generalize (Evaluation.program settings p .empty).1.result = r at hresult ⊢
  generalize (Evaluation.program settings q .empty).1.result = r' at hresult ⊢
  cases hresult with
  | error e => exact .inl ⟨e, rfl, rfl⟩
  | ok ho =>
    exact .inr ⟨_, _, rfl, rfl, ho.program_eq, ho.dump_eq, ho.bindings, ho.bindings.toJson_eq⟩

/-- Everything that has no meaning is taken away from a program and its function. -/
theorem run_strips_function :
    let p : Program := ⟨"p",
      ⟨[.varDecl "x" .integer, .routine "f" .function [⟨"a", .integer⟩] (some .integer)
          [.varDecl "y" .integer] [.noOp, .compound [.assign "f" (.var "a")]]],
        [.compound [.compound [.assign "x" (.call "f" [.number 1])], .noOp], .noOp]⟩⟩
    let q : Program := ⟨"p",
      ⟨[.routine "f" .function [⟨"a", .boolean⟩] none [] [.assign "f" (.var "a")]],
        [.assign "x" (.call "f" [.number 1])]⟩⟩
    p.Strips q ∧ (q.run {}).events = (p.run {}).events ∧
      ((∃ e, (p.run {}).result = .error e ∧ (q.run {}).result = .error e) ∨
        ∃ o o', (p.run {}).result = .ok o ∧ (q.run {}).result = .ok o' ∧
          o'.program = o.program ∧ o'.dump = o.dump ∧
          o.bindings.Alike Block.Strips o'.bindings ∧ o'.bindings.toJson = o.bindings.toJson) := by
  intro p q
  have hf : Strips [.noOp, .compound [.assign "f" (.var "a")]]
      ([.assign "f" (.var "a")] ++ []) :=
    .noOp (.compound (.refl _) .nil)
  have hbody : Strips p.block.body ((([.assign "x" (.call "f" [.number 1])] ++ []) ++ []) ++ []) :=
    .compound (.compound (.refl _) (.noOp .nil)) (.noOp .nil)
  have hdeclarations : Strips p.block.declarations q.block.declarations :=
    .varDecl _ _ (.routine _ _ _ _ rfl (.varDecl _ _ .nil) hf .nil)
  have h : p.Strips q := ⟨rfl, hdeclarations, hbody⟩
  exact ⟨h, run_strips h {}⟩

end SmallPascal

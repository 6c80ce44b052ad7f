import Mathlib.Logic.Function.Iterate
import SmallPascal.Grammar
import SmallPascal.Token.Reader

/-!
# The rules step by step

The rules of the grammar are functions on the tokens that a text has left, and end by the way they
are defined. Here they are plans, which say what to do next and nothing about an end: to read an
item, to look at one, or to call a rule (`Rule.plan`). A loop is a rule that calls itself for the
next round. Plans are carried out on a cursor and ask for items one at a time, in two ways:

* `State.step` takes a single step, and a call is a step like any other, so a plan may keep the
  machine busy for ever;
* `Plan.Gives` relates a plan to its answer, with the calls it makes along the way in `Plan.Meets`.

A plan that gives an answer is carried out in finitely many steps (`Plan.Gives.reaches`), and there
is no other answer (`Plan.Gives.unique`).
-/

namespace SmallPascal.Grammar

/-! ## Plans -/

/-- The rules that call each other, with what they are told by their callers. -/
inductive Rule where
  | program
  | programHeading
  | block
  | variablePart
  | variableSection
  | routines
  | routine (kind : RoutineKind)
  | heading (kind : RoutineKind)
  | parameterPart
  | parameters
  | resultPart (kind : RoutineKind)
  | nameGroup
  | names
  | compound
  | statements
  | statement
  | tiers (n : Nat)
  | operations (tier : Nat) (left : Node)
  | factor
  | arguments
  | moreArguments

namespace Rule

/-- What a rule gives. -/
@[reducible]
def Value : Rule → Type
  | program => Program
  | programHeading => String
  | block => Block
  | variablePart | variableSection => List Node
  | routines => List Routine
  | routine _ => Routine
  | heading _ => String × List Param × Option TypeName
  | parameterPart | parameters => List Param
  | resultPart _ => Option TypeName
  | nameGroup => List String × TypeName
  | names => List String
  | compound | statements => List Node
  | statement | tiers _ | operations .. | factor => Node
  | arguments | moreArguments => List Node

/-- The rule of expressions. -/
def expression : Rule :=
  tiers BinaryOp.tierCount

end Rule

/-- What to do next. -/
inductive Plan (α : Type) where
  | done (a : α)
  | fail (e : SyntaxError)
  /-- Reads the next item and goes on with it, if it is a token. -/
  | read (next : Token → Plan α)
  /-- Looks at the item that many items ahead and goes on with it, if it is a token. -/
  | look (count : Nat) (next : Token → Plan α)
  /-- Goes on with what a rule gives. -/
  | call (r : Rule) (next : r.Value → Plan α)

namespace Plan

variable {α β : Type}

/-- Goes on with the result of a plan. -/
def bind : Plan α → (α → Plan β) → Plan β
  | done a, f => f a
  | fail e, _ => fail e
  | read next, f => read fun t => (next t).bind f
  | look count next, f => look count fun t => (next t).bind f
  | call r next, f => call r fun a => (next a).bind f

instance : Monad Plan where
  pure := done
  bind := bind

/-- Giving the result of a plan as it is changes nothing. -/
theorem bind_done (p : Plan α) : p.bind done = p := by
  induction p with
  | done a => rfl
  | fail e => rfl
  | read next ih => exact congrArg read (funext ih)
  | look count next ih => exact congrArg (look count) (funext ih)
  | call r next ih => exact congrArg (call r) (funext ih)

/-- Does what a rule does. -/
def ofRule (r : Rule) : Plan r.Value :=
  call r done

/-- Fails because of a token. -/
def unexpected (expected : Expectation) (t : Token) : Plan α :=
  fail (.unexpectedToken expected t.kind t.position)

/-- Reads a token of the given kind. -/
def take (kind : Token.Kind) : Plan Unit :=
  read fun t => if t.kind = kind then done () else unexpected (.kind kind) t

/-- Reads a name. -/
def takeName : Plan String :=
  read fun t =>
    match t.kind with
    | .identifier name => done name
    | _ => unexpected .identifier t

/-- Reads a type. -/
def takeType : Plan TypeName :=
  look 1 fun t =>
    match t.kind with
    | .keyword k =>
      match TypeName.ofKeyword? k with
      | some type => read fun _ => done type
      | none => unexpected .type t
    | _ => unexpected .type t

/-- Reads a part that a token of the given kind opens, if that token stands in front. -/
def maybe (opening : Token.Kind) (absent : α) (part : Plan α) : Plan α :=
  look 1 fun t => if t.kind = opening then read fun _ => part else done absent

/-- Reads a call: the name and the arguments. -/
def takeCall : Plan Node := do
  let name ← takeName
  take (.symbol .leftParen)
  return .call name (← ofRule .arguments)

/-- Reads an assignment. -/
def takeAssignment : Plan Node := do
  let target ← takeName
  take (.symbol .assign)
  return .assign target (← ofRule .expression)

end Plan

open Plan

/-- What a rule does. -/
def Rule.plan : (r : Rule) → Plan r.Value
  | program => do
    let name ← ofRule programHeading
    let b ← ofRule block
    take (.symbol .dot)
    return ⟨name, b⟩
  | programHeading =>
    maybe (.keyword .program) Program.defaultName do
      let name ← takeName
      take (.symbol .semicolon)
      return name
  | block => do
    let vars ← ofRule variablePart
    let rs ← ofRule routines
    let body ← ofRule compound
    return ⟨vars ++ rs.map Routine.node, body⟩
  | variablePart => maybe (.keyword .varSection) [] (ofRule variableSection)
  | variableSection => do
    let group ← ofRule nameGroup
    take (.symbol .semicolon)
    let nodes := group.1.map (Node.varDecl · group.2)
    look 1 fun t =>
      match t.kind with
      | .identifier _ => do return nodes ++ (← ofRule variableSection)
      | _ => done nodes
  | routines =>
    look 1 fun t =>
      match t.kind with
      | .keyword k =>
        match RoutineKind.ofKeyword? k with
        | some kind => read fun _ => do
          let r ← ofRule (routine kind)
          return r :: (← ofRule routines)
        | none => done []
      | _ => done []
  | routine kind => do
    let front ← ofRule (heading kind)
    let b ← ofRule block
    take (.symbol .semicolon)
    return ⟨front.1, kind, front.2.1, front.2.2, b⟩
  | heading kind => do
    let name ← takeName
    let params ← ofRule parameterPart
    let returnType ← ofRule (resultPart kind)
    take (.symbol .semicolon)
    return (name, params, returnType)
  | parameterPart =>
    maybe (.symbol .leftParen) [] do
      let params ← ofRule parameters
      take (.symbol .rightParen)
      return params
  | parameters => do
    let group ← ofRule nameGroup
    let params := group.1.map (Param.mk · group.2)
    maybe (.symbol .semicolon) params do
      return params ++ (← ofRule parameters)
  | resultPart .procedure => done none
  | resultPart .function => maybe (.symbol .colon) none (some <$> takeType)
  | nameGroup => do
    let vars ← ofRule names
    take (.symbol .colon)
    return (vars, ← takeType)
  | names => do
    let first ← takeName
    maybe (.symbol .comma) [first] do
      return first :: (← ofRule names)
  | compound => do
    take (.keyword .beginBlock)
    let children ← ofRule statements
    take (.keyword .endBlock)
    return children
  | statements => do
    let first ← ofRule statement
    look 1 fun t =>
      match t.kind with
      | .symbol .semicolon => read fun _ => do return first :: (← ofRule statements)
      | .identifier name => fail (.missingSeparator name t.position)
      | _ => done [first]
  | statement =>
    look 1 fun t =>
      match t.kind with
      | .keyword .beginBlock => do return .compound (← ofRule compound)
      | .identifier _ => look 2 fun u =>
        if u.kind = .symbol .leftParen then takeCall else takeAssignment
      | _ => done .noOp
  | tiers 0 => ofRule factor
  | tiers (tier + 1) => do
    let left ← ofRule (tiers tier)
    ofRule (operations tier left)
  | operations tier left =>
    look 1 fun t =>
      match operatorOf? tier t with
      | none => done left
      | some op => read fun _ => do
        let right ← ofRule (tiers tier)
        ofRule (operations tier (.binary op left right))
  | factor =>
    look 1 fun t =>
      match Opening.ofKind? t.kind with
      | none => unexpected .expression t
      | some (.literal node) => read fun _ => done node
      | some .group => read fun _ => do
        let node ← ofRule expression
        take (.symbol .rightParen)
        return node
      | some (.sign op) => read fun _ => do return .unary op (← ofRule factor)
      | some (.identifier _) => look 2 fun u =>
        if u.kind = .symbol .leftParen then takeCall else do return .var (← takeName)
  | arguments =>
    look 1 fun t =>
      if t.kind = .symbol .rightParen then read fun _ => done []
      else do
        let arg ← ofRule expression
        return arg :: (← ofRule moreArguments)
  | moreArguments =>
    look 1 fun t =>
      if t.kind = .symbol .comma then read fun _ => do
        let arg ← ofRule expression
        return arg :: (← ofRule moreArguments)
      else do
        take (.symbol .rightParen)
        return []

/-- Reads a whole text by a rule: what the rule reads, and then the end mark. -/
def Plan.wholeText (r : Rule) : Plan r.Value := do
  let a ← ofRule r
  take .endOfInput
  return a

namespace Plan

/-! ## Single steps -/

/-- A plan that is being carried out, or its answer, and where the reading stands. -/
inductive State (α : Type) where
  | running (p : Plan α) (c : Cursor)
  | finished (answer : Except SyntaxError α) (c : Cursor)

variable {α β : Type}

namespace State

/-- Takes a step. -/
def step : State α → State α
  | running (done a) c => finished (.ok a) c
  | running (fail e) c => finished (.error e) c
  | running (read next) c =>
    match c.next with
    | (.ok t, behind) => running (next t) behind
    | (.error e, behind) => finished (.error (.lexical e)) behind
  | running (look count next) c =>
    match ((TokenReader.ofCursor c).peek count).1 with
    | .ok t => running (next t) c
    | .error e => finished (.error (.lexical e)) c
  | running (call r next) c => running (r.plan.bind next) c
  | finished answer c => finished answer c

section

variable {next : Token → Plan α} {count : Nat} {c c' : Cursor} {t : Token} {e : LexicalError}

/-- A step that reads a token goes on behind the token. -/
theorem step_read (h : c.next = (.ok t, c')) :
    (running (.read next) c).step = running (next t) c' := by
  simp only [step, h]

/-- A step that cannot read a token fails, behind what could not be read. -/
theorem step_unreadable (h : c.next = (.error e, c')) :
    (running (.read next) c).step = finished (.error (.lexical e)) c' := by
  simp only [step, h]

/-- A step that looks at a token goes on where it was. -/
theorem step_look (h : ((TokenReader.ofCursor c).peek count).1 = .ok t) :
    (running (.look count next) c).step = running (next t) c := by
  simp only [step, h]

/-- A step that cannot see a token fails where it was. -/
theorem step_unseen (h : ((TokenReader.ofCursor c).peek count).1 = .error e) :
    (running (.look count next) c).step = finished (.error (.lexical e)) c := by
  simp only [step, h]

end

/-- Some number of steps leads from one state to another. -/
def Reaches (σ τ : State α) : Prop :=
  ∃ n, step^[n] σ = τ

/-- A state reaches itself without a step. -/
theorem Reaches.refl (σ : State α) : σ.Reaches σ :=
  ⟨0, rfl⟩

/-- What a reached state reaches is reached. -/
theorem Reaches.trans {σ τ υ : State α} (h : σ.Reaches τ) (h' : τ.Reaches υ) : σ.Reaches υ := by
  obtain ⟨m, rfl⟩ := h
  obtain ⟨n, rfl⟩ := h'
  exact ⟨n + m, Function.iterate_add_apply step n m σ⟩

/-- What the next state reaches is reached. -/
theorem Reaches.of_step {σ τ υ : State α} (h : σ.step = τ) (h' : τ.Reaches υ) : σ.Reaches υ :=
  trans ⟨1, h⟩ h'

/-- How a state goes on that has been waiting for an answer. -/
def resume (next : α → Plan β) (c : Cursor) : Except SyntaxError α → State β
  | .ok a => running (next a) c
  | .error e => finished (.error e) c

end State

/-! ## Answers -/

/-- What a plan gives at a cursor, and where it stops. -/
inductive Gives : {α : Type} → Plan α → Cursor → Except SyntaxError α → Cursor → Prop where
  | done {α : Type} (a : α) (c : Cursor) : Gives (.done a) c (.ok a) c
  | fail {α : Type} (e : SyntaxError) (c : Cursor) : Gives (.fail e : Plan α) c (.error e) c
  | read {α : Type} {next : Token → Plan α} {c c' stop : Cursor} {t : Token}
    {answer : Except SyntaxError α} (reads : c.next = (.ok t, c'))
    (gives : Gives (next t) c' answer stop) : Gives (.read next) c answer stop
  | unreadable {α : Type} {next : Token → Plan α} {c stop : Cursor} {e : LexicalError}
    (fails : c.next = (.error e, stop)) : Gives (.read next) c (.error (.lexical e)) stop
  | look {α : Type} {count : Nat} {next : Token → Plan α} {c stop : Cursor} {t : Token}
    {answer : Except SyntaxError α} (sees : ((TokenReader.ofCursor c).peek count).1 = .ok t)
    (gives : Gives (next t) c answer stop) : Gives (.look count next) c answer stop
  | unseen {α : Type} {count : Nat} {next : Token → Plan α} {c : Cursor} {e : LexicalError}
    (fails : ((TokenReader.ofCursor c).peek count).1 = .error e) :
    Gives (.look count next) c (.error (.lexical e)) c
  | call {α : Type} {r : Rule} {next : r.Value → Plan α} {c c' stop : Cursor} {a : r.Value}
    {answer : Except SyntaxError α} (called : Gives r.plan c (.ok a) c')
    (gives : Gives (next a) c' answer stop) : Gives (.call r next) c answer stop
  | callFails {α : Type} {r : Rule} {next : r.Value → Plan α} {c stop : Cursor} {e : SyntaxError}
    (called : Gives r.plan c (.error e) stop) : Gives (.call r next) c (.error e) stop

/-- The calls that a plan makes at a cursor: which rule it calls, and where. Calls that these make
in turn are not among them. -/
inductive Meets : Plan α → Cursor → Rule × Cursor → Prop where
  | here (r : Rule) (next : r.Value → Plan α) (c : Cursor) : Meets (.call r next) c (r, c)
  | behind {r : Rule} {next : r.Value → Plan α} {c c' : Cursor} {a : r.Value} {y : Rule × Cursor}
    (gives : r.plan.Gives c (.ok a) c') (meets : Meets (next a) c' y) : Meets (.call r next) c y
  | read {next : Token → Plan α} {c c' : Cursor} {t : Token} {y : Rule × Cursor}
    (reads : c.next = (.ok t, c')) (meets : Meets (next t) c' y) : Meets (.read next) c y
  | look {count : Nat} {next : Token → Plan α} {c : Cursor} {t : Token} {y : Rule × Cursor}
    (sees : ((TokenReader.ofCursor c).peek count).1 = .ok t) (meets : Meets (next t) c y) :
    Meets (.look count next) c y

variable {p : Plan α} {c stop stop' : Cursor} {answer answer' : Except SyntaxError α}
  {f : α → Plan β}

/-- A plan gives one answer at most. -/
theorem Gives.unique (h : p.Gives c answer stop) (h' : p.Gives c answer' stop') :
    answer = answer' ∧ stop = stop' := by
  induction h generalizing stop' with
  | done a c => cases h'; exact ⟨rfl, rfl⟩
  | fail e c => cases h'; exact ⟨rfl, rfl⟩
  | read hreads _ ih =>
    cases h' with
    | read hreads' hgives' => cases hreads.symm.trans hreads'; exact ih hgives'
    | unreadable hfails => cases hreads.symm.trans hfails
  | unreadable hfails =>
    cases h' with
    | read hreads => cases hfails.symm.trans hreads
    | unreadable hfails' => cases hfails.symm.trans hfails'; exact ⟨rfl, rfl⟩
  | look hsees _ ih =>
    cases h' with
    | look hsees' hgives' => cases hsees.symm.trans hsees'; exact ih hgives'
    | unseen hfails => cases hsees.symm.trans hfails
  | unseen hfails =>
    cases h' with
    | look hsees => cases hfails.symm.trans hsees
    | unseen hfails' => cases hfails.symm.trans hfails'; exact ⟨rfl, rfl⟩
  | call _ _ ihcalled ih =>
    cases h' with
    | call hcalled' hgives' =>
      obtain ⟨ha, rfl⟩ := ihcalled hcalled'
      cases ha
      exact ih hgives'
    | callFails hcalled' => cases (ihcalled hcalled').1
  | callFails _ ihcalled =>
    cases h' with
    | call hcalled' => cases (ihcalled hcalled').1
    | callFails hcalled' =>
      obtain ⟨he, rfl⟩ := ihcalled hcalled'
      cases he
      exact ⟨rfl, rfl⟩

/-- Two plans in a row give what the second one gives, where the first one has stopped. -/
theorem Gives.bind {a : α} {answer : Except SyntaxError β} {c' : Cursor}
    (h : p.Gives c (.ok a) c') (h' : (f a).Gives c' answer stop) :
    (p.bind f).Gives c answer stop := by
  induction p generalizing c with
  | done a => cases h; exact h'
  | fail e => cases h
  | read next ih =>
    cases h with
    | read hreads hgives => exact .read hreads (ih _ hgives)
  | look count next ih =>
    cases h with
    | look hsees hgives => exact .look hsees (ih _ hgives)
  | call r next ih =>
    cases h with
    | call hcalled hgives => exact .call hcalled (ih _ hgives)

/-- Two plans in a row fail if the first one does. -/
theorem Gives.bind_error {e : SyntaxError} (h : p.Gives c (.error e) stop) :
    (p.bind f).Gives c (.error e) stop := by
  induction p generalizing c with
  | done a => cases h
  | fail e => cases h; exact .fail e _
  | read next ih =>
    cases h with
    | read hreads hgives => exact .read hreads (ih _ hgives)
    | unreadable hfails => exact .unreadable hfails
  | look count next ih =>
    cases h with
    | look hsees hgives => exact .look hsees (ih _ hgives)
    | unseen hfails => exact .unseen hfails
  | call r next ih =>
    cases h with
    | call hcalled hgives => exact .call hcalled (ih _ hgives)
    | callFails hcalled => exact .callFails hcalled

/-- Two plans in a row make the calls of the first one and, where that gives a result, those of the
second. -/
theorem Meets.of_bind {y : Rule × Cursor} (h : (p.bind f).Meets c y) :
    p.Meets c y ∨ ∃ a c', p.Gives c (.ok a) c' ∧ (f a).Meets c' y := by
  induction p generalizing c with
  | done a => exact .inr ⟨a, c, .done a c, h⟩
  | fail e => cases h
  | read next ih =>
    cases h with
    | read hreads hmeets =>
      obtain hmeets | ⟨a, c', hgives, hmeets⟩ := ih _ hmeets
      · exact .inl (.read hreads hmeets)
      · exact .inr ⟨a, c', .read hreads hgives, hmeets⟩
  | look count next ih =>
    cases h with
    | look hsees hmeets =>
      obtain hmeets | ⟨a, c', hgives, hmeets⟩ := ih _ hmeets
      · exact .inl (.look hsees hmeets)
      · exact .inr ⟨a, c', .look hsees hgives, hmeets⟩
  | call r next ih =>
    cases h with
    | here => exact .inl (.here r next c)
    | behind hcalled hmeets =>
      obtain hmeets | ⟨a, c', hgives, hmeets⟩ := ih _ hmeets
      · exact .inl (.behind hcalled hmeets)
      · exact .inr ⟨a, c', .call hcalled hgives, hmeets⟩

/-- A plan that gives an answer is carried out in finitely many steps, whatever waits for it. -/
theorem Gives.reaches (h : p.Gives c answer stop) (f : α → Plan β) :
    (State.running (p.bind f) c).Reaches (State.resume f stop answer) := by
  induction h generalizing β with
  | done a c => exact .refl _
  | fail e c => exact .of_step rfl (.refl _)
  | read hreads _ ih => exact .of_step (State.step_read hreads) (ih f)
  | unreadable hfails => exact .of_step (State.step_unreadable hfails) (.refl _)
  | look hsees _ ih => exact .of_step (State.step_look hsees) (ih f)
  | unseen hfails => exact .of_step (State.step_unseen hfails) (.refl _)
  | call _ _ ihcalled ih => exact .of_step rfl ((ihcalled _).trans (ih f))
  | callFails _ ihcalled => exact .of_step rfl (ihcalled _)

/-- A plan that gives an answer comes to its end with that answer. -/
theorem Gives.reaches_finished (h : p.Gives c answer stop) :
    (State.running p c).Reaches (.finished answer stop) := by
  have hreaches := h.reaches Plan.done
  rw [bind_done] at hreaches
  cases answer with
  | error e => exact hreaches
  | ok a => exact hreaches.trans (.of_step rfl (.refl _))

end Plan

end SmallPascal.Grammar

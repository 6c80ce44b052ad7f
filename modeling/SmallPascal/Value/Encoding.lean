import SmallPascal.Evaluation
import SmallPascal.Json.Text

/-!
# Settings and values as JSON

Settings are an object, or an array that gives the settings in their order. What is left out has its
default. Members with other keys are ignored, but a setting may not be given twice.

Values are only written: integers and booleans stand for themselves, and a routine is shown by its
label, which does not say what the routine does.
-/

namespace SmallPascal

/-! ## Settings -/

namespace Settings

/-- A setting that is read if it is given, and has its default otherwise. -/
def given {α : Type} (read : Json → Option α) (default : α) : Option Json → Option α
  | some j => read j
  | none => some default

/-- Settings of which some may be given. -/
def ofParts? (maxCallDepth dumpBindings : Option Json) : Option Settings := do
  let standard : Settings := {}
  return ⟨← given Json.count? standard.maxCallDepth maxCallDepth,
    ← given Json.bool? standard.dumpBindings dumpBindings⟩

/-- Whether at most one member has a key. -/
def givenOnce (key : String) (members : List (String × Json)) : Bool :=
  (members.filter fun m => m.1 = key).length ≤ 1

/-- The settings that a value gives. -/
def ofJson? : Json → Option Settings
  | .object members =>
    if givenOnce "max_call_depth" members && givenOnce "dump_bindings" members then
      ofParts? (Json.member? "max_call_depth" members) (Json.member? "dump_bindings" members)
    else none
  | .array [] => ofParts? none none
  | .array [d] => ofParts? (some d) none
  | .array [d, b] => ofParts? (some d) (some b)
  | _ => none

/-- The settings that a JSON text gives. -/
def ofText? (text : String) : Option Settings :=
  (Json.ofText? text).bind ofJson?

end Settings

/-! ## Values -/

/-- A value as JSON. -/
def Value.toJson : Value → Json
  | integer n => .integer n.toInt
  | boolean b => .bool b
  | routine r => .string r.label

/-- Bindings as JSON, an object with a member for each name. -/
def Bindings.toJson (b : Bindings) : Json :=
  .object (b.entries.map fun e => (e.1, e.2.toJson))

end SmallPascal

/-!
# JSON values

JSON as data, and how records and alternatives are written in it. An alternative is named by its
tag: a string if it carries nothing, and otherwise an object whose only member has the tag as its
key. A record is an object with a member for each field; members that belong to no field are
ignored. A record may also be an array that gives all fields in their order.

Numbers are integers or decimals. A literal with a fraction or an exponent is a decimal even if its
value is whole, and so is `-0`; no integer is read from it.
-/

namespace SmallPascal

/-- A JSON value. -/
inductive Json where
  | null
  | bool (b : Bool)
  | integer (n : Int)
  /-- A number that is no integer, as it is written. -/
  | decimal (literal : String)
  | string (s : String)
  | array (items : List Json)
  | object (members : List (String × Json))

namespace Json

/-- An alternative that carries a value. -/
def variant (tag : String) (content : Json) : Json :=
  .object [(tag, content)]

/-- The tag of an alternative, and what it carries. -/
def variant? : Json → Option (String × Option Json)
  | .string tag => some (tag, none)
  | .object [(tag, content)] => some (tag, some content)
  | _ => none

/-- The tag of an alternative that carries nothing. A content that is null counts as none. -/
def tag? (j : Json) : Option String :=
  match j.variant? with
  | some (tag, none) => some tag
  | some (tag, some .null) => some tag
  | _ => none

/-- The value of a key; of several members with that key, the last one counts. -/
def member? (key : String) : List (String × Json) → Option Json
  | [] => none
  | (k, v) :: rest => (member? key rest).or (if k = key then some v else none)

/-- The fields of a record that is written as an object. A field may be missing. -/
def namedFields? (names : List String) : Json → Option (List (Option Json))
  | .object members => some (names.map fun name => member? name members)
  | _ => none

/-- The fields of a record, which may also be written as an array of all of them. -/
def fields? (names : List String) : Json → Option (List (Option Json))
  | .array items => if items.length = names.length then some (items.map some) else none
  | j => j.namedFields? names

/-- A boolean. -/
def bool? : Json → Option Bool
  | .bool b => some b
  | _ => none

/-- A string. -/
def string? : Json → Option String
  | .string s => some s
  | _ => none

/-- An integer of the signed 64-bit range. -/
def int64? : Json → Option Int64
  | .integer n =>
    if -9223372036854775808 ≤ n ∧ n < 9223372036854775808 then some (Int64.ofInt n) else none
  | _ => none

/-- An integer of the unsigned 64-bit range. -/
def count? : Json → Option Nat
  | .integer n => if 0 ≤ n ∧ n < 18446744073709551616 then some n.toNat else none
  | _ => none

/-- An array of things that are read in the same way. -/
def listOf? {α : Type} (item : Json → Option α) : Json → Option (List α)
  | .array items => items.mapM item
  | _ => none

mutual

/-- How deep arrays and objects nest in a value, the value itself included. -/
def depth : Json → Nat
  | .array items => depthAll items + 1
  | .object members => depthMembers members + 1
  | _ => 1

/-- The greatest depth among some values. -/
def depthAll : List Json → Nat
  | [] => 0
  | j :: rest => max j.depth (depthAll rest)

/-- The greatest depth among the values of some members. -/
def depthMembers : List (String × Json) → Nat
  | [] => 0
  | (_, j) :: rest => max j.depth (depthMembers rest)

end

end Json

end SmallPascal

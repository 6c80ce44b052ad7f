import SmallPascal.Json
import SmallPascal.Progress

/-!
# Reading JSON text

A JSON text is one value with nothing but blanks around it, by the strict grammar: no comments, no
leading zeros, no control characters in strings, and only the blanks of the keyboard between
lexemes. It is cut into lexemes first, which are punctuation, strings and other scalars.

An escape may name half of a surrogate pair. Two halves that belong together are one character; a
half by itself is no character and stands as U+FFFD, and the string is marked as not well formed.
The keys of an outermost object have to be well formed, while a string anywhere inside may hold an
unpaired half: such a string is never looked at by a reader of records.
-/

namespace SmallPascal.Json

/-! ## Lexemes -/

/-- A piece of a JSON text. -/
inductive Lexeme where
  | openBrace
  | closeBrace
  | openBracket
  | closeBracket
  | colon
  | comma
  /-- A string, and whether all surrogate halves in it are paired. -/
  | string (text : String) (wellFormed : Bool)
  /-- A number, a boolean or null. -/
  | scalar (value : Json)

namespace Lexeme

/-- The blanks that may stand between lexemes. -/
def isSpace (c : Char) : Bool :=
  c = ' ' || c = '\t' || c = '\n' || c = '\r'

/-- The value of a hexadecimal digit. -/
def hexDigit? (c : Char) : Option Nat :=
  if c.isDigit then some (c.toNat - 48)
  else if 'a' ≤ c ∧ c ≤ 'f' then some (c.toNat - 87)
  else if 'A' ≤ c ∧ c ≤ 'F' then some (c.toNat - 55)
  else none

/-- The number that four hexadecimal digits write. -/
def hexUnit? (a b c d : Char) : Option Nat := do
  return ((← hexDigit? a) * 16 + (← hexDigit? b)) * 256 + (← hexDigit? c) * 16 + (← hexDigit? d)

/-- What a backslash and a letter stand for. -/
def escape? : Char → Option Nat
  | '"' => some 0x22
  | '\\' => some 0x5C
  | '/' => some 0x2F
  | 'b' => some 0x08
  | 'f' => some 0x0C
  | 'n' => some 0x0A
  | 'r' => some 0x0D
  | 't' => some 0x09
  | _ => none

/-- The code points and surrogate halves of a string behind its opening quote, and the text behind
its closing quote. -/
def stringBody (units : List Nat) : List Char → Option (List Nat × List Char)
  | [] => none
  | '"' :: text => some (units.reverse, text)
  | '\\' :: 'u' :: a :: b :: c :: d :: text =>
    match hexUnit? a b c d with
    | some n => stringBody (n :: units) text
    | none => none
  | '\\' :: c :: text =>
    match escape? c with
    | some n => stringBody (n :: units) text
    | none => none
  | c :: text => if c.toNat < 0x20 then none else stringBody (c.toNat :: units) text

/-- Behind the closing quote of a string less text is left. -/
theorem length_lt_of_stringBody {units us : List Nat} {text rest : List Char}
    (h : stringBody units text = some (us, rest)) : rest.length < text.length := by
  fun_induction stringBody units text with
  | case1 => simp at h
  | case2 => simp_all
  | case3 _ _ _ _ _ _ _ _ ih => have := ih h; simp only [List.length_cons]; omega
  | case4 => simp at h
  | case5 _ _ _ _ _ _ ih => have := ih h; simp only [List.length_cons]; omega
  | case6 => simp at h
  | case7 => simp at h
  | case8 _ _ _ _ _ _ _ ih => have := ih h; simp only [List.length_cons]; omega

/-- Whether a unit is the first half of a pair. -/
def isHighHalf (n : Nat) : Bool :=
  0xD800 ≤ n && n < 0xDC00

/-- Whether a unit is the second half of a pair. -/
def isLowHalf (n : Nat) : Bool :=
  0xDC00 ≤ n && n < 0xE000

/-- The characters that units stand for, and whether all halves are paired. -/
def ofUnits : List Nat → List Char × Bool
  | [] => ([], true)
  | [n] =>
    if isHighHalf n || isLowHalf n then (['\uFFFD'], false) else ([Char.ofNat n], true)
  | n :: m :: rest =>
    if isHighHalf n && isLowHalf m then
      let (cs, wellFormed) := ofUnits rest
      (Char.ofNat (0x10000 + (n - 0xD800) * 0x400 + (m - 0xDC00)) :: cs, wellFormed)
    else
      let (cs, wellFormed) := ofUnits (m :: rest)
      if isHighHalf n || isLowHalf n then ('\uFFFD' :: cs, false)
      else (Char.ofNat n :: cs, wellFormed)

/-- The fraction or the exponent of a number: its first character, a sign where one may stand, and
digits. -/
structure Part where
  written : List Char
  rest : List Char

/-- Digits behind something that needs digits. -/
def digitsBehind? (front text : List Char) : Option Part :=
  match text.takeWhile Char.isDigit with
  | [] => none
  | digits => some ⟨front ++ digits, text.drop digits.length⟩

/-- The fraction at the front of a text, which may be missing. -/
def fraction? : List Char → Option Part
  | '.' :: text => digitsBehind? ['.'] text
  | text => some ⟨[], text⟩

/-- The exponent at the front of a text, which may be missing. -/
def exponent? : List Char → Option Part
  | c :: text =>
    if c = 'e' || c = 'E' then
      match text with
      | '+' :: text => digitsBehind? [c, '+'] text
      | '-' :: text => digitsBehind? [c, '-'] text
      | text => digitsBehind? [c] text
    else some ⟨[], c :: text⟩
  | [] => some ⟨[], []⟩

/-- What a number stands for: an integer, if nothing but a sign and digits is written and it is not
minus zero. -/
def numberOf (negative : Bool) (digits fraction exponent : List Char) : Json :=
  let value : Nat := Nat.ofDigitChars 10 digits 0
  if fraction = [] ∧ exponent = [] ∧ ¬(negative ∧ value = 0) then
    .integer (if negative then -(value : Int) else value)
  else
    let sign := if negative then ['-'] else []
    .decimal (String.ofList (sign ++ digits ++ fraction ++ exponent))

/-- A number behind its sign, at the front of a text, and the text behind it. -/
def number? (negative : Bool) (text : List Char) : Option (Json × List Char) :=
  match text.takeWhile Char.isDigit with
  | [] => none
  | digits =>
    if digits.head? = some '0' ∧ digits.length ≠ 1 then none
    else do
      let frac ← fraction? (text.drop digits.length)
      let exp ← exponent? frac.rest
      return (numberOf negative digits frac.written exp.written, exp.rest)

/-- Reading digits does not make the text longer. -/
theorem length_le_of_digitsBehind? {front text : List Char} {p : Part}
    (h : digitsBehind? front text = some p) : p.rest.length ≤ text.length := by
  unfold digitsBehind? at h
  split at h
  · simp at h
  · cases h; simp

/-- A fraction, which may be missing, does not make the text longer. -/
theorem length_le_of_fraction? {text : List Char} {p : Part} (h : fraction? text = some p) :
    p.rest.length ≤ text.length := by
  unfold fraction? at h
  split at h
  · have := length_le_of_digitsBehind? h; simp only [List.length_cons]; omega
  · cases h; simp

/-- An exponent, which may be missing, does not make the text longer. -/
theorem length_le_of_exponent? {text : List Char} {p : Part} (h : exponent? text = some p) :
    p.rest.length ≤ text.length := by
  unfold exponent? at h
  split at h
  · split at h
    · split at h
      · have := length_le_of_digitsBehind? h; simp only [List.length_cons]; omega
      · have := length_le_of_digitsBehind? h; simp only [List.length_cons]; omega
      · have := length_le_of_digitsBehind? h; simp only [List.length_cons]; omega
    · cases h; simp
  · cases h; simp

/-- A number has a digit, so less text is left behind it. -/
theorem length_lt_of_number? {negative : Bool} {text rest : List Char} {j : Json}
    (h : number? negative text = some (j, rest)) : rest.length < text.length := by
  unfold number? at h
  split at h
  · simp at h
  · next hd =>
    have hpos : 0 < (text.takeWhile Char.isDigit).length := List.length_pos_iff.2 hd
    have htake := (List.takeWhile_sublist (l := text) Char.isDigit).length_le
    split at h
    · simp at h
    · obtain ⟨frac, hf, h⟩ := Option.bind_eq_some_iff.1 h
      obtain ⟨exp, he, h⟩ := Option.bind_eq_some_iff.1 h
      have hf := length_le_of_fraction? hf
      have he := length_le_of_exponent? he
      simp only [List.length_drop] at hf
      cases h
      omega

/-- The lexeme at the front of a text that begins with no blank, and the text behind it. -/
def atFront? : List Char → Option (Lexeme × List Char)
  | [] => none
  | '{' :: text => some (openBrace, text)
  | '}' :: text => some (closeBrace, text)
  | '[' :: text => some (openBracket, text)
  | ']' :: text => some (closeBracket, text)
  | ':' :: text => some (colon, text)
  | ',' :: text => some (comma, text)
  | '"' :: text =>
    (stringBody [] text).map fun out =>
      let (cs, wellFormed) := ofUnits out.1
      (string (String.ofList cs) wellFormed, out.2)
  | 't' :: 'r' :: 'u' :: 'e' :: text => some (scalar (.bool true), text)
  | 'f' :: 'a' :: 'l' :: 's' :: 'e' :: text => some (scalar (.bool false), text)
  | 'n' :: 'u' :: 'l' :: 'l' :: text => some (scalar .null, text)
  | '-' :: text => (number? true text).map fun out => (scalar out.1, out.2)
  | text => (number? false text).map fun out => (scalar out.1, out.2)

/-- Behind any lexeme less text is left, which is why cutting a text into lexemes ends. -/
theorem length_lt_of_atFront? {text rest : List Char} {l : Lexeme}
    (h : atFront? text = some (l, rest)) : rest.length < text.length := by
  unfold atFront? at h
  split at h <;> try (cases h; simp only [List.length_cons]; omega)
  · simp at h
  · obtain ⟨out, ho, h⟩ := Option.map_eq_some_iff.1 h
    have := length_lt_of_stringBody ho
    cases h
    simp only [List.length_cons]; omega
  · obtain ⟨out, ho, h⟩ := Option.map_eq_some_iff.1 h
    have := length_lt_of_number? ho
    cases h
    simp only [List.length_cons]; omega
  · obtain ⟨out, ho, h⟩ := Option.map_eq_some_iff.1 h
    have := length_lt_of_number? ho
    cases h
    exact this

/-- The lexemes of a text, behind those that are already known. -/
def readAll (known : List Lexeme) (text : List Char) : Option (List Lexeme) :=
  match text with
  | [] => some known.reverse
  | c :: rest =>
    if isSpace c then readAll known rest
    else
      match _ : atFront? (c :: rest) with
      | some (l, behind) => readAll (l :: known) behind
      | none => none
termination_by text.length
decreasing_by
  · simp
  · exact length_lt_of_atFront? ‹_›

end Lexeme

/-! ## Values -/

/-- What reading from lexemes gives. -/
abbrev Read (bound : Nat) (α : Type) := Progress Unit Lexeme bound α

mutual

/-- Reads a value; `strict` asks for well-formed keys if it is an object. -/
def value (strict : Bool) (ls : List Lexeme) : Read ls.length Json :=
  match ls with
  | .scalar j :: rest => .done j rest
  | .string s _ :: rest => .done (.string s) rest
  | .openBracket :: .closeBracket :: rest => .done (.array []) rest
  | .openBracket :: rest => ((elements rest).map .array).weaken
  | .openBrace :: .closeBrace :: rest => .done (.object []) rest
  | .openBrace :: rest => ((members strict rest).map .object).weaken
  | _ => .fail ()
termination_by 2 * ls.length

/-- Reads the items of an array that has some, and the bracket that closes it. -/
def elements (ls : List Lexeme) : Read ls.length (List Json) :=
  (value false ls).bind fun j rest _ =>
    match rest with
    | .comma :: rest' => ((elements rest').map (j :: ·)).weaken
    | .closeBracket :: rest' => .done [j] rest'
    | _ => .fail ()
termination_by 2 * ls.length + 1
decreasing_by
  · omega
  · simp only [List.length_cons] at *; omega

/-- Reads the members of an object that has some, and the brace that closes it. -/
def members (strict : Bool) (ls : List Lexeme) : Read ls.length (List (String × Json)) :=
  match ls with
  | .string key wellFormed :: .colon :: rest =>
    if strict && !wellFormed then .fail ()
    else
      ((value false rest).bind fun j rest' _ =>
        match rest' with
        | .comma :: rest'' => ((members strict rest'').map ((key, j) :: ·)).weaken
        | .closeBrace :: rest'' => .done [(key, j)] rest''
        | _ => .fail ()).weaken
  | _ => .fail ()
termination_by 2 * ls.length
decreasing_by
  · simp only [List.length_cons]; omega
  · simp only [List.length_cons] at *; omega

end

/-- The value that a text writes. -/
def ofText? (text : String) : Option Json :=
  match Lexeme.readAll [] text.toList with
  | none => none
  | some ls =>
    match (value true ls).toExcept with
    | .ok (j, []) => some j
    | _ => none

end SmallPascal.Json

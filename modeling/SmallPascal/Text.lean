/-!
# Source texts

What is said of characters before there are tokens: where they stand, which of them are white space,
and what number a run of digits denotes.
-/

namespace SmallPascal

/-! ## Places

A position names a character of a text by its line and its column, both counted from 1; a column
counts characters, whatever their encoding. The position behind a piece of text depends only on the
position in front of it and on the piece, so the positions of a text compose along `++`
(`Position.after_append`). -/

/-- A place in a source text. -/
structure Position where
  line : Nat
  column : Nat
deriving DecidableEq

namespace Position

/-- Where a text begins. -/
def start : Position := ⟨1, 1⟩

/-- The place behind one character: a newline opens the next line, any other character takes one
column. -/
def next (p : Position) (c : Char) : Position :=
  if c = '\n' then ⟨p.line + 1, 1⟩ else ⟨p.line, p.column + 1⟩

/-- The place behind a piece of text. -/
def after (p : Position) (text : List Char) : Position :=
  text.foldl next p

@[simp] theorem after_nil (p : Position) : p.after [] = p := rfl

@[simp] theorem after_cons (p : Position) (c : Char) (text : List Char) :
    p.after (c :: text) = (p.next c).after text := rfl

/-- The place behind two pieces of text is the one behind the second, counted from the place behind
the first. -/
theorem after_append (p : Position) (s t : List Char) :
    p.after (s ++ t) = (p.after s).after t :=
  List.foldl_append ..

end Position

namespace Text

/-! ## White space

The characters that Unicode gives the property White_Space, as ranges of code points. The set is
wider than the blanks of the keyboard: it has the no-break spaces, the typographic spaces and the
two separators, but not the zero-width space. -/

/-- The code points with the property White_Space, as inclusive ranges. -/
def blankRanges : List (Nat × Nat) :=
  [(0x09, 0x0D), (0x20, 0x20), (0x85, 0x85), (0xA0, 0xA0), (0x1680, 0x1680), (0x2000, 0x200A),
    (0x2028, 0x2029), (0x202F, 0x202F), (0x205F, 0x205F), (0x3000, 0x3000)]

/-- Whether a character is white space. -/
def isBlank (c : Char) : Bool :=
  blankRanges.any fun r => r.1 ≤ c.toNat && c.toNat ≤ r.2

example : (blankRanges.map fun r => r.2 - r.1 + 1).sum = 25 := by decide

/-! ## Decimal numerals

A numeral is a run of digits without a sign. It is read in decimal, whatever zeros stand in front,
and denotes a value of the language if that value fits the 64-bit range. -/

/-- The number a run of digits stands for in decimal. -/
def decimalValue (digits : List Char) : Nat :=
  Nat.ofDigitChars 10 digits 0

/-- The 64-bit integer a run of digits denotes, if it is not too large. -/
def integerOfDigits? (digits : List Char) : Option Int64 :=
  if decimalValue digits < 9223372036854775808 then some (Int64.ofNat (decimalValue digits))
  else none

example : integerOfDigits? "0009223372036854775807".toList = some Int64.maxValue := by
  decide +kernel
example : integerOfDigits? "9223372036854775808".toList = none := by decide +kernel

/-- Reading back the decimal digits of a number gives the number. -/
theorem decimalValue_toDigits (n : Nat) : decimalValue (Nat.toDigits 10 n) = n :=
  Nat.ofDigitChars_toDigits (by decide) (by decide)

end Text

end SmallPascal

import SmallPascal.Text

/-!
# Tokens

The vocabulary of the language: reserved words, signs, names and numerals. A reserved word or a sign
is known by its spelling alone (`Keyword.ofSpelling?`, `Symbol.ofSpelling?`), and words are told
apart by exact case, so `begin` is a name while `BEGIN` is reserved. `Token.Kind.text` is the
spelling of a kind, `Token.Kind.describe` the words a syntax error uses for it.
-/

namespace SmallPascal

/-- The reserved words. -/
inductive Keyword where
  | program
  | beginBlock
  | endBlock
  | varSection
  | integer
  | boolean
  | function
  | procedure
  | trueLiteral
  | falseLiteral
deriving DecidableEq

namespace Keyword

/-- Every reserved word. -/
def all : List Keyword :=
  [program, beginBlock, endBlock, varSection, integer, boolean, function, procedure, trueLiteral,
    falseLiteral]

/-- The one way to write a reserved word. -/
def spelling : Keyword → String
  | program => "PROGRAM"
  | beginBlock => "BEGIN"
  | endBlock => "END"
  | varSection => "VAR"
  | integer => "INTEGER"
  | boolean => "BOOLEAN"
  | function => "FUNCTION"
  | procedure => "PROCEDURE"
  | trueLiteral => "TRUE"
  | falseLiteral => "FALSE"

/-- The reserved word written `s`, if there is one. -/
def ofSpelling? (s : String) : Option Keyword :=
  all.find? fun k => k.spelling = s

/-- No reserved word is missing from the list. -/
theorem mem_all (k : Keyword) : k ∈ all := by
  cases k <;> decide

/-- A reserved word is known by its spelling. -/
theorem ofSpelling?_spelling (k : Keyword) : ofSpelling? k.spelling = some k := by
  cases k <;> decide

/-- Nothing but its spelling is taken for a reserved word. -/
theorem spelling_of_ofSpelling? {s : String} {k : Keyword} (h : ofSpelling? s = some k) :
    k.spelling = s := by
  simpa using List.find?_some h

end Keyword

/-- Operators and punctuation. -/
inductive Symbol where
  | assign
  | equal
  | notEqual
  | lessEqual
  | greaterEqual
  | and
  | or
  | plus
  | minus
  | times
  | divide
  | less
  | greater
  | not
  | leftParen
  | rightParen
  | semicolon
  | colon
  | comma
  | dot
deriving DecidableEq

namespace Symbol

/-- Every sign, those of two characters before those of one. -/
def all : List Symbol :=
  [assign, equal, notEqual, lessEqual, greaterEqual, and, or, plus, minus, times, divide, less,
    greater, not, leftParen, rightParen, semicolon, colon, comma, dot]

/-- The one way to write a sign. -/
def spelling : Symbol → String
  | assign => ":="
  | equal => "=="
  | notEqual => "!="
  | lessEqual => "<="
  | greaterEqual => ">="
  | and => "&&"
  | or => "||"
  | plus => "+"
  | minus => "-"
  | times => "*"
  | divide => "/"
  | less => "<"
  | greater => ">"
  | not => "!"
  | leftParen => "("
  | rightParen => ")"
  | semicolon => ";"
  | colon => ":"
  | comma => ","
  | dot => "."

/-- The sign written `s`, if there is one. -/
def ofSpelling? (s : String) : Option Symbol :=
  all.find? fun k => k.spelling = s

/-- The longest sign that `text` begins with, if it begins with any: `all` lists the longer ones
first. -/
def longestAt? (text : List Char) : Option Symbol :=
  all.find? fun k => k.spelling.toList.isPrefixOf text

/-- No sign is missing from the list. -/
theorem mem_all (s : Symbol) : s ∈ all := by
  cases s <;> decide

/-- A sign is known by its spelling. -/
theorem ofSpelling?_spelling (s : Symbol) : ofSpelling? s.spelling = some s := by
  cases s <;> decide

/-- Nothing but its spelling is taken for a sign. -/
theorem spelling_of_ofSpelling? {s : String} {k : Symbol} (h : ofSpelling? s = some k) :
    k.spelling = s := by
  simpa using List.find?_some h

/-- A sign that is found in front of a text is spelled there. -/
theorem spelling_isPrefixOf_of_longestAt? {text : List Char} {s : Symbol}
    (h : longestAt? text = some s) : s.spelling.toList.isPrefixOf text := by
  simpa using List.find?_some h

/-- Every sign has a character, so a text gets shorter by each that is read. -/
theorem length_spelling_pos (s : Symbol) : 0 < s.spelling.toList.length := by
  cases s <;> decide

end Symbol

/-- What a token is, without its place. -/
inductive Token.Kind where
  | integer (value : Int64)
  | identifier (name : String)
  | keyword (word : Keyword)
  | symbol (sign : Symbol)
  | endOfInput
deriving DecidableEq

/-- A piece of a source text: what it is, how it is written and where it begins. -/
structure Token where
  kind : Token.Kind
  lexeme : String
  position : Position
deriving DecidableEq

namespace Token

/-- The number a numeral stands for. -/
def integer? (t : Token) : Option Int64 :=
  match t.kind with
  | .integer n => some n
  | _ => none

/-- The name an identifier stands for. -/
def name? (t : Token) : Option String :=
  match t.kind with
  | .identifier name => some name
  | _ => none

namespace Kind

/-- The kind of a word: reserved if it is spelled like a reserved word, a name otherwise. -/
def ofWord (word : String) : Kind :=
  match Keyword.ofSpelling? word with
  | some k => keyword k
  | none => identifier word

/-- Whether a kind is a reserved word. -/
def isKeyword : Kind → Bool
  | keyword _ => true
  | _ => false

/-- Whether two kinds agree but for the number or the name they carry. -/
def sameKind : Kind → Kind → Bool
  | integer _, integer _ => true
  | identifier _, identifier _ => true
  | keyword a, keyword b => a = b
  | symbol a, symbol b => a = b
  | endOfInput, endOfInput => true
  | _, _ => false

/-- How a kind is written; the end of the input, which has no spelling, is shown as a mark. -/
def text : Kind → String
  | integer n => toString n.toInt
  | identifier name => name
  | keyword k => k.spelling
  | symbol s => s.spelling
  | endOfInput => "<eof>"

/-- What a syntax error calls a kind. -/
def describe : Kind → String
  | integer _ => "integer"
  | identifier name => if name = "" then "identifier" else "identifier `" ++ name ++ "`"
  | endOfInput => "end of input"
  | kind => "`" ++ kind.text ++ "`"

end Kind

end Token

end SmallPascal

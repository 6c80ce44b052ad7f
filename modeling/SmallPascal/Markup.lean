/-!
# Markup

Trees of named elements and their layout: one line for every tag, indented by one tab for each
element around it. A text is written line by line by a writer that counts the elements that are open
(`Markup.write`, `Markup.render`). The text between tags stands as it is, nothing is escaped.
-/

namespace SmallPascal

/-- An element of a markup text. -/
inductive Markup where
  /-- An element with text inside, on one line. -/
  | leaf (tag text : String)
  /-- An element with nothing inside, on one line. -/
  | empty (tag : String)
  /-- An element around others, which may carry a name. -/
  | element (tag : String) (name : Option String) (children : List Markup)

namespace Markup

/-- What stands on a line. -/
inductive Line.Content where
  | leaf (tag text : String)
  | empty (tag : String)
  | opening (tag : String) (name : Option String)
  | closing (tag : String)
deriving DecidableEq

/-- A line: how far it is indented and what it holds. -/
structure Line where
  depth : Nat
  content : Line.Content
deriving DecidableEq

/-- The text of a line without its indentation. -/
def Line.Content.text : Line.Content → String
  | .leaf tag text => "<" ++ tag ++ ">" ++ text ++ "</" ++ tag ++ ">"
  | .empty tag => "<" ++ tag ++ " />"
  | .opening tag none => "<" ++ tag ++ ">"
  | .opening tag (some name) => "<" ++ tag ++ " name=\"" ++ name ++ "\">"
  | .closing tag => "</" ++ tag ++ ">"

/-- A line with its indentation and its line break. -/
def Line.text (l : Line) : String :=
  String.ofList (List.replicate l.depth '\t') ++ l.content.text ++ "\n"

/-- A text that is being written: what has been written, and how many elements are open. -/
structure Writer where
  text : String
  depth : Nat

namespace Writer

/-- Nothing has been written. -/
def start : Writer :=
  ⟨"", 0⟩

/-- Writes a line, indented as far as elements are open. -/
def line (w : Writer) (content : Line.Content) : Writer :=
  { w with text := w.text ++ Line.text ⟨w.depth, content⟩ }

/-- Writes an element with text inside. -/
def leaf (w : Writer) (tag text : String) : Writer :=
  w.line (.leaf tag text)

/-- Writes an element with nothing inside. -/
def empty (w : Writer) (tag : String) : Writer :=
  w.line (.empty tag)

/-- Opens an element. -/
def enter (w : Writer) (tag : String) (name : Option String) : Writer :=
  { w.line (.opening tag name) with depth := w.depth + 1 }

/-- Closes an element. There is nothing to close where no element is open. -/
def leave? (w : Writer) (tag : String) : Option Writer :=
  match w.depth with
  | 0 => none
  | depth + 1 => some ({ w with depth }.line (.closing tag))

end Writer

mutual

/-- Writes an element. -/
def write : Markup → Writer → Option Writer
  | .leaf tag text, w => some (w.line (.leaf tag text))
  | .empty tag, w => some (w.line (.empty tag))
  | .element tag name children, w => do
    let inside ← writeAll children (w.enter tag name)
    inside.leave? tag

/-- Writes elements one after the other. -/
def writeAll : List Markup → Writer → Option Writer
  | [], w => some w
  | m :: rest, w => do
    let behind ← m.write w
    writeAll rest behind

end

/-- The text of an element by itself. -/
def render (m : Markup) : String :=
  ((m.write .start).map Writer.text).getD ""

end Markup

end SmallPascal

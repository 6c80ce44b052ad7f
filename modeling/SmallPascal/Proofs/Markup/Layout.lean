import Mathlib.Data.List.Basic
import SmallPascal.Markup

/-!
# The layout of markup

The lines of an element at a depth, and the text that they make up, can be said without a writer
(`Markup.lines`, `Markup.renderAt`). A writer that writes an element adds the lines of the element
at its own depth and then stands at that depth again; it never closes more than it has opened
(`write_eq`). The opening and closing lines match like brackets (`Matched`), and every line is
indented by as many tabs as elements are open around it, which is counted here along the lines and
not along the tree (`openAround`).

Where an element stands decides only how far its lines are indented, so its text at a depth is its
text by itself with that many tabs in front of every line (`renderAt_eq_indented`). That is said of
the lines of the text, which are those of the element as long as no line holds a line break.
-/

namespace SmallPascal.Markup

/-! ## Writing -/

mutual

/-- The lines of an element that stands at `depth`. -/
def lines (depth : Nat) : Markup → List Line
  | .leaf tag text => [⟨depth, .leaf tag text⟩]
  | .empty tag => [⟨depth, .empty tag⟩]
  | .element tag name children =>
    ⟨depth, .opening tag name⟩ :: linesOfAll (depth + 1) children ++ [⟨depth, .closing tag⟩]

/-- The lines of elements that stand side by side. -/
def linesOfAll (depth : Nat) : List Markup → List Line
  | [] => []
  | m :: rest => lines depth m ++ linesOfAll depth rest

end

/-- The text of an element that stands at `depth`. -/
def renderAt (depth : Nat) (m : Markup) : String :=
  String.join ((m.lines depth).map Line.text)

mutual

/-- Writing adds the lines of an element at the depth of the writer, which it keeps. -/
theorem write_eq (m : Markup) (w : Writer) :
    m.write w = some ⟨w.text ++ m.renderAt w.depth, w.depth⟩ := by
  cases m with
  | leaf tag text => simp [write, Writer.line, renderAt, lines]
  | empty tag => simp [write, Writer.line, renderAt, lines]
  | element tag name children =>
    have hchildren := writeAll_eq children (w.enter tag name)
    rw [write, hchildren]
    simp [Writer.enter, Writer.line, Writer.leave?, renderAt, lines, String.append_assoc]

/-- The same for elements that stand side by side. -/
theorem writeAll_eq (ms : List Markup) (w : Writer) :
    writeAll ms w =
      some ⟨w.text ++ String.join ((linesOfAll w.depth ms).map Line.text), w.depth⟩ := by
  cases ms with
  | nil => simp [writeAll, linesOfAll]
  | cons m rest =>
    have hrest := writeAll_eq rest ⟨w.text ++ m.renderAt w.depth, w.depth⟩
    simp only [writeAll, write_eq m w, hrest, Option.bind_eq_bind, Option.bind_some, linesOfAll]
    simp [renderAt, String.append_assoc]

end

/-- Writing elements and then others is writing them all. -/
theorem writeAll_append (ms ns : List Markup) (w : Writer) :
    writeAll (ms ++ ns) w = (writeAll ms w).bind (writeAll ns) := by
  induction ms generalizing w with
  | nil => rfl
  | cons m ms ih =>
    cases h : m.write w with
    | none => simp [writeAll, h]
    | some behind => simp [writeAll, h, ih]

/-- An element that nothing follows is written as by itself. -/
theorem writeAll_singleton (m : Markup) : writeAll [m] = m.write := by
  funext w
  simp [writeAll]

/-- The text of an element by itself is the one it has where nothing is open. -/
theorem render_eq (m : Markup) : m.render = m.renderAt 0 := by
  rw [render, write_eq]
  exact String.empty_append

/-! ## Brackets -/

/-- Opening and closing lines match like brackets. -/
inductive Matched : List Line.Content → Prop where
  | nil : Matched []
  | leaf (tag text : String) {rest : List Line.Content} (matched : Matched rest) :
    Matched (.leaf tag text :: rest)
  | empty (tag : String) {rest : List Line.Content} (matched : Matched rest) :
    Matched (.empty tag :: rest)
  | element (tag : String) (name : Option String) {inside rest : List Line.Content}
    (matched_inside : Matched inside) (matched : Matched rest) :
    Matched (.opening tag name :: (inside ++ .closing tag :: rest))

/-- Lines that match stay so when others that match follow. -/
theorem Matched.append {front behind : List Line.Content} (h : Matched front)
    (h' : Matched behind) : Matched (front ++ behind) := by
  induction h with
  | nil => exact h'
  | leaf tag text _ ih => exact .leaf tag text ih
  | empty tag _ ih => exact .empty tag ih
  | element tag name hinside _ _ ih =>
    rw [List.cons_append, List.append_assoc]
    exact .element tag name hinside ih

mutual

/-- The lines of an element match like brackets, at any depth. -/
theorem matched_lines (m : Markup) (depth : Nat) :
    Matched ((m.lines depth).map Line.content) := by
  cases m with
  | leaf tag text => exact .leaf tag text .nil
  | empty tag => exact .empty tag .nil
  | element tag name children =>
    have hchildren := matched_linesOfAll children (depth + 1)
    simpa [lines] using Matched.element tag name hchildren .nil

/-- The same for elements that stand side by side. -/
theorem matched_linesOfAll (ms : List Markup) (depth : Nat) :
    Matched ((linesOfAll depth ms).map Line.content) := by
  cases ms with
  | nil => exact .nil
  | cons m rest =>
    rw [linesOfAll, List.map_append]
    exact (matched_lines m depth).append (matched_linesOfAll rest depth)

end

/-! ## Indentation -/

/-- How many elements are open around each of some lines, where `opened` are open around them all.
An element is not open around its own opening and closing line. -/
def openAround (opened : Nat) : List Line.Content → List Nat
  | [] => []
  | .opening .. :: rest => opened :: openAround (opened + 1) rest
  | .closing _ :: rest => (opened - 1) :: openAround (opened - 1) rest
  | _ :: rest => opened :: openAround opened rest

mutual

/-- Counting along the lines of an element finds the depth of each, and behind them as many open
elements as before. -/
theorem openAround_lines (m : Markup) (depth : Nat) (rest : List Line.Content) :
    openAround depth ((m.lines depth).map Line.content ++ rest) =
      (m.lines depth).map Line.depth ++ openAround depth rest := by
  cases m with
  | leaf tag text => rfl
  | empty tag => rfl
  | element tag name children =>
    have hchildren := openAround_linesOfAll children (depth + 1) (.closing tag :: rest)
    simp only [lines, List.cons_append, List.map_cons, List.map_append, List.map_nil,
      List.append_assoc, List.nil_append, openAround, hchildren, Nat.add_sub_cancel]

/-- The same for elements that stand side by side. -/
theorem openAround_linesOfAll (ms : List Markup) (depth : Nat) (rest : List Line.Content) :
    openAround depth ((linesOfAll depth ms).map Line.content ++ rest) =
      (linesOfAll depth ms).map Line.depth ++ openAround depth rest := by
  cases ms with
  | nil => rfl
  | cons m ms =>
    rw [linesOfAll, List.map_append, List.map_append, List.append_assoc, List.append_assoc,
      openAround_lines m, openAround_linesOfAll ms]

end

/-- How many tabs a line begins with. -/
def leadingTabs (line : List Char) : Nat :=
  (line.takeWhile (· = '\t')).length

/-- A line without its line break. -/
def Line.body (l : Line) : List Char :=
  List.replicate l.depth '\t' ++ l.content.text.toList

/-- The text of a line is the line and its line break. -/
theorem Line.toList_text (l : Line) : l.text.toList = l.body ++ ['\n'] := by
  simp [Line.text, Line.body]

/-- What a line holds begins with the bracket of a tag. -/
theorem Line.Content.exists_text_eq (c : Content) : ∃ rest, c.text.toList = '<' :: rest := by
  cases c with
  | opening tag name => cases name <;> simp [text]
  | _ => simp [text]

/-- The tabs in front of a line are its depth. -/
theorem leadingTabs_body (l : Line) : leadingTabs l.body = l.depth := by
  obtain ⟨rest, h⟩ := l.content.exists_text_eq
  rw [leadingTabs, Line.body, h, List.takeWhile_append_of_pos (by simp)]
  simp

/-- Every line is indented as far as elements are open around it. -/
theorem map_leadingTabs_lines (m : Markup) (depth : Nat) :
    (m.lines depth).map (leadingTabs ∘ Line.body) =
      openAround depth ((m.lines depth).map Line.content) := by
  have h := openAround_lines m depth []
  simp only [openAround, List.append_nil] at h
  rw [h]
  exact List.map_congr_left fun l _ => leadingTabs_body l

/-! ## The lines of the text -/

/-- The lines of a text, each of which a line break ends. -/
def textLines (text : String) : List (List Char) :=
  (text.toList.splitOn '\n').dropLast

/-- A text with so many tabs in front of each of its lines. -/
def indented (tabs : Nat) (text : String) : String :=
  String.ofList ((textLines text).flatMap fun line => List.replicate tabs '\t' ++ line ++ ['\n'])

/-- A line at a depth that is counted from another one. -/
def Line.deeper (depth : Nat) (l : Line) : Line :=
  ⟨depth + l.depth, l.content⟩

/-- A line that stands deeper has more tabs in front. -/
theorem Line.body_deeper (depth : Nat) (l : Line) :
    (l.deeper depth).body = List.replicate depth '\t' ++ l.body := by
  rw [body, deeper, List.replicate_add, List.append_assoc]
  rfl

mutual

/-- An element that stands deeper has the same lines, each of them deeper. -/
theorem lines_add (m : Markup) (depth inner : Nat) :
    m.lines (depth + inner) = (m.lines inner).map (Line.deeper depth) := by
  cases m with
  | leaf tag text => rfl
  | empty tag => rfl
  | element tag name children =>
    have hchildren := linesOfAll_add children depth (inner + 1)
    rw [← Nat.add_assoc] at hchildren
    simp only [lines, hchildren, List.cons_append, List.map_cons, List.map_append, List.map_nil,
      Line.deeper]

/-- The same for elements that stand side by side. -/
theorem linesOfAll_add (ms : List Markup) (depth inner : Nat) :
    linesOfAll (depth + inner) ms = (linesOfAll inner ms).map (Line.deeper depth) := by
  cases ms with
  | nil => rfl
  | cons m ms =>
    rw [linesOfAll, linesOfAll, List.map_append, lines_add m, linesOfAll_add ms]

end

/-- The lines of a text are those that it has been written from, if none of them holds a line
break. -/
theorem textLines_join {ls : List Line} (h : ∀ l ∈ ls, '\n' ∉ l.content.text.toList) :
    textLines (String.join (ls.map Line.text)) = ls.map Line.body := by
  -- The last line break leaves an empty piece behind, which `textLines` drops.
  have hsplit : (String.join (ls.map Line.text)).toList.splitOn '\n' =
      ls.map Line.body ++ [[]] := by
    induction ls with
    | nil => rfl
    | cons l ls ih =>
      obtain ⟨hl, hls⟩ := List.forall_mem_cons.1 h
      have hbody : '\n' ∉ l.body := by simpa [Line.body] using hl
      rw [String.toList_join] at ih ⊢
      rw [List.map_cons, List.flatMap_cons, Line.toList_text, List.append_assoc,
        List.singleton_append, List.splitOn_append_cons_self_of_not_mem hbody, ih hls]
      rfl
  rw [textLines, hsplit, List.dropLast_concat]

/-- The text of an element at a depth is its text by itself, indented. -/
theorem renderAt_eq_indented {m : Markup} (h : ∀ l ∈ m.lines 0, '\n' ∉ l.content.text.toList)
    (depth : Nat) : m.renderAt depth = indented depth m.render := by
  have hlines : m.lines depth = (m.lines 0).map (Line.deeper depth) := lines_add m depth 0
  rw [indented, render_eq, renderAt, renderAt, textLines_join h, hlines, ← String.toList_inj,
    String.toList_join, String.toList_ofList, List.flatMap_map, List.flatMap_map,
    List.flatMap_map]
  refine List.flatMap_congr fun l _ => ?_
  rw [Line.toList_text, Line.body_deeper]

end SmallPascal.Markup

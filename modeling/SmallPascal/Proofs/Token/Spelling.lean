import SmallPascal.Token.Cursor

/-!
# How tokens are written

A lexeme is a run of digits, a word or a sign (`IsLexeme`), and `Denotes` is the kind of token that
a lexeme writes: the value of its digits, the reserved word of exactly that spelling or else a name,
or the sign. Both are said without the functions that read tokens. Those compute the longest lexeme
in front of a text (`isLongestLexeme_iff`) and the kind it denotes
(`Token.Kind.ofSpelling?_eq_some_iff`).

A numeral is a lexeme whatever its value, because a numeral that is too large is not cut into
smaller ones.

A longer lexeme in front of the same text is noticed at the first character behind the shorter one
(`IsLexeme.extend`). So what stands behind a lexeme matters by its first character only, and a
character that no lexeme has always ends one.
-/

namespace SmallPascal

/-- A run of digits. -/
structure IsNumeral (text : List Char) : Prop where
  ne_nil : text ≠ []
  digits : ∀ c ∈ text, c.isDigit

/-- A letter, and letters and digits behind it. -/
inductive IsWord : List Char → Prop where
  | mk {first : Char} {more : List Char} (letter : first.isAlpha)
    (alphanumeric : ∀ c ∈ more, c.isAlphanum) : IsWord (first :: more)

/-- A word that is not reserved. -/
structure IsName (name : String) : Prop where
  word : IsWord name.toList
  unreserved : ∀ k : Keyword, k.spelling ≠ name

/-- What a token can be written as. -/
inductive IsLexeme : List Char → Prop where
  | numeral {text : List Char} (h : IsNumeral text) : IsLexeme text
  | word {text : List Char} (h : IsWord text) : IsLexeme text
  | sign (s : Symbol) : IsLexeme s.spelling.toList

/-- The kind of token that a lexeme writes. -/
inductive Denotes : List Char → Token.Kind → Prop where
  | integer {digits : List Char} {value : Int64} (numeral : IsNumeral digits)
    (value_eq : value.toInt = Text.decimalValue digits) : Denotes digits (.integer value)
  | keyword (k : Keyword) : Denotes k.spelling.toList (.keyword k)
  | identifier {name : String} (isName : IsName name) : Denotes name.toList (.identifier name)
  | symbol (s : Symbol) : Denotes s.spelling.toList (.symbol s)

/-- A lexeme stands in front of a text, and no longer one does. -/
structure IsLongestLexeme (lexeme text : List Char) : Prop where
  isLexeme : IsLexeme lexeme
  isPrefix : lexeme <+: text
  longest : ∀ other, IsLexeme other → other <+: text → other.length ≤ lexeme.length

/-! ## The characters of a lexeme -/

instance (text : List Char) : Decidable (IsWord text) :=
  match text with
  | [] => isFalse nofun
  | first :: more =>
    decidable_of_iff (first.isAlpha ∧ more.all Char.isAlphanum)
      ⟨fun h => .mk h.1 (List.all_eq_true.1 h.2),
        fun (.mk h hmore) => ⟨h, List.all_eq_true.2 hmore⟩⟩

/-- Reserved words are words. -/
theorem Keyword.isWord_spelling (k : Keyword) : IsWord k.spelling.toList := by
  cases k <;> decide

/-- A word has a first letter. -/
theorem IsWord.ne_nil {text : List Char} (h : IsWord text) : text ≠ [] := by
  cases h
  exact List.cons_ne_nil _ _

/-- A word consists of letters and digits. -/
theorem IsWord.isAlphanum {text : List Char} (h : IsWord text) : ∀ c ∈ text, c.isAlphanum := by
  obtain ⟨hletter, hmore⟩ := h
  intro c hc
  rcases List.mem_cons.1 hc with rfl | hc
  · exact Bool.or_eq_true_iff.2 (.inl hletter)
  · exact hmore c hc

/-- A lexeme has a first character. -/
theorem IsLexeme.ne_nil {text : List Char} (h : IsLexeme text) : text ≠ [] := by
  cases h with
  | numeral h => exact h.ne_nil
  | word h => exact h.ne_nil
  | sign s => exact List.length_pos_iff.1 s.length_spelling_pos

/-- Only lexemes denote something. -/
theorem Denotes.isLexeme {text : List Char} {k : Token.Kind} (h : Denotes text k) :
    IsLexeme text := by
  cases h with
  | integer h _ => exact .numeral h
  | keyword k => exact .word (Keyword.isWord_spelling k)
  | identifier h => exact .word h.word
  | symbol s => exact .sign s

/-- Letters are those of the Latin alphabet, in both cases. -/
theorem isAlpha_iff_toNat {c : Char} :
    c.isAlpha ↔ 65 ≤ c.toNat ∧ c.toNat ≤ 90 ∨ 97 ≤ c.toNat ∧ c.toNat ≤ 122 := by
  have hupper : c.isUpper ↔ 65 ≤ c.toNat ∧ c.toNat ≤ 90 := decide_eq_true_iff
  have hlower : c.isLower ↔ 97 ≤ c.toNat ∧ c.toNat ≤ 122 :=
    Bool.and_eq_true_iff.trans (and_congr decide_eq_true_iff decide_eq_true_iff)
  rw [← hupper, ← hlower]
  exact Bool.or_eq_true_iff

/-- Letters and digits are neither white space nor braces. -/
theorem not_gap_of_isAlphanum {c : Char} (h : c.isAlphanum) :
    Text.isBlank c = false ∧ c ≠ '{' := by
  have hrange : 48 ≤ c.toNat ∧ c.toNat ≤ 122 := by
    rcases Bool.or_eq_true_iff.1 h with h | h
    · have := isAlpha_iff_toNat.1 h
      omega
    · have : 48 ≤ c.toNat ∧ c.toNat ≤ 57 := Char.isDigit_iff_toNat.1 h
      omega
  constructor
  · simp [Text.isBlank, Text.blankRanges]
    omega
  · rintro rfl
    exact absurd hrange (by decide)

/-- No character of a sign is white space or opens a comment. -/
theorem Symbol.not_gap_of_mem {s : Symbol} {c : Char} (h : c ∈ s.spelling.toList) :
    Text.isBlank c = false ∧ c ≠ '{' := by
  have hall : s.spelling.toList.all (fun c => !Text.isBlank c && c ≠ '{') := by
    cases s <;> decide
  simpa using List.all_eq_true.1 hall c h

/-- No character of a lexeme is white space, a newline for instance, or opens a comment. -/
theorem IsLexeme.not_gap {text : List Char} (h : IsLexeme text) {c : Char} (hc : c ∈ text) :
    Text.isBlank c = false ∧ c ≠ '{' := by
  cases h with
  | numeral h => exact not_gap_of_isAlphanum (Bool.or_eq_true_iff.2 (.inr (h.digits c hc)))
  | word h => exact not_gap_of_isAlphanum (h.isAlphanum c hc)
  | sign s => exact Symbol.not_gap_of_mem hc

/-! ## The longest lexeme -/

/-- The first sign in the list that a text begins with is a longest one, because the list has the
longer signs first. -/
theorem Symbol.length_le_of_longestAt? {s : Symbol} {text : List Char}
    (h : s.spelling.toList <+: text) :
    ∃ l, longestAt? text = some l ∧ s.spelling.toList.length ≤ l.spelling.toList.length := by
  cases hl : longestAt? text with
  | none =>
    have := List.find?_eq_none.1 hl s s.mem_all
    simp_all
  | some l =>
    refine ⟨l, rfl, ?_⟩
    obtain ⟨-, front, behind, hall, hfront⟩ := List.find?_eq_some_iff_append.1 hl
    have hsorted : all.Pairwise fun a b =>
      b.spelling.toList.length ≤ a.spelling.toList.length := by decide
    rw [hall] at hsorted
    have hmem := hall ▸ s.mem_all
    rcases List.mem_append.1 hmem with hs | hs
    · have hno := hfront s hs
      rw [List.isPrefixOf_iff_prefix.2 h] at hno
      cases hno
    · rcases List.mem_cons.1 hs with rfl | hs
      · exact Nat.le_refl _
      · exact (List.pairwise_cons.1 (List.pairwise_append.1 hsorted).2.1).1 s hs

/-- What is taken while a test holds passes the test. -/
theorem of_mem_takeWhile {p : Char → Bool} {text : List Char} :
    ∀ c ∈ text.takeWhile p, p c :=
  List.all_eq_true.1 List.all_takeWhile

/-- A piece in front of a text that passes a test is taken as a whole while the test holds. -/
theorem isPrefix_takeWhile {p : Char → Bool} {lexeme text : List Char} (h : lexeme <+: text)
    (hp : ∀ c ∈ lexeme, p c) : lexeme <+: text.takeWhile p := by
  obtain ⟨rest, rfl⟩ := h
  rw [List.takeWhile_append_of_pos hp]
  exact List.prefix_append ..

/-- No letter is a digit, so the first character of a text tells a numeral from a word. -/
theorem isDigit_eq_false_of_isAlpha {c : Char} (h : c.isAlpha) : c.isDigit = false := by
  have halpha := isAlpha_iff_toNat.1 h
  refine Bool.eq_false_iff.2 fun hdigit => ?_
  have hrange : 48 ≤ c.toNat ∧ c.toNat ≤ 57 := Char.isDigit_iff_toNat.1 hdigit
  omega

/-- No character of a sign is a digit or a letter. -/
theorem Symbol.not_isAlphanum_of_mem {s : Symbol} {c : Char} (h : c ∈ s.spelling.toList) :
    c.isDigit = false ∧ c.isAlpha = false := by
  have hall : s.spelling.toList.all (fun c => !c.isDigit && !c.isAlpha) := by
    cases s <;> decide
  simpa using List.all_eq_true.1 hall c h

section

variable {lexeme text : List Char}

/-- What is taken from the front of a text stands there. -/
theorem spellingAtFront_isPrefix (text : List Char) : spellingAtFront text <+: text := by
  unfold spellingAtFront
  split
  · exact List.prefix_refl _
  · split
    · exact List.takeWhile_prefix _
    · split
      · exact List.takeWhile_prefix _
      · cases h : Symbol.longestAt? _ with
        | none => exact List.nil_prefix
        | some s => simpa using Symbol.spelling_isPrefixOf_of_longestAt? h

/-- What is taken from the front of a text is a lexeme, unless nothing is taken. -/
theorem isLexeme_spellingAtFront (h : spellingAtFront text ≠ []) :
    IsLexeme (spellingAtFront text) := by
  unfold spellingAtFront at h ⊢
  split
  · contradiction
  · next c cs =>
    simp only at h
    split
    · next hdigit =>
      rw [if_pos hdigit] at h
      exact .numeral ⟨h, of_mem_takeWhile⟩
    · next hdigit =>
      rw [if_neg hdigit] at h
      split
      · next halpha =>
        rw [List.takeWhile_cons_of_pos (by simp [Char.isAlphanum, halpha])]
        exact .word (.mk halpha of_mem_takeWhile)
      · next halpha =>
        rw [if_neg halpha] at h
        cases hs : Symbol.longestAt? (c :: cs) with
        | none => simp [hs] at h
        | some s => exact .sign s

/-- No lexeme in front of a text is longer than the one that is read. -/
theorem length_le_spellingAtFront (h : IsLexeme lexeme) (hpre : lexeme <+: text) :
    lexeme.length ≤ (spellingAtFront text).length := by
  cases lexeme with
  | nil => exact Nat.zero_le _
  | cons c cs =>
    obtain ⟨rest, rfl⟩ := hpre
    have hpre : c :: cs <+: c :: (cs ++ rest) := List.prefix_append (c :: cs) rest
    simp only [spellingAtFront, List.cons_append]
    generalize htext : c :: cs = lexeme at h
    cases h with
    | numeral h =>
      subst htext
      rw [if_pos (h.digits c (.head _))]
      exact (isPrefix_takeWhile hpre h.digits).length_le
    | word h =>
      cases h with
      | mk hletter hmore =>
        cases htext
        rw [if_neg (by simp [isDigit_eq_false_of_isAlpha hletter]), if_pos hletter]
        exact (isPrefix_takeWhile hpre (IsWord.mk hletter hmore).isAlphanum).length_le
    | sign s =>
      obtain ⟨hdigit, halpha⟩ := Symbol.not_isAlphanum_of_mem (htext ▸ List.mem_cons_self)
      rw [if_neg (by simp [hdigit]), if_neg (by simp [halpha])]
      obtain ⟨l, hl, hle⟩ := Symbol.length_le_of_longestAt? (htext ▸ hpre)
      rw [hl]
      exact hle

/-- What is read in front of a text is the longest lexeme there, if there is any. -/
theorem isLongestLexeme_iff :
    IsLongestLexeme lexeme text ↔ lexeme = spellingAtFront text ∧ lexeme ≠ [] := by
  constructor
  · intro h
    have hle := length_le_spellingAtFront h.isLexeme h.isPrefix
    have hne : spellingAtFront text ≠ [] :=
      List.length_pos_iff.1 (Nat.lt_of_lt_of_le (List.length_pos_iff.2 h.isLexeme.ne_nil) hle)
    have hge := h.longest _ (isLexeme_spellingAtFront hne) (spellingAtFront_isPrefix text)
    have hpre := List.prefix_of_prefix_length_le h.isPrefix (spellingAtFront_isPrefix text) hle
    exact ⟨hpre.eq_of_length (Nat.le_antisymm hle hge), h.isLexeme.ne_nil⟩
  · rintro ⟨rfl, hne⟩
    exact ⟨isLexeme_spellingAtFront hne, spellingAtFront_isPrefix text,
      fun other hother hpre => length_le_spellingAtFront hother hpre⟩

/-- A text has one longest lexeme. -/
theorem IsLongestLexeme.unique {lexeme' : List Char} (h : IsLongestLexeme lexeme text)
    (h' : IsLongestLexeme lexeme' text) : lexeme = lexeme' :=
  (isLongestLexeme_iff.1 h).1.trans (isLongestLexeme_iff.1 h').1.symm

end

/-! ## What stands behind a lexeme -/

/-- Signs have one or two characters. -/
theorem Symbol.length_spelling_le_two (s : Symbol) : s.spelling.toList.length ≤ 2 := by
  cases s <;> decide

/-- Where a longer lexeme begins like a shorter one, that with one more character is a lexeme
too. -/
theorem IsLexeme.extend {front behind : List Char} {c : Char} (hne : front ≠ [])
    (h : IsLexeme (front ++ c :: behind)) : IsLexeme (front ++ [c]) := by
  generalize htext : front ++ c :: behind = text at h
  cases h with
  | numeral h =>
    refine .numeral ⟨by simp, fun d hd => h.digits d ?_⟩
    rw [← htext, List.append_cons]
    exact List.mem_append_left _ hd
  | word h =>
    obtain ⟨first, more, rfl⟩ := List.exists_cons_of_ne_nil hne
    cases h with
    | mk hletter hmore =>
      obtain ⟨rfl, rfl⟩ := List.cons.inj htext
      refine .word (.mk hletter fun d hd => hmore d ?_)
      change d ∈ more ++ c :: behind
      rw [List.append_cons]
      exact List.mem_append_left _ hd
  | sign s =>
    have hlen := Symbol.length_spelling_le_two s
    rw [← htext] at hlen
    have hpos := List.length_pos_iff.2 hne
    simp only [List.length_append, List.length_cons] at hlen
    obtain rfl : behind = [] := List.eq_nil_of_length_eq_zero (by omega)
    rw [htext]
    exact .sign s

section

variable {lexeme rest rest' : List Char}

/-- A lexeme is a longest one if it cannot be extended by the next character. -/
theorem IsLexeme.isLongestLexeme (h : IsLexeme lexeme)
    (hrest : ∀ c ∈ rest.head?, ¬IsLexeme (lexeme ++ [c])) :
    IsLongestLexeme lexeme (lexeme ++ rest) := by
  refine ⟨h, List.prefix_append .., fun other hother hpre => ?_⟩
  rcases List.prefix_or_prefix_of_prefix hpre (List.prefix_append lexeme rest) with hle | hle
  · exact hle.length_le
  · obtain ⟨more, rfl⟩ := hle
    cases more with
    | nil => simp
    | cons c more =>
      have hrest' : c :: more <+: rest := (List.prefix_append_right_inj lexeme).1 hpre
      obtain ⟨w, rfl⟩ := hrest'
      exact absurd (hother.extend h.ne_nil) (hrest c (by simp))

/-- What follows a longest lexeme may be changed behind its first character. -/
theorem IsLongestLexeme.congr (h : IsLongestLexeme lexeme (lexeme ++ rest))
    (hhead : rest'.head? = rest.head?) : IsLongestLexeme lexeme (lexeme ++ rest') := by
  refine h.isLexeme.isLongestLexeme fun c hc hlexeme => ?_
  rw [hhead] at hc
  cases rest with
  | nil => cases hc
  | cons d rest =>
    obtain rfl : d = c := by simpa using hc
    have hle := h.longest (lexeme ++ [d]) hlexeme ⟨rest, by simp⟩
    rw [List.length_append, List.length_singleton] at hle
    omega

/-- A lexeme ends in front of a character that no lexeme has. -/
theorem IsLexeme.isLongestLexeme_of_gap (h : IsLexeme lexeme)
    (hrest : ∀ c ∈ rest.head?, Text.isBlank c ∨ c = '{') :
    IsLongestLexeme lexeme (lexeme ++ rest) := by
  refine h.isLongestLexeme fun c hc hlexeme => ?_
  obtain ⟨hblank, hbrace⟩ := hlexeme.not_gap (c := c) (by simp)
  rcases hrest c hc with hc' | hc'
  · simp [hblank] at hc'
  · exact hbrace hc'

end

/-! ## The kind of a lexeme -/

/-- A numeral denotes its decimal value, if that fits. -/
theorem integerOfDigits?_eq_some_iff {digits : List Char} {n : Int64} :
    Text.integerOfDigits? digits = some n ↔ n.toInt = Text.decimalValue digits := by
  unfold Text.integerOfDigits?
  split
  · next h =>
    rw [Option.some_inj, ← Int64.toInt_inj, Int64.toInt_ofNat_of_lt h, eq_comm]
  · next h =>
    have := n.toInt_lt
    simp only [reduceCtorEq, false_iff]
    omega

/-- A word that is not reserved is a name. -/
theorem Keyword.ofSpelling?_eq_none_iff {word : String} :
    Keyword.ofSpelling? word = none ↔ ∀ k : Keyword, k.spelling ≠ word := by
  simp [Keyword.ofSpelling?, Keyword.mem_all]

instance (name : String) : Decidable (IsName name) :=
  decidable_of_iff (IsWord name.toList ∧ Keyword.ofSpelling? name = none)
    ⟨fun h => ⟨h.1, Keyword.ofSpelling?_eq_none_iff.1 h.2⟩,
      fun h => ⟨h.word, Keyword.ofSpelling?_eq_none_iff.2 h.unreserved⟩⟩

/-- A word denotes the reserved word or the name that it spells. -/
theorem Token.Kind.ofSpelling?_word {text : List Char} (h : IsWord text) :
    Token.Kind.ofSpelling? text = some (.ofWord (String.ofList text)) := by
  obtain ⟨hletter, -⟩ := h
  rw [Token.Kind.ofSpelling?, if_neg (by simp [isDigit_eq_false_of_isAlpha hletter]),
    if_pos hletter]

/-- The spelling of a sign denotes the sign. -/
theorem Token.Kind.ofSpelling?_sign (s : Symbol) :
    Token.Kind.ofSpelling? s.spelling.toList = some (.symbol s) := by
  cases s <;> decide

/-- What a lexeme is read as is what it denotes. -/
theorem Token.Kind.ofSpelling?_eq_some_iff {lexeme : List Char} (h : IsLexeme lexeme)
    {k : Token.Kind} :
    Token.Kind.ofSpelling? lexeme = some k ↔ Denotes lexeme k := by
  constructor
  · intro hk
    cases h with
    | numeral h =>
      obtain ⟨c, cs, rfl⟩ := List.exists_cons_of_ne_nil h.ne_nil
      rw [Token.Kind.ofSpelling?, if_pos (h.digits c (.head _))] at hk
      obtain ⟨n, hn, rfl⟩ := Option.map_eq_some_iff.1 hk
      exact .integer h (integerOfDigits?_eq_some_iff.1 hn)
    | word h =>
      rw [Token.Kind.ofSpelling?_word h] at hk
      cases hk
      unfold Token.Kind.ofWord
      split
      · next k hk =>
        have := Denotes.keyword k
        rwa [Keyword.spelling_of_ofSpelling? hk, String.toList_ofList] at this
      · next hk =>
        have hname : IsName (String.ofList lexeme) :=
          ⟨by rwa [String.toList_ofList], Keyword.ofSpelling?_eq_none_iff.1 hk⟩
        have := Denotes.identifier hname
        rwa [String.toList_ofList] at this
    | sign s =>
      rw [Token.Kind.ofSpelling?_sign] at hk
      cases hk
      exact .symbol s
  · intro hk
    cases hk with
    | integer hdigits heq =>
      obtain ⟨c, cs, rfl⟩ := List.exists_cons_of_ne_nil hdigits.ne_nil
      rw [Token.Kind.ofSpelling?, if_pos (hdigits.digits c (.head _)),
        integerOfDigits?_eq_some_iff.2 heq]
      rfl
    | keyword k =>
      rw [Token.Kind.ofSpelling?_word k.isWord_spelling, String.ofList_toList, Token.Kind.ofWord,
        Keyword.ofSpelling?_spelling]
    | identifier hname =>
      rw [Token.Kind.ofSpelling?_word hname.word, String.ofList_toList, Token.Kind.ofWord,
        Keyword.ofSpelling?_eq_none_iff.2 hname.unreserved]
    | symbol s => exact Token.Kind.ofSpelling?_sign s

end SmallPascal

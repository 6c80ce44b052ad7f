import SmallPascal.Proofs.Grammar.Derivation

/-!
# What a rule reads

A phrase is a set of token sequences with what they stand for: the derivations of a nonterminal, or
a part of a production. `Phrase.Describes` says that a reading rule decides about a phrase: if the
rule succeeds, it has read a phrase, and no other phrase begins with what the rule has read and
seen; if it fails, what it has read is the beginning of a phrase, and together with the item it
fails on it is not. Accepting exactly the grammar, unambiguity and the place of an error all follow
from that one statement.

Two things make it inductive. What may stand behind a phrase matters, because a phrase may be the
beginning of a longer one (`Phrase.follow`). And whether a name is reported as a missing separator
depends on whether END could stand in its place, so the rule has to decide about END wherever it
decides about the next item (`Probe`).

The lemmas behind it follow the combinators that rules are made of. `Describes.seq` is for two steps
in a row, `Describes.lift` turns a phrase for the rest of a production into the whole of it, and
`optionally_describes` with `Describes.part` is for parts that may be missing.
-/

namespace SmallPascal.Grammar

/-- The kinds of tokens. -/
def kinds (ts : List Token) : List Token.Kind :=
  ts.map Token.kind

@[simp] theorem kinds_nil : kinds [] = [] := rfl

@[simp] theorem kinds_cons (t : Token) (ts : List Token) :
    kinds (t :: ts) = t.kind :: kinds ts := rfl

@[simp] theorem kinds_append (ts us : List Token) : kinds (ts ++ us) = kinds ts ++ kinds us :=
  List.map_append ..

/-- The kind of the next item, unless that item cannot be read. -/
def ahead (ending : Ending) : List Token → Option Token.Kind
  | t :: _ => some t.kind
  | [] =>
    match ending with
    | .ok _ => some .endOfInput
    | .error _ => none

/-- The kinds that a rule has to tell from others at the next item: the one that stands there, and
END, which decides how a name is reported. -/
def Probe (ending : Ending) (ts : List Token) (k : Token.Kind) : Prop :=
  ahead ending ts = some k ∨ k = .keyword .endBlock

@[simp] theorem probe_cons {ending : Ending} {t : Token} {ts : List Token} {k : Token.Kind} :
    Probe ending (t :: ts) k ↔ k = t.kind ∨ k = .keyword .endBlock := by
  simp [Probe, ahead, eq_comm]

@[simp] theorem probe_nil_ok {mark : Token} {k : Token.Kind} :
    Probe (.ok mark) [] k ↔ k = .endOfInput ∨ k = .keyword .endBlock := by
  simp [Probe, ahead, eq_comm]

/-- What is seen in front of a list of items is what is seen behind some of them, with these in
front. -/
theorem Probe.append {ending : Ending} {left : List Token} {k : Token.Kind}
    (h : Probe ending left k) (used : List Token) (w : List Token.Kind) :
    ∃ k' w', kinds used ++ k :: w = k' :: w' ∧ Probe ending (used ++ left) k' := by
  cases used with
  | nil => exact ⟨k, w, rfl, h⟩
  | cons t used => exact ⟨t.kind, kinds used ++ k :: w, rfl, .inl rfl⟩

/-- What neither stands at the next item nor is END is none of the kinds to tell from others. -/
theorem Probe.ne {ending : Ending} {ts : List Token} {k k' : Token.Kind} (h : Probe ending ts k)
    (hahead : ahead ending ts ≠ some k') (hend : k' ≠ .keyword .endBlock) : k ≠ k' := by
  rintro rfl
  rcases h with h | h
  · exact hahead h
  · exact hend h

/-- A set of token sequences, with what each of them stands for. -/
structure Phrase (α : Type) where
  /-- The ways to build a phrase. -/
  Tree : Type
  kinds : Tree → List Token.Kind
  value : Tree → α
  /-- What may stand behind a phrase. -/
  follow : Token.Kind → Prop

namespace Phrase

variable {α β γ : Type}

/-- The first of these kinds, if there is one, may stand behind a phrase. -/
def Follows (P : Phrase α) : List Token.Kind → Prop
  | [] => True
  | k :: _ => P.follow k

/-- A phrase begins with these kinds. -/
def Begins (P : Phrase α) (ks : List Token.Kind) : Prop :=
  ∃ d w, P.kinds d = ks ++ w

/-- No phrase begins with these kinds, nor does one with something that may stand behind it. -/
def Refutes (P : Phrase α) (ks : List Token.Kind) : Prop :=
  ∀ d r w, P.Follows r → P.kinds d ++ r ≠ ks ++ w

/-- The tokens read are the phrase `d`, and nothing else fits what has been read and seen. -/
structure Reads (P : Phrase α) (ending : Ending) (used rest : List Token) (d : P.Tree) : Prop where
  kinds_eq : Grammar.kinds used = P.kinds d
  only : ∀ k, Probe ending rest k → ∀ d' r w, P.Follows r →
    P.kinds d' ++ r = P.kinds d ++ k :: w → d' = d

/-- The error blames the first item that does not fit behind `used`. A name is a missing separator
if END would fit in its place. -/
inductive Blames (P : Phrase α) (ending : Ending) (used : List Token.Kind) :
    List Token → SyntaxError → Prop where
  | token (t : Token) (rest : List Token) (expected : Expectation)
    (refutes : P.Refutes (used ++ [t.kind]))
    (refutes_end : ∀ x, t.kind = .identifier x → P.Refutes (used ++ [.keyword .endBlock])) :
    Blames P ending used (t :: rest) (.unexpectedToken expected t.kind t.position)
  | separator (t : Token) (rest : List Token) (x : String) (kind_eq : t.kind = .identifier x)
    (refutes : P.Refutes (used ++ [t.kind])) (begins : P.Begins (used ++ [.keyword .endBlock])) :
    Blames P ending used (t :: rest) (.missingSeparator x t.position)
  | mark (m : Token) (expected : Expectation) (ending_eq : ending = .ok m)
    (refutes : P.Refutes (used ++ [.endOfInput])) :
    Blames P ending used [] (.unexpectedToken expected m.kind m.position)
  | unreadable (e : LexicalError) (ending_eq : ending = .error e) :
    Blames P ending used [] (.lexical e)

/-- A rule decides about a phrase. -/
structure Describes (P : Phrase α) (ending : Ending) (ts : List Token) {n : Nat}
    (x : Parse n α) : Prop where
  ok : ∀ {a rest}, x.toExcept = .ok (a, rest) →
    ∃ used d, ts = used ++ rest ∧ P.value d = a ∧ P.Reads ending used rest d
  error : ∀ {f}, x.toExcept = .error f →
    ∃ used left, ts = used ++ left ∧ P.Begins (Grammar.kinds used) ∧
      P.Blames ending (Grammar.kinds used) left f.error

/-- A phrase that stands for something else. -/
abbrev map (f : α → β) (P : Phrase α) : Phrase β :=
  ⟨P.Tree, P.kinds, f ∘ P.value, P.follow⟩

/-- One phrase behind another. -/
abbrev seq (f : α → β → γ) (P : Phrase α) (Q : Phrase β) : Phrase γ where
  Tree := P.Tree × Q.Tree
  kinds d := P.kinds d.1 ++ Q.kinds d.2
  value d := f (P.value d.1) (Q.value d.2)
  follow := Q.follow

/-- A token of a kind. -/
abbrev item (k : Token.Kind) : Phrase Unit where
  Tree := Unit
  kinds _ := [k]
  value _ := ()
  follow _ := True

/-- A name. -/
abbrev name : Phrase String where
  Tree := String
  kinds x := [.identifier x]
  value x := x
  follow _ := True

/-- A type. -/
abbrev type : Phrase TypeName where
  Tree := TypeName
  kinds t := [.keyword t.keyword]
  value t := t
  follow _ := True

/-- A phrase behind a token that opens it, or nothing. -/
abbrev maybe (opening : Token.Kind) (absent : α) (P : Phrase α) : Phrase α where
  Tree := Option P.Tree
  kinds
    | none => []
    | some d => opening :: P.kinds d
  value
    | none => absent
    | some d => P.value d
  follow k := P.follow k ∧ k ≠ opening

variable {P Q : Phrase α} {A : Phrase α} {B : Phrase β} {ending : Ending} {ts : List Token}
  {m n : Nat}

/-- Behind a phrase that anything may follow, any other phrase may stand. -/
theorem follows_anything (h : ∀ k, A.follow k) (b : B.Tree) (r : List Token.Kind)
    (_ : B.Follows r) : A.Follows (B.kinds b ++ r) := by
  cases B.kinds b ++ r with
  | nil => trivial
  | cons k ks => exact h k

/-! ## Combinators -/

/-- An error is passed on to a larger phrase, if what fits the larger one fits the smaller one. -/
theorem Blames.imp {used used' : List Token.Kind} {left : List Token} {e : SyntaxError}
    (h : A.Blames ending used left e)
    (hrefutes : ∀ k, Probe ending left k → A.Refutes (used ++ [k]) → B.Refutes (used' ++ [k]))
    (hbegins : ∀ k, A.Begins (used ++ [k]) → B.Begins (used' ++ [k])) :
    B.Blames ending used' left e := by
  cases h with
  | token t rest expected hr hend =>
    exact .token t rest expected (hrefutes _ (.inl rfl) hr)
      fun x hx => hrefutes _ (.inr rfl) (hend x hx)
  | separator t rest x hx hr hb =>
    exact .separator t rest x hx (hrefutes _ (.inl rfl) hr) (hbegins _ hb)
  | mark m expected hending hr =>
    subst hending
    exact .mark m expected rfl (hrefutes _ (.inl rfl) hr)
  | unreadable e hending => exact .unreadable e hending

/-- Rules that do the same decide about the same. -/
theorem Describes.congr {x : Parse m α} {y : Parse n α} (h : P.Describes ending ts x)
    (heq : y.toExcept = x.toExcept) : P.Describes ending ts y where
  ok hy := h.ok (heq ▸ hy)
  error hy := h.error (heq ▸ hy)

/-- What a rule decides does not depend on its bound. -/
theorem Describes.weaken {x : Parse m α} (h : P.Describes ending ts x) (hle : m ≤ n) :
    P.Describes ending ts (x.weaken hle) :=
  h.congr (Progress.toExcept_weaken hle x)

/-- A rule whose result is changed decides about the phrase that stands for the changed result. -/
theorem Describes.map {x : Parse n α} (h : P.Describes ending ts x) (f : α → β) :
    (P.map f).Describes ending ts (x.map f) where
  ok hx := by
    rw [Progress.toExcept_map] at hx
    cases hy : x.toExcept with
    | error _ => rw [hy] at hx; cases hx
    | ok out =>
      rw [hy] at hx
      cases hx
      obtain ⟨used, d, hts, hd, hreads⟩ := h.ok hy
      exact ⟨used, d, hts, congrArg f hd, hreads.kinds_eq, hreads.only⟩
  error hx := by
    rw [Progress.toExcept_map] at hx
    cases hy : x.toExcept with
    | ok _ => rw [hy] at hx; cases hx
    | error f' =>
      rw [hy] at hx
      cases hx
      obtain ⟨used, left, hts, hbegins, hblames⟩ := h.error hy
      exact ⟨used, left, hts, hbegins, hblames.imp (fun _ _ hr => hr) fun _ hb => hb⟩

/-- Two steps in a row decide about two phrases in a row: whatever the second phrase is, and
whatever stands behind it, may stand behind the first. -/
theorem Describes.seq {f : α → β → γ} {x : Parse n α}
    {k : (a : α) → (rest : List Token) → rest.length < n → Parse (rest.length + 1) γ}
    (hA : A.Describes ending ts x)
    (hB : ∀ a rest h, (B.map (f a)).Describes ending rest (k a rest h))
    (hfollow : ∀ b r, B.Follows r → A.Follows (B.kinds b ++ r)) (b₀ : B.Tree) :
    (A.seq f B).Describes ending ts (x.bind k) where
  ok {c rest'} hx := by
    obtain ⟨a, rest, hlt, hxa, hkc⟩ := Progress.toExcept_bind_eq_ok_iff.1 hx
    obtain ⟨used, d, rfl, rfl, hd⟩ := hA.ok hxa
    obtain ⟨used', b, rfl, rfl, hb⟩ := (hB _ rest hlt).ok hkc
    refine ⟨used ++ used', (d, b), (List.append_assoc ..).symm, rfl, ?_, ?_⟩
    · rw [kinds_append, hd.kinds_eq, hb.kinds_eq]
    · rintro p hp ⟨d', b'⟩ r w hr heq
      simp only [List.append_assoc] at heq ⊢
      -- The first step has seen how the second phrase begins, or else what stands behind both.
      obtain ⟨p', w', hw', hp'⟩ := hp.append used' w
      rw [hb.kinds_eq] at hw'
      change B.kinds b ++ p :: w = p' :: w' at hw'
      have hd' : d' = d := hd.only p' hp' d' _ w' (hfollow b' r hr) (hw' ▸ heq)
      subst hd'
      have hb' : b' = b := hb.only p hp b' r w hr (List.append_cancel_left heq)
      rw [hb']
  error {e} hx := by
    rcases Progress.toExcept_bind_eq_error_iff.1 hx with hxe | ⟨a, rest, hlt, hxa, hke⟩
    · -- A phrase that is begun can be finished, here with `b₀` behind what finishes the first one.
      obtain ⟨used, left, hts, ⟨d, w, hdw⟩, hblames⟩ := hA.error hxe
      refine ⟨used, left, hts, ⟨(d, b₀), w ++ B.kinds b₀, ?_⟩, hblames.imp ?_ ?_⟩
      · simp only [hdw, List.append_assoc]
      · rintro p - hr ⟨d', b'⟩ r w' hfr heq
        exact hr d' (B.kinds b' ++ r) w' (hfollow b' r hfr) (by simpa using heq)
      · rintro p ⟨d', w', hdw'⟩
        exact ⟨(d', b₀), w' ++ B.kinds b₀, by simp [hdw']⟩
    · obtain ⟨used, d, rfl, rfl, hd⟩ := hA.ok hxa
      obtain ⟨used', left, rfl, ⟨b, w, hbw⟩, hblames⟩ := (hB _ rest hlt).error hke
      change B.kinds b = _ at hbw
      refine ⟨used ++ used', left, (List.append_assoc ..).symm, ⟨(d, b), w, ?_⟩, hblames.imp ?_ ?_⟩
      · simp only [hbw, kinds_append, hd.kinds_eq, List.append_assoc]
      · rintro p hp hr ⟨d', b'⟩ r w' hfr heq
        rw [kinds_append, hd.kinds_eq] at heq
        simp only [List.append_assoc, List.singleton_append] at heq
        obtain ⟨p', w'', hw'', hp'⟩ := hp.append used' w'
        have hd' : d' = d := hd.only p' hp' d' _ w'' (hfollow b' r hfr) (hw'' ▸ heq)
        subst hd'
        exact hr b' r w' hfr (by simpa [Phrase.map] using List.append_cancel_left heq)
      · rintro p ⟨b', w', hbw'⟩
        change B.kinds b' = _ at hbw'
        exact ⟨(d, b'), w', by simp [hbw', hd.kinds_eq]⟩

/-- A rule that has read `pre` and goes on with a phrase `P` decides about the phrase `Q`, if `P`
behind `pre` is the only way in which `Q` fits what the rule has seen. -/
theorem Describes.lift {x : Parse n α} {all : List Token} (h : P.Describes ending ts x)
    (pre : List Token) (F : P.Tree → Q.Tree) (hall : all = pre ++ ts)
    (hkinds : ∀ p, Q.kinds (F p) = Grammar.kinds pre ++ P.kinds p)
    (hvalue : ∀ p, Q.value (F p) = P.value p)
    (hfollow : ∀ k, Q.follow k → P.follow k)
    (hcover : ∀ k, Probe ending ts k → ∀ q r w, Q.Follows r →
      Q.kinds q ++ r = Grammar.kinds pre ++ k :: w → ∃ p, q = F p) : Q.Describes ending all x where
  ok hx := by
    subst hall
    obtain ⟨used, d, rfl, rfl, hd⟩ := h.ok hx
    refine ⟨pre ++ used, F d, (List.append_assoc ..).symm, hvalue d, ?_, ?_⟩
    · rw [hkinds, kinds_append, hd.kinds_eq]
    · intro p hp q r w hr heq
      have hfr : P.Follows r := by
        cases r with
        | nil => trivial
        | cons k r => exact hfollow k hr
      rw [hkinds, List.append_assoc] at heq
      obtain ⟨p', w', hw', hp'⟩ := hp.append used w
      rw [hd.kinds_eq] at hw'
      -- Another tree of `Q` that fits what has been seen comes from a tree of `P`, too.
      obtain ⟨d', rfl⟩ := hcover p' hp' q r w' hr (hw' ▸ heq)
      rw [hkinds, List.append_assoc] at heq
      rw [hd.only p hp d' r w hfr (List.append_cancel_left heq)]
  error hx := by
    subst hall
    obtain ⟨used, left, rfl, ⟨d, w, hdw⟩, hblames⟩ := h.error hx
    refine ⟨pre ++ used, left, (List.append_assoc ..).symm, ⟨F d, w, ?_⟩, hblames.imp ?_ ?_⟩
    · rw [hkinds, hdw, kinds_append, List.append_assoc]
    · intro p hp hr q r w' hfr heq
      have hfr' : P.Follows r := by
        cases r with
        | nil => trivial
        | cons k r => exact hfollow k hfr
      simp only [kinds_append, List.append_assoc, List.singleton_append] at heq
      obtain ⟨p', w'', hw'', hp'⟩ := hp.append used w'
      obtain ⟨d', rfl⟩ := hcover p' hp' q r w'' hfr (hw'' ▸ heq)
      rw [hkinds, List.append_assoc] at heq
      exact hr d' r w' hfr' (by simpa using List.append_cancel_left heq)
    · rintro p ⟨d', w', hdw'⟩
      exact ⟨F d', w', by simp [hkinds, hdw']⟩

/-- A rule decides about `Q`, if it decides about what every tree of `Q` is built from. -/
theorem Describes.build {x : Parse n α} (h : P.Describes ending ts x) (F : P.Tree → Q.Tree)
    (hkinds : ∀ p, Q.kinds (F p) = P.kinds p) (hvalue : ∀ p, Q.value (F p) = P.value p)
    (hfollow : ∀ k, Q.follow k → P.follow k) (hcover : ∀ q, ∃ p, q = F p) :
    Q.Describes ending ts x :=
  h.lift [] F rfl hkinds hvalue hfollow fun _ _ q _ _ _ _ => hcover q

/-! ## Single steps -/

/-- A rule that has read a phrase and is done. -/
theorem describes_done {rest : List Token} {a : α} {hlt : rest.length < n} (used : List Token)
    (d : P.Tree) (hts : ts = used ++ rest) (hvalue : P.value d = a)
    (hkinds : P.kinds d = Grammar.kinds used)
    (honly : ∀ k, Probe ending rest k → ∀ d' r w, P.Follows r →
      P.kinds d' ++ r = Grammar.kinds used ++ k :: w → d' = d) :
    P.Describes ending ts (.done a rest hlt) where
  ok hx := by
    cases hx
    exact ⟨used, d, hts, hvalue, hkinds.symm, fun k hk d' r w hr heq =>
      honly k hk d' r w hr (hkinds ▸ heq)⟩
  error hx := by cases hx

/-- A rule that comes to an item that cannot be read. -/
theorem describes_unreadable {e : LexicalError} {unread : Nat} (hending : ending = .error e)
    (hbegins : P.Begins (Grammar.kinds ts)) :
    P.Describes ending ts (.fail ⟨.lexical e, unread⟩ : Parse n α) where
  ok hx := by cases hx
  error hx := by
    cases hx
    exact ⟨ts, [], (List.append_nil _).symm, hbegins, .unreadable e hending⟩

/-- A rule that looks at the next item and finds nothing to read there. -/
theorem describes_glance {x : Parse n α} (d₀ : P.Tree)
    (h : ∀ mark, ending = .ok mark → P.Describes ending [] x) :
    P.Describes ending [] (glance ending [] x) := by
  cases ending with
  | ok mark => exact h mark rfl
  | error e => exact describes_unreadable rfl ⟨d₀, P.kinds d₀, rfl⟩

/-- No phrase begins with the next item, nor with END if that item is a name. -/
structure Misfits (P : Phrase α) (ending : Ending) (ts : List Token) : Prop where
  refutes : ∀ k, ahead ending ts = some k → P.Refutes [k]
  refutes_end : ∀ t rest x, ts = t :: rest → t.kind = .identifier x →
    P.Refutes [.keyword .endBlock]

/-- The error at the next item. -/
def errorAt (ending : Ending) (expected : Expectation) : List Token → SyntaxError
  | t :: _ => .unexpectedToken expected t.kind t.position
  | [] =>
    match ending with
    | .ok mark => .unexpectedToken expected mark.kind mark.position
    | .error e => .lexical e

/-- A rule that stops at an item which does not fit. -/
theorem describes_stop {expected : Expectation} {unread : Nat} (d₀ : P.Tree)
    (h : P.Misfits ending ts) :
    P.Describes ending ts (.fail ⟨errorAt ending expected ts, unread⟩ : Parse n α) where
  ok hx := by cases hx
  error hx := by
    cases hx
    refine ⟨[], ts, rfl, ⟨d₀, P.kinds d₀, rfl⟩, ?_⟩
    cases ts with
    | cons t rest =>
      exact .token t rest expected (h.refutes t.kind rfl) fun x hx => h.refutes_end t rest x rfl hx
    | nil =>
      cases ending with
      | ok mark => exact .mark mark expected rfl (h.refutes .endOfInput rfl)
      | error e => exact .unreadable e rfl

/-- A rule that has read an item which does not fit. -/
theorem describes_reject {expected : Expectation} (d₀ : P.Tree) (h : P.Misfits ending ts) :
    P.Describes ending ts (reject ending expected ts : Parse n α) := by
  have hreject : (reject ending expected ts : Parse n α) =
      .fail ⟨errorAt ending expected ts, ts.length⟩ := by
    cases ts <;> cases ending <;> rfl
  rw [hreject]
  exact describes_stop d₀ h

/-- A rule that sees an item which does not fit. -/
theorem describes_refuse {expected : Expectation} (d₀ : P.Tree) (h : P.Misfits ending ts) :
    P.Describes ending ts (refuse ending expected ts : Parse n α) := by
  have hrefuse : (refuse ending expected ts : Parse n α) =
      .fail ⟨errorAt ending expected ts, ts.length + 1⟩ := by
    cases ts <;> cases ending <;> rfl
  rw [hrefuse]
  exact describes_stop d₀ h

/-- A token of a kind is read by asking for it. Asking for END decides only where no name stands,
because a name there is a missing separator. -/
theorem expect_describes (ending : Ending) (ts : List Token) {k : Token.Kind}
    (hmark : k ≠ .endOfInput)
    (hend : ∀ t rest x, ts = t :: rest → t.kind = .identifier x → k ≠ .keyword .endBlock) :
    (item k).Describes ending ts (expect ending k ts) := by
  have hmisfits (hne : ahead ending ts ≠ some k) : (item k).Misfits ending ts := by
    refine ⟨?_, ?_⟩
    · intro k' hk' d r w _ heq
      obtain ⟨rfl, -⟩ := List.cons.inj heq
      exact hne hk'
    · intro t rest x hts hx d r w _ heq
      exact hend t rest x hts hx (List.cons.inj heq).1
  cases ts with
  | nil =>
    refine describes_reject () (hmisfits ?_)
    cases ending <;> simp [ahead, hmark.symm]
  | cons t rest =>
    by_cases ht : t.kind = k
    · simp only [expect, ht, if_true]
      exact describes_done [t] () rfl rfl (by simp [ht]) fun _ _ _ _ _ _ _ => rfl
    · simp only [expect, ht, if_false]
      exact describes_reject () (hmisfits (by simpa [ahead] using ht))

/-- A sign is read by asking for it. -/
theorem expect_symbol_describes (ending : Ending) (s : Symbol) (ts : List Token) :
    (item (.symbol s)).Describes ending ts (expect ending (.symbol s) ts) :=
  expect_describes ending ts nofun fun _ _ _ _ _ => nofun

/-- A name is read by asking for a name. -/
theorem identifier_describes (ending : Ending) (ts : List Token) :
    name.Describes ending ts (identifier ending ts) := by
  cases ts with
  | nil =>
    refine describes_reject "" ⟨?_, nofun⟩
    intro k hk d r w _ heq
    cases ending with
    | error e => cases hk
    | ok mark => cases hk; cases heq
  | cons t rest =>
    simp only [identifier]
    split
    · next x hx =>
      refine describes_done [t] x rfl rfl (by simp [hx]) ?_
      intro k _ d' r w _ heq
      simp_all
    · next hx =>
      refine describes_reject "" ⟨?_, fun t' rest' x ht hkind => ?_⟩
      · rintro k ⟨⟩ d r w - heq
        exact hx _ (List.cons.inj heq).1.symm
      · cases ht
        exact absurd hkind (hx x)

/-- A part that may be missing stands for something else if what it opens does, and so does its
absence. -/
theorem map_maybe (f : α → β) (opening : Token.Kind) (absent : α) (P : Phrase α) :
    (P.maybe opening absent).map f = (P.map f).maybe opening (f absent) := by
  simp only [map, maybe, Phrase.mk.injEq, heq_eq_eq, true_and, and_true]
  constructor <;> funext d <;> cases d <;> rfl

/-- A part that may be missing is told by the token that opens it. -/
theorem optionally_describes {opening : Token.Kind} {absent : α}
    {part : (rest : List Token) → rest.length < ts.length → Parse (rest.length + 1) α}
    (hmark : opening ≠ .endOfInput) (hend : opening ≠ .keyword .endBlock)
    (hpart : ∀ rest h, P.Describes ending rest (part rest h)) :
    (P.maybe opening absent).Describes ending ts (optionally ending opening absent ts part) := by
  have honly {rest : List Token} (hne : ahead ending rest ≠ some opening) (k : Token.Kind)
      (hk : Probe ending rest k) (d : (P.maybe opening absent).Tree) (r w : List Token.Kind)
      (heq : (P.maybe opening absent).kinds d ++ r = k :: w) : d = none := by
    cases d with
    | none => rfl
    | some d =>
      exact absurd (List.cons.inj heq).1.symm (hk.ne hne hend)
  cases ts with
  | nil =>
    refine describes_glance (P := P.maybe opening absent) none fun mark hmark' => ?_
    subst hmark'
    refine describes_done (P := P.maybe opening absent) [] none rfl rfl rfl ?_
    exact fun k hk d r w _ heq => honly (by simpa [ahead] using hmark.symm) k hk d r w heq
  | cons t rest =>
    simp only [optionally]
    split
    · next ht =>
      apply Describes.weaken
      refine (hpart rest _).lift [t] some rfl ?_ (fun _ => rfl) (fun _ hk => hk.1) ?_
      · intro p
        simp [ht]
      · rintro k - (_ | d) r w hr heq
        · obtain rfl : r = opening :: k :: w := by simpa [ht] using heq
          exact absurd rfl hr.2
        · exact ⟨d, rfl⟩
    · next ht =>
      refine describes_done (P := P.maybe opening absent) [] none rfl rfl rfl ?_
      exact fun k hk d r w _ heq => honly (by simpa [ahead] using ht) k hk d r w heq

/-- A rule decides about `Q`, if it decides about a part that may be missing and `Q` is that part or
nothing. -/
theorem Describes.part {opening : Token.Kind} {absent : α} {x : Parse n α}
    (h : (P.maybe opening absent).Describes ending ts x) (nothing : Q.Tree) (F : P.Tree → Q.Tree)
    (hnothing : Q.kinds nothing = [] ∧ Q.value nothing = absent)
    (hsome : ∀ p, Q.kinds (F p) = opening :: P.kinds p ∧ Q.value (F p) = P.value p)
    (hfollow : ∀ k, Q.follow k → P.follow k) (hopening : ¬Q.follow opening)
    (hcover : ∀ q, q = nothing ∨ ∃ p, q = F p) : Q.Describes ending ts x := by
  refine h.build (fun p => p.elim nothing F) ?_ ?_ ?_ ?_
  · intro p
    cases p with
    | none => exact hnothing.1
    | some p => exact (hsome p).1
  · intro p
    cases p with
    | none => exact hnothing.2
    | some p => exact (hsome p).2
  · intro k hk
    exact ⟨hfollow k hk, fun heq => hopening (heq ▸ hk)⟩
  · intro q
    rcases hcover q with hq | ⟨p, hq⟩
    · exact ⟨none, hq⟩
    · exact ⟨some p, hq⟩

end Phrase

namespace Phrase

/-- A phrase and a token that closes it. -/
abbrev closed {α : Type} (P : Phrase α) (k : Token.Kind) : Phrase α :=
  P.seq (fun a _ => a) (item k)

/-- A rule may read the sign that closes a phrase before it makes something of the phrase. -/
theorem Describes.closed {α β : Type} {P : Phrase α} {ending : Ending} {ts : List Token} {n : Nat}
    {x : Parse n α} {s : Symbol} (h : P.Describes ending ts x) (hs : P.follow (.symbol s))
    (f : α → β) :
    ((P.closed (.symbol s)).map f).Describes ending ts
      (x.bind fun a rest _ => ((expect ending (.symbol s) rest).map fun _ => f a).weaken) :=
  Describes.seq (f := fun a _ => f a) h
    (fun a rest _ => ((expect_symbol_describes ending s rest).map fun _ => f a).weaken _)
    (fun _ _ _ => hs) ()

end Phrase

/-! ## The phrases of the grammar -/

/-- What may stand behind an expression that is no operand. -/
def closers : List Token.Kind :=
  [.symbol .rightParen, .symbol .comma, .symbol .semicolon, .keyword .endBlock, .endOfInput]

/-- What may stand behind the derivations of a nonterminal. Where a derivation shows by its last
token that it is complete, anything may. -/
def Nonterminal.follow : Nonterminal → Token.Kind → Prop
  | program, k => k = .endOfInput
  | programHeading, k =>
    k ∈ [.keyword .varSection, .keyword .function, .keyword .procedure, .keyword .beginBlock]
  | variablePart, k | variableSection, k =>
    k ∈ [.keyword .function, .keyword .procedure, .keyword .beginBlock]
  | routines, k => k = .keyword .beginBlock
  | parameterPart, k => k ∈ [.symbol .colon, .symbol .semicolon]
  | parameters, k => k = .symbol .rightParen
  | resultPart _, k => k = .symbol .semicolon
  | names, k => k = .symbol .colon
  | statements, k => k = .keyword .endBlock
  | statement, k => k ∈ [.symbol .semicolon, .keyword .endBlock]
  | expression tiers, k => k ∈ closers ∨ ∃ op : BinaryOp, k = .symbol op.symbol ∧ tiers ≤ op.tier
  | operations tier, k => k ∈ closers ∨ ∃ op : BinaryOp, k = .symbol op.symbol ∧ tier < op.tier
  | arguments, k | moreArguments, k => k = .symbol .rightParen
  | block, _ | routine, _ | nameGroup, _ | compound, _ => True

/-- The derivations of a nonterminal. -/
abbrev phrase (s : Nonterminal) : Phrase s.Value where
  Tree := Derivation s
  kinds := Derivation.yield
  value := Derivation.tree
  follow := s.follow

end SmallPascal.Grammar

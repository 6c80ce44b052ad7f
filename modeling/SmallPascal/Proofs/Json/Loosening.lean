import Mathlib.Data.List.Nodup
import SmallPascal.Json

/-!
# Loosened JSON

What writes a record puts all of its fields down, in their order, and nothing else. What reads one
minds less: members with other names are passed over, the order is of no matter, and a result type
that is null may as well be missing. `Json.Loosens` says of two values that the second one is the
first one but for such liberties, anywhere inside.

Alternatives are objects too, but nothing may be added to those, since their one member tells the
tag. Tags are capitalised and names of fields are not, so the keys tell which objects are records.

`Json.Reads` says that a reader gets a certain result from every loosened form of a value. It is
proved part by part: the fields of a record are found, whatever else is there (`Reads.record`,
`Keeps.field`), and what is found is a loosened form of what was written.
-/

namespace SmallPascal

namespace Json

/-! ## Lookup -/

section Lookup

variable {k : String} {v : Json} {members : List (String × Json)}

/-- A member that is found is among the members. -/
theorem mem_of_member? (h : member? k members = some v) : (k, v) ∈ members := by
  induction members with
  | nil => cases h
  | cons m rest ih =>
    obtain ⟨key, value⟩ := m
    rw [member?, Option.or_eq_some_iff] at h
    obtain h | ⟨-, h⟩ := h
    · exact List.mem_cons_of_mem _ (ih h)
    · obtain ⟨rfl, rfl⟩ : key = k ∧ value = v := by simpa using h
      exact List.mem_cons_self

/-- Nothing is found under a key that no member has. -/
theorem member?_eq_none_iff : member? k members = none ↔ k ∉ members.map Prod.fst := by
  induction members with
  | nil => simp [member?]
  | cons m rest ih =>
    rw [member?, Option.or_eq_none_iff, ih, List.map_cons, List.mem_cons, not_or, and_comm]
    simp [eq_comm]

/-- A member is found if no other one has its key. -/
theorem member?_eq_some (hmem : (k, v) ∈ members) (hunique : ∀ w, (k, w) ∈ members → w = v) :
    member? k members = some v := by
  cases h : member? k members with
  | none => exact absurd (List.mem_map_of_mem hmem) (member?_eq_none_iff.1 h)
  | some w => rw [hunique w (mem_of_member? h)]

/-- No member nests deeper than all members together. -/
theorem depth_le_of_mem (h : (k, v) ∈ members) : v.depth ≤ depthMembers members := by
  induction members with
  | nil => cases h
  | cons m rest ih =>
    rw [depthMembers]
    cases h with
    | head => exact Nat.le_max_left ..
    | tail _ h => exact Nat.le_trans (ih h) (Nat.le_max_right ..)

end Lookup

/-! ## Records -/

/-- The names of fields. -/
def fieldNames : List String :=
  ["name", "var", "type_spec", "children", "declarations", "body", "kind", "params",
    "return_type", "block", "args", "op", "operand", "left", "right", "target", "value", "lexeme",
    "line", "column"]

mutual

/-- The second value is the first one, or the first one with arrays, alternatives and records
loosened inside it. A loosened record keeps its members, with loosened values, but that a null
result type may be left out. It may have any members that are called otherwise, and the order does
not matter. -/
inductive Loosens : Json → Json → Prop where
  | refl (j : Json) : Loosens j j
  | array {items items' : List Json} (h : LoosensAll items items') :
    Loosens (.array items) (.array items')
  | variant (tag : String) {content content' : Json} (h : Loosens content content') :
    Loosens (.object [(tag, content)]) (.object [(tag, content')])
  | record {members kept added members' : List (String × Json)}
    (hfields : ∀ m ∈ members, m.1 ∈ fieldNames) (hkept : LoosensMembers members kept)
    (hadded : ∀ m ∈ added, m.1 ∉ members.map Prod.fst) (hperm : members'.Perm (kept ++ added)) :
    Loosens (.object members) (.object members')

/-- Values that are loosened one by one. -/
inductive LoosensAll : List Json → List Json → Prop where
  | nil : LoosensAll [] []
  | cons {j j' : Json} {items items' : List Json} (h : Loosens j j')
    (hrest : LoosensAll items items') : LoosensAll (j :: items) (j' :: items')

/-- Members whose values are loosened one by one, but that a null result type may be left out. -/
inductive LoosensMembers : List (String × Json) → List (String × Json) → Prop where
  | nil : LoosensMembers [] []
  | cons (key : String) {j j' : Json} {members members' : List (String × Json)} (h : Loosens j j')
    (hrest : LoosensMembers members members') :
    LoosensMembers ((key, j) :: members) ((key, j') :: members')
  | leaveOut {members members' : List (String × Json)} (hrest : LoosensMembers members members') :
    LoosensMembers (("return_type", .null) :: members) members'

end

variable {d : Nat} {j : Json} {members members' : List (String × Json)}

/-- Items that are left as they are count as loosened. -/
theorem LoosensAll.refl : (items : List Json) → LoosensAll items items
  | [] => .nil
  | j :: rest => .cons (.refl j) (.refl rest)

namespace LoosensMembers

/-- Members that are left as they are count as loosened. -/
theorem refl : (members : List (String × Json)) → LoosensMembers members members
  | [] => .nil
  | (key, j) :: rest => .cons key (.refl j) (.refl rest)

/-- Nothing is kept that was not there. -/
theorem sublist : {members kept : List (String × Json)} → LoosensMembers members kept →
    (kept.map Prod.fst).Sublist (members.map Prod.fst)
  | _, _, .nil => .slnil
  | _, _, .cons key _ hrest => hrest.sublist.cons_cons key
  | _, _, .leaveOut hrest => hrest.sublist.cons _

/-- A member is kept, or it is a null result type that is left out. -/
theorem kept_or_left_out {k : String} {v : Json} : {members kept : List (String × Json)} →
    LoosensMembers members kept → (members.map Prod.fst).Nodup → (k, v) ∈ members →
    (∃ v', (k, v') ∈ kept ∧ Loosens v v') ∨
      (k = "return_type" ∧ v = .null ∧ k ∉ kept.map Prod.fst)
  | _, _, .cons key h hrest, hnodup, hmem => by
    obtain ⟨hkey, hnodup⟩ := List.nodup_cons.1 hnodup
    obtain heq | hmem := List.mem_cons.1 hmem
    · cases heq
      exact .inl ⟨_, List.mem_cons_self, h⟩
    · obtain ⟨v', hv', hloose⟩ | ⟨hreturn, hnull, hout⟩ := hrest.kept_or_left_out hnodup hmem
      · exact .inl ⟨v', List.mem_cons_of_mem _ hv', hloose⟩
      · have hk : k ≠ key := fun hk => hkey (hk ▸ List.mem_map.2 ⟨(k, v), hmem, rfl⟩)
        exact .inr ⟨hreturn, hnull, List.not_mem_cons_of_ne_of_not_mem hk hout⟩
  | _, _, .leaveOut hrest, hnodup, hmem => by
    obtain ⟨hkey, hnodup⟩ := List.nodup_cons.1 hnodup
    obtain heq | hmem := List.mem_cons.1 hmem
    · cases heq
      exact .inr ⟨rfl, rfl, fun hin => hkey (hrest.sublist.mem hin)⟩
    · exact hrest.kept_or_left_out hnodup hmem

end LoosensMembers

/-- A loosened record has the fields, each with a loosened value that nests no deeper than `d`, but
that a null result type may be missing. -/
def Keeps (d : Nat) (members members' : List (String × Json)) : Prop :=
  ∀ k v, (k, v) ∈ members →
    (∃ v', member? k members' = some v' ∧ Loosens v v' ∧ v'.depth ≤ d) ∨
      (k = "return_type" ∧ v = .null ∧ member? k members' = none)

namespace Loosens

/-- What becomes of an object, whether it is left as it is, loosened inside or loosened itself. -/
theorem object_inv (h : Loosens (.object members) j) :
    ∃ members' kept added, j = .object members' ∧ LoosensMembers members kept ∧
      (∀ m ∈ added, m.1 ∉ members.map Prod.fst) ∧ members'.Perm (kept ++ added) := by
  cases h with
  | refl => exact ⟨members, members, [], rfl, .refl members, nofun, by simp⟩
  | variant tag h => exact ⟨_, _, [], rfl, .cons tag h .nil, nofun, by simp⟩
  | record _ hkept hadded hperm => exact ⟨_, _, _, rfl, hkept, hadded, hperm⟩

/-- A loosened object is an object that keeps the members, up to their order and what is added. -/
theorem keeps (h : Loosens (.object members) j) (hnodup : (members.map Prod.fst).Nodup) :
    ∃ members', j = .object members' ∧ Keeps j.depth members members' := by
  obtain ⟨members', kept, added, rfl, hkept, hadded, hperm⟩ := h.object_inv
  refine ⟨members', rfl, fun k v hmem => ?_⟩
  have hk : k ∈ members.map Prod.fst := List.mem_map_of_mem hmem
  -- A member of the loosened record that has the key of a field is not an added one.
  have hfield (w : Json) : (k, w) ∈ members' → (k, w) ∈ kept := fun hw =>
    (List.mem_append.1 (hperm.mem_iff.1 hw)).resolve_right fun hadd => hadded _ hadd hk
  obtain ⟨v', hv', hloose⟩ | ⟨hreturn, hnull, hout⟩ := hkept.kept_or_left_out hnodup hmem
  · have hin : (k, v') ∈ members' := hperm.mem_iff.2 (List.mem_append_left _ hv')
    have hkeys := hkept.sublist.nodup hnodup
    have hunique (w : Json) (hw : (k, w) ∈ members') : w = v' :=
      congrArg Prod.snd (List.inj_on_of_nodup_map hkeys (hfield w hw) hv' rfl)
    exact .inl ⟨v', member?_eq_some hin hunique, hloose, Nat.le_succ_of_le (depth_le_of_mem hin)⟩
  · refine .inr ⟨hreturn, hnull, member?_eq_none_iff.2 fun hin => ?_⟩
    obtain ⟨⟨_, w⟩, hw, rfl⟩ := List.mem_map.1 hin
    exact hout (List.mem_map_of_mem (hfield w hw))

/-- A loosened array is an array of loosened items. -/
theorem array_inv {items : List Json} (h : Loosens (.array items) j) :
    ∃ items', j = .array items' ∧ LoosensAll items items' := by
  cases h with
  | refl => exact ⟨items, rfl, .refl items⟩
  | array h => exact ⟨_, rfl, h⟩

/-- Nothing is added to an alternative. -/
theorem variant_inv {tag : String} {content : Json} (htag : tag ∉ fieldNames)
    (h : Loosens (.variant tag content) j) :
    ∃ content', j = .variant tag content' ∧ Loosens content content' := by
  rw [Json.variant] at h
  cases h with
  | refl => exact ⟨content, rfl, .refl content⟩
  | variant _ h => exact ⟨_, rfl, h⟩
  | record hfields => exact absurd (hfields _ List.mem_cons_self) htag

end Loosens

/-! ## Readers -/

/-- Every loosened form of `j` that nests no deeper than `d` is read as `a`. -/
def Reads {α : Type} (d : Nat) (read : Json → Option α) (j : Json) (a : α) : Prop :=
  ∀ j', Loosens j j' → j'.depth ≤ d → read j' = some a

namespace Reads

variable {α β : Type} {read : Json → Option α} {a : α}

/-- A value that is read at every depth is read from each of its loosened forms. -/
theorem of_loosens (h : ∀ d, Reads d read j a) {j' : Json} (hj : Loosens j j') :
    read j' = some a :=
  h j'.depth j' hj (Nat.le_refl _)

/-- What is read from a value and from a loosened form of it is the same. -/
theorem eq_of_loosens {b : α} {j' : Json} (h : ∀ d, Reads d read j a) (h' : ∀ d, Reads d read j' b)
    (hj : Loosens j j') : a = b :=
  Option.some.inj ((of_loosens h hj).symm.trans (of_loosens h' (.refl j')))

/-- What is made of a result is made of it for loosened forms, too. -/
theorem map (f : α → β) (h : Reads d read j a) : Reads d (fun j => (read j).map f) j (f a) :=
  fun j' hj hd => congrArg (Option.map f) (h j' hj hd)

/-- No value nests no deeper than zero. -/
theorem zero : Reads 0 read j a := by
  intro j' _ hd
  cases j' <;> simp [depth] at hd

/-- A string has no other form, and is read as it is. -/
theorem string (s : String) : Reads d string? (.string s) s := by
  intro j' hj _
  cases hj
  rfl

/-- A truth value has no other form, and is read as it is. -/
theorem bool (b : Bool) : Reads d bool? (.bool b) b := by
  intro j' hj _
  cases hj
  rfl

/-- A number in the 64-bit range has no other form, and is read as it is. -/
theorem int64 (n : Int64) : Reads d int64? (.integer n.toInt) n := by
  intro j' hj _
  cases hj
  rw [int64?, if_pos ⟨n.le_toInt, n.toInt_lt⟩, Int64.ofInt_toInt]

/-- A natural number that fits a word has no other form, and is read as it is. -/
theorem count {n : Nat} (h : n < 18446744073709551616) : Reads d count? (.integer n) n := by
  intro j' hj _
  cases hj
  rw [count?, if_pos (by omega), Int.toNat_natCast]

/-- A tag is read as what it is the tag of. -/
theorem tag {ofTag? : String → Option α} {tag : String} (h : ofTag? tag = some a) :
    Reads d (fun j => j.tag?.bind ofTag?) (.string tag) a := by
  intro j' hj _
  cases hj
  exact h

/-- An empty array is read as the empty list. -/
theorem listOf_nil : Reads d (listOf? read) (.array []) [] := by
  intro j' hj _
  obtain ⟨items', rfl, hitems⟩ := hj.array_inv
  cases hitems
  rfl

/-- An array is read item by item. -/
theorem listOf_cons {items : List Json} {as : List α} (h : Reads d read j a)
    (hrest : Reads d (listOf? read) (.array items) as) :
    Reads d (listOf? read) (.array (j :: items)) (a :: as) := by
  intro j' hj hd
  obtain ⟨items', rfl, hitems⟩ := hj.array_inv
  cases hitems with
  | @cons _ j' _ items' hj' hitems' =>
    rw [depth, depthAll] at hd
    have hfirst := h j' hj' (by omega)
    have hothers := hrest (.array items') (.array hitems') (by rw [depth]; omega)
    rw [listOf?] at hothers ⊢
    rw [List.mapM_cons, hfirst, hothers]
    rfl

/-- The content of an alternative may nest as deep as the bound, which does not count the
alternative itself. -/
theorem variant {tag : String} (htag : tag ∉ fieldNames)
    (h : ∀ content, Loosens j content → content.depth ≤ d → read (.variant tag content) = some a) :
    Reads (d + 1) read (.variant tag j) a := by
  intro j' hj hd
  obtain ⟨content, rfl, hcontent⟩ := hj.variant_inv htag
  refine h content hcontent ?_
  rw [Json.variant, depth, depthMembers, depthMembers] at hd
  omega

/-- If the content is read however deep it nests, so is the alternative. -/
theorem variant_of_forall {tag : String} (htag : tag ∉ fieldNames)
    (h : ∀ d, Reads d (fun content => read (.variant tag content)) j a) :
    Reads d read (.variant tag j) a := by
  cases d with
  | zero => exact zero
  | succ d => exact variant htag (h d)

/-- To read a record, it is enough that the fields are there. -/
theorem record (hnodup : (members.map Prod.fst).Nodup)
    (h : ∀ members', Keeps d members members' → read (.object members') = some a) :
    Reads d read (.object members) a := by
  intro j' hj hd
  obtain ⟨members', rfl, hkeeps⟩ := hj.keeps hnodup
  refine h members' fun k v hmem => (hkeeps k v hmem).imp_left ?_
  rintro ⟨v', hv', hloose, hdepth⟩
  exact ⟨v', hv', hloose, Nat.le_trans hdepth hd⟩

end Reads

/-- A field of a record is found and read. -/
theorem Keeps.field {α : Type} {read : Json → Option α} {a : α} (hkeeps : Keeps d members members')
    (k : String) (h : Reads d read j a) (hmem : (k, j) ∈ members) (hk : k ≠ "return_type") :
    ∃ j', member? k members' = some j' ∧ read j' = some a := by
  obtain ⟨j', hj', hloose, hdepth⟩ | ⟨hreturn, -⟩ := hkeeps k j hmem
  · exact ⟨j', hj', h j' hloose hdepth⟩
  · exact absurd hreturn hk

end Json

end SmallPascal

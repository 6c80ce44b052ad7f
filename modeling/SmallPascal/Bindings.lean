import SmallPascal.Value

/-!
# Bindings

A finite map from names to values. Its entries stand in the order of their names, by code point,
each name once, so that maps with the same bindings are the same (`Bindings.ext_get?`) and a listing
of a map is determined by what it binds.
-/

namespace SmallPascal

/-- A finite map from names to values. -/
structure Bindings where
  /-- The names with their values, in the order of the names. -/
  entries : List (String × Value)
  sorted : entries.Pairwise fun a b => a.1 < b.1

namespace Bindings

/-- Puts an entry into its place in a sorted list, instead of one that has its name. -/
def insertEntry (name : String) (v : Value) : List (String × Value) → List (String × Value)
  | [] => [(name, v)]
  | e :: rest =>
    if name < e.1 then (name, v) :: e :: rest
    else if name = e.1 then (name, v) :: rest
    else e :: insertEntry name v rest

/-- Putting an entry into a list brings in no other name. -/
theorem fst_of_mem_insertEntry {name : String} {v : Value} {entries : List (String × Value)}
    {e : String × Value} (h : e ∈ insertEntry name v entries) : e.1 = name ∨ e ∈ entries := by
  fun_induction insertEntry name v entries <;> grind

/-- A list stays sorted when an entry is put into its place, so a map stays one when a name is
bound. -/
theorem sorted_insertEntry (name : String) (v : Value) {entries : List (String × Value)}
    (h : entries.Pairwise fun a b => a.1 < b.1) :
    (insertEntry name v entries).Pairwise fun a b => a.1 < b.1 := by
  fun_induction insertEntry name v entries with
  | case1 => simp
  | case2 e rest hlt =>
    refine List.pairwise_cons.2 ⟨fun a ha => ?_, h⟩
    rcases List.mem_cons.1 ha with rfl | ha
    · exact hlt
    · exact String.lt_trans hlt ((List.pairwise_cons.1 h).1 a ha)
  | case3 rest e hlt heq =>
    obtain ⟨hfirst, hrest⟩ := List.pairwise_cons.1 h
    exact List.pairwise_cons.2 ⟨fun a ha => heq ▸ hfirst a ha, hrest⟩
  | case4 e rest hlt hne ih =>
    refine List.pairwise_cons.2 ⟨fun a ha => ?_, ih (List.pairwise_cons.1 h).2⟩
    rcases fst_of_mem_insertEntry ha with h' | h'
    · exact h' ▸ Std.lt_of_le_of_ne (String.not_lt.1 hlt) (Ne.symm hne)
    · exact (List.pairwise_cons.1 h).1 a h'

/-- The map that binds nothing. -/
def empty : Bindings :=
  ⟨[], .nil⟩

/-- The value of a name. -/
def get? (b : Bindings) (name : String) : Option Value :=
  b.entries.lookup name

/-- Binds a name, whether it was bound before or not. -/
def insert (b : Bindings) (name : String) (v : Value) : Bindings :=
  ⟨insertEntry name v b.entries, sorted_insertEntry name v b.sorted⟩

/-- Binds names one after the other. -/
def insertAll (b : Bindings) (entries : List (String × Value)) : Bindings :=
  entries.foldl (fun acc e => acc.insert e.1 e.2) b

/-- The bindings of `b`, and those of `c` for the names that `b` does not bind. -/
def orElse (b c : Bindings) : Bindings :=
  c.insertAll b.entries

/-- The names that are bound, in their order. -/
def names (b : Bindings) : List String :=
  b.entries.map Prod.fst

/-! ## The view through `get?` -/

@[simp] theorem get?_empty (name : String) : empty.get? name = none := rfl

/-- Behind an insertion its own name has the new value, and every other name has the one it had. -/
theorem lookup_insertEntry (name : String) (v : Value) (entries : List (String × Value))
    (n : String) :
    (insertEntry name v entries).lookup n = if n = name then some v else entries.lookup n := by
  fun_induction insertEntry name v entries <;> grind

@[simp] theorem get?_insert (b : Bindings) (name : String) (v : Value) (n : String) :
    (b.insert name v).get? n = if n = name then some v else b.get? n :=
  lookup_insertEntry name v b.entries n

/-- A name has a value if it stands among the entries with that value. As the entries are sorted, no
second entry can hide behind the first. -/
theorem get?_eq_some_iff {b : Bindings} {name : String} {v : Value} :
    b.get? name = some v ↔ (name, v) ∈ b.entries := by
  obtain ⟨entries, sorted⟩ := b
  show entries.lookup name = some v ↔ _
  induction entries with
  | nil => simp
  | cons e rest ih =>
    have hrest := List.pairwise_cons.1 sorted
    have ih := ih hrest.2
    by_cases h : name = e.1
    · have hne : (name, v) ∉ rest := fun hm => String.lt_irrefl _ (h ▸ hrest.1 _ hm)
      grind
    · grind

/-- The names of a map are those that have a value. -/
theorem mem_names_iff {b : Bindings} {name : String} :
    name ∈ b.names ↔ ∃ v, b.get? name = some v := by
  simp [names, get?_eq_some_iff]

/-- Maps that bind the same are the same. -/
theorem ext_get? {b c : Bindings} (h : ∀ name, b.get? name = c.get? name) : b = c := by
  have hmem : ∀ e, e ∈ b.entries ↔ e ∈ c.entries := fun e => by
    rw [← get?_eq_some_iff, ← get?_eq_some_iff, h]
  obtain ⟨bs, hb⟩ := b
  obtain ⟨cs, hc⟩ := c
  -- Both lists are sorted by names and hold the same entries, so they are the same list.
  have hnodup : ∀ {es : List (String × Value)}, es.Pairwise (fun a b => a.1 < b.1) → es.Nodup :=
    fun hs => List.Pairwise.imp (S := (· ≠ ·))
      (fun hlt heq => String.lt_irrefl _ (heq ▸ hlt)) hs
  have hperm : bs.Perm cs :=
    (List.perm_ext_iff_of_nodup (hnodup hb) (hnodup hc)).2 hmem
  have heq : bs = cs :=
    hperm.eq_of_pairwise
      (fun _ _ _ _ hab hba => absurd (String.lt_trans hab hba) (String.lt_irrefl _)) hb hc
  subst heq
  rfl

end Bindings

end SmallPascal

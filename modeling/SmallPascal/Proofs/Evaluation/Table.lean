import SmallPascal.Proofs.Evaluation.Frame
import SmallPascal.Proofs.Grammar.WellFormed

/-!
# The routines of a program

The routines that a program declares are a table if they are declared side by side, under names of
their own, and nothing in the program reads these names or assigns to them where they are declared
(`Program.HasTable`). That is a property of the text, to be seen from the names that are read
(`Node.reads`) and written (`Node.written`).
-/

namespace SmallPascal

/-! ## Names that are read -/

namespace Node

mutual

/-- The names whose values are read somewhere in a node, bodies of routines and nested programs
included. -/
def reads : Node → List String
  | .var name => [name]
  | .unary _ operand => operand.reads
  | .binary _ left right => left.reads ++ right.reads
  | .assign _ value => value.reads
  | .compound children => readsAll children
  | .call _ args => readsAll args
  | .block declarations body | .routine _ _ _ _ declarations body | .program _ declarations body =>
    readsAll declarations ++ readsAll body
  | .number _ | .boolean _ | .noOp | .varDecl .. | .typeSpec _ | .param _ => []

/-- The names whose values are read somewhere in a list of nodes. -/
def readsAll : List Node → List String
  | [] => []
  | n :: rest => n.reads ++ readsAll rest

end

/-- A name is read in a list of nodes if it is read in one of them. -/
theorem mem_readsAll {name : String} {ns : List Node} :
    name ∈ readsAll ns ↔ ∃ n ∈ ns, name ∈ n.reads := by
  induction ns with
  | nil => simp [readsAll]
  | cons n rest ih => simp [readsAll, ih]

/-- A name is bound by a list of nodes if it is bound by one of them. -/
theorem mem_writtenAll {name : String} {ns : List Node} :
    name ∈ writtenAll ns ↔ ∃ n ∈ ns, name ∈ n.written := by
  induction ns with
  | nil => simp [writtenAll]
  | cons n rest ih => simp [writtenAll, ih]

/-- The routine that a node declares. -/
def routine? : Node → Option Routine
  | .routine name kind params returnType declarations body =>
    some ⟨name, kind, params, returnType, ⟨declarations, body⟩⟩
  | _ => none

end Node

@[simp] theorem Routine.routine?_node (r : Routine) : r.node.routine? = some r := rfl

/-- A routine is determined by its declaration. -/
theorem Routine.node_injective : Function.Injective Routine.node := fun r r' h =>
  Option.some.inj (by rw [← r.routine?_node, h, r'.routine?_node])

/-- A node declares a routine only if it is its declaration. -/
theorem Node.routine?_eq_some {n : Node} {r : Routine} (h : n.routine? = some r) : n = r.node := by
  cases n with
  | routine =>
    obtain rfl := Option.some.inj h
    rfl
  | _ => cases h

/-- The names whose values are read somewhere in a block. -/
def Block.reads (b : Block) : List String :=
  Node.readsAll b.declarations ++ Node.readsAll b.body

/-- The routines that a block declares, in their order. -/
def Block.routines (b : Block) : List Routine :=
  b.declarations.filterMap Node.routine?

/-- Whether a program has a fixed table of routines: they are declared side by side under names of
their own, and these names are not used for anything else where the routines could be lost or handed
on. Parameters, variables and results inside routines may have them. -/
structure Program.HasTable (p : Program) : Prop where
  /-- No routine is declared inside another one. -/
  flat : ∀ r ∈ p.block.routines, r.block.routines = []
  distinct : (p.block.routines.map Routine.name).Nodup
  /-- The statements of the program assign to none of the names. -/
  unassigned : ∀ r ∈ p.block.routines, r.name ∉ Node.writtenAll p.block.body
  /-- Nothing anywhere reads the value of one of the names. -/
  unread : ∀ r ∈ p.block.routines, r.name ∉ p.block.reads

/-- A name is read in a block if it is read in one of its declarations or statements. -/
theorem Block.mem_reads {name : String} {b : Block} :
    name ∈ b.reads ↔ ∃ n ∈ b.declarations ++ b.body, name ∈ n.reads := by
  simp only [reads, List.mem_append, Node.mem_readsAll, or_and_right, exists_or]

/-- The declaration of a variable declares no routine. -/
theorem Node.IsVariable.routine?_eq_none {n : Node} (h : n.IsVariable) : n.routine? = none := by
  cases h
  rfl

namespace Block.WellFormed

variable {b : Block}

/-- What stands in front of the statements of a block. -/
theorem isVariable_or_routine (h : b.WellFormed) :
    ∀ n ∈ b.declarations, n.IsVariable ∨ ∃ r : Routine, n = r.node ∧ r.block.WellFormed := by
  obtain ⟨hvars, -, hblocks, -⟩ := h
  intro n hn
  rcases List.mem_append.1 hn with hn | hn
  · exact .inl (hvars n hn)
  · obtain ⟨r, hr, rfl⟩ := List.mem_map.1 hn
    exact .inr ⟨r, rfl, hblocks r hr⟩

/-- The routines of a well-formed block have well-formed blocks. -/
theorem of_mem_routines (h : b.WellFormed) {r : Routine} (hr : r ∈ b.routines) :
    r.block.WellFormed := by
  obtain ⟨n, hn, hnr⟩ := List.mem_filterMap.1 hr
  obtain hvar | ⟨r', rfl, hr'⟩ := h.isVariable_or_routine n hn
  · rw [hvar.routine?_eq_none] at hnr
    cases hnr
  · rw [Routine.routine?_node] at hnr
    exact Option.some.inj hnr ▸ hr'

/-- A block that declares no routine declares variables only. -/
theorem isVariable (h : b.WellFormed) (hflat : b.routines = []) :
    ∀ n ∈ b.declarations, n.IsVariable := by
  intro n hn
  obtain hvar | ⟨r, rfl, -⟩ := h.isVariable_or_routine n hn
  · exact hvar
  · have hr : r ∈ b.routines := List.mem_filterMap.2 ⟨r.node, hn, rfl⟩
    rw [hflat] at hr
    cases hr

/-- The statements of a well-formed block are those of the grammar. -/
theorem isStatement (h : b.WellFormed) : ∀ n ∈ b.body, n.IsStatement := by
  obtain ⟨-, -, -, hbody⟩ := h
  cases hbody with
  | compound _ hchildren => exact hchildren

end Block.WellFormed

/-! ## Looking up a name -/

/-- The routine of a name in a table. -/
def lookup (table : List Routine) (name : String) : Option Routine :=
  table.find? fun r => r.name == name

/-- What a table has for a name is in the table and has the name. -/
theorem mem_of_lookup {table : List Routine} {name : String} {r : Routine}
    (h : lookup table name = some r) : r ∈ table ∧ r.name = name :=
  ⟨List.mem_of_find?_eq_some h, by simpa using List.find?_some h⟩

/-- A table has nothing for a name that none of its routines has. -/
theorem lookup_eq_none {table : List Routine} {name : String} (h : ∀ r ∈ table, r.name ≠ name) :
    lookup table name = none :=
  List.find?_eq_none.2 fun r hr => by simpa using h r hr

/-- A routine of a block is declared there. -/
theorem mem_declarations {b : Block} {r : Routine} (h : r ∈ b.routines) :
    r.node ∈ b.declarations := by
  obtain ⟨n, hn, hr⟩ := List.mem_filterMap.1 h
  exact Node.routine?_eq_some hr ▸ hn

namespace Program.HasTable

variable {p : Program} {name : String}

/-- The table has no name whose value is read somewhere. -/
theorem lookup_of_reads (h : p.HasTable) (hname : name ∈ p.block.reads) :
    lookup p.block.routines name = none :=
  lookup_eq_none fun r hr heq => h.unread r hr (heq ▸ hname)

/-- The table has no name that the statements of the program bind. -/
theorem lookup_of_written (h : p.HasTable) (hname : name ∈ Node.writtenAll p.block.body) :
    lookup p.block.routines name = none :=
  lookup_eq_none fun r hr heq => h.unassigned r hr (heq ▸ hname)

/-- A routine is not declared twice. -/
theorem lookup_of_declarations (h : p.HasTable) {done more : List Node} {r : Routine}
    (hdone : p.block.declarations = done ++ r.node :: more) :
    lookup (done.filterMap Node.routine?) r.name = none := by
  have hdistinct := h.distinct
  rw [Block.routines, hdone, List.filterMap_append, List.filterMap_cons_some r.routine?_node,
    List.map_append, List.map_cons] at hdistinct
  refine lookup_eq_none fun r' hr' => ?_
  exact (List.nodup_append.1 hdistinct).2.2 _ (List.mem_map_of_mem hr') _ (.head _)

end Program.HasTable

end SmallPascal

import TensorIR.Function.Alpha
import TensorIR.Function.Printer
import TensorIR.HeapFunction

/-!
# Modules

A module is a finite map from names to definitions that remembers the order in which the names first
came. Replacing a definition keeps its place. The order has no meaning of its own; it makes the text
of a module, and what passes make of it, reproducible.
-/

namespace TensorIR

/-- What a module holds under a name. -/
inductive Item where
  | function (f : Function)
  /-- Shape arithmetic that lowering has moved out of a function. -/
  | heapFunction (f : HeapFunction)
deriving DecidableEq, Repr

namespace Item

/-- The function on tensors that an item is, if it is one. -/
def function? : Item → Option Function
  | function f => some f
  | heapFunction _ => none

/-- The heap function that an item is, if it is one. -/
def heapFunction? : Item → Option HeapFunction
  | heapFunction f => some f
  | function _ => none

/-- The name that a definition carries itself. -/
def name : Item → String
  | function f => f.name
  | heapFunction f => f.name

/-- An item as text; only a function can fail to have one. -/
def render : Item → Except Unallocated String
  | function f => f.render
  | heapFunction f => .ok f.render

/-- Whether two definitions are equal up to the names and positions of variables. -/
def alphaEq : Item → Item → Except Unallocated Bool
  | function f, function g => f.alphaEq g
  | heapFunction f, heapFunction g => .ok (f = g)
  | _, _ => .ok false

end Item

namespace Entries

/-- Puts a definition in the place of the one of that name, or at the end if there is none. -/
def insert (name : String) (item : Item) : List (String × Item) → List (String × Item)
  | [] => [(name, item)]
  | (key, old) :: rest =>
    if key = name then (name, item) :: rest else (key, old) :: insert name item rest

theorem keys_insert (name : String) (item : Item) (entries : List (String × Item)) :
    (insert name item entries).map Prod.fst =
      if name ∈ entries.map Prod.fst then entries.map Prod.fst
      else entries.map Prod.fst ++ [name] := by
  induction entries with
  | nil => simp [insert]
  | cons entry rest ih =>
    obtain ⟨key, old⟩ := entry
    by_cases same : key = name
    · simp [insert, same]
    · rw [insert, if_neg same, List.map_cons, ih]
      by_cases present : name ∈ rest.map Prod.fst <;> simp_all [eq_comm]

theorem nodup_keys_insert {name : String} {item : Item} {entries : List (String × Item)}
    (h : (entries.map Prod.fst).Nodup) : ((insert name item entries).map Prod.fst).Nodup := by
  rw [keys_insert]
  split
  · exact h
  · next absent =>
    refine List.nodup_append.2 ⟨h, List.pairwise_singleton _ _, ?_⟩
    rintro a ha b hb rfl
    exact absent (List.mem_singleton.1 hb ▸ ha)

theorem lookup_insert (name : String) (item : Item) (entries : List (String × Item))
    (key : String) :
    (insert name item entries).lookup key =
      if key = name then some item else entries.lookup key := by
  induction entries with
  | nil => by_cases h : key = name <;> simp [insert, List.lookup_cons, h, beq_false_of_ne]
  | cons entry rest ih =>
    obtain ⟨first, old⟩ := entry
    by_cases same : first = name
    · subst same
      by_cases h : key = first <;> simp [insert, List.lookup_cons, h, beq_false_of_ne]
    · rw [insert, if_neg same, List.lookup_cons, List.lookup_cons, ih]
      by_cases h : key = first
      · subst h
        simp [same]
      · simp [beq_false_of_ne h]

theorem insert_of_not_mem {name : String} {item : Item} {entries : List (String × Item)}
    (h : name ∉ entries.map Prod.fst) : insert name item entries = entries ++ [(name, item)] := by
  induction entries with
  | nil => rfl
  | cons entry rest ih =>
    obtain ⟨key, old⟩ := entry
    rw [List.map_cons, List.mem_cons, not_or] at h
    rw [insert, if_neg (Ne.symm h.1), ih h.2, List.cons_append]

end Entries

/-- Definitions under distinct names, in the order in which the names first came. -/
structure Module where
  entries : List (String × Item) := []
  nodup : (entries.map Prod.fst).Nodup := by decide
deriving DecidableEq, Repr

namespace Module

/-- The module without any item. -/
def empty : Module := {}

/-- The names of the items in order of their first insertion. -/
def names (m : Module) : List String := m.entries.map Prod.fst

/-- The item under a name. -/
def get? (m : Module) (name : String) : Option Item := m.entries.lookup name

/-- Whether there is an item under a name. -/
def contains (m : Module) (name : String) : Bool := m.names.contains name

/-- The number of items. -/
def size (m : Module) : Nat := m.entries.length

/-- Whether there is no item. -/
def isEmpty (m : Module) : Bool := m.entries.isEmpty

/-- Puts an item under a name: in the place of the one that is there, else at the end. -/
def insert (m : Module) (name : String) (item : Item) : Module :=
  ⟨Entries.insert name item m.entries, Entries.nodup_keys_insert m.nodup⟩

@[simp]
theorem entries_insert (m : Module) (name : String) (item : Item) :
    (m.insert name item).entries = Entries.insert name item m.entries := rfl

theorem get?_insert (m : Module) (name : String) (item : Item) (key : String) :
    (m.insert name item).get? key = if key = name then some item else m.get? key :=
  Entries.lookup_insert name item m.entries key

theorem get?_eq_some_iff {m : Module} {name : String} {item : Item} :
    m.get? name = some item ↔ (name, item) ∈ m.entries := by
  rw [get?]
  generalize entries : m.entries = es
  have distinct := m.nodup
  rw [entries] at distinct
  clear entries
  induction es with
  | nil => simp
  | cons entry es ih =>
    obtain ⟨key, old⟩ := entry
    rw [List.map_cons, List.nodup_cons] at distinct
    rw [List.lookup_cons, List.mem_cons, Prod.mk.injEq]
    by_cases same : name = key
    · subst same
      have absent : (name, item) ∉ es := fun mem => distinct.1 (List.mem_map.2 ⟨_, mem, rfl⟩)
      simp [absent, eq_comm]
    · simp [beq_false_of_ne same, same, ih distinct.2]

theorem names_insert (m : Module) (name : String) (item : Item) :
    (m.insert name item).names = if name ∈ m.names then m.names else m.names ++ [name] :=
  Entries.keys_insert name item m.entries

/-- Puts a definition under a name, and gives the definition that it replaces. -/
def exchange (m : Module) (name : String) (item : Item) : Module × Option Item :=
  (m.insert name item, m.get? name)

/-- The module with a definition put under the name that it carries itself. -/
def add (m : Module) (item : Item) : Module := m.insert item.name item

/-- The function on tensors under a name. -/
def function? (m : Module) (name : String) : Option Function := m.get? name >>= Item.function?

/-- The heap function under a name. -/
def heapFunction? (m : Module) (name : String) : Option HeapFunction :=
  m.get? name >>= Item.heapFunction?

/-- All functions on tensors, in the order of their names. -/
def functions (m : Module) : List Function := m.entries.filterMap fun entry => entry.2.function?

/-- The definitions, with an empty line between each two. -/
def render (m : Module) : Except Unallocated String := do
  let texts ← m.entries.mapM fun entry => entry.2.render
  return "\n\n".intercalate texts

/-- Whether two lists of definitions have the same names in the same order, and definitions that are
equal up to the names and positions of variables. -/
def alphaEqEntries : List (String × Item) → List (String × Item) → Except Unallocated Bool
  | [], [] => .ok true
  | (m, x) :: xs, (n, y) :: ys => do
    if m ≠ n then return false
    if ← x.alphaEq y then alphaEqEntries xs ys else return false
  | _, _ => .ok false

/-- Whether two modules are equal up to the names and positions of variables in functions. -/
def alphaEq (m n : Module) : Except Unallocated Bool :=
  if m.size ≠ n.size then .ok false else alphaEqEntries m.entries n.entries

/-- The module of a list of definitions, each put under its name in order. -/
def ofEntries (entries : List (String × Item)) : Module :=
  entries.foldl (fun m entry => m.insert entry.1 entry.2) .empty

/-- Definitions under distinct names are put one after the other. -/
theorem entries_ofEntries {entries : List (String × Item)}
    (h : (entries.map Prod.fst).Nodup) : (ofEntries entries).entries = entries := by
  suffices general : ∀ (es : List (String × Item)) (m : Module),
      ((m.entries ++ es).map Prod.fst).Nodup →
        (es.foldl (fun m entry => m.insert entry.1 entry.2) m).entries = m.entries ++ es by
    exact general entries .empty h
  intro es
  induction es with
  | nil => intro m _; simp
  | cons entry rest ih =>
    intro m distinct
    have absent : entry.1 ∉ m.entries.map Prod.fst := by
      rw [List.map_append, List.map_cons, List.nodup_append] at distinct
      intro present
      exact distinct.2.2 _ present _ List.mem_cons_self rfl
    have grown : (m.insert entry.1 entry.2).entries = m.entries ++ [entry] := by
      rw [entries_insert, Entries.insert_of_not_mem absent]
    rw [List.foldl_cons, ih, grown, List.append_assoc, List.singleton_append]
    rw [grown, List.append_assoc]
    exact distinct

end Module

end TensorIR

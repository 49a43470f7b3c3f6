import Mathlib.Data.Finmap
import TensorIR.Module

/-!
# Modules and their insertions

A module that was made from the empty one is what its insertions say: its names are those that were
inserted, each once and where it first came, and under each is what was inserted last.

A module finds the place of a name by a search. `Indexed` does without: next to the definitions it
keeps a table with the place of every name. Every insertion has to change both, and two such stores
are equal only if their tables are. What carries the comparison is that the table is always the one
that a search would give (`Indexed.Represents`), so it adds nothing to the definitions, neither to
what an insertion answers nor to what is equal.
-/

namespace TensorIR

namespace Entries

variable {name : String} {item : Item} {entries : List (String × Item)}

/-- Where a name is found, only the definition in that place changes. -/
theorem insert_of_idxOf? {pos : Nat} (found : (entries.map Prod.fst).idxOf? name = some pos) :
    insert name item entries = entries.modify pos fun entry => (entry.1, item) := by
  induction entries generalizing pos with
  | nil => cases found
  | cons entry rest ih =>
      obtain ⟨key, old⟩ := entry
      rw [List.map_cons, List.idxOf?_cons] at found
      by_cases same : key = name
      · rw [if_pos (beq_iff_eq.2 same), Option.some.injEq] at found
        rw [insert, if_pos same, ← found, List.modify_zero_cons, same]
      · rw [if_neg (mt beq_iff_eq.1 same), Option.map_eq_some_iff] at found
        obtain ⟨pos, found, rfl⟩ := found
        rw [insert, if_neg same, ih found, List.modify_succ_cons]

theorem lookup_eq_idxOf? :
    entries.lookup name =
      ((entries.map Prod.fst).idxOf? name).bind fun pos => entries[pos]?.map Prod.snd := by
  induction entries with
  | nil => rfl
  | cons entry rest ih =>
      obtain ⟨key, old⟩ := entry
      rw [List.map_cons, List.idxOf?_cons, List.lookup_cons]
      by_cases same : key = name
      · rw [if_pos (beq_iff_eq.2 same), same, beq_self_eq_true]
        rfl
      · rw [if_neg (mt beq_iff_eq.1 same), beq_false_of_ne (Ne.symm same), Option.bind_map, ih]
        rfl

theorem idxOf?_append_new {keys : List String} (new : name ∉ keys) (key : String) :
    (keys ++ [name]).idxOf? key = if key = name then some keys.length else keys.idxOf? key := by
  have split : (keys ++ [name]).idxOf? key =
      (keys.idxOf? key).or (([name].idxOf? key).map (· + keys.length)) := List.findIdx?_append
  rw [split, List.idxOf?_singleton]
  by_cases same : key = name
  · rw [same, List.idxOf?_eq_none_iff.2 new, beq_self_eq_true]
    simp
  · rw [beq_false_of_ne (Ne.symm same), if_neg same]
    simp

end Entries

namespace Module

/-- A definition that is put under a name, or a function that is put under its own. -/
inductive Insertion where
  | insert (name : String) (item : Item)
  | add (f : Function)
deriving DecidableEq, Repr

namespace Insertion

/-- The name under which the insertion puts its item. -/
def name : Insertion → String
  | insert name _ => name
  | add f => f.name

/-- The item that is inserted. -/
def item : Insertion → Item
  | insert _ item => item
  | add f => .function f

/-- The module afterwards, and the definition that is replaced. -/
def perform (m : Module) : Insertion → Module × Option Item
  | insert name item => m.exchange name item
  | add f => (m.add (.function f), m.get? f.name)

theorem perform_eq (m : Module) (i : Insertion) : i.perform m = m.exchange i.name i.item := by
  cases i <;> rfl

end Insertion

/-- The module that a list of insertions makes from the empty one. -/
def after (history : List Insertion) : Module :=
  history.foldl (fun m i => (i.perform m).1) .empty

theorem after_append (history : List Insertion) (i : Insertion) :
    after (history ++ [i]) = (after history).insert i.name i.item := by
  rw [after, List.foldl_append, List.foldl_cons, List.foldl_nil, Insertion.perform_eq]
  rfl

/-- What was last put under a name. -/
def lastInserted (history : List Insertion) (name : String) : Option Item :=
  ((history.filter fun i => i.name = name).map Insertion.item).getLast?

theorem names_after (history : List Insertion) :
    (after history).names = (history.map Insertion.name).eraseDups := by
  induction history using List.reverseRecOn with
  | nil => rfl
  | append_singleton history i ih =>
      rw [after_append, names_insert, ih, List.map_append, List.map_singleton,
        List.eraseDups_append, List.cons_removeAll]
      by_cases old : i.name ∈ history.map Insertion.name
      · rw [if_pos (List.mem_eraseDups.2 old)]
        simp [old]
      · rw [if_neg (mt List.mem_eraseDups.1 old)]
        simp [old, List.eraseDups_cons]

theorem get?_after (history : List Insertion) (name : String) :
    (after history).get? name = lastInserted history name := by
  induction history using List.reverseRecOn with
  | nil => rfl
  | append_singleton history i ih =>
      rw [after_append, get?_insert, ih, lastInserted, lastInserted, List.filter_append,
        List.map_append, List.getLast?_append, List.filter_singleton]
      by_cases same : name = i.name
      · simp [same]
      · simp [same, Ne.symm same]

/-- A module with the names of a history in the order in which they first came, each with the
definition that last came under it. -/
structure Records (history : List Insertion) (m : Module) : Prop where
  nodup : m.names.Nodup
  names : m.names = (history.map Insertion.name).eraseDups
  get? : ∀ name, m.get? name = lastInserted history name
  entries : m.entries.map (fun entry => (entry.1, some entry.2)) =
    m.names.map fun name => (name, lastInserted history name)
  contains : ∀ name, m.contains name = (lastInserted history name).isSome
  function? : ∀ name, m.function? name = (lastInserted history name).bind Item.function?
  heapFunction? : ∀ name,
    m.heapFunction? name = (lastInserted history name).bind Item.heapFunction?
  functions : m.functions = m.names.filterMap m.function?
  size : m.size = m.names.length
  /-- What an insertion answers is what stood under its name. -/
  perform : ∀ i : Insertion,
    i.perform m = (after (history ++ [i]), lastInserted history i.name)

theorem contains_eq (m : Module) (name : String) : m.contains name = (m.get? name).isSome := by
  rw [Bool.eq_iff_iff, contains, List.contains_iff_mem, names, List.mem_map,
    Option.isSome_iff_exists]
  simp only [get?_eq_some_iff, Prod.exists, exists_and_right, exists_eq_right]

theorem entries_eq (m : Module) :
    m.entries.map (fun entry => (entry.1, some entry.2)) =
      m.names.map fun name => (name, m.get? name) := by
  rw [names, List.map_map]
  refine List.map_congr_left fun entry mem => ?_
  rw [Function.comp_apply, get?_eq_some_iff.2 mem]

theorem functions_eq (m : Module) : m.functions = m.names.filterMap m.function? := by
  rw [names, List.filterMap_map, functions]
  refine List.filterMap_congr fun entry mem => ?_
  rw [Function.comp_apply, function?, get?_eq_some_iff.2 mem]
  rfl

theorem records_after (history : List Insertion) : (after history).Records history := by
  have holds : (after history).get? = lastInserted history := funext (get?_after history)
  exact {
    nodup := (after history).nodup
    names := names_after history
    get? := get?_after history
    entries := holds ▸ entries_eq _
    contains := fun name => holds ▸ contains_eq _ name
    function? := fun name => holds ▸ rfl
    heapFunction? := fun name => holds ▸ rfl
    functions := functions_eq _
    size := (List.length_map Prod.fst).symm
    perform := fun i => by rw [i.perform_eq, exchange, after_append, get?_after] }

/-- Definitions in order, and a table with the place of each name among them. -/
structure Indexed where
  items : List (String × Item) := []
  index : Finmap fun _ : String => Nat := ∅

namespace Indexed

/-- The item under a name, found by its position in the table. -/
def get? (s : Indexed) (name : String) : Option Item :=
  (s.index.lookup name).bind fun pos => s.items[pos]?.map Prod.snd

/-- Whether the table has a position for the name. -/
def contains (s : Indexed) (name : String) : Bool := (s.index.lookup name).isSome

/-- Puts an item under a name and gives back the one that was there. -/
def exchange (s : Indexed) (name : String) (item : Item) : Indexed × Option Item :=
  match s.index.lookup name with
  | some pos =>
    ({ s with items := s.items.modify pos fun entry => (entry.1, item) },
      s.items[pos]?.map Prod.snd)
  | none =>
    ({ items := s.items ++ [(name, item)], index := s.index.insert name s.items.length }, none)

/-- The store after a history of insertions, starting with an empty one. -/
def after (history : List Insertion) : Indexed :=
  history.foldl (fun s i => (s.exchange i.name i.item).1) {}

/-- The definitions of a module, with the places that a search for their names finds. -/
structure Represents (s : Indexed) (m : Module) : Prop where
  items : s.items = m.entries
  index : ∀ name, s.index.lookup name = m.names.idxOf? name

namespace Represents

variable {s t : Indexed} {m n : Module}

theorem get? (h : s.Represents m) (name : String) : s.get? name = m.get? name := by
  rw [Indexed.get?, h.index, h.items, Module.get?, Entries.lookup_eq_idxOf?]
  rfl

theorem contains (h : s.Represents m) (name : String) : s.contains name = m.contains name := by
  rw [Bool.eq_iff_iff, Indexed.contains, h.index, List.isSome_idxOf?, Module.contains,
    List.contains_iff_mem]

/-- The table never leads behind the definitions, or to one under another name. -/
theorem getElem? (h : s.Represents m) {name : String} {pos : Nat}
    (found : s.index.lookup name = some pos) : ∃ item, s.items[pos]? = some (name, item) := by
  rw [h.index, List.idxOf?_eq_some_iff] at found
  obtain ⟨inside, there, -⟩ := found
  have named : (m.entries[pos]?).map Prod.fst = some name := by
    rw [← List.getElem?_map, ← there]
    exact List.getElem?_eq_getElem inside
  obtain ⟨⟨key, item⟩, at_pos, rfl⟩ := Option.map_eq_some_iff.1 named
  exact ⟨item, h.items ▸ at_pos⟩

theorem exchange (h : s.Represents m) (name : String) (item : Item) :
    (s.exchange name item).1.Represents (m.insert name item) ∧
      (s.exchange name item).2 = m.get? name := by
  have answer := h.get? name
  rw [Indexed.get?] at answer
  rw [Indexed.exchange]
  cases found : s.index.lookup name with
  | some pos =>
      rw [found, Option.bind_some] at answer
      rw [h.index] at found
      refine ⟨⟨?_, fun key => ?_⟩, answer⟩
      · rw [entries_insert, Entries.insert_of_idxOf? found, h.items]
      · have old : name ∈ m.names := List.isSome_idxOf?.1 (found ▸ rfl)
        rw [names_insert, if_pos old]
        exact h.index key
  | none =>
      rw [found, Option.bind_none] at answer
      rw [h.index, List.idxOf?_eq_none_iff] at found
      refine ⟨⟨?_, fun key => ?_⟩, answer⟩
      · rw [entries_insert, Entries.insert_of_not_mem found, h.items]
      · rw [names_insert, if_neg found, Entries.idxOf?_append_new found]
        by_cases same : key = name
        · rw [same, if_pos rfl, Finmap.lookup_insert, h.items, names, List.length_map]
        · rw [if_neg same, Finmap.lookup_insert_of_ne _ same, h.index]

/-- The definitions determine the table. -/
theorem eq_iff (h : s.Represents m) (k : t.Represents n) : s = t ↔ s.items = t.items := by
  refine ⟨congrArg Indexed.items, fun same => ?_⟩
  have names : m.names = n.names := by
    rw [Module.names, ← h.items, same, k.items, Module.names]
  have index : s.index = t.index := Finmap.ext_lookup fun name => by
    rw [h.index, k.index, names]
  cases s
  cases t
  rw [mk.injEq]
  exact ⟨same, index⟩

end Represents

theorem after_represents (history : List Insertion) :
    (after history).Represents (Module.after history) := by
  induction history using List.reverseRecOn with
  | nil => exact ⟨rfl, fun name => Finmap.lookup_empty name⟩
  | append_singleton history i ih =>
      rw [after, List.foldl_append, Module.after_append]
      exact (ih.exchange i.name i.item).1

/-- An indexed store that answers as a module with a given history does. -/
structure Records (history : List Insertion) (s : Indexed) : Prop where
  represents : s.Represents (Module.after history)
  inside : ∀ name pos, s.index.lookup name = some pos →
    ∃ item, s.items[pos]? = some (name, item)
  get? : ∀ name, s.get? name = lastInserted history name
  contains : ∀ name, s.contains name = (lastInserted history name).isSome
  exchange : ∀ i : Insertion,
    s.exchange i.name i.item = (after (history ++ [i]), lastInserted history i.name)

theorem records_after (history : List Insertion) : (after history).Records history := by
  have represents := after_represents history
  exact {
    represents := represents
    inside := fun _ _ found => represents.getElem? found
    get? := fun name => (represents.get? name).trans (get?_after history name)
    contains := fun name =>
      (represents.contains name).trans ((Module.records_after history).contains name)
    exchange := fun i => by
      refine Prod.ext ?_ ?_
      · rw [after, after, List.foldl_append]
        rfl
      · rw [(represents.exchange i.name i.item).2, get?_after] }

end Indexed

theorem ext_iff {m n : Module} : m = n ↔ m.entries = n.entries := by
  refine ⟨congrArg entries, fun same => ?_⟩
  cases m
  cases n
  cases same
  rfl

/-- A module is an insertion-ordered map of its history, and equal to another one if both iterate
over the same names and definitions in the same order; and so is the store with a table of places,
whose equality compares the tables as well. -/
theorem insertion_ordered (history other : List Insertion) :
    (after history).Records history ∧
      (after history = after other ↔ (after history).entries = (after other).entries) ∧
      (Indexed.after history).Records history ∧
      (Indexed.after history = Indexed.after other ↔
        (Indexed.after history).items = (Indexed.after other).items) :=
  ⟨records_after history, ext_iff, Indexed.records_after history,
    (Indexed.after_represents history).eq_iff (Indexed.after_represents other)⟩

end Module

end TensorIR

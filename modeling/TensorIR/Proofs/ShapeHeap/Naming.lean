import Std.Data.String.ToNat
import TensorIR.Lowering.ShapeHeap
import TensorIR.Proofs.Result

/-!
# Names of heap functions

A lowered function calls its heap function by name, so the call means what it should only if the
name leads to that very function in the lowered module. It does: the candidates for a name are all
distinct, there is one more of them than there are names taken, and so the first that is free is
free. Each generated name is taken from then on. The names of the lowered module are therefore
distinct, and `Module.ofEntries` keeps every definition under its name.

`heapShapes_function` is what the other proofs use: every function of a module has its lowering
under its own name, and the heap function that this lowering needs under the name it calls.
-/

namespace TensorIR

namespace ShapeHeap

theorem candidate_injective {base : String} {i j : Nat} (h : candidate base i = candidate base j) :
    i = j := by
  have numbered : ∀ n, candidate base (n + 1) ≠ base := by
    intro n same
    have length := congrArg String.length same
    have mark : "_".length = 1 := rfl
    simp only [candidate, String.length_append, mark] at length
    omega
  match i, j with
  | 0, 0 => rfl
  | 0, j + 1 => exact absurd h.symm (numbered j)
  | i + 1, 0 => exact absurd h (numbered i)
  | i + 1, j + 1 =>
      simp only [candidate, String.append_right_inj] at h
      exact Nat.repr_injective h

/-- The name is the first candidate that is not taken, and the search for it ends after as many
steps as there are names taken. -/
def FirstFree (base : String) (taken : List String) (name : String) : Prop :=
  ∃ n ≤ taken.length, name = candidate base n ∧ name ∉ taken ∧
    ∀ k < n, candidate base k ∈ taken

theorem firstFree_freeName (base : String) (taken : List String) :
    FirstFree base taken (freeName base taken) := by
  simp only [freeName]
  cases found : ((List.range (taken.length + 1)).map (candidate base)).find?
      fun name => !taken.contains name with
  | some name =>
      obtain ⟨free, n, bound, is, earlier⟩ := List.find?_eq_some_iff_getElem.1 found
      rw [List.length_map, List.length_range] at bound
      rw [List.getElem_map, List.getElem_range] at is
      refine ⟨n, Nat.le_of_lt_succ bound, is.symm, by simpa using free, fun k before => ?_⟩
      simpa using earlier k before
  | none =>
      -- Were every candidate taken, the candidates would be too many for the list.
      have covered : (List.range (taken.length + 1)).map (candidate base) ⊆ taken := by
        intro name mem
        simpa using List.find?_eq_none.1 found name mem
      have distinct : ((List.range (taken.length + 1)).map (candidate base)).Nodup :=
        List.Pairwise.map _ (fun _ _ differ same => differ (candidate_injective same))
          List.nodup_range
      have tooMany := distinct.length_le_of_subset covered
      rw [List.length_map, List.length_range] at tooMany
      omega

/-- The order in which names were taken does not matter. -/
theorem FirstFree.perm {base name : String} {taken taken' : List String}
    (h : FirstFree base taken name) (same : taken.Perm taken') : FirstFree base taken' name := by
  obtain ⟨n, bound, is, free, earlier⟩ := h
  refine ⟨n, same.length_eq ▸ bound, is, fun mem => free (same.mem_iff.2 mem), fun k before => ?_⟩
  exact same.mem_iff.1 (earlier k before)

theorem freeName_not_mem (base : String) (taken : List String) : freeName base taken ∉ taken := by
  obtain ⟨_, _, _, free, _⟩ := firstFree_freeName base taken
  exact free

/-- The heap function that a lowering needs bears the first name that was free. -/
theorem name_of_lowerFunction {base : String} {taken : List String} {f g : Function}
    {fn : HeapFunction} (h : lowerFunction base taken f = .ok (g, some fn)) :
    fn.name = freeName base taken := by
  simp only [lowerFunction] at h
  split at h
  · cases h
  · obtain ⟨layout, _, h⟩ := bind_eq_ok.1 h
    split at h
    · obtain ⟨_, _, h⟩ := bind_eq_ok.1 h
      cases h
    · obtain ⟨_, _, h⟩ := bind_eq_ok.1 h
      cases h
      rfl

/-- What lowering a list of definitions gives: the same names in the same order, then heap functions
under distinct names that were free. -/
theorem lowerEntries_names {base : String} {taken : List String} {entries : List (String × Item)}
    {lowered : List (String × Item)} {generated : List HeapFunction}
    (h : lowerEntries base taken entries = .ok (lowered, generated)) :
    lowered.map Prod.fst = entries.map Prod.fst ∧ (generated.map HeapFunction.name).Nodup ∧
      ∀ fn ∈ generated, fn.name ∉ taken := by
  fun_induction lowerEntries base taken entries generalizing lowered generated with
  | case1 =>
      cases h
      exact ⟨rfl, List.nodup_nil, fun fn hfn => by cases hfn⟩
  | case2 taken key fn rest ih =>
      obtain ⟨⟨lowered', generated'⟩, tail, h⟩ := bind_eq_ok.1 h
      cases h
      obtain ⟨names, distinct, free⟩ := ih tail
      exact ⟨congrArg (key :: ·) names, distinct, free⟩
  | case3 taken key f rest ih =>
      obtain ⟨⟨g, needed⟩, head, h⟩ := bind_eq_ok.1 h
      obtain ⟨⟨lowered', generated'⟩, tail, h⟩ := bind_eq_ok.1 h
      cases h
      obtain ⟨names, distinct, free⟩ := ih _ tail
      refine ⟨congrArg (key :: ·) names, ?_, ?_⟩
      · cases needed with
        | none => exact distinct
        | some fn =>
            rw [Option.toList_some, List.singleton_append, List.map_cons, List.nodup_cons]
            refine ⟨fun mem => ?_, distinct⟩
            obtain ⟨other, hother, same⟩ := List.mem_map.1 mem
            exact free other hother (by simp [same])
      · intro fn hfn
        rcases List.mem_append.1 hfn with hfn | hfn
        · have needs : needed = some fn := Option.mem_toList.1 hfn
          subst needs
          rw [name_of_lowerFunction head]
          exact freeName_not_mem base taken
        · exact fun mem => free fn hfn (List.mem_append_right _ mem)

theorem lowerEntries_function {base : String} {taken : List String}
    {entries : List (String × Item)} {lowered : List (String × Item)}
    {generated : List HeapFunction} {key : String} {f : Function}
    (h : lowerEntries base taken entries = .ok (lowered, generated))
    (mem : (key, Item.function f) ∈ entries) :
    ∃ taken' g needed, lowerFunction base taken' f = .ok (g, needed) ∧
      (key, Item.function g) ∈ lowered ∧ ∀ fn ∈ needed, fn ∈ generated := by
  fun_induction lowerEntries base taken entries generalizing lowered generated with
  | case1 => cases mem
  | case2 taken key' fn rest ih =>
      obtain ⟨⟨lowered', generated'⟩, tail, h⟩ := bind_eq_ok.1 h
      cases h
      rcases List.mem_cons.1 mem with same | mem
      · cases same
      · obtain ⟨taken', g, needed, lowering, found, kept⟩ := ih tail mem
        exact ⟨taken', g, needed, lowering, List.mem_cons_of_mem _ found, kept⟩
  | case3 taken key' f' rest ih =>
      obtain ⟨⟨g', needed'⟩, head, h⟩ := bind_eq_ok.1 h
      obtain ⟨⟨lowered', generated'⟩, tail, h⟩ := bind_eq_ok.1 h
      cases h
      rcases List.mem_cons.1 mem with same | mem
      · cases same
        refine ⟨taken, g', needed', head, List.mem_cons_self, fun fn hfn => ?_⟩
        exact List.mem_append_left _ (Option.mem_toList.2 hfn)
      · obtain ⟨taken', g, needed, lowering, found, kept⟩ := ih _ tail mem
        refine ⟨taken', g, needed, lowering, List.mem_cons_of_mem _ found, fun fn hfn => ?_⟩
        exact List.mem_append_right _ (kept fn hfn)

end ShapeHeap

theorem Module.entries_heapShapes {base : String} {m m' : Module} (h : m.heapShapes base = .ok m') :
    ∃ lowered generated,
      ShapeHeap.lowerEntries base m.names m.entries = .ok (lowered, generated) ∧
      m'.entries = lowered ++ generated.map fun fn => (fn.name, .heapFunction fn) := by
  simp only [heapShapes] at h
  obtain ⟨⟨lowered, generated⟩, entries, h⟩ := bind_eq_ok.1 h
  refine ⟨lowered, generated, entries, ?_⟩
  obtain ⟨names, distinct, free⟩ := ShapeHeap.lowerEntries_names entries
  rw [← pure_eq_ok.1 h]
  refine entries_ofEntries ?_
  rw [List.map_append, names, List.map_map]
  refine List.nodup_append.2 ⟨m.nodup, distinct, ?_⟩
  rintro key hkey name hname rfl
  obtain ⟨fn, hfn, rfl⟩ := List.mem_map.1 hname
  exact free fn hfn hkey

/-- Every function of a module is lowered under its own name, and what it needs is under the name
that it calls. -/
theorem Module.heapShapes_function {base : String} {m m' : Module} {key : String} {f : Function}
    (h : m.heapShapes base = .ok m') (mem : m.get? key = some (.function f)) :
    ∃ taken g needed, ShapeHeap.lowerFunction base taken f = .ok (g, needed) ∧
      m'.get? key = some (.function g) ∧ ∀ fn ∈ needed, m'.heapFunction? fn.name = some fn := by
  obtain ⟨lowered, generated, entries, all⟩ := entries_heapShapes h
  rw [get?_eq_some_iff] at mem
  obtain ⟨taken, g, needed, lowering, found, kept⟩ := ShapeHeap.lowerEntries_function entries mem
  refine ⟨taken, g, needed, lowering, ?_, fun fn hfn => ?_⟩
  · rw [get?_eq_some_iff, all]
    exact List.mem_append_left _ found
  · have present : m'.get? fn.name = some (.heapFunction fn) := by
      rw [get?_eq_some_iff, all]
      exact List.mem_append_right _ (List.mem_map_of_mem (kept fn hfn))
    rw [heapFunction?, present]
    rfl

end TensorIR

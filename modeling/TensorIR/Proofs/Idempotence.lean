import TensorIR.Proofs.Fusion.Normal
import TensorIR.Proofs.Plain
import TensorIR.Proofs.Reemission
import TensorIR.Proofs.Tidy

/-!
# Passes do nothing the second time

Every pass leaves what it has made as it is.

What a pass has made is settled and well formed, so emitting it again is the identity; it remains to
see that the pass finds nothing to do. Fusion has left nothing to fuse, demotion has left plain
blocks and plain variables only, and destinations and storage have left none of the calls that they
rewrite. Demotion has a loop of its own, but on plain blocks it is the common one. Shape lowering
does not go through the builder a second time at all: it leaves no symbolic shape, and a function
without any is handed on untouched, so that no heap function is generated either.
-/

namespace TensorIR

namespace Function

variable {f g : Function} {target : StorageTarget}

/-! ### Passes that emit binding by binding -/

theorem fuse_of_fuse (wellFormed : f.check = .ok ()) (h : f.fuse = .ok g) : g.fuse = .ok g :=
  fuse_self (settled_of_fuse wellFormed h) (check_of_fuse h) (not_fusible_of_fuse wellFormed h)

theorem allocateOutputs_of_allocateOutputs (wellFormed : f.check = .ok ())
    (h : f.allocateOutputs = .ok g) : g.allocateOutputs = .ok g :=
  allocateOutputs_self (settled_of_allocateOutputs wellFormed h) (check_of_replaceBindings h)
    (not_invokes_of_allocateOutputs h)

theorem placeTensors_of_placeTensors (wellFormed : f.check = .ok ())
    (h : f.placeTensors target = .ok g) : g.placeTensors target = .ok g := by
  refine placeTensors_self (settled_of_placeTensors wellFormed h) (check_of_replaceBindings h)
    fun y mem => ⟨?_, ?_⟩
  · exact not_invokes_of_placed h (by decide) (fun other => absurd (by decide) other) y mem
  · exact not_invokes_of_placed h (by decide) (fun other => absurd (by decide) other) y mem

end Function

/-! ### Demotion -/

namespace Demotion

variable {f : Function} {b : Builder}

theorem info_eq_ok (vars : b.vars = f.vars) {v : Var} (plain : f.IsPlain v) :
    ∃ info, b.info v = .ok info ∧ info.isDataflow = false := by
  obtain ⟨info, found, kind⟩ := plain
  refine ⟨info, ?_, ?_⟩
  · rw [Builder.info, vars]
    exact found
  · rw [VarInfo.isDataflow, kind]
    rfl

theorem checkPlain_eq_ok (vars : b.vars = f.vars) {vs : List Var} (plain : ∀ v ∈ vs, f.IsPlain v) :
    checkPlain f b vs = .ok () := by
  induction vs with
  | nil => rfl
  | cons v vs ih =>
      obtain ⟨here, later⟩ := List.forall_mem_cons.1 plain
      obtain ⟨info, found, kind⟩ := info_eq_ok vars here
      rw [checkPlain, looking_eq_ok.2 found, ok_bind, kind]
      exact ih later

theorem emitBindings_eq (kind : BlockKind) (xs : List Binding) (ρ : Renaming) (b : Builder)
    (position : Nat) : emitBindings f kind xs ρ b =
      Emitter.emitBindings (fun _ => emitBinding f kind) position xs ρ b := by
  induction xs generalizing ρ b position with
  | nil => rfl
  | cons x xs ih =>
      rw [emitBindings, Emitter.emitBindings]
      exact congrArg _ (funext fun next => ih next.1 next.2 (position + 1))

/-- On plain blocks demotion emits binding by binding. -/
theorem emitBlocks_eq {blocks : List Block} (plain : ∀ block ∈ blocks, block.kind = .plain)
    (ρ : Renaming) (b : Builder) (function : String) (position : Nat) :
    emitBlocks f blocks ρ b =
      Emitter.emitBlocks (fun _ => emitBinding f .plain) id function position blocks ρ b := by
  induction blocks generalizing ρ b position with
  | nil => rfl
  | cons block blocks ih =>
      obtain ⟨here, later⟩ := List.forall_mem_cons.1 plain
      rw [emitBlocks, Emitter.emitBlocks, Emitter.emitBlock, here,
        emitBindings_eq .plain _ ρ b position, id]
      cases Emitter.emitBindings (fun _ => emitBinding f .plain) position block.bindings ρ b with
      | error e => rfl
      | ok emitted => exact ih later emitted.1 emitted.2.sealBlock _

/-- With plain variables only, demotion emits every binding as it is. -/
theorem repeats_emitBinding (settled : f.Settled) (plain : ∀ v ∈ f.occurrences, f.IsPlain v) :
    Emitter.Repeats (fun _ => emitBinding f .plain) f fun _ ρ => ρ = [] := by
  intro block mem done x rest split ρ none b vars here position
  refine ⟨[], ?_, rfl⟩
  have inFunction : x ∈ f.bindings := Function.mem_bindings mem (by rw [split]; simp)
  have reads : checkPlain f b x.value.reads = .ok () := checkPlain_eq_ok vars fun v read =>
    plain v (Function.mem_occurrences.2 (.inr (.inl ⟨x, inFunction, read⟩)))
  have pushed := settled.push mem split vars here
  simp only [emitBinding, none, Binding.substitute_nil]
  rw [reads, ok_bind]
  cases defines : x.defined? with
  | none => exact bind_eq_ok.2 ⟨_, pushed, rfl⟩
  | some v =>
      have defined : v ∈ f.defined := Function.mem_defined inFunction defines
      obtain ⟨info, found, kind⟩ :=
        info_eq_ok vars (plain v (Function.mem_occurrences.2 (.inl defined)))
      refine bind_eq_ok.2 ⟨info, looking_eq_ok.2 found, guard_eq_ok.2 ⟨?_, ?_⟩⟩
      · rw [kind]
        exact Bool.false_ne_true
      · exact bind_eq_ok.2 ⟨_, pushed, rfl⟩

end Demotion

namespace Function

variable {f g : Function}

theorem demote_self (settled : f.Settled) (checked : f.check = .ok ()) (blocks : f.PlainBlocks) :
    f.demote = .ok f := by
  have plain : ∀ v ∈ f.occurrences, f.IsPlain v := fun v => isPlain_of_occurrences checked blocks
  have entering {ρ : Renaming} (none : ρ = []) : id ρ = [] := none
  obtain ⟨ρ, done, emitted, none⟩ :=
    Emitter.repeats_function (Demotion.repeats_emitBinding settled plain) settled entering rfl
  rw [← Demotion.emitBlocks_eq blocks] at emitted
  refine bind_eq_ok.2 ⟨_, emitted, ?_⟩
  have reads : Demotion.checkPlain f { Builder.reopen f with blocks := f.blocks } f.body.reads =
      .ok () :=
    Demotion.checkPlain_eq_ok rfl fun v read => plain v (mem_occurrences.2 (.inr (.inr read)))
  simp only [none, Expr.substitute_nil]
  exact check_bind_eq_ok.2 ⟨reads, building_eq_ok.2 (Builder.finish_reopen checked)⟩

theorem demote_of_demote (wellFormed : f.check = .ok ()) (h : f.demote = .ok g) :
    g.demote = .ok g :=
  demote_self (settled_of_demote wellFormed h) (check_of_demote h) (plainBlocks_of_demote h)

end Function

/-! ### Shapes -/

namespace ShapeHeap

theorem lowerEntries_self {base : String} {taken : List String} {entries : List (String × Item)}
    (literal : ∀ key f, (key, Item.function f) ∈ entries → f.symbolicShapes = []) :
    lowerEntries base taken entries = .ok (entries, []) := by
  fun_induction lowerEntries base taken entries with
  | case1 => rfl
  | case2 taken key fn rest ih =>
      rw [ih fun key f mem => literal key f (List.mem_cons_of_mem _ mem)]
      rfl
  | case3 taken key f rest ih =>
      have unchanged : lowerFunction base taken f = .ok (f, none) := by
        rw [lowerFunction, literal key f List.mem_cons_self]
      have later := ih none fun key f mem => literal key f (List.mem_cons_of_mem _ mem)
      rw [unchanged, ok_bind]
      exact bind_eq_ok.2 ⟨_, later, rfl⟩

end ShapeHeap

/-! ### Modules -/

namespace Module

variable {m m' : Module}

theorem ofEntries_entries (m : Module) : ofEntries m.entries = m := by
  have same := entries_ofEntries m.nodup
  cases m
  cases made : ofEntries _
  rw [made] at same
  cases same
  rfl

theorem mapFunctions_self {lower : Function → Lowered Function}
    (fixed : ∀ f ∈ m.functions, lower f = .ok f) : m.mapFunctions lower = .ok m := by
  refine bind_eq_ok.2 ⟨m.entries, mapM_eq_ok.2 ?_, pure_eq_ok.2 m.ofEntries_entries⟩
  rw [List.forall₂_same]
  rintro ⟨key, item⟩ mem
  cases item with
  | function f =>
      have lowered := fixed f (mem_functions.2 ⟨key, get?_eq_some_iff.2 mem⟩)
      exact bind_eq_ok.2 ⟨f, lowered, rfl⟩
  | heapFunction fn => rfl

/-- A pass that leaves every function that it has made as it is does so with modules. -/
theorem mapFunctions_of_mapFunctions {lower : Function → Lowered Function}
    (again : ∀ f ∈ m.functions, ∀ g, lower f = .ok g → lower g = .ok g)
    (h : m.mapFunctions lower = .ok m') : m'.mapFunctions lower = .ok m' := by
  refine mapFunctions_self fun g mem => ?_
  obtain ⟨key, found⟩ := mem_functions.1 mem
  obtain ⟨f, there, lowered⟩ := get?_of_mapFunctions h found
  exact again f (mem_functions.2 ⟨key, there⟩) g lowered

theorem heapShapes_of_heapShapes {base : String} (h : m.heapShapes base = .ok m') :
    m'.heapShapes base = .ok m' := by
  have literal : ∀ key g, (key, Item.function g) ∈ m'.entries → g.symbolicShapes = [] := by
    intro key g mem
    obtain ⟨f, taken, needed, -, lowered⟩ := get?_of_heapShapes h (get?_eq_some_iff.2 mem)
    exact ShapeHeap.symbolicShapes_of_lowerFunction lowered
  refine bind_eq_ok.2 ⟨_, ShapeHeap.lowerEntries_self literal, pure_eq_ok.2 ?_⟩
  rw [List.map_nil, List.append_nil]
  exact m'.ofEntries_entries

end Module

namespace Pass

variable {m m' : Module} {pass : Pass}

/-- Every pass is idempotent: what it has made of a module of well-formed functions, it leaves as it
is. -/
theorem run_idempotent (wellFormed : ∀ f ∈ m.functions, f.check = .ok ())
    (h : pass.run m = .ok m') : pass.run m' = .ok m' := by
  cases pass with
  | fusion =>
      exact Module.mapFunctions_of_mapFunctions
        (fun f mem _ => Function.fuse_of_fuse (wellFormed f mem)) h
  | demotion =>
      exact Module.mapFunctions_of_mapFunctions
        (fun f mem _ => Function.demote_of_demote (wellFormed f mem)) h
  | destinations =>
      exact Module.mapFunctions_of_mapFunctions
        (fun f mem _ => Function.allocateOutputs_of_allocateOutputs (wellFormed f mem)) h
  | storage target =>
      exact Module.mapFunctions_of_mapFunctions
        (fun f mem _ => Function.placeTensors_of_placeTensors (wellFormed f mem)) h
  | shapeHeap base => exact Module.heapShapes_of_heapShapes h

/-- A function in which every pass has something to do:

    fn main(x: (n)) {
      dataflow { p = multiply(x, x); s = add(p, x); y = call_dps((n * 2,), extern("k"), (s,)) }
      z = alloc_tensor((n,)) {float32}
      (y, z)
    }
-/
def mixed : Function where
  name := "main"
  params := [⟨0⟩]
  blocks := [
    ⟨.dataflow, [
      .define ⟨1⟩ (.ofOp .multiply [.var ⟨0⟩, .var ⟨0⟩]),
      .define ⟨2⟩ (.ofOp .add [.var ⟨1⟩, .var ⟨0⟩]),
      .define ⟨3⟩ (.ofOp .callDps [.shape [.binary .mul (.var ⟨0⟩) (.int 2)], .external "k",
        .tuple [.var ⟨2⟩]])]⟩,
    ⟨.plain, [.define ⟨4⟩ (.ofOp .allocTensor [.shape [.var ⟨0⟩]] (.allocTensor .float32))]⟩]
  body := .tuple [.var ⟨3⟩, .var ⟨4⟩]
  retTy := none
  vars := [⟨"x", .plain, some [.var ⟨0⟩], some (.tensor (some 1) .float32)⟩,
    ⟨"p", .plain, none, none⟩, ⟨"s", .plain, none, none⟩, ⟨"y", .plain, none, none⟩,
    ⟨"z", .plain, none, none⟩]
  dimNames := ["n"]

/-- The module of the mixed function alone. -/
def mixedModule : Module := .ofEntries [("main", .function mixed)]

theorem run_idempotent_mixed :
    [fusion, demotion, destinations, storage {}, shapeHeap "shape_func"].Forall fun pass =>
      ∃ m', pass.run mixedModule = .ok m' ∧ m' ≠ mixedModule ∧ pass.run m' = .ok m' := by
  have changes : ∀ pass ∈ [fusion, demotion, destinations, storage {}, shapeHeap "shape_func"],
      (pass.run mixedModule).toOption.any (· ≠ mixedModule) = true := by decide +kernel
  rw [List.forall_iff_forall_mem]
  intro pass mem
  have differs := changes pass mem
  cases ran : pass.run mixedModule with
  | error e =>
      rw [ran] at differs
      cases differs
  | ok m' =>
      rw [ran] at differs
      exact ⟨m', rfl, of_decide_eq_true differs, run_idempotent (by decide +kernel) ran⟩

end Pass

end TensorIR

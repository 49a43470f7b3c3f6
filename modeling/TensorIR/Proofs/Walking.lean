import TensorIR.Proofs.Emitter
import TensorIR.Proofs.Settled

/-!
# Lowering that is known in advance

Of some passes it is known in advance what the builder has come to at every place of a function, and
at which binding the pass gives up if it does. `Emitter.Walk` is what has to be shown of such a
pass: from the builder of one place each binding leads to that of the next, or it is at fault, and
the builder of a completed block ends that block. Opening and closing regions is the same for all of
them, and so is the induction over bindings and blocks (`Emitter.Walk.emitBlocks`). The pass fails
at the first fault and otherwise arrives at the end.

Where nothing is known of the faults there is still the question what the pass arrives at if it
comes through. For that a binding need only lead to the next builder if it is taken at all, and that
a region has an output is known once it has been closed (`Emitter.Leads`).
-/

namespace TensorIR

namespace Builder

variable {b : Builder} {x : Binding}

theorem sealBlock_outside (outside : b.inDataflow = false) :
    b.sealBlock = { b.endBlock .plain with inDataflow := false } := by
  rw [sealBlock, outside, if_neg Bool.false_ne_true,
    ← (inDataflow_endBlock b .plain).trans outside]

theorem openRegion_of_empty (outside : b.inDataflow = false) (empty : b.pending = []) :
    b.openRegion = .ok { b with inDataflow := true } := by
  rw [openRegion, outside, if_neg Bool.false_ne_true, endBlock_of_empty .plain empty]

theorem closeRegion_of_output (inside : b.inDataflow = true) (pending : x ∈ b.pending)
    (output : x.IsOutput b.vars) :
    b.closeRegion = ({ b.endBlock .dataflow with inDataflow := false }, .ok ()) := by
  rw [closeRegion, if_pos inside]
  refine Prod.ext rfl (if_pos ?_)
  rw [Bool.or_eq_true, List.any_eq_true]
  exact .inr ⟨x, pending, isOutput_iff.2 output⟩

end Builder

namespace Emitter

/-! ### Faults -/

/-- The first fault among some bindings, of which the first is at the given position. -/
def firstFault? (fault? : Nat → Binding → Option LoweringError) (position : Nat)
    (xs : List Binding) : Option LoweringError :=
  (xs.zipIdx position).findSome? fun (x, i) => fault? i x

/-- The first fault among the bindings of some blocks. -/
def blocksFault? (fault? : Block → Nat → Binding → Option LoweringError) :
    Nat → List Block → Option LoweringError
  | _, [] => none
  | position, block :: blocks =>
    (firstFault? (fault? block) position block.bindings).or
      (blocksFault? fault? (position + block.bindings.length) blocks)

section Faults

variable {fault? : Nat → Binding → Option LoweringError} {position : Nat}

theorem firstFault?_cons (x : Binding) (xs : List Binding) :
    firstFault? fault? position (x :: xs) =
      (fault? position x).or (firstFault? fault? (position + 1) xs) := by
  rw [firstFault?, List.zipIdx_cons, ← List.singleton_append, List.findSome?_append,
    List.findSome?_singleton]
  rfl

theorem firstFault?_append (xs ys : List Binding) :
    firstFault? fault? position (xs ++ ys) =
      (firstFault? fault? position xs).or (firstFault? fault? (position + xs.length) ys) := by
  rw [firstFault?, List.zipIdx_append, List.findSome?_append]
  rfl

/-- Where faults do not depend on the block, blocks do not matter. -/
theorem blocksFault?_flatMap (blocks : List Block) :
    blocksFault? (fun _ => fault?) position blocks =
      firstFault? fault? position (blocks.flatMap Block.bindings) := by
  induction blocks generalizing position with
  | nil => rfl
  | cons block blocks ih => rw [blocksFault?, ih, List.flatMap_cons, firstFault?_append]

/-- Where faults do not depend on the position, positions do not matter. -/
theorem firstFault?_eq_findSome? {fault? : Binding → Option LoweringError} (xs : List Binding) :
    firstFault? (fun _ => fault?) position xs = xs.findSome? fault? := by
  induction xs generalizing position with
  | nil => rfl
  | cons x xs ih =>
      rw [firstFault?_cons, ih, ← List.singleton_append, List.findSome?_append,
        List.findSome?_singleton]

theorem blocksFault?_eq_findSome? {fault? : Block → Binding → Option LoweringError}
    (blocks : List Block) :
    blocksFault? (fun block _ => fault? block) position blocks =
      blocks.findSome? fun block => block.bindings.findSome? (fault? block) := by
  induction blocks generalizing position with
  | nil => rfl
  | cons block blocks ih =>
      rw [blocksFault?, ih, firstFault?_eq_findSome?, ← List.singleton_append,
        List.findSome?_append, List.findSome?_singleton]

end Faults

/-! ### Walks -/

variable {σ : Type} {emit : Emitter σ} {enter : σ → σ} {f : Function}
  {fault? : Block → Nat → Binding → Option LoweringError}
  {reached : List Block → Block → List Binding → Builder} {outer : List Block → σ → Prop}
  {inner : List Block → Block → List Binding → σ → Prop} {before after blocks : List Block}
  {block : Block} {done xs : List Binding} {s : σ}

/-- The emitter takes the builder from each place of the function to the next. A place is given by
the blocks before it, the block at hand and the bindings of that block before it; between blocks it
is in an empty plain block. Of what is remembered `inner` holds in a block, `outer` between blocks.
-/
structure Walk (emit : Emitter σ) (enter : σ → σ) (f : Function)
    (fault? : Block → Nat → Binding → Option LoweringError)
    (reached : List Block → Block → List Binding → Builder) (outer : List Block → σ → Prop)
    (inner : List Block → Block → List Binding → σ → Prop) : Prop where
  inDataflow : ∀ before block done, (reached before block done).inDataflow = block.isDataflow
  pending : ∀ before, (reached before ⟨.plain, []⟩ []).pending = []
  begins : ∀ before block, reached before block [] =
    { reached before ⟨.plain, []⟩ [] with inDataflow := block.isDataflow }
  enters : ∀ {before block after s}, f.blocks = before ++ block :: after → outer before s →
    inner before block [] (enter s)
  step : ∀ {before block after done x rest s} position, f.blocks = before ++ block :: after →
    block.bindings = done ++ x :: rest → inner before block done s →
      Answers (fault? block position x)
        (fun r => r.2 = reached before block (done ++ [x]) ∧ inner before block (done ++ [x]) r.1)
        (emit position x s (reached before block done))
  output : ∀ {before block after}, f.blocks = before ++ block :: after → block.kind = .dataflow →
    ∃ x ∈ (reached before block block.bindings).pending,
      x.IsOutput (reached before block block.bindings).vars
  ends : ∀ {before block after}, f.blocks = before ++ block :: after →
    { (reached before block block.bindings).endBlock block.kind with inDataflow := false } =
      reached (before ++ [block]) ⟨.plain, []⟩ []
  leaves : ∀ {before block after s}, f.blocks = before ++ block :: after →
    inner before block block.bindings s → outer (before ++ [block]) s

/-- The emitter takes the builder from each place to the next, where it takes the binding. -/
structure Leads (emit : Emitter σ) (enter : σ → σ) (f : Function)
    (reached : List Block → Block → List Binding → Builder) (outer : List Block → σ → Prop)
    (inner : List Block → Block → List Binding → σ → Prop) : Prop where
  inDataflow : ∀ before block done, (reached before block done).inDataflow = block.isDataflow
  pending : ∀ before, (reached before ⟨.plain, []⟩ []).pending = []
  begins : ∀ before block, reached before block [] =
    { reached before ⟨.plain, []⟩ [] with inDataflow := block.isDataflow }
  enters : ∀ {before block after s}, f.blocks = before ++ block :: after → outer before s →
    inner before block [] (enter s)
  step : ∀ {before block after done x rest s r} position, f.blocks = before ++ block :: after →
    block.bindings = done ++ x :: rest → inner before block done s →
      emit position x s (reached before block done) = .ok r →
        r.2 = reached before block (done ++ [x]) ∧ inner before block (done ++ [x]) r.1
  ends : ∀ {before block after}, f.blocks = before ++ block :: after →
    { (reached before block block.bindings).endBlock block.kind with inDataflow := false } =
      reached (before ++ [block]) ⟨.plain, []⟩ []
  leaves : ∀ {before block after s}, f.blocks = before ++ block :: after →
    inner before block block.bindings s → outer (before ++ [block]) s

namespace Leads

variable (leads : emit.Leads enter f reached outer inner) {r : σ × Builder}
include leads

theorem openRegion (dataflow : block.kind = .dataflow) :
    (reached before ⟨.plain, []⟩ []).openRegion = .ok (reached before block []) := by
  have inside : block.isDataflow = true := beq_iff_eq.2 dataflow
  rw [Builder.openRegion_of_empty (leads.inDataflow before ⟨.plain, []⟩ []) (leads.pending before),
    leads.begins before block, inside]

theorem openPlain (plain : block.kind = .plain) :
    reached before ⟨.plain, []⟩ [] = reached before block [] := by
  rw [leads.begins before block, leads.begins before ⟨.plain, []⟩, Block.isDataflow,
    Block.isDataflow, plain]

theorem closeRegion (splitBlocks : f.blocks = before ++ block :: after)
    (dataflow : block.kind = .dataflow) : (reached before block block.bindings).closeRegion.1 =
      reached (before ++ [block]) ⟨.plain, []⟩ [] := by
  have inside : (reached before block block.bindings).inDataflow = true :=
    (leads.inDataflow _ _ _).trans (beq_iff_eq.2 dataflow)
  rw [← leads.ends splitBlocks, dataflow, Builder.closeRegion, if_pos inside]

theorem sealBlock (splitBlocks : f.blocks = before ++ block :: after)
    (plain : block.kind = .plain) : (reached before block block.bindings).sealBlock =
      reached (before ++ [block]) ⟨.plain, []⟩ [] := by
  have outside : (reached before block block.bindings).inDataflow = false := by
    rw [leads.inDataflow, Block.isDataflow, plain]
    rfl
  rw [Builder.sealBlock_outside outside, ← leads.ends splitBlocks, plain]

theorem emitBindings (splitBlocks : f.blocks = before ++ block :: after)
    (split : block.bindings = done ++ xs) (here : inner before block done s) {position : Nat}
    (emitted : emit.emitBindings position xs s (reached before block done) = .ok r) :
    r.2 = reached before block block.bindings ∧ inner before block block.bindings r.1 := by
  induction xs generalizing done position s with
  | nil =>
      rw [List.append_nil] at split
      cases emitted
      rw [split]
      exact ⟨rfl, here⟩
  | cons x xs ih =>
      rw [Emitter.emitBindings] at emitted
      obtain ⟨⟨s', b⟩, head, tail⟩ := bind_eq_ok.1 emitted
      obtain ⟨rfl, next⟩ := leads.step position splitBlocks split here head
      exact ih (by rw [split, List.append_cons]) next tail

theorem emitBlock (splitBlocks : f.blocks = before ++ block :: after) (here : outer before s)
    {position : Nat} (emitted : emit.emitBlock f.name position block (enter s)
      (reached before ⟨.plain, []⟩ []) = .ok r) :
    r.2 = reached (before ++ [block]) ⟨.plain, []⟩ [] ∧ outer (before ++ [block]) r.1 := by
  have entered := leads.enters splitBlocks here
  rw [Emitter.emitBlock] at emitted
  cases kind : block.kind with
  | plain =>
      have opened : reached before ⟨.plain, []⟩ [] = reached before block [] :=
        leads.openPlain kind
      simp only [kind, opened] at emitted
      obtain ⟨⟨s', b⟩, inside, emitted⟩ := bind_eq_ok.1 emitted
      obtain ⟨rfl, last⟩ :=
        leads.emitBindings splitBlocks (List.nil_append _).symm entered inside
      cases emitted
      exact ⟨leads.sealBlock splitBlocks kind, leads.leaves splitBlocks last⟩
  | dataflow =>
      simp only [kind, leads.openRegion kind] at emitted
      obtain ⟨b, opened, emitted⟩ := bind_eq_ok.1 emitted
      cases building_eq_ok.1 opened
      obtain ⟨⟨s', b⟩, inside, emitted⟩ := bind_eq_ok.1 emitted
      obtain ⟨rfl, last⟩ :=
        leads.emitBindings splitBlocks (List.nil_append _).symm entered inside
      obtain ⟨-, emitted⟩ := check_bind_eq_ok.1 emitted
      cases emitted
      exact ⟨leads.closeRegion splitBlocks kind, leads.leaves splitBlocks last⟩

/-- What a pass that comes through has arrived at. -/
theorem emitBlocks (split : f.blocks = before ++ blocks) (here : outer before s) {position : Nat}
    (emitted : emit.emitBlocks enter f.name position blocks s
      (reached before ⟨.plain, []⟩ []) = .ok r) :
    r.2 = reached f.blocks ⟨.plain, []⟩ [] ∧ outer f.blocks r.1 := by
  induction blocks generalizing before position s with
  | nil =>
      rw [List.append_nil] at split
      cases emitted
      rw [split]
      exact ⟨rfl, here⟩
  | cons block blocks ih =>
      rw [Emitter.emitBlocks] at emitted
      obtain ⟨⟨s', b⟩, head, tail⟩ := bind_eq_ok.1 emitted
      obtain ⟨rfl, next⟩ := leads.emitBlock split here head
      exact ih (by rw [split, List.append_cons]) next tail

end Leads

namespace Walk

variable (walk : emit.Walk enter f fault? reached outer inner)
include walk

theorem emitBindings (splitBlocks : f.blocks = before ++ block :: after)
    (split : block.bindings = done ++ xs) (here : inner before block done s) (position : Nat) :
    Answers (firstFault? (fault? block) position xs)
      (fun r => r.2 = reached before block block.bindings ∧
        inner before block block.bindings r.1)
      (emit.emitBindings position xs s (reached before block done)) := by
  induction xs generalizing done position s with
  | nil =>
      rw [List.append_nil] at split
      rw [split]
      exact ⟨_, rfl, rfl, here⟩
  | cons x xs ih =>
      rw [firstFault?_cons, Emitter.emitBindings]
      refine (walk.step position splitBlocks split here).bind ?_
      rintro ⟨s', b⟩ ⟨rfl, next⟩
      exact ih (by rw [split, List.append_cons]) next (position + 1)

theorem leads : emit.Leads enter f reached outer inner where
  inDataflow := walk.inDataflow
  pending := walk.pending
  begins := walk.begins
  enters := walk.enters
  step position splitBlocks split here emitted :=
    (walk.step position splitBlocks split here).of_eq_ok emitted
  ends := walk.ends
  leaves := walk.leaves

theorem closeRegion (splitBlocks : f.blocks = before ++ block :: after)
    (dataflow : block.kind = .dataflow) : (reached before block block.bindings).closeRegion =
      (reached (before ++ [block]) ⟨.plain, []⟩ [], .ok ()) := by
  obtain ⟨x, pending, output⟩ := walk.output splitBlocks dataflow
  have inside : (reached before block block.bindings).inDataflow = true :=
    (walk.inDataflow _ _ _).trans (beq_iff_eq.2 dataflow)
  rw [Builder.closeRegion_of_output inside pending output, ← walk.ends splitBlocks, dataflow]

theorem emitBlock (splitBlocks : f.blocks = before ++ block :: after) (here : outer before s)
    (position : Nat) :
    Answers (firstFault? (fault? block) position block.bindings)
      (fun r => r.2 = reached (before ++ [block]) ⟨.plain, []⟩ [] ∧ outer (before ++ [block]) r.1)
      (emit.emitBlock f.name position block (enter s) (reached before ⟨.plain, []⟩ [])) := by
  have inBlock := walk.emitBindings splitBlocks (List.nil_append _).symm
    (walk.enters splitBlocks here) position
  cases kind : block.kind with
  | plain =>
      have opened : reached before ⟨.plain, []⟩ [] = reached before block [] :=
        walk.leads.openPlain kind
      rw [Emitter.emitBlock, kind, opened]
      refine inBlock.bind_ok ?_
      rintro ⟨s', b⟩ ⟨rfl, last⟩
      exact ⟨_, rfl, walk.leads.sealBlock splitBlocks kind, walk.leaves splitBlocks last⟩
  | dataflow =>
      rw [Emitter.emitBlock, kind]
      simp only [walk.leads.openRegion kind]
      refine inBlock.bind_ok ?_
      rintro ⟨s', b⟩ ⟨rfl, last⟩
      rw [walk.closeRegion splitBlocks kind]
      exact ⟨_, rfl, rfl, walk.leaves splitBlocks last⟩

theorem emitBlocks (split : f.blocks = before ++ blocks) (here : outer before s)
    (position : Nat) :
    Answers (blocksFault? fault? position blocks)
      (fun r => r.2 = reached f.blocks ⟨.plain, []⟩ [] ∧ outer f.blocks r.1)
      (emit.emitBlocks enter f.name position blocks s (reached before ⟨.plain, []⟩ [])) := by
  induction blocks generalizing before position s with
  | nil =>
      rw [List.append_nil] at split
      rw [split]
      exact ⟨_, rfl, rfl, here⟩
  | cons block blocks ih =>
      rw [blocksFault?, Emitter.emitBlocks]
      refine (walk.emitBlock split here position).bind ?_
      rintro ⟨s', b⟩ ⟨rfl, next⟩
      exact ih (by rw [split, List.append_cons]) next _

end Walk

end Emitter

end TensorIR

import TensorIR.Proofs.Fusion.Fused
import TensorIR.Proofs.History
import TensorIR.Proofs.Modules

/-!
# Fusion refits a function

Fusion sends every binding of a function through the builder once more. A new variable in the place
of that of a sum has the shape and the type that are inferred of the fused operation, and they can
be known where those of the old variable were not. So a binding that reads it may be refused now,
although it had been taken: what is recorded of its own variable and what is inferred of its value
were not both known before.

This is all that can go wrong. After any number of bindings the builder is known in advance, down to
its list of variables (`Fusion.reached`), and so is what fusion remembers (`Fusion.Follows`): the
operands of a product were renamed at the product as they would be now, since nothing that they read
is defined in between. From such a state each binding leads to the next one, or it is the first one
that does not fit (`Function.misfit?`).
-/

namespace TensorIR

namespace Function

/-- A builder in a region that has the variables of the fused function. -/
def fusedBuilder (f : Function) : Builder :=
  { Builder.reopen f with vars := f.fusedVars, inDataflow := true }

/-- The error where a binding is kept and the builder does not take it any more. -/
def misfit? (f : Function) (block : Block) : Binding → Option LoweringError
  | .define v value =>
    if (f.fusedOperands? block (.define v value)).isSome then none
    else match f.fusedBuilder.bind v (value.rename f.fusedVar) with
      | .ok _ => none
      | .error e => some (.build f.name e)
  | .matchShape .. => none

/-- The error at the first binding that does not fit. -/
def fusionFault? (f : Function) : Option LoweringError :=
  f.blocks.findSome? fun block => block.bindings.findSome? (f.misfit? block)

end Function

namespace Fusion

variable {f : Function} {before after : List Block} {block : Block} {done rest : List Binding}
  {x : Binding} {t v : Var} {e : Expr} {vars : List VarInfo} {operands : List Expr} {s : Fusion}

/-- The variables when all sums of some blocks have been fused, and then those among some bindings
of one more. -/
def namesAt (f : Function) (before : List Block) (block : Block) (done : List Binding) : Names :=
  f.namesAfter ((before.flatMap fun block => f.fusions block block.bindings) ++
    f.fusions block done)

/-- The builder at that point. -/
def reached (f : Function) (before : List Block) (block : Block) (done : List Binding) : Builder :=
  { Builder.reopen f with
    vars := (namesAt f before block done).vars
    blocks := before.map f.fusedBlock
    pending := done.map (f.fusedBinding block)
    inDataflow := block.isDataflow }

/-- What fusion remembers at that point. -/
structure Follows (f : Function) (before : List Block) (block : Block) (done : List Binding)
    (s : Fusion) : Prop where
  renames : s.renames = (namesAt f before block done).renames
  products : block.kind = .dataflow → ∀ t, s.products.lookup t =
    (done.findSome? (Binding.product? t)).map
      (Prod.map (Expr.rename f.fusedVar) (Expr.rename f.fusedVar))

/-- Fusion has come to that point. -/
def Arrived (f : Function) (before : List Block) (block : Block) (done : List Binding)
    (r : Fusion × Builder) : Prop :=
  r.2 = reached f before block done ∧ Follows f before block done r.1

/-! ### Variables -/

theorem namesAt_kept (kept : f.fusedOperands? block x = none) :
    namesAt f before block (done ++ [x]) = namesAt f before block done := by
  have none : f.fusions block [x] = [] := by
    cases defines : x.defined? <;> simp [Function.fusions, defines, kept]
  rw [namesAt, Function.fusions_append, none, List.append_nil]
  rfl

theorem namesAt_fused (defines : x.defined? = some v)
    (isSum : f.fusedOperands? block x = some operands) :
    namesAt f before block (done ++ [x]) = (namesAt f before block done).next (v, operands) := by
  have one : f.fusions block [x] = [(v, operands)] := by simp [Function.fusions, defines, isSum]
  rw [namesAt, Function.fusions_append, one, ← List.append_assoc, Function.namesAfter_concat]
  rfl

theorem namesAt_block (f : Function) (before : List Block) (block next : Block) :
    namesAt f (before ++ [block]) next [] = namesAt f before block block.bindings := by
  rw [namesAt, namesAt, List.flatMap_append, List.flatMap_singleton]
  exact congrArg f.namesAfter (List.append_nil _)

section Place

variable (wellFormed : f.WellFormed) (splitBlocks : f.blocks = before ++ block :: after)
  (split : block.bindings = done ++ rest)

include splitBlocks split

/-- The sums from here on belong to the variables that are defined from here on. -/
theorem exists_later_fusions : ∃ later,
    f.allFusions = ((before.flatMap fun block => f.fusions block block.bindings) ++
      f.fusions block done) ++ later ∧
    ∀ v ∈ later.map Prod.fst,
      v ∈ (rest ++ after.flatMap Block.bindings).filterMap Binding.defined? := by
  refine ⟨f.fusions block rest ++ after.flatMap fun block => f.fusions block block.bindings,
    ?_, ?_⟩
  · rw [Function.allFusions, splitBlocks, List.flatMap_append, List.flatMap_cons, split,
      Function.fusions_append]
    simp only [List.append_assoc]
  · intro v mem
    rw [List.map_append] at mem
    rw [List.filterMap_append]
    exact List.mem_append.2 ((List.mem_append.1 mem).imp Function.defined_of_fusions
      Function.defined_of_blockFusions)

theorem vars_namesAt_prefix : (namesAt f before block done).vars <+: f.fusedVars := by
  obtain ⟨later, all, -⟩ := exists_later_fusions splitBlocks split
  rw [Function.fusedVars, all]
  exact Function.vars_namesAfter_append f _ later

/-- What is recorded of a variable stays. -/
theorem getElem?_fusedVars {i : Nat} (allocated : i < (namesAt f before block done).vars.length) :
    f.fusedVars[i]? = (namesAt f before block done).vars[i]? := by
  obtain ⟨more, all⟩ := vars_namesAt_prefix splitBlocks split
  rw [← all, getElem?_grown allocated]

include wellFormed

/-- What is in scope will not be renamed any more. -/
theorem apply_namesAt (visible : f.InScope before done v) :
    (namesAt f before block done).renames.apply v = f.fusedVar v := by
  obtain ⟨later, all, defines⟩ := exists_later_fusions splitBlocks split
  rw [Function.fusedVar, all]
  refine (Function.apply_namesAfter_append _ fun mem => ?_).symm
  have distinct := wellFormed.nodup
  have split' : f.bindings =
      (before.flatMap Block.bindings ++ done) ++ (rest ++ after.flatMap Block.bindings) := by
    rw [Function.bindings, splitBlocks, List.flatMap_append, List.flatMap_cons, split]
    simp only [List.append_assoc]
  rw [Function.defined, split', List.filterMap_append, ← List.append_assoc] at distinct
  exact (List.nodup_append.1 distinct).2.2 v visible.defined v (defines v mem) rfl

theorem allocated_namesAt (visible : f.InScope before done v) :
    (f.fusedVar v).index < (namesAt f before block done).vars.length := by
  rw [← apply_namesAt wellFormed splitBlocks split visible]
  exact (f.names_for _).allocated (visible.allocates wellFormed)

/-- What is recorded of the variables that an expression reads is what will be. -/
theorem agree_namesAt (visible : ∀ v ∈ e.reads, f.InScope before done v)
    (grown : (namesAt f before block done).vars <+: vars) :
    ∀ w ∈ (e.rename f.fusedVar).reads, vars[w.index]? = f.fusedVars[w.index]? := by
  rw [Expr.reads_rename, List.forall_mem_map]
  intro v read
  have allocated := allocated_namesAt wellFormed splitBlocks split (visible v read)
  obtain ⟨more, rfl⟩ := grown
  rw [getElem?_fusedVars splitBlocks split allocated, getElem?_grown allocated]

theorem Follows.substitute_eq (follows : Follows f before block done s)
    (visible : ∀ v ∈ e.reads, f.InScope before done v) :
    e.substitute s.renames = e.rename f.fusedVar := by
  rw [follows.renames]
  exact Expr.rename_congr fun v read => apply_namesAt wellFormed splitBlocks split (visible v read)

end Place

section Binding

variable (wellFormed : f.WellFormed) (splitBlocks : f.blocks = before ++ block :: after)
  (split : block.bindings = done ++ x :: rest)
include wellFormed splitBlocks split

/-- The variable of a binding has not been renamed before. -/
theorem apply_defined (defines : v ∈ x.defined?) :
    (namesAt f before block done).renames.apply v = v := by
  have new := (not_defined_before wellFormed.toScoped
    (Function.bindings_of_split splitBlocks split) defines).2
  have other : v ∉ ((before.flatMap fun block => f.fusions block block.bindings) ++
      f.fusions block done).map Prod.fst := by
    rw [List.map_append, List.mem_append]
    rw [List.filterMap_append, List.mem_append] at new
    exact fun mem => new (mem.imp Function.defined_of_blockFusions Function.defined_of_fusions)
  exact Function.apply_namesAfter_append [] other

theorem fusedVar_kept (kept : f.fusedOperands? block x = none) :
    ∀ v ∈ x.defined?, f.fusedVar v = v := fun v defines =>
  Function.fusedVar_of_not_fused wellFormed (by simp [splitBlocks]) (by simp [split]) defines kept

omit splitBlocks in
/-- What a binding defines is in scope after it. -/
theorem inScope_defined (inFunction : block ∈ f.blocks) (defines : v ∈ x.defined?) :
    f.InScope before (done ++ [x]) v := by
  have here : v ∈ (done ++ [x]).filterMap Binding.defined? :=
    List.mem_filterMap.2 ⟨x, List.mem_append_right _ (List.mem_singleton_self x), defines⟩
  exact .of_defined here (wellFormed.definitions v
    (Function.mem_defined (Function.mem_bindings inFunction (by simp [split])) defines))

/-! ### Products -/

/-- A product that is in scope in its block has been remembered. -/
theorem product?_of_visible (visible : f.InScope before done t) :
    block.product? t = done.findSome? (Binding.product? t) := by
  rw [Block.product?, split, List.findSome?_append]
  have none : (x :: rest).findSome? (Binding.product? t) = none := by
    rw [List.findSome?_eq_none_iff]
    intro y later
    refine Binding.product?_eq_none fun product => ?_
    exact Function.not_defined_later wellFormed splitBlocks split visible.defined later
      product.defines
  rw [none, Option.or_none]

/-! ### Bindings that are kept -/

theorem agree_kept (kept : f.fusedOperands? block x = none) :
    ∀ w ∈ (x.value.rename f.fusedVar).reads,
      (namesAt f before block done).vars[w.index]? = f.fusedVars[w.index]? := by
  have reads := Function.inScope_fusedValue wellFormed splitBlocks split
  rw [Function.fusedValue, kept] at reads
  exact agree_namesAt wellFormed splitBlocks split reads List.prefix_rfl

theorem append_kept (kept : f.fusedOperands? block x = none) :
    (reached f before block done).append
      ((x.rename f.fusedVar).annotated (namesAt f before block done).vars) =
    reached f before block (done ++ [x]) := by
  have annotated : f.fusedBinding block x =
      (x.rename f.fusedVar).annotated (namesAt f before block done).vars := by
    have same : f.fusedValue block x = x.value := by rw [Function.fusedValue, kept]; rfl
    have stays : x.withValue x.value = x := by cases x <;> rfl
    rw [Function.fusedBinding, same, stays, Binding.annotated, Binding.annotated,
      Binding.value_rename,
      Expr.annotate_congr (agree_kept wellFormed splitBlocks split kept)]
  simp [reached, namesAt_kept kept, Builder.append, annotated]

/-- A binding that is kept is taken as it will be, or it does not fit. -/
theorem push_kept (settled : f.Settled) (kept : f.fusedOperands? block x = none) :
    Answers (f.misfit? block x) (· = reached f before block (done ++ [x]))
      (building f.name ((reached f before block done).push (x.rename f.fusedVar))) := by
  have inFunction : block ∈ f.blocks := by simp [splitBlocks]
  have own := fusedVar_kept wellFormed splitBlocks split kept
  have accepted := ((settled block inFunction).bindings x (by simp [split])).accepted
  have agree := agree_kept wellFormed splitBlocks split kept
  have next := append_kept wellFormed splitBlocks split kept
  have recorded {v : Var} (allocates : f.Allocates v) :=
    (f.names_for ((before.flatMap fun block => f.fusions block block.bindings) ++
      f.fusions block done)).recorded allocates
  cases x with
  | matchShape v? value pattern =>
      refine ⟨_, building_eq_ok.2 (Builder.push_eq_ok_iff.2 ⟨?_, rfl⟩), next⟩
      intro u renamed
      obtain ⟨v, mem, rfl⟩ := Option.map_eq_some_iff.1 renamed
      obtain ⟨info, found, place⟩ := accepted v mem
      rw [own v mem]
      exact ⟨info, (recorded (List.getElem?_eq_some_iff.1 found).1).trans found, place⟩
  | define v value =>
      obtain ⟨info, ⟨found, place⟩, -⟩ := accepted
      have allocates := (List.getElem?_eq_some_iff.1 found).1
      have here : (reached f before block done).bindable v = .ok info :=
        Builder.bindable_eq_ok.2 ⟨(recorded allocates).trans found, place⟩
      have there : f.fusedBuilder.bindable v = .ok info :=
        Builder.bindable_eq_ok.2 ⟨((f.names_for _).recorded allocates).trans found, fun _ => rfl⟩
      have bound : (reached f before block done).bind v (value.rename f.fusedVar) =
          (f.fusedBuilder.bind v (value.rename f.fusedVar)).map fun _ => _ :=
        Builder.bind_eq_map (here.trans there.symm) rfl
          ⟨Expr.inferShape?_congr agree, Expr.inferTy?_congr agree⟩
      rw [Function.misfit?, kept, Option.isSome_none, if_neg Bool.false_ne_true, Binding.rename,
        own v rfl, Builder.push, bound]
      cases f.fusedBuilder.bind v (value.rename f.fusedVar) with
      | error e => rfl
      | ok b =>
          refine ⟨_, rfl, ?_⟩
          rw [Binding.rename, own v rfl] at next
          exact next

/-! ### Sums that are fused -/

omit wellFormed splitBlocks split in
theorem Follows.next {s' : Fusion} (follows : Follows f before block done s)
    (renames : s'.renames = (namesAt f before block (done ++ [x])).renames)
    (products : s'.products = s.products)
    (other : block.kind = .dataflow → ∀ t, x.product? t = none) :
    Follows f before block (done ++ [x]) s' := by
  refine ⟨renames, fun dataflow t => ?_⟩
  rw [products, List.findSome?_append, List.findSome?_singleton, other dataflow t, Option.or_none]
  exact follows.products dataflow t

omit wellFormed splitBlocks split in
theorem Follows.kept (follows : Follows f before block done s)
    (kept : f.fusedOperands? block x = none)
    (other : block.kind = .dataflow → ∀ t, x.product? t = none) :
    Follows f before block (done ++ [x]) s :=
  follows.next (by rw [namesAt_kept kept, follows.renames]) rfl other

omit wellFormed splitBlocks split in
theorem product?_of_sum (isSum : f.fusedOperands? block x = some operands) (t : Var) :
    x.product? t = none := by
  refine Binding.product?_eq_none fun product => ?_
  rw [Function.fusedOperands?_of_isProduct product] at isSum
  cases isSum

section Sum

variable {value : Expr} {info : VarInfo} (is : x = .define v value)
  (isSum : f.fusedOperands? block x = some operands)
include isSum

theorem reads_operands : ∀ v ∈ (Expr.ofOp .fma operands).reads, f.InScope before done v := by
  have reads := Function.inScope_fusedValue wellFormed splitBlocks split
  rwa [Function.fusedValue, isSum] at reads

/-- What is inferred of a fused operation here is what is inferred of it among the final variables,
and what would be recorded of its variable. -/
theorem fusedInfo_eq (found : (namesAt f before block done).vars[v.index]? = some info) :
    (namesAt f before block done).fusedInfo v operands =
      { info with
        shape := ((Expr.ofOp .fma operands).rename f.fusedVar).inferShape? f.fusedVars
        ty := ((Expr.ofOp .fma operands).rename f.fusedVar).inferTy? f.fusedVars } := by
  have reads := reads_operands wellFormed splitBlocks split isSum
  have renamed : (Expr.ofOp .fma operands).substitute (namesAt f before block done).renames =
      (Expr.ofOp .fma operands).rename f.fusedVar :=
    Expr.rename_congr fun u read => apply_namesAt wellFormed splitBlocks split (reads u read)
  have agree := agree_namesAt wellFormed splitBlocks split reads List.prefix_rfl
  rw [Names.fusedInfo, renamed, List.getD_eq_getElem?_getD, found, Expr.inferShape?_congr agree,
    Expr.inferTy?_congr agree]
  rfl

/-- The builder takes a fused operation for a variable of which just that is recorded, and it is
annotated as it will be. -/
theorem bind_sum {b : Builder} {w : Var} {info : VarInfo} (inside : b.inDataflow = true)
    (grown : (namesAt f before block done).vars <+: b.vars) (found : b.vars[w.index]? = some info)
    (shape : info.shape = ((Expr.ofOp .fma operands).rename f.fusedVar).inferShape? f.fusedVars)
    (ty : info.ty = ((Expr.ofOp .fma operands).rename f.fusedVar).inferTy? f.fusedVars) :
    b.bind w ((Expr.ofOp .fma operands).rename f.fusedVar) = .ok (b.append (.define w
      (((Expr.ofOp .fma operands).rename f.fusedVar).annotate f.fusedVars))) := by
  have agree := agree_namesAt wellFormed splitBlocks split
    (reads_operands wellFormed splitBlocks split isSum) grown
  rw [← Expr.annotate_congr agree]
  refine (Builder.push_eq_ok_iff (x := .define w _)).2
    ⟨⟨info, ⟨found, fun _ => inside⟩, fun s left t right => ?_, fun t left u right => ?_⟩, rfl⟩
  · rw [Expr.inferShape?_congr agree, ← shape] at right
    exact Option.mem_unique left right
  · rw [Expr.inferTy?_congr agree, ← ty] at right
    rw [Option.mem_unique left right]
    exact Ty.compatible_self u

include is

/-- From the sum on its variable is the one that it will have. -/
theorem fusedVar_sum : f.fusedVar v =
    ((namesAt f before block done).next (v, operands)).renames.apply v := by
  have defines : x.defined? = some v := is ▸ rfl
  have visible : f.InScope before (done ++ [x]) v :=
    inScope_defined wellFormed split (by simp [splitBlocks]) defines
  have split' : block.bindings = (done ++ [x]) ++ rest := by rw [split, List.append_cons]
  rw [← namesAt_fused defines isSum, apply_namesAt wellFormed splitBlocks split' visible]

omit wellFormed splitBlocks split in
theorem fusedBinding_sum : f.fusedBinding block x = .define (f.fusedVar v)
    (((Expr.ofOp .fma operands).rename f.fusedVar).annotate f.fusedVars) := by
  rw [Function.fusedBinding, Function.fusedValue, isSum, is]
  rfl

/-- A sum keeps its variable if what is recorded of it is what is inferred. -/
theorem namesAt_reused (found : (namesAt f before block done).vars[v.index]? = some info)
    (shape : info.shape = ((Expr.ofOp .fma operands).rename f.fusedVar).inferShape? f.fusedVars)
    (ty : info.ty = ((Expr.ofOp .fma operands).rename f.fusedVar).inferTy? f.fusedVars) :
    namesAt f before block (done ++ [x]) = namesAt f before block done ∧ f.fusedVar v = v := by
  have defines : x.defined? = some v := is ▸ rfl
  have names : namesAt f before block (done ++ [x]) = _ := namesAt_fused defines isSum
  have var := fusedVar_sum wellFormed splitBlocks split is isSum
  have kept : (namesAt f before block done).next (v, operands) = namesAt f before block done := by
    rw [Names.next, fusedInfo_eq wellFormed splitBlocks split isSum found, ← shape, ← ty]
    exact if_pos found
  rw [kept] at names var
  exact ⟨names, var.trans (apply_defined wellFormed splitBlocks split defines)⟩

/-- Otherwise it has a new one, of which just that is recorded. -/
theorem namesAt_renewed (found : (namesAt f before block done).vars[v.index]? = some info)
    (differ : ¬ (info.shape = ((Expr.ofOp .fma operands).rename f.fusedVar).inferShape? f.fusedVars ∧
      info.ty = ((Expr.ofOp .fma operands).rename f.fusedVar).inferTy? f.fusedVars)) :
    namesAt f before block (done ++ [x]) =
      ⟨(v, ⟨(namesAt f before block done).vars.length⟩) :: (namesAt f before block done).renames,
        (namesAt f before block done).vars ++ [{ info with
          shape := ((Expr.ofOp .fma operands).rename f.fusedVar).inferShape? f.fusedVars
          ty := ((Expr.ofOp .fma operands).rename f.fusedVar).inferTy? f.fusedVars }]⟩ ∧
      f.fusedVar v = ⟨(namesAt f before block done).vars.length⟩ := by
  have defines : x.defined? = some v := is ▸ rfl
  have names : namesAt f before block (done ++ [x]) = _ := namesAt_fused defines isSum
  have var := fusedVar_sum wellFormed splitBlocks split is isSum
  have record := fusedInfo_eq wellFormed splitBlocks split isSum found
  have new : (namesAt f before block done).vars[v.index]? ≠
      some ((namesAt f before block done).fusedInfo v operands) := by
    rw [found, record]
    intro same
    have same := Option.some.inj same
    exact differ ⟨congrArg VarInfo.shape same, congrArg VarInfo.ty same⟩
  rw [Names.next, if_neg new, record] at names var
  rw [Renaming.apply_cons, if_pos rfl] at var
  exact ⟨names, var⟩

/-- A sum that is fused is always taken, under its variable or a new one. -/
theorem emitFused_ok (follows : Follows f before block done s) :
    ∃ s', emitFused f v ((Expr.ofOp .fma operands).rename f.fusedVar) s
        (reached f before block done) = .ok (s', reached f before block (done ++ [x])) ∧
      Follows f before block (done ++ [x]) s' := by
  have inBlock : x ∈ block.bindings := by simp [split]
  have allocates := wellFormed.definitions v (Function.mem_defined
    (Function.mem_bindings (by simp [splitBlocks]) inBlock) (is ▸ rfl))
  have found : (namesAt f before block done).vars[v.index]? = some f.vars[v.index] :=
    ((f.names_for _).recorded allocates).trans (List.getElem?_eq_getElem allocates)
  have looked : looking ((reached f before block done).info v) = .ok f.vars[v.index] :=
    looking_eq_ok.2 (Builder.info_eq_ok.2 found)
  have agree := agree_namesAt wellFormed splitBlocks split
    (reads_operands wellFormed splitBlocks split isSum) List.prefix_rfl
  have inside : (reached f before block done).inDataflow = true :=
    beq_iff_eq.2 (Function.dataflow_of_sum isSum)
  have vars : (reached f before block done).vars = (namesAt f before block done).vars := rfl
  simp only [emitFused, looked, ok_bind, vars, Expr.inferShape?_congr agree,
    Expr.inferTy?_congr agree]
  split
  · next same =>
      obtain ⟨names, var⟩ :=
        namesAt_reused wellFormed splitBlocks split is isSum found same.1 same.2
      have emitted :=
        bind_sum wellFormed splitBlocks split isSum inside List.prefix_rfl found same.1 same.2
      refine ⟨s, bind_eq_ok.2 ⟨_, building_eq_ok.2 emitted, ?_⟩, follows.next ?_ rfl
        fun _ => product?_of_sum isSum⟩
      · rw [pure_eq_ok]
        simp [reached, names, Builder.append, fusedBinding_sum is isSum, var]
      · rw [names]
        exact follows.renames
  · next differ =>
      obtain ⟨names, var⟩ := namesAt_renewed wellFormed splitBlocks split is isSum found differ
      refine ⟨{ s with renames := (v, ⟨(namesAt f before block done).vars.length⟩) :: s.renames },
        bind_eq_ok.2 ⟨_, building_eq_ok.2 (bind_sum wellFormed splitBlocks split isSum inside
          (List.prefix_append _ _) List.getElem?_concat_length rfl rfl), ?_⟩, follows.next ?_ rfl
          fun _ => product?_of_sum isSum⟩
      · rw [pure_eq_ok]
        simp [reached, names, Builder.append, Builder.fresh, fusedBinding_sum is isSum, var]
      · rw [names]
        exact congrArg _ follows.renames

end Sum

/-! ### The walk through a block -/

theorem Follows.remember (follows : Follows f before block done s) {head : CallHead} {a a' : Expr}
    (is : x = .define v (.call head [a, a'])) (callee : head.callee = .op .multiply) :
    Follows f before block (done ++ [x])
      { s with products := (v, a.rename f.fusedVar, a'.rename f.fusedVar) :: s.products } := by
  have kept : f.fusedOperands? block x = none :=
    Function.fusedOperands?_of_isProduct ⟨head, a, a', is, callee⟩
  have defines : v ∈ x.defined? := by
    rw [is]
    rfl
  refine ⟨follows.renames.trans (by rw [namesAt_kept kept]), fun dataflow t => ?_⟩
  rw [List.findSome?_append, List.findSome?_singleton, List.lookup_cons]
  split
  · next same =>
      rw [beq_iff_eq.1 same]
      have new : done.findSome? (Binding.product? v) = none := by
        rw [List.findSome?_eq_none_iff]
        refine fun y earlier => Binding.product?_eq_none fun product => ?_
        refine (not_defined_before wellFormed.toScoped
          (Function.bindings_of_split splitBlocks split) defines).2 (List.mem_filterMap.2 ?_)
        exact ⟨y, List.mem_append_right _ earlier, product.defines⟩
      rw [new, Binding.product?_eq_some.2 ⟨head, is, callee⟩]
      rfl
  · next differ =>
      have other : x.product? t = none := by
        refine Binding.product?_eq_none ?_
        rintro ⟨_, _, _, is', -⟩
        cases is.symm.trans is'
        rw [beq_self_eq_true] at differ
        cases differ
      rw [other, Option.or_none]
      exact follows.products dataflow t

/-- A product is not renamed, so that a renamed operand is it only if the operand was. -/
theorem fusedVar_product {a a' : Expr}
    (product : done.findSome? (Binding.product? t) = some (a, a')) :
    f.Allocates t ∧ f.fusedVar t = t := by
  have inFunction : block ∈ f.blocks := by simp [splitBlocks]
  obtain ⟨y, earlier, isProduct⟩ := List.exists_of_findSome?_eq_some product
  obtain ⟨head, rfl, callee⟩ := Binding.product?_eq_some.1 isProduct
  have inBlock : .define t (.call head [a, a']) ∈ block.bindings := by simp [split, earlier]
  have defined := Function.mem_defined (Function.mem_bindings inFunction inBlock) rfl
  exact ⟨wellFormed.definitions t defined,
    Function.fusedVar_of_not_fused wellFormed inFunction inBlock rfl
      (Function.fusedOperands?_of_isProduct ⟨head, a, a', rfl, callee⟩)⟩

/-- In a region fusion finds the sums that are to be fused, and no others. -/
theorem fused?_eq (dataflow : block.kind = .dataflow) (follows : Follows f before block done s)
    {value : Expr} (is : x = .define v value) : s.fused? f (value.rename f.fusedVar) =
      (f.fusedOperands? block x).map (List.map (Expr.rename f.fusedVar)) := by
  have visible := wellFormed.inScope before block after done x rest splitBlocks split
  refine Option.ext fun operands => ?_
  rw [fused?_eq_some, Option.map_eq_some_iff]
  constructor
  · rintro ⟨head, t, a, a', c, sum, callee, once, found, rfl⟩
    obtain ⟨args, rfl, parts⟩ := Expr.rename_eq_call sum
    obtain ⟨e₁, tail, rfl, first, others⟩ := List.map_eq_cons_iff.1 parts
    obtain ⟨e₂, nothing, rfl, rfl, none⟩ := List.map_eq_cons_iff.1 others
    cases List.map_eq_nil_iff.1 none
    obtain ⟨u, rfl, same⟩ := Expr.rename_eq_var first
    rw [follows.products dataflow t] at found
    obtain ⟨⟨e, e'⟩, product, pair⟩ := Option.map_eq_some_iff.1 found
    cases pair
    obtain ⟨allocates, kept⟩ := fusedVar_product wellFormed splitBlocks split product
    have seen := visible u (by simp [is, Binding.value, Expr.reads, Expr.readsAll])
    obtain rfl : u = t := (f.names_for f.allFusions).apart u t (seen.allocates wellFormed) allocates
      (same.trans kept.symm)
    refine ⟨[e, e', e₂], Function.fusedOperands?_eq_some.2 ⟨v, head, u, e₂, e, e', is, dataflow,
      callee, once, ?_, rfl⟩, rfl⟩
    rw [product?_of_visible wellFormed splitBlocks split seen, product]
  · rintro ⟨operands, isSum, rfl⟩
    obtain ⟨w, head, t, c, a, a', is', -, callee, once, found, rfl⟩ :=
      Function.fusedOperands?_eq_some.1 isSum
    cases is.symm.trans is'
    have seen := visible t (by simp [is, Binding.value, Expr.reads, Expr.readsAll])
    rw [product?_of_visible wellFormed splitBlocks split seen] at found
    refine ⟨head, t, _, _, c.rename f.fusedVar, ?_, callee, once, ?_, rfl⟩
    · rw [Expr.rename, Expr.renameAll_eq_map, List.map_cons, List.map_singleton, Expr.rename,
        (fusedVar_product wellFormed splitBlocks split found).2]
    · rw [follows.products dataflow t, found]
      rfl

/-- Each binding is kept and goes to the builder with its reads renamed, or it is a sum that is
fused. -/
theorem emitter_cases (follows : Follows f before block done s) (position : Nat) :
    (f.fusedOperands? block x = none ∧ ∃ s', Follows f before block (done ++ [x]) s' ∧
      emitter f position x s (reached f before block done) =
        building f.name ((reached f before block done).push (x.rename f.fusedVar)) >>=
          fun b => pure (s', b)) ∨
    (f.fusedOperands? block x ≠ none ∧ ∃ s', Follows f before block (done ++ [x]) s' ∧
      emitter f position x s (reached f before block done) =
        .ok (s', reached f before block (done ++ [x]))) := by
  have renamed := follows.substitute_eq wellFormed splitBlocks split
    (wellFormed.inScope before block after done x rest splitBlocks split)
  have whole (kept : f.fusedOperands? block x = none) :
      x.substitute s.renames = x.rename f.fusedVar :=
    Binding.substitute_eq_rename renamed (fusedVar_kept wellFormed splitBlocks split kept)
  cases x with
  | matchShape v? value pattern =>
      refine .inl ⟨rfl, s, follows.kept rfl fun _ _ => rfl, ?_⟩
      rw [← whole rfl]
      rfl
  | define v value =>
      rw [Binding.value] at renamed
      simp only [emitter, Binding.substitute, Binding.withValue, Binding.value, renamed] at whole ⊢
      by_cases dataflow : block.kind = .dataflow
      · have inside : (reached f before block done).inDataflow = true := beq_iff_eq.2 dataflow
        rw [if_pos inside, fused?_eq wellFormed splitBlocks split dataflow follows rfl,
          product?_rename]
        cases isProduct : product? value with
        | some operands =>
            obtain ⟨a, a'⟩ := operands
            obtain ⟨head, rfl, callee⟩ := product?_eq_some.1 isProduct
            have kept : f.fusedOperands? block (.define v (.call head [a, a'])) = none :=
              Function.fusedOperands?_of_isProduct ⟨head, a, a', rfl, callee⟩
            rw [whole kept]
            exact .inl ⟨kept, _, follows.remember wellFormed splitBlocks split rfl callee, rfl⟩
        | none =>
            cases isSum : f.fusedOperands? block (.define v value) with
            | none =>
                rw [whole isSum]
                refine .inl ⟨rfl, s, follows.kept isSum fun _ t => Binding.product?_eq_none ?_,
                  rfl⟩
                rintro ⟨head, a, a', is, callee⟩
                cases is
                rw [product?_eq_some.2 ⟨head, rfl, callee⟩] at isProduct
                cases isProduct
            | some operands =>
                obtain ⟨s', emitted, follows'⟩ :=
                  emitFused_ok wellFormed splitBlocks split rfl isSum follows
                rw [Expr.ofOp, Expr.rename, Expr.renameAll_eq_map] at emitted
                exact .inr ⟨Option.some_ne_none operands, s', follows', emitted⟩
      · have outside : (reached f before block done).inDataflow ≠ true :=
          fun inside => dataflow (beq_iff_eq.1 inside)
        have kept : f.fusedOperands? block (.define v value) = none :=
          Option.eq_none_iff_forall_ne_some.2 fun operands isSum =>
            dataflow (Function.dataflow_of_sum isSum)
        rw [if_neg outside, whole kept]
        exact .inl ⟨kept, s, follows.kept kept fun inside => absurd inside dataflow, rfl⟩

/-- Each binding leads to the next state, or it does not fit. -/
theorem emitter_answers (settled : f.Settled) (follows : Follows f before block done s)
    (position : Nat) :
    Answers (f.misfit? block x) (Arrived f before block (done ++ [x]))
      (emitter f position x s (reached f before block done)) := by
  rcases emitter_cases wellFormed splitBlocks split follows position with
    ⟨kept, s', next, emitted⟩ | ⟨isSum, s', next, emitted⟩
  · rw [emitted]
    exact (push_kept wellFormed splitBlocks split settled kept).bind_ok fun b same =>
      ⟨_, rfl, same, next⟩
  · have fits : f.misfit? block x = none := by
      obtain ⟨operands, isSum⟩ := Option.ne_none_iff_exists'.1 isSum
      obtain ⟨v, head, t, c, a, a', rfl, -⟩ := Function.fusedOperands?_eq_some.1 isSum
      rw [Function.misfit?, isSum]
      rfl
    rw [emitted, fits]
    exact ⟨_, rfl, rfl, next⟩

/-- Whatever may be known of the function, a binding that is taken leads to the next state. -/
theorem arrived_of_emitter (follows : Follows f before block done s) {position : Nat}
    {r : Fusion × Builder}
    (emitted : emitter f position x s (reached f before block done) = .ok r) :
    Arrived f before block (done ++ [x]) r := by
  rcases emitter_cases wellFormed splitBlocks split follows position with
    ⟨kept, s', next, same⟩ | ⟨-, s', next, same⟩
  · rw [same] at emitted
    obtain ⟨b, pushed, emitted⟩ := bind_eq_ok.1 emitted
    cases emitted
    obtain ⟨-, rfl⟩ := Builder.push_eq_ok_iff.1 (building_eq_ok.1 pushed)
    exact ⟨append_kept wellFormed splitBlocks split kept, next⟩
  · rw [same] at emitted
    cases emitted
    exact ⟨rfl, next⟩

end Binding

section Blocks

theorem ended_reached (nonempty : block.bindings ≠ []) :
    { (reached f before block block.bindings).endBlock block.kind with inDataflow := false } =
      reached f (before ++ [block]) ⟨.plain, []⟩ [] := by
  have pending : (reached f before block block.bindings).pending ≠ [] := by
    simp [reached, nonempty]
  rw [Builder.endBlock_of_nonempty block.kind pending]
  simp only [reached, namesAt_block, List.map_append]
  rfl

variable (wellFormed : f.WellFormed)
include wellFormed

/-- What a region makes visible afterwards is still visible then. -/
theorem isOutput_fusedBinding (splitBlocks : f.blocks = before ++ block :: after)
    (inBlock : x ∈ block.bindings) (output : x.IsOutput f.vars) :
    (f.fusedBinding block x).IsOutput (namesAt f before block block.bindings).vars := by
  cases x with
  | matchShape _ _ _ => trivial
  | define v value =>
      obtain ⟨info, found, plain⟩ := output
      obtain ⟨done, rest, split⟩ := List.append_of_mem inBlock
      have visible : f.InScope before block.bindings v := by
        have here : f.InScope before (done ++ [.define v value]) v :=
          inScope_defined wellFormed split (by simp [splitBlocks]) rfl
        rw [split, List.append_cons]
        exact here.later rest
      have kind := (f.names_for ((before.flatMap fun block => f.fusions block block.bindings) ++
        f.fusions block block.bindings)).kinds v (visible.allocates wellFormed)
      have var := apply_namesAt wellFormed splitBlocks (List.append_nil block.bindings).symm visible
      rw [namesAt] at var
      rw [var, Function.kind?, found] at kind
      obtain ⟨info', found', same⟩ := Option.map_eq_some_iff.1 kind
      refine ⟨info', found', ?_⟩
      rw [VarInfo.isDataflow, same]
      exact plain

/-- Fusion takes the builder from each place to the next. -/
theorem leads : (emitter f).Leads (fun s => { s with products := [] }) f (reached f)
    (fun before s => s.renames = (namesAt f before ⟨.plain, []⟩ []).renames) (Follows f) where
  inDataflow _ _ _ := rfl
  pending _ := rfl
  begins _ _ := rfl
  enters _ renames := ⟨renames, fun _ _ => rfl⟩
  step _ splitBlocks split follows emitted :=
    arrived_of_emitter wellFormed splitBlocks split follows emitted
  ends splitBlocks := ended_reached (wellFormed.nonempty _ (by simp [splitBlocks]))
  leaves _ follows := follows.renames.trans (by rw [namesAt_block])

theorem walk (settled : f.Settled) : (emitter f).Walk (fun s => { s with products := [] }) f
    (fun block _ => f.misfit? block) (reached f)
    (fun before s => s.renames = (namesAt f before ⟨.plain, []⟩ []).renames) (Follows f) where
  inDataflow := (leads wellFormed).inDataflow
  pending := (leads wellFormed).pending
  begins := (leads wellFormed).begins
  enters := (leads wellFormed).enters
  step position splitBlocks split follows :=
    emitter_answers wellFormed splitBlocks split settled follows position
  output := by
    intro before block after splitBlocks dataflow
    obtain ⟨x, inBlock, output⟩ := (settled block (by simp [splitBlocks])).output dataflow
    exact ⟨_, List.mem_map_of_mem inBlock,
      isOutput_fusedBinding wellFormed splitBlocks inBlock output⟩
  ends := (leads wellFormed).ends
  leaves := (leads wellFormed).leaves

end Blocks

/-- When all blocks have been emitted the renaming is that of the whole function. -/
theorem namesAt_last (f : Function) :
    namesAt f f.blocks ⟨.plain, []⟩ [] = f.namesAfter f.allFusions :=
  congrArg f.namesAfter (List.append_nil _)

theorem finish_reached (wellFormed : f.WellFormed) :
    (reached f f.blocks ⟨.plain, []⟩ []).finish (f.body.rename f.fusedVar) = .ok f.fused := by
  refine Builder.finish_eq_ok_iff.2 ⟨rfl, rfl, ?_, ?_⟩
  · simp only [reached, namesAt_last]
    rfl
  · exact Function.check_of_wellFormed wellFormed.fused

/-- The fused function is what is handed out after the last block. -/
theorem finish_last (wellFormed : f.WellFormed)
    (renames : s.renames = (namesAt f f.blocks ⟨.plain, []⟩ []).renames) :
    (reached f f.blocks ⟨.plain, []⟩ []).finish (f.body.substitute s.renames) = .ok f.fused := by
  have body : f.body.substitute s.renames = f.body.rename f.fusedVar := by
    rw [renames, namesAt_last]
    rfl
  rw [body]
  exact finish_reached wellFormed

end Fusion

/-- A settled function is fused unless one of its bindings does not fit, and then the error is that
of the first such binding. -/
theorem Function.fuse_answers {f : Function} (settled : f.Settled) (checked : f.check = .ok ()) :
    Answers f.fusionFault? (· = f.fused) f.fuse := by
  have wellFormed := wellFormed_of_check checked
  have walk := (Fusion.walk wellFormed settled).emitBlocks (s := {}) (List.nil_append _).symm rfl 0
  rw [Emitter.blocksFault?_eq_findSome?] at walk
  refine walk.bind_ok ?_
  rintro ⟨s, b⟩ ⟨rfl, renames⟩
  exact ⟨f.fused, building_eq_ok.2 (Fusion.finish_last wellFormed renames), rfl⟩

/-- Whatever well-formed function comes out of fusion is the fused one. -/
theorem Function.fuse_eq {f g : Function} (checked : f.check = .ok ()) (fused : f.fuse = .ok g) :
    g = f.fused := by
  have wellFormed := wellFormed_of_check checked
  simp only [fuse] at fused
  obtain ⟨⟨s, b⟩, emitted, finished⟩ := bind_eq_ok.1 fused
  obtain ⟨rfl, renames⟩ :=
    (Fusion.leads wellFormed).emitBlocks (s := {}) (List.nil_append _).symm rfl emitted
  have same := (building_eq_ok.1 finished).symm.trans (Fusion.finish_last wellFormed renames)
  exact Except.ok.inj same

end TensorIR

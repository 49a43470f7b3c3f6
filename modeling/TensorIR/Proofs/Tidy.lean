import TensorIR.Proofs.Dominance
import TensorIR.Proofs.Driving
import TensorIR.Proofs.Settled

/-!
# What a pass hands out is settled

None of the operations by which a pass drives a builder asks whether the variables of a value are
allocated, and a builder is settled only if they are. That they were need not be traced through
what each pass has renamed. The finished function is well formed, so a value in it reads what was
defined before it, and what was defined before it was allocated by then.

`Builder.Tidy` is the invariant of this argument. It says of the values only what follows if reads
come after definitions, so the operations keep it without any condition.
-/

namespace TensorIR

theorem Binding.Accepted.allocated {vars : List VarInfo} {inside : Bool} {x : Binding} {v : Var}
    (h : x.Accepted vars inside) (defines : v ∈ x.defined?) : v.index < vars.length := by
  cases x with
  | define u value =>
      cases defines
      obtain ⟨info, bindable, -⟩ := h
      exact (List.getElem?_eq_some_iff.1 bindable.1).1
  | matchShape u value pattern =>
      obtain ⟨info, bindable⟩ := h v defines
      exact (List.getElem?_eq_some_iff.1 bindable.1).1

namespace Builder

/-- All that is defined is allocated, and all that is emitted is settled if no variable is read
before it is defined. -/
structure Tidy (b : Builder) : Prop where
  allocated : ∀ v ∈ b.params ++ b.bindings.filterMap Binding.defined?, v.index < b.vars.length
  settled : ReadsAfter b.params b.bindings → b.Settled

variable {b b' : Builder} {x : Binding} {v : Var} {value : Expr}

theorem tidy_reopen {f : Function} (known : f.Scoped) : (reopen f).Tidy := by
  refine ⟨fun v mem => ?_, fun _ => settled_reopen f⟩
  rw [bindings_reopen, List.filterMap_nil, List.append_nil] at mem
  exact known.definitions v (List.mem_append_left _ mem)

namespace Tidy

theorem push (h : b.Tidy) (pushed : b.push x = .ok b') : b'.Tidy := by
  obtain ⟨accepted, rfl⟩ := push_eq_ok_iff.1 pushed
  have same : (x.annotated b.vars).defined? = x.defined? := by cases x <;> rfl
  constructor
  · intro v mem
    rw [bindings_append, defined_append, same, ← List.append_assoc] at mem
    rcases List.mem_append.1 mem with before | here
    · exact h.allocated v before
    · exact accepted.allocated (Option.mem_toList.1 here)
  · intro reads
    rw [bindings_append, readsAfter_append] at reads
    obtain ⟨before, here, -⟩ := reads
    rw [Binding.value_annotated, Expr.reads_annotate] at here
    refine (h.settled before).append (Binding.settled_of_accepted accepted fun v read => ?_)
    exact h.allocated v (here v read)

theorem bind (h : b.Tidy) (bound : b.bind v value = .ok b') : b'.Tidy :=
  h.push (x := .define v value) bound

theorem fresh (h : b.Tidy) (info : VarInfo) : (b.fresh info).1.Tidy := by
  refine ⟨fun v mem => ?_, fun reads => (h.settled reads).fresh info⟩
  rw [length_vars_fresh]
  exact Nat.lt_succ_of_lt (h.allocated v mem)

theorem emitNamed (h : b.Tidy) (name : String) (value : Expr) :
    (b.emitNamed name value).1.Tidy := by
  constructor
  · intro v mem
    rw [bindings_emitNamed, defined_append, ← List.append_assoc] at mem
    rw [length_vars_emitNamed]
    rcases List.mem_append.1 mem with before | here
    · exact Nat.lt_succ_of_lt (h.allocated v before)
    · cases List.mem_singleton.1 here
      exact Nat.lt_succ_self _
  · intro reads
    rw [bindings_emitNamed, readsAfter_append] at reads
    obtain ⟨before, here, -⟩ := reads
    rw [Binding.value, Expr.reads_annotate] at here
    exact (h.settled before).emitNamed name value fun v read => h.allocated v (here v read)

/-- Blocks do not matter to it, as long as they are settled themselves. -/
theorem around (h : b.Tidy) (bindings : b'.bindings = b.bindings) (vars : b'.vars = b.vars)
    (params : b'.params = b.params) (settled : b.Settled → b'.Settled) : b'.Tidy := by
  refine ⟨?_, fun reads => settled (h.settled ?_)⟩
  · rw [bindings, vars, params]
    exact h.allocated
  · rwa [bindings, params] at reads

theorem openRegion (h : b.Tidy) (opened : b.openRegion = .ok b') : b'.Tidy := by
  obtain ⟨bindings, vars, params⟩ := openRegion_eq_ok opened
  exact h.around bindings vars params fun settled => settled.openRegion opened

theorem closeRegion (h : b.Tidy) (closed : b.closeRegion.2 = .ok ()) : b.closeRegion.1.Tidy :=
  h.around (bindings_closeRegion b) (vars_closeRegion b) (params_closeRegion b)
    fun settled => settled.closeRegion closed

theorem sealBlock (h : b.Tidy) : b.sealBlock.Tidy :=
  h.around (bindings_sealBlock b) (vars_sealBlock b) (params_sealBlock b) Settled.sealBlock

theorem finish (h : b.Tidy) {body : Expr} {f : Function} (finished : b.finish body = .ok f) :
    f.Settled := by
  obtain ⟨bindings, -, -, params, checked⟩ := finish_eq_ok finished
  have reads := (Function.dominated_of_check checked).bindings
  rw [bindings, params] at reads
  exact (h.settled reads).finish finished

end Tidy

end Builder

/-! ### Passes -/

theorem Builder.kept_tidy : Kept Tidy where
  push := Tidy.push
  fresh info h := h.fresh info
  emitNamed name value h := h.emitNamed name value
  openRegion := Tidy.openRegion
  closeRegion := Tidy.closeRegion
  sealBlock := Tidy.sealBlock

namespace Function

variable {f g : Function}

theorem tidy_of_check (wellFormed : f.check = .ok ()) : (Builder.reopen f).Tidy :=
  Builder.tidy_reopen (scoped_of_check wellFormed)

theorem settled_of_fuse (wellFormed : f.check = .ok ()) (fused : f.fuse = .ok g) : g.Settled := by
  obtain ⟨b, _, tidy, finished⟩ := Builder.kept_tidy.fuse (tidy_of_check wellFormed) fused
  exact tidy.finish finished

theorem settled_of_demote (wellFormed : f.check = .ok ()) (demoted : f.demote = .ok g) :
    g.Settled := by
  obtain ⟨b, _, tidy, finished⟩ := Builder.kept_tidy.demote (tidy_of_check wellFormed) demoted
  exact tidy.finish finished

theorem settled_of_allocateOutputs (wellFormed : f.check = .ok ())
    (allocated : f.allocateOutputs = .ok g) : g.Settled := by
  obtain ⟨b, _, tidy, finished⟩ :=
    Builder.kept_tidy.allocateOutputs (tidy_of_check wellFormed) allocated
  exact tidy.finish finished

theorem settled_of_placeTensors {target : StorageTarget} (wellFormed : f.check = .ok ())
    (placed : f.placeTensors target = .ok g) : g.Settled := by
  obtain ⟨b, _, tidy, finished⟩ :=
    Builder.kept_tidy.placeTensors (tidy_of_check wellFormed) placed
  exact tidy.finish finished

end Function

end TensorIR

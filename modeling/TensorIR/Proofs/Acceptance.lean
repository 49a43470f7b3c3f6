import Mathlib.Data.List.SplitBy
import TensorIR.Proofs.History

/-!
# What a builder accepts, and where it puts it

A history is read as a list of events, each an operation with the builder that it found. The events
say which bindings were accepted and which operations ended a block, and this is all there is to say
about the blocks of the function that is handed out: they are the accepted bindings, in the order in
which they were accepted, split wherever a block was ended (`Builder.blocks_of_history`). Neither
refused operations nor the way in which a region was closed leave a trace.

An operation does one of four things to the blocks (`Builder.Effect`): nothing, one more pending
binding, an end of the block in progress, or such an end and a whole block on top. The invariant of
a run, `Gathered`, is about two lists of acceptances, one for the blocks that are complete and one
for the block in progress. Between any acceptance of the first list and now a block was ended;
between those of the second list and now none was. So no split is ever missed or made twice, and it
does not matter that the block in progress may be empty when it is ended.
-/

namespace TensorIR

namespace Builder

variable {b b' : Builder} {a : Action} {actions : List Action}

/-! ### Events -/

/-- An operation of a history, with its place there and the builder that it found. -/
structure Event where
  step : Nat
  before : Builder
  action : Action

/-- The operations of a history, each with the builder that it meets, if the first one has the given
number. -/
def eventsFrom (step : Nat) (b : Builder) : List Action → List Event
  | [] => []
  | a :: actions => ⟨step, b, a⟩ :: eventsFrom (step + 1) (b.perform a).1 actions

/-- The operations of a history, numbered in order and each with the builder that it meets. -/
def events (b : Builder) (actions : List Action) : List Event := b.eventsFrom 0 actions

/-- The bindings that an operation adds, by what it was given and what it answered. -/
def Action.accepted (b : Builder) (a : Action) : List Binding :=
  match a, (b.perform a).2 with
  | .emit value, .var v | .emitNamed _ value, .var v | .emitOutput value, .var v =>
    [.define v (value.annotate b.vars)]
  | .bind v value, .done => [.define v (value.annotate b.vars)]
  | .push x, .done => [x.annotated b.vars]
  | .pushBlock block, .done => block.bindings
  | _, _ => []

/-- The kind of the block in progress. -/
def blockKind (b : Builder) : BlockKind := if b.inDataflow then .dataflow else .plain

/-- The kind of block that the operation adds to. -/
def Action.blockKind (b : Builder) : Action → BlockKind
  | .pushBlock block => block.kind
  | _ => b.blockKind

/-- No binding that comes after the operation is in a block with one that came before: a region is
opened or closed, a block is added, or a block outside of a region is sealed. -/
def Action.endsBlock (b : Builder) (a : Action) : Bool :=
  match a with
  | .openRegion | .pushBlock _ => (b.perform a).2 = .done
  | .closeRegion | .dropRegion => b.inDataflow
  | .sealBlock => !b.inDataflow
  | _ => false

/-- A binding that was accepted: at which step, and for which kind of block. -/
structure Acceptance where
  step : Nat
  kind : BlockKind
  binding : Binding

namespace Event

/-- Whether the operation closes the block that was open before it. -/
def endsBlock (e : Event) : Bool := e.action.endsBlock e.before

/-- What the operation makes the builder accept, with its number and the kind of block that is
open. -/
def acceptances (e : Event) : List Acceptance :=
  (e.action.accepted e.before).map fun x => ⟨e.step, e.action.blockKind e.before, x⟩

theorem bindings_acceptances (e : Event) :
    e.acceptances.map Acceptance.binding = e.action.accepted e.before := by
  rw [acceptances, List.map_map]
  exact List.map_id _

end Event

/-- Everything that is accepted in the course of a history, in order. -/
def acceptances (b : Builder) (actions : List Action) : List Acceptance :=
  (b.events actions).flatMap Event.acceptances

/-- The bindings came in one block that was added, or no block was ended from one to the other.
Where one of them came in a block that was added and the other did not, this addition is what ended
a block. -/
def Acceptance.Together (history : List Event) (p q : Acceptance) : Prop :=
  p.step = q.step ∨
    ∀ e ∈ history, e.endsBlock = true → p.step ≤ e.step → q.step < e.step

instance (history : List Event) (p q : Acceptance) : Decidable (p.Together history q) :=
  inferInstanceAs (Decidable (_ ∨ _))

/-- The block has just these bindings, and each of them was to be in a block of its kind. -/
def Holds (block : Block) (group : List Acceptance) : Prop :=
  block.bindings = group.map Acceptance.binding ∧ ∀ p ∈ group, p.kind = block.kind

/-! ### What an operation does to the blocks -/

/-- What the operation, which leads to the second builder, does to the blocks. -/
inductive Effect (b : Builder) (a : Action) (b' : Builder) : Prop where
  | idle (blocks : b'.blocks = b.blocks) (pending : b'.pending = b.pending)
    (region : b'.blockKind = b.blockKind) (within : a.endsBlock b = false)
    (accepted : a.accepted b = [])
  | append (x : Binding) (blocks : b'.blocks = b.blocks) (pending : b'.pending = b.pending ++ [x])
    (region : b'.blockKind = b.blockKind) (within : a.endsBlock b = false)
    (accepted : a.accepted b = [x]) (kind : a.blockKind b = b.blockKind)
  | ended (blocks : b'.blocks = (b.endBlock b.blockKind).blocks) (pending : b'.pending = [])
    (ends : a.endsBlock b = true) (accepted : a.accepted b = [])
  | added (block : Block) (blocks : b'.blocks = (b.endBlock b.blockKind).blocks ++ [block])
    (pending : b'.pending = []) (ends : a.endsBlock b = true) (nonempty : block.bindings ≠ [])
    (accepted : a.accepted b = block.bindings) (whole : a = .pushBlock block)

theorem blockKind_outside (outside : b.inDataflow = false) : b.blockKind = .plain := by
  simp [blockKind, outside]

theorem effect_openRegion (b : Builder) : b.Effect .openRegion (b.perform .openRegion).1 := by
  cases place : b.inDataflow with
  | true =>
      refine .idle ?_ ?_ ?_ ?_ rfl
      all_goals simp [Action.endsBlock, perform, openRegion, refusable, place]
  | false =>
      refine .ended ?_ ?_ ?_ rfl
      all_goals simp [Action.endsBlock, perform, openRegion, refusable, place, blockKind]

/-- Closing a region ends its block, whatever is reported. -/
theorem effect_of_closed (ends : a.endsBlock b = b.inDataflow) (accepted : a.accepted b = [])
    (blocks : b'.blocks = b.closeRegion.1.blocks) (pending : b'.pending = b.closeRegion.1.pending)
    (region : b'.inDataflow = b.closeRegion.1.inDataflow) : b.Effect a b' := by
  cases place : b.inDataflow with
  | true =>
      refine .ended ?_ ?_ (ends.trans place) accepted
      · simp [blocks, closeRegion, place, blockKind]
      · simp [pending, closeRegion, place]
  | false =>
      simp only [closeRegion, place, Bool.false_eq_true, if_false] at blocks pending region
      refine .idle blocks pending ?_ (ends.trans place) accepted
      simp [blockKind, region, place]

theorem effect_sealBlock (b : Builder) : b.Effect .sealBlock (b.perform .sealBlock).1 := by
  cases place : b.inDataflow with
  | true =>
      refine .idle ?_ ?_ ?_ ?_ rfl
      all_goals simp [Action.endsBlock, perform, sealBlock, place]
  | false =>
      refine .ended ?_ ?_ ?_ rfl
      all_goals simp [Action.endsBlock, perform, sealBlock, place, blockKind]

theorem effect_pushBlock (b : Builder) (block : Block) :
    b.Effect (.pushBlock block) (b.perform (.pushBlock block)).1 := by
  cases pushed : b.pushBlock block with
  | error e =>
      refine .idle ?_ ?_ ?_ ?_ ?_
      all_goals simp [Action.endsBlock, Action.accepted, perform, pushed, refusable]
  | ok b' =>
      have after : (b.perform (.pushBlock block)) = (b', .done) := by
        simp [perform, pushed, refusable]
      rw [pushBlock] at pushed
      split at pushed
      · cases pushed
      · next outside =>
          split at pushed
          · cases pushed
          · next nonempty =>
              cases pushed
              refine .added block ?_ ?_ ?_ ?_ ?_ rfl
              · rw [after, blockKind_outside (Bool.not_eq_true _ ▸ outside)]
              · rw [after]
                exact pending_endBlock b .plain
              · simp [Action.endsBlock, after]
              · simpa using nonempty
              · simp [Action.accepted, after]

/-- An operation that either is refused or appends one binding. -/
theorem effect_of_refusable {result : Except BuildError Builder} {x : Binding}
    (performed : b.perform a = refusable b result) (within : a.endsBlock b = false)
    (ok : ∀ b', result = .ok b' → b' = b.append x) (kind : a.blockKind b = b.blockKind)
    (refused : ∀ e, result = .error e → a.accepted b = [])
    (accepted : result = .ok (b.append x) → a.accepted b = [x]) : b.Effect a (b.perform a).1 := by
  cases answer : result with
  | error e =>
      rw [performed, answer]
      exact .idle rfl rfl rfl within (refused e answer)
  | ok b' =>
      have appended := ok b' answer
      subst appended
      rw [performed, answer]
      exact .append _ rfl rfl rfl within (accepted answer) kind

/-- The operation binds a value to a new variable. It may count up the names of the builder. -/
def Action.Binds (b : Builder) (a : Action) (value : Expr) : Prop :=
  ∃ i j name kind, b.perform a =
    allocating ({ b with nextLocal := i, nextGlobal := j }.bindFresh name kind value)

theorem binds_emit (b : Builder) (value : Expr) : (Action.emit value).Binds b value := by
  cases place : b.inDataflow with
  | true => exact ⟨_, _, _, _, congrArg allocating (if_pos place)⟩
  | false => exact ⟨_, _, _, _, congrArg allocating (if_neg (by simp [place]))⟩

theorem binds_emitNamed (b : Builder) (name : String) (value : Expr) :
    (Action.emitNamed name value).Binds b value :=
  ⟨_, _, _, _, rfl⟩

theorem binds_emitOutput (value : Expr) (inside : b.inDataflow = true) :
    (Action.emitOutput value).Binds b value := by
  refine ⟨b.nextLocal, b.nextGlobal + 1, "gv" ++ toString b.nextGlobal, .plain, ?_⟩
  rw [perform, emitOutput, if_pos inside]

theorem Action.Binds.answer {value : Expr} (binds : a.Binds b value) :
    (b.perform a).2 = .var ⟨b.vars.length⟩ := by
  obtain ⟨_, _, _, _, performed⟩ := binds
  rw [performed]
  rfl

theorem accepted_emit (b : Builder) (value : Expr) :
    (Action.emit value).accepted b = [.define ⟨b.vars.length⟩ (value.annotate b.vars)] := by
  simp [Action.accepted, (binds_emit b value).answer]

theorem accepted_emitOutput (value : Expr) (inside : b.inDataflow = true) :
    (Action.emitOutput value).accepted b = [.define ⟨b.vars.length⟩ (value.annotate b.vars)] := by
  simp [Action.accepted, (binds_emitOutput value inside).answer]

theorem effect_of_binds {value : Expr} (binds : a.Binds b value) (within : a.endsBlock b = false)
    (kind : a.blockKind b = b.blockKind)
    (accepted : a.accepted b = [.define ⟨b.vars.length⟩ (value.annotate b.vars)]) :
    b.Effect a (b.perform a).1 := by
  obtain ⟨_, _, _, _, performed⟩ := binds
  rw [performed]
  exact .append _ rfl rfl rfl within accepted kind

theorem effect (b : Builder) (a : Action) : b.Effect a (b.perform a).1 := by
  cases a with
  | param _ _ _ | dimVar _ | fresh _ | setRetTy _ => exact .idle rfl rfl rfl rfl rfl
  | openRegion => exact effect_openRegion b
  | closeRegion =>
      have after := (perform_closeRegion b).1
      exact effect_of_closed rfl rfl (by rw [after]) (by rw [after]) (by rw [after])
  | dropRegion =>
      refine effect_of_closed rfl rfl ?_ ?_ ?_
      all_goals
        simp only [perform, dropRegion]
        rcases b.closeRegion with ⟨closed, answer⟩
        cases answer <;> rfl
  | sealBlock => exact effect_sealBlock b
  | emit value => exact effect_of_binds (binds_emit b value) rfl rfl (accepted_emit b value)
  | emitNamed name value => exact effect_of_binds (binds_emitNamed b name value) rfl rfl rfl
  | emitOutput value =>
      cases place : b.inDataflow with
      | true =>
          exact effect_of_binds (binds_emitOutput value place) rfl rfl
            (accepted_emitOutput value place)
      | false =>
          refine .idle ?_ ?_ ?_ rfl ?_
          all_goals simp [perform, emitOutput, place, Action.accepted]
  | bind v value =>
      refine effect_of_refusable rfl rfl (fun b' => bind_eq_ok_append) rfl ?_ ?_
      all_goals
        intros
        simp [Action.accepted, perform, refusable, *]
  | push x =>
      refine effect_of_refusable rfl rfl (fun b' => push_eq_ok_append) rfl ?_ ?_
      all_goals
        intros
        simp [Action.accepted, perform, refusable, Binding.annotated, *]
  | pushBlock block => exact effect_pushBlock b block

/-- What is accepted is what comes to be emitted. -/
theorem bindings_perform (b : Builder) (a : Action) :
    (b.perform a).1.bindings = b.bindings ++ a.accepted b := by
  have ended : (b.endBlock b.blockKind).blocks.flatMap Block.bindings = b.bindings := by
    have all := bindings_endBlock b b.blockKind
    rwa [bindings, pending_endBlock, List.append_nil] at all
  rw [bindings]
  cases b.effect a with
  | idle blocks pending region within accepted => simp [bindings, blocks, pending, accepted]
  | append x blocks pending region within accepted kind =>
      simp [bindings, blocks, pending, accepted]
  | ended blocks pending ends accepted => simp [blocks, pending, accepted, ended]
  | added block blocks pending ends nonempty accepted whole =>
      simp [blocks, pending, accepted, ended]

/-! ### What holds in the course of a history -/

theorem mem_eventsFrom {n : Nat} {e : Event} (mem : e ∈ b.eventsFrom n actions) : n ≤ e.step := by
  induction actions generalizing n b with
  | nil => cases mem
  | cons a actions ih =>
      cases mem with
      | head => exact Nat.le_refl n
      | tail _ later => exact Nat.le_of_succ_le (ih later)

variable {history : List Event} {n : Nat} {blocks : List Block} {groups : List (List Acceptance)}
  {current : List Acceptance}

/-- The blocks hold the groups, and these are split where they have to be. -/
structure Grouped (history : List Event) (blocks : List Block) (groups : List (List Acceptance)) :
    Prop where
  holds : List.Forall₂ Holds blocks groups
  nonempty : [] ∉ groups
  together : ∀ group ∈ groups, ∀ p ∈ group, ∀ q ∈ group, p.Together history q
  apart : groups.Pairwise fun before after =>
    ∀ p ∈ before, ∀ q ∈ after, ¬ p.Together history q

namespace Acceptance

variable {p q : Acceptance} {e : Event}

/-- A block was ended since, and before step `n`. -/
def Past (history : List Event) (n : Nat) (p : Acceptance) : Prop :=
  ∃ e ∈ history, e.endsBlock = true ∧ p.step ≤ e.step ∧ e.step < n

/-- No block was ended since and before step `n`. -/
def Recent (history : List Event) (n : Nat) (p : Acceptance) : Prop :=
  ∀ e ∈ history, e.endsBlock = true → p.step ≤ e.step → n ≤ e.step

theorem Past.mono {m : Nat} (past : p.Past history n) (le : n ≤ m) : p.Past history m := by
  obtain ⟨e, mem, ends, after, before⟩ := past
  exact ⟨e, mem, ends, after, by omega⟩

theorem Past.earlier (past : p.Past history n) : p.step < n := by
  obtain ⟨e, mem, ends, after, before⟩ := past
  omega

theorem Past.not_together (past : p.Past history n) (recent : q.Recent history n) :
    ¬ p.Together history q := by
  obtain ⟨e, mem, ends, after, before⟩ := past
  have between := recent e mem ends
  intro together
  cases together with
  | inl same => omega
  | inr none =>
      have := none e mem ends after
      omega

theorem Recent.together (recent : p.Recent history n) (earlier : q.step < n) :
    p.Together history q := by
  refine .inr fun e mem ends after => ?_
  have later := recent e mem ends after
  omega

theorem Recent.succ (recent : p.Recent history n)
    (within : ∀ e ∈ history, e.step = n → e.endsBlock = false) : p.Recent history (n + 1) := by
  intro e mem ends after
  have later := recent e mem ends after
  have other : e.step ≠ n := by
    intro here
    simp [within e mem here] at ends
  omega

theorem past_of_ends (mem : e ∈ history) (ends : e.endsBlock = true) (le : p.step ≤ e.step) :
    p.Past history (e.step + 1) :=
  ⟨e, mem, ends, le, Nat.lt_succ_self e.step⟩

theorem not_together_of_ends (mem : e ∈ history) (ends : e.endsBlock = true)
    (before : p.step < e.step) (here : q.step = e.step) : ¬ p.Together history q := by
  intro together
  cases together with
  | inl same => omega
  | inr none =>
      have := none e mem ends (by omega)
      omega

end Acceptance

/-- Before step `n`, the groups are what the complete blocks of the builder hold, and the block in
progress holds what is current. -/
structure Gathered (history : List Event) (n : Nat) (groups : List (List Acceptance))
    (current : List Acceptance) (b : Builder) : Prop where
  grouped : Grouped history b.blocks groups
  past : ∀ group ∈ groups, ∀ p ∈ group, p.Past history n
  pending : b.pending = current.map Acceptance.binding
  kind : ∀ p ∈ current, p.kind = b.blockKind
  earlier : ∀ p ∈ current, p.step < n
  recent : ∀ p ∈ current, p.Recent history n

theorem Grouped.append {block : Block} {group : List Acceptance}
    (grouped : Grouped history blocks groups) (holds : Holds block group) (nonempty : group ≠ [])
    (together : ∀ p ∈ group, ∀ q ∈ group, p.Together history q)
    (apart : ∀ before ∈ groups, ∀ p ∈ before, ∀ q ∈ group, ¬ p.Together history q) :
    Grouped history (blocks ++ [block]) (groups ++ [group]) where
  holds := List.rel_append grouped.holds (.cons holds .nil)
  nonempty := by simp [grouped.nonempty, nonempty.symm]
  together := by
    intro g mem
    obtain mem | mem := List.mem_append.1 mem
    · exact grouped.together g mem
    · cases List.mem_singleton.1 mem
      exact together
  apart := by
    refine List.pairwise_append.2 ⟨grouped.apart, List.pairwise_singleton _ _, ?_⟩
    intro before mem after last
    cases List.mem_singleton.1 last
    exact apart before mem

/-- The groups with what is current as one more, unless nothing is. -/
def complete (groups : List (List Acceptance)) (current : List Acceptance) :
    List (List Acceptance) :=
  if current.isEmpty then groups else groups ++ [current]

theorem flatten_complete (groups : List (List Acceptance)) (current : List Acceptance) :
    (complete groups current).flatten = groups.flatten ++ current := by
  cases current <;> simp [complete]

theorem forall_complete {P : List Acceptance → Prop} (groups' : ∀ group ∈ groups, P group)
    (current' : P current) : ∀ group ∈ complete groups current, P group := by
  rw [complete]
  split
  · exact groups'
  · exact List.forall_mem_append.2 ⟨groups', List.forall_mem_singleton.2 current'⟩

/-- Ending the block in progress makes a group of what is current. -/
theorem Gathered.endBlock (gathered : Gathered history n groups current b) :
    Grouped history (b.endBlock b.blockKind).blocks (complete groups current) := by
  rw [Builder.endBlock, complete, gathered.pending, List.isEmpty_map]
  split
  · exact gathered.grouped
  · next nonempty =>
      refine gathered.grouped.append ⟨rfl, gathered.kind⟩ ?_ ?_ ?_
      · simpa using nonempty
      · intro p hp q hq
        exact (gathered.recent p hp).together (gathered.earlier q hq)
      · intro before mem p hp q hq
        exact (gathered.past before mem p hp).not_together (gathered.recent q hq)

theorem Gathered.steps (gathered : Gathered history n groups current b) :
    ∀ group ∈ complete groups current, ∀ p ∈ group, p.step < n :=
  forall_complete (fun group mem p hp => (gathered.past group mem p hp).earlier) gathered.earlier

/-- Acceptances of this step for the block in progress are current from then on, provided that the
step ends no block. -/
theorem Gathered.extend {more : List Acceptance} (gathered : Gathered history n groups current b)
    (within : ∀ e ∈ history, e.step = n → e.endsBlock = false)
    (here : ∀ p ∈ more, p.step = n ∧ p.kind = b.blockKind) (blocks : b'.blocks = b.blocks)
    (pending : b'.pending = b.pending ++ more.map Acceptance.binding)
    (region : b'.blockKind = b.blockKind) :
    Gathered history (n + 1) groups (current ++ more) b' where
  grouped := by
    rw [blocks]
    exact gathered.grouped
  past group mem p hp := (gathered.past group mem p hp).mono (Nat.le_succ n)
  pending := by rw [pending, gathered.pending, List.map_append]
  kind := by
    rw [region]
    exact List.forall_mem_append.2 ⟨gathered.kind, fun p hp => (here p hp).2⟩
  earlier := by
    refine List.forall_mem_append.2 ⟨fun p hp => ?_, fun p hp => ?_⟩
    · exact Nat.lt_succ_of_lt (gathered.earlier p hp)
    · exact Nat.lt_succ_of_le (here p hp).1.le
  recent := by
    refine List.forall_mem_append.2 ⟨fun p hp => (gathered.recent p hp).succ within, fun p hp => ?_⟩
    have recent : p.Recent history n := fun e _ _ after => (here p hp).1 ▸ after
    exact recent.succ within

/-- A step that ends the block in progress leaves nothing current. -/
theorem Gathered.ended (gathered : Gathered history n groups current b)
    (mem : ⟨n, b, a⟩ ∈ history) (ends : a.endsBlock b = true)
    (blocks : b'.blocks = (b.endBlock b.blockKind).blocks) (pending : b'.pending = []) :
    Gathered history (n + 1) (complete groups current) [] b' where
  grouped := by
    rw [blocks]
    exact gathered.endBlock
  past group inGroups p hp :=
    Acceptance.past_of_ends mem ends (gathered.steps group inGroups p hp).le
  pending := pending
  kind := by simp
  earlier := by simp
  recent := by simp

/-- A block that is added whole is a group of its own, after what was current. -/
theorem Gathered.added {block : Block} {group : List Acceptance}
    (gathered : Gathered history n groups current b) (mem : ⟨n, b, a⟩ ∈ history)
    (ends : a.endsBlock b = true) (holds : Holds block group) (nonempty : block.bindings ≠ [])
    (here : ∀ p ∈ group, p.step = n)
    (blocks : b'.blocks = (b.endBlock b.blockKind).blocks ++ [block]) (pending : b'.pending = []) :
    Gathered history (n + 1) (complete groups current ++ [group]) [] b' where
  grouped := by
    rw [blocks]
    refine gathered.endBlock.append holds ?_ ?_ ?_
    · rintro rfl
      exact nonempty holds.1
    · intro p hp q hq
      exact .inl ((here p hp).trans (here q hq).symm)
    · intro before inGroups p hp q hq
      exact Acceptance.not_together_of_ends mem ends (gathered.steps before inGroups p hp)
        (here q hq)
  past := by
    refine List.forall_mem_append.2 ⟨fun group inGroups p hp => ?_, List.forall_mem_singleton.2 ?_⟩
    · exact Acceptance.past_of_ends mem ends (gathered.steps group inGroups p hp).le
    · intro q hq
      exact Acceptance.past_of_ends mem ends (here q hq).le
  pending := pending
  kind := by simp
  earlier := by simp
  recent := by simp

/-- What an operation adds is gathered with the rest. -/
theorem Gathered.perform (gathered : Gathered history n groups current b)
    (mem : ⟨n, b, a⟩ ∈ history) (only : ∀ e ∈ history, e.step = n → e = ⟨n, b, a⟩) :
    ∃ groups' current', groups'.flatten ++ current' =
        groups.flatten ++ current ++ Event.acceptances ⟨n, b, a⟩ ∧
      Gathered history (n + 1) groups' current' (b.perform a).1 := by
  have quiet (within : a.endsBlock b = false) :
      ∀ e ∈ history, e.step = n → e.endsBlock = false := by
    intro e inHistory here
    rw [only e inHistory here]
    exact within
  cases b.effect a with
  | idle blocks pending region within accepted =>
      refine ⟨groups, current ++ [], by simp [Event.acceptances, accepted], ?_⟩
      exact gathered.extend (quiet within) (by simp) blocks (by simpa using pending) region
  | append x blocks pending region within accepted kind =>
      refine ⟨groups, current ++ [⟨n, b.blockKind, x⟩], ?_, ?_⟩
      · simp [Event.acceptances, accepted, kind]
      · exact gathered.extend (quiet within) (by simp) blocks pending region
  | ended blocks pending ends accepted =>
      refine ⟨complete groups current, [], ?_, gathered.ended mem ends blocks pending⟩
      simp [flatten_complete, Event.acceptances, accepted]
  | added block blocks pending ends nonempty accepted whole =>
      let group := Event.acceptances ⟨n, b, a⟩
      have holds : Holds block group := by
        constructor
        · exact accepted.symm.trans (Event.bindings_acceptances ⟨n, b, a⟩).symm
        · simp [group, Event.acceptances, whole, Action.blockKind]
      refine ⟨complete groups current ++ [group], [], by simp [flatten_complete, group], ?_⟩
      refine gathered.added mem ends holds nonempty ?_ blocks pending
      simp [group, Event.acceptances]

theorem Gathered.performAll (gathered : Gathered history n groups current b)
    (mem : ∀ e ∈ b.eventsFrom n actions, e ∈ history)
    (only : ∀ e ∈ history, n ≤ e.step → e ∈ b.eventsFrom n actions) :
    ∃ m groups' current', groups'.flatten ++ current' =
        groups.flatten ++ current ++ (b.eventsFrom n actions).flatMap Event.acceptances ∧
      Gathered history m groups' current' (b.performAll actions) := by
  induction actions generalizing n b groups current with
  | nil => exact ⟨n, groups, current, by simp [eventsFrom], gathered⟩
  | cons a actions ih =>
      rw [eventsFrom] at mem only
      obtain ⟨here, later⟩ := List.forall_mem_cons.1 mem
      have first : ∀ e ∈ history, e.step = n → e = ⟨n, b, a⟩ := by
        intro e inHistory same
        cases only e inHistory same.ge with
        | head => rfl
        | tail _ after =>
            have := mem_eventsFrom after
            omega
      have rest : ∀ e ∈ history, n + 1 ≤ e.step →
          e ∈ (b.perform a).1.eventsFrom (n + 1) actions := by
        intro e inHistory after
        cases only e inHistory (Nat.le_of_succ_le after) with
        | head => exact absurd after (Nat.not_succ_le_self n)
        | tail _ after => exact after
      obtain ⟨groups₁, current₁, added, gathered₁⟩ := gathered.perform here first
      obtain ⟨m, groups', current', all, gathered'⟩ := ih gathered₁ later rest
      refine ⟨m, groups', current', ?_, gathered'⟩
      rw [all, added, eventsFrom, List.flatMap_cons, List.append_assoc]

/-! ### The finished function -/

/-- Finishing ends the block in progress, be it plain or a region that was left open. -/
theorem blocks_finish {body : Expr} {f : Function} (finished : b.finish body = .ok f) :
    f.blocks = (b.endBlock b.blockKind).blocks := by
  obtain ⟨-, -, rfl, -⟩ := finish_eq_ok_iff.1 finished
  cases place : b.inDataflow with
  | true =>
      simp [toFunction, endBlock_of_empty, closeRegion, place, blockKind]
  | false => simp [toFunction, closeRegion, place, blockKind]

theorem Initial.gathered (initial : b.Initial) (history : List Event) :
    Gathered history 0 [] [] b := by
  cases initial with
  | new _ => exact ⟨⟨.nil, nofun, nofun, .nil⟩, nofun, rfl, nofun, nofun, nofun⟩
  | reopen f => exact ⟨⟨.nil, nofun, nofun, .nil⟩, nofun, rfl, nofun, nofun, nofun⟩

/-- Groups that are split where they have to be are what the split makes of all of them. -/
theorem Grouped.splitBy (grouped : Grouped history blocks groups) :
    groups.flatten.splitBy (fun p q => p.Together history q) = groups := by
  refine List.splitBy_flatten grouped.nonempty ?_ ?_
  · intro group mem
    refine List.isChain_iff_forall_rel_of_append_cons_cons.2 fun p q before after split => ?_
    have within := grouped.together group mem
    simp only [split, List.mem_append, List.mem_cons] at within
    simp [within p (by simp) q (by simp)]
  · -- The split looks at neighbours only: the last of one group and the first of the next.
    refine (grouped.apart.imp_of_mem ?_).isChain
    intro before after inBefore inAfter apart
    have first : before ≠ [] := fun empty => grouped.nonempty (empty ▸ inBefore)
    have second : after ≠ [] := fun empty => grouped.nonempty (empty ▸ inAfter)
    have := apart _ (List.getLast_mem first) _ (List.head_mem second)
    exact ⟨first, second, by simp [this]⟩

theorem bindings_of_holds (holds : List.Forall₂ Holds blocks groups) :
    blocks.flatMap Block.bindings = groups.flatten.map Acceptance.binding := by
  induction holds with
  | nil => rfl
  | cons here _ ih => rw [List.flatMap_cons, List.flatten_cons, List.map_append, here.1, ih]

theorem nonempty_of_holds (holds : List.Forall₂ Holds blocks groups) (nonempty : [] ∉ groups) :
    ∀ block ∈ blocks, block.bindings ≠ [] := by
  intro block mem empty
  obtain ⟨group, inGroups, here⟩ := exists_partner holds mem
  rw [here.1, List.map_eq_nil_iff] at empty
  exact nonempty (empty ▸ inGroups)

/-- The function that is handed out holds what was accepted, in order: its blocks are the groups
that arise when all that was accepted is split between neighbours that are not together. -/
theorem blocks_of_history {body : Expr} {f : Function} (initial : b.Initial)
    (finished : (b.performAll actions).finish body = .ok f) :
    f.bindings = (b.acceptances actions).map Acceptance.binding ∧
      List.Forall₂ Holds f.blocks
        ((b.acceptances actions).splitBy fun p q => p.Together (b.events actions) q) ∧
      ∀ block ∈ f.blocks, block.bindings ≠ [] := by
  obtain ⟨m, groups, current, all, gathered⟩ :=
    (initial.gathered (b.events actions)).performAll (fun e mem => mem) (fun e mem _ => mem)
  have grouped := gathered.endBlock
  have flat : (complete groups current).flatten = b.acceptances actions := by
    rw [flatten_complete, all]
    rfl
  rw [← blocks_finish finished] at grouped
  have split := grouped.splitBy
  rw [flat] at split
  rw [split]
  refine ⟨?_, grouped.holds, nonempty_of_holds grouped.holds grouped.nonempty⟩
  rw [← flat]
  exact bindings_of_holds grouped.holds

/-- A history with a sealed block, a whole block, a region that is asked for twice, an output that
is refused, and a region that is never closed:

    fn main(x: (2)) {
      { gv0 = add(x, x) }
      { y = gv0 }
      dataflow { match_shape(x, (2)); z = y }
      dataflow { lv0 = add(z, z); gv1 = lv0 }
    }
-/
def mixing : List Action :=
  [.param "x" (some [.int 2]) none, .emitOutput (.var ⟨0⟩),
    .emit (.ofOp .add [.var ⟨0⟩, .var ⟨0⟩]), .sealBlock, .emitNamed "y" (.var ⟨1⟩),
    .fresh ⟨"z", .plain, none, none⟩,
    .pushBlock ⟨.dataflow, [.matchShape none (.var ⟨0⟩) [.int 2], .define ⟨3⟩ (.var ⟨2⟩)]⟩,
    .openRegion, .emit (.ofOp .add [.var ⟨3⟩, .var ⟨3⟩]), .openRegion, .sealBlock,
    .emitOutput (.var ⟨4⟩)]

/-- The function that the mixed history builds, once its open region is closed. -/
def mixed : Function :=
  (({ name := "main" } : Builder).performAll mixing).closeRegion.1.toFunction (.var ⟨5⟩)

theorem blocks_of_history_mixed :
    (performAll { name := "main" } mixing).finish (.var ⟨5⟩) = .ok mixed ∧
      mixed.blocks.map (fun block => (block.kind, block.bindings.length)) =
        [(.plain, 1), (.plain, 1), (.dataflow, 2), (.dataflow, 2)] ∧
      mixed.bindings = (acceptances { name := "main" } mixing).map Acceptance.binding ∧
      List.Forall₂ Holds mixed.blocks ((acceptances { name := "main" } mixing).splitBy
        fun p q => p.Together (events { name := "main" } mixing) q) := by
  have finished : (performAll { name := "main" } mixing).finish (.var ⟨5⟩) = .ok mixed := by
    decide +kernel
  obtain ⟨bindings, blocks, -⟩ := blocks_of_history (.new "main") finished
  exact ⟨finished, by decide +kernel, bindings, blocks⟩

end Builder

end TensorIR

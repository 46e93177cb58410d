import Jade.Proofs.Emitter.Walk

/-!
# What writing makes of the state

`Emit.Moves` says what becomes of the state in an action that succeeds, by a relation of the states
before and after it, and with which faults it may fail. Such relations are reflexive and transitive,
so nothing needs to be said of actions one after the other. If a relation also allows for texts and
for what the walk notes of tags and lines, then this is a judgement that the walk follows: if the
forms of a dialect respect the relation, then all nodes do.

Relations of this kind say that a part of the state is left as it was (`Emit.Keeps`). What leads to
a tag keeps all that has to do with the document and with mixins. The depth of mixins is kept by
every node: a mixin goes one level deeper and comes back. After a fault it may be anything.

## Main results

* `Jade.Emit.moves_node` : nodes
* `Jade.Emit.Moves.deeper` : one level of mixins deeper and back
-/

namespace Jade

namespace Emitter

variable {γ : Type} {view : Emitter → γ}

/-- A relation of the states before and after actions. -/
class IsCourse (I : Emitter → Emitter → Prop) : Prop where
  refl : ∀ e, I e e
  trans : ∀ {e₁ e₂ e₃}, I e₁ e₂ → I e₂ e₃ → I e₁ e₃

/-- Texts may be written, tags and lines may be noted, and loops may be counted. -/
class IsStride (I : Emitter → Emitter → Prop) : Prop extends IsCourse I where
  put : ∀ e s, I e (e.put s)
  push : ∀ e s, I e (e.push (.text s))
  aside : ∀ (e : Emitter) indents inString hasTag hasDoctype counter,
    I e { e with indents, inString, hasTag, hasDoctype, counter }

/-- A document type may also be chosen. -/
class IsWalk (I : Emitter → Emitter → Prop) : Prop extends IsStride I where
  setDoctype : ∀ s name e, I e (e.setDoctype s name)

/-- A part of the state is the same as before. -/
abbrev Same (view : Emitter → γ) (e e' : Emitter) : Prop := view e' = view e

instance isCourse_same : IsCourse (Same view) where
  refl _ := rfl
  trans h h' := h'.trans h

/-- A part of the state that is no output and says nothing of tags, lines and loops before. -/
def IsBackground {γ : Type} (view : Emitter → γ) : Prop :=
  ∀ (e : Emitter) toBuffer indents inString hasTag hasDoctype counter,
    view { e with toBuffer, indents, inString, hasTag, hasDoctype, counter } = view e

theorem IsBackground.isStride (h : IsBackground view) : IsStride (Same view) where
  put e _ := h e _ e.indents e.inString e.hasTag e.hasDoctype e.counter
  push e _ := h e _ e.indents e.inString e.hasTag e.hasDoctype e.counter
  aside e := h e e.toBuffer

instance isWalk_mixing : IsWalk (Same Emitter.mixing) where
  toIsStride := IsBackground.isStride fun _ _ _ _ _ _ _ => rfl
  setDoctype _ _ _ := rfl

end Emitter

open Emitter (IsCourse IsStride IsWalk Same IsBackground)

namespace Emit

variable {α β γ : Type} {view : Emitter → γ} {I : Emitter → Emitter → Prop} {fault : Fault → Prop}

/-- If the action succeeds, the state after it is related to the one before. If it fails, the fault
is allowed. -/
structure Moves (I : Emitter → Emitter → Prop) (act : Emit α)
    (fault : Fault → Prop := fun _ => True) : Prop where
  ok : ∀ e a e', act.run.run e = (.ok a, e') → I e e'
  error : ∀ e f e', act.run.run e = (.error f, e') → fault f

instance coeFun_moves {act : Emit α} :
    CoeFun (Moves I act fault) fun _ => ∀ e a e', act.run.run e = (.ok a, e') → I e e' :=
  ⟨Moves.ok⟩

/-- If the action succeeds, it leaves a part of the state as it was. -/
abbrev Keeps (view : Emitter → γ) (act : Emit α) : Prop := Moves (Same view) act

/-- The depth of mixins is kept. -/
abbrev Level (act : Emit α) : Prop := Keeps Emitter.mixing act

/-! ## Rules -/

theorem moves_of_ok {act : Emit α} (h : ∀ e a e', act.run.run e = (.ok a, e') → I e e') :
    Moves I act :=
  ⟨h, fun _ _ _ _ => trivial⟩

theorem moves_fail {f : Fault} (h : fault f) : Moves I (throw f : Emit α) fault := by
  constructor
  · rintro e _ _ ⟨⟩
  · rintro e _ _ ⟨⟩
    exact h

theorem moves_throw (f : Fault) : Moves I (throw f : Emit α) := moves_fail trivial

theorem Moves.ite {c : Prop} [Decidable c] {act act' : Emit α} (h : Moves I act fault)
    (h' : Moves I act' fault) : Moves I (if c then act else act') fault := by
  split
  · exact h
  · exact h'

theorem moves_modify {g : Emitter → Emitter} (hg : ∀ e, I e (g e)) :
    Moves I (modify g) fault := by
  constructor
  · rintro e _ _ ⟨⟩
    exact hg e
  · rintro e _ _ ⟨⟩

/-- **One action after the other.** -/
theorem Moves.seq {J K : Emitter → Emitter → Prop} {act : Emit α} {k : α → Emit β}
    (h : Moves I act fault) (hk : ∀ a, Moves J (k a) fault)
    (hK : ∀ {e₁ e₂ e₃}, I e₁ e₂ → J e₂ e₃ → K e₁ e₃) : Moves K (act >>= k) fault := by
  constructor
  all_goals
    intro e r e₂ hrun
    rw [Reader.run_bind] at hrun
    rcases hact : act.run.run e with ⟨f | a, e₁⟩
    all_goals rw [hact] at hrun
  · cases hrun
  · exact hK (h.ok e a e₁ hact) ((hk a).ok e₁ r e₂ hrun)
  · cases hrun
    exact h.error e _ _ hact
  · exact (hk a).error e₁ r e₂ hrun

/-- What becomes of the state in the first of two runs. -/
def Movement (I : Emitter → Emitter → Prop) (fault : Fault → Prop) : Judgement :=
  fun _ act _ => Moves I act fault

theorem moves_of_rel {body body' : Option (Emit Unit)}
    (h : Option.Rel (Movement I fault Unit) body body') : ∀ act ∈ body, Moves I act fault := by
  rintro act ⟨⟩
  cases h with
  | some h => exact h

theorem moves_of_forall₂ {next next' : List (Emit Unit)}
    (h : List.Forall₂ (Movement I fault Unit) next next') : ∀ act ∈ next, Moves I act fault := by
  induction h with
  | nil => simp
  | cons h _ ih => exact List.forall_mem_cons.mpr ⟨h, ih⟩

section Course

variable [IsCourse I]

theorem moves_pure (a : α) : Moves I (pure a) fault := by
  constructor
  · rintro e _ _ ⟨⟩
    exact IsCourse.refl e
  · rintro e _ _ ⟨⟩

theorem moves_except {x : Except Fault α} (h : ∀ f, x = .error f → fault f) :
    Moves I (liftM x : Emit α) fault := by
  cases x with
  | error f => exact moves_fail (h f rfl)
  | ok a => exact moves_pure a

theorem moves_lift (x : Except Fault α) : Moves I (liftM x : Emit α) :=
  moves_except fun _ _ => trivial

theorem Moves.bind {act : Emit α} {k : α → Emit β} (h : Moves I act fault)
    (hk : ∀ a, Moves I (k a) fault) : Moves I (act >>= k) fault :=
  h.seq hk IsCourse.trans

theorem moves_get : Moves I (get : Emit Emitter) fault := by
  constructor
  · rintro e _ _ ⟨⟩
    exact IsCourse.refl e
  · rintro e _ _ ⟨⟩

end Course

/-! ## What leads to a tag -/

section Stride

variable [IsStride I]

theorem moves_put (t : String) : Moves I (put t) fault := moves_modify fun e => IsStride.put e t

theorem moves_push (t : String) : Moves I (push t) fault := moves_modify fun e => IsStride.push e t

theorem moves_inString (b : Bool) : Moves I (modify fun e => { e with inString := b }) fault :=
  moves_modify fun e => IsStride.aside e e.indents b e.hasTag e.hasDoctype e.counter

theorem stepwise_movement : IsStepwise (Movement I fault) fault where
  pure a := moves_pure a
  fail h := moves_fail h
  bind h hk := Moves.bind h hk
  look h := moves_get.bind fun e => h e e
  put t := moves_put t
  push t := moves_push t
  note _ _ _ := moves_modify fun e => IsStride.aside e _ _ _ _ _
  shift _ := moves_modify fun e => IsStride.aside e _ _ _ _ _

theorem wide_movement : IsWide (Movement I fault) fault :=
  { stepwise_movement with
    get := fun h => moves_get.bind fun e => h e e.toBuffer
    count := fun _ => moves_modify fun e => IsStride.aside e _ _ _ _ _ }

theorem nested_movement
    (hdeeper : ∀ {act : Emit Unit}, Moves I act fault → Moves I (deeper act) fault) :
    IsNested (Movement I fault) (Movement I fault) fault :=
  { wide_movement with
    inner := wide_movement
    deeper := hdeeper }

theorem moves_before (isTag : Bool) : Moves I (before isTag) fault := stepwise_movement.before isTag

theorem moves_tagLead (s : Setup) (head : Tag) : Moves I (tagLead s head) fault :=
  stepwise_movement.tagLead (stepwise_movement.lays s) head

end Stride

theorem walked_movement [IsWalk I] : IsWalked (Movement I fault) fault :=
  { stepwise_movement with
    setDoctype := fun s name => moves_modify (IsWalk.setDoctype s name) }

theorem keeps_tagLead (hview : IsBackground view) (s : Setup) (head : Tag) :
    Keeps view (tagLead s head) :=
  have := hview.isStride
  moves_tagLead s head

/-! ## The depth of mixins -/

theorem Moves.deeper {J : Emitter → Emitter → Prop} {act : Emit Unit} (h : Moves J act fault)
    (hJ : ∀ e e', J { e with mixing := e.mixing + 1 } e' →
      I e { e' with mixing := e'.mixing - 1 }) : Moves I (deeper act) fault := by
  have hdown : Moves (fun e e' => e' = { e with mixing := e.mixing + 1 })
      (modify fun e => { e with mixing := e.mixing + 1 }) fault := moves_modify fun _ => rfl
  have hup : Moves (fun e e' => e' = { e with mixing := e.mixing - 1 })
      (modify fun e => { e with mixing := e.mixing - 1 }) fault := moves_modify fun _ => rfl
  have hback : Moves (fun e e' => ∃ e₁, J e e₁ ∧ e' = { e₁ with mixing := e₁.mixing - 1 }) (do
      act
      modify fun e => { e with mixing := e.mixing - 1 }) fault :=
    h.seq (fun _ => hup) fun hact hend => ⟨_, hact, hend⟩
  refine hdown.seq (fun _ => hback) ?_
  rintro e _ _ rfl ⟨e₁, hact, rfl⟩
  exact hJ e e₁ hact

theorem level_deeper {act : Emit Unit} (h : Level act) : Level (deeper act) :=
  h.deeper fun e e' he => by
    show e'.mixing - 1 = e.mixing
    rw [he]
    exact Int.add_sub_cancel _ _

end Emit

/-! ## Nodes -/

open Emit (Moves)

/-- How a dialect writes its constructs respects a relation if what it is given does. -/
abbrev Forms.Respects (f : Forms) (I : Emitter → Emitter → Prop)
    (fault : Fault → Prop := fun _ => True) : Prop :=
  f.Matches (Emit.Movement I fault) (Emit.Movement I fault) fault f

/-- A dialect whose forms keep the depth of mixins. -/
abbrev Forms.IsLevel (f : Forms) : Prop := f.Respects (Same Emitter.mixing)

namespace Emit

variable {s : Setup} {f : Forms} [IsWalk I]

/-- A node respects a relation, and so does what is in it, if something may be. -/
abbrev MovesAt (I : Emitter → Emitter → Prop) (s : Setup) (f : Forms) (n : Node)
    (fault : Fault → Prop := fun _ => True) : Prop :=
  Follows (Movement I fault) fault (.walk s f) (.walk s f) n

/-- **Nodes** respect a relation if the forms of the dialect do. -/
theorem moves_nodeOf (hf : f.Respects I fault) (n : Node)
    (h : ∀ m ∈ n.walk, m.IsAllowed s.filters fault) : MovesAt I s f n fault :=
  walked_movement.follows (stepwise_movement.lays s) fun m hm => ⟨h m hm, hf.matchesAt (h m hm)⟩

theorem moves_node (hf : f.Respects I) (n : Node) : MovesAt I s f n :=
  moves_nodeOf hf n fun _ _ => .inl fun _ => trivial

theorem moves_visit {n : Node} (h : MovesAt I s f n fault) : Moves I (visit s f n) fault :=
  stepwise_movement.visit h

end Emit

end Jade

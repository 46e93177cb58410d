import Jade.Compile
import Jade.Proofs.Reader.Logic
import Jade.Proofs.Reader.Shape

/-!
# Two runs side by side

Writing a template reads the state of the emitter, but never what was written so far. Two runs that
start in states which differ in the output only therefore take the same course: they end in the same
way, with states that again differ in the output only. How far the outputs may differ is left open
here. A *bond* is a relation of such states that writing the same text on both sides respects, and
`Emit.Agree` says of two actions that they respect a bond and have the same outcome, fault or not.

The walk through a tree reads less of the state than the dialects do: the document type, the depth
of tags and a few marks. So all that it asks of a relation is to be a *tie*, which states that agree
on this much may have between them; a bond is a tie. Two runs may also have setups that differ in
their layout, where the left one is laid out and the tie is blind to layout there.

## Main results

* `Jade.Emit.Agree.bind`, `Jade.Emit.agree_get` : one step after the other
-/

namespace Jade

namespace Emitter

/-- The emitter with another output. -/
def withOutput (e : Emitter) (out : Buffer) : Emitter := { e with toBuffer := out }

/-- A change that neither reads nor changes the output. -/
def IsAside (g : Emitter → Emitter) : Prop :=
  ∀ e out, g (e.withOutput out) = (g e).withOutput out

/-- A relation of states that differ in the output only, respected by all texts that are written on
both sides and by all changes aside from the output. -/
structure IsBond (R : Emitter → Emitter → Prop) : Prop where
  output : ∀ {e e'}, R e e' → ∃ out, e' = e.withOutput out
  put : ∀ {e e'} (s : String), R e e' → R (e.put s) (e'.put s)
  push : ∀ {e e'} (s : String), R e e' → R (e.push (.text s)) (e'.push (.text s))
  aside : ∀ {e e'} {g : Emitter → Emitter}, IsAside g → R e e' → R (g e) (g e')

/-- What the walk through a tree reads and changes of an emitter, apart from the output. -/
structure View where
  doctype : Option String
  terse : Bool
  xml : Bool
  indents : Int
  inString : Bool
  hasTag : Bool
  hasDoctype : Bool

/-- What the walk reads of an emitter. -/
def view (e : Emitter) : View :=
  ⟨e.doctype, e.terse, e.xml, e.indents, e.inString, e.hasTag, e.hasDoctype⟩

/-- The emitter with another view. -/
def withView (e : Emitter) (v : View) : Emitter :=
  { e with
    doctype := v.doctype, terse := v.terse, xml := v.xml, indents := v.indents
    inString := v.inString, hasTag := v.hasTag, hasDoctype := v.hasDoctype }

/-- A change that neither reads nor changes anything but the view. -/
def IsOutward (g : Emitter → Emitter) : Prop :=
  ∀ e, g e = e.withView (g (({} : Emitter).withView e.view)).view

/-- A relation of states with one view, respected by all texts that are written on both sides and by
all changes of the view. -/
structure IsTie (R : Emitter → Emitter → Prop) : Prop where
  view : ∀ {e e'}, R e e' → e'.view = e.view
  put : ∀ {e e'} (s : String), R e e' → R (e.put s) (e'.put s)
  push : ∀ {e e'} (s : String), R e e' → R (e.push (.text s)) (e'.push (.text s))
  withView : ∀ {e e'} (v : View), R e e' → R (e.withView v) (e'.withView v)

theorem IsBond.isTie {R : Emitter → Emitter → Prop} (hR : IsBond R) : IsTie R where
  view h := by
    obtain ⟨out, rfl⟩ := hR.output h
    rfl
  put := hR.put
  push := hR.push
  withView v h := hR.aside (g := fun e => e.withView v) (fun _ _ => rfl) h

/-- The relation is also respected by values that are written on both sides. Only the unescaped code
of a page writes some, so this is not asked of all bonds. -/
class TakesValues (R : Emitter → Emitter → Prop) : Prop where
  push : ∀ {e e'} (v : Value), R e e' → R (e.push (.ofValue v)) (e'.push (.ofValue v))

/-- What layout is made of. -/
def isLayout (c : Char) : Bool := c == '\n' || c == ' '

/-- The relation is blind to layout on the left side. -/
def IsBlind (R : Emitter → Emitter → Prop) : Prop :=
  ∀ {e e'} (s : String), s.toList.all isLayout = true → R e e' → R (e.put s) e'

/-- The setup on the left may be taken with the layout `p` on the right: nothing changes by that, or
the left run is laid out and the relation is blind to it. -/
def Spares (R : Emitter → Emitter → Prop) (s : Setup) (p : Bool) : Prop :=
  p = s.pretty ∨ s.pretty = true ∧ IsBlind R

end Emitter

open Emitter (IsBond IsTie IsAside IsOutward Spares isLayout)

namespace Emit

variable {α β : Type} {R : Emitter → Emitter → Prop} {c : Prop} {act act' : Emit Unit}
  {g : Emitter → Emitter}

/-- From states that are related, both actions have the same outcome and lead to states that are
related. -/
def Agree (R : Emitter → Emitter → Prop) (act act' : Emit α) : Prop :=
  ∀ e e', R e e' → (act.run.run e).1 = (act'.run.run e').1 ∧
    R (act.run.run e).2 (act'.run.run e').2

/-! ## Rules -/

theorem agree_pure (a : α) : Agree R (pure a) (pure a) := fun _ _ h => ⟨rfl, h⟩

theorem agree_throw (f : Fault) : Agree R (throw f : Emit α) (throw f) := fun _ _ h => ⟨rfl, h⟩

theorem agree_lift (x : Except Fault α) : Agree R (liftM x : Emit α) (liftM x) := by
  intro e e' h
  cases x with
  | ok a => exact ⟨rfl, h⟩
  | error f => exact ⟨rfl, h⟩

/-- From states that are related, both actions have the same fault or results as `f` says, and lead
to states that are related. -/
def Conveys (R : Emitter → Emitter → Prop) (f : α → β) (act : Emit α) (act' : Emit β) : Prop :=
  ∀ e e', R e e' → (act'.run.run e').1 = (act.run.run e).1.map f ∧
    R (act.run.run e).2 (act'.run.run e').2

theorem Conveys.runs {f : α → β} {act : Emit α} {act' : Emit β} (h : Conveys R f act act')
    {e e' : Emitter} (he : R e e') : ∃ r e₁ e₁', act.run.run e = (r, e₁) ∧
      act'.run.run e' = (r.map f, e₁') ∧ R e₁ e₁' :=
  ⟨_, _, _, rfl, Prod.ext (h e e' he).1 rfl, (h e e' he).2⟩

theorem conveys_id {act act' : Emit α} : Conveys R id act act' ↔ Agree R act act' := by
  simp only [Conveys, Agree, Except.map_id, id, eq_comm]

/-- **One action after the other.** -/
theorem Conveys.bind {γ : Type} {f : α → β} {act : Emit α} {act' : Emit β} {k : α → Emit γ}
    {k' : β → Emit γ} (h : Conveys R f act act') (hk : ∀ a, Agree R (k a) (k' (f a))) :
    Agree R (act >>= k) (act' >>= k') := by
  intro e e' he
  obtain ⟨r, e₁, e₁', hrun, hrun', hstate⟩ := h.runs he
  rw [Reader.run_bind, Reader.run_bind, hrun, hrun']
  cases r with
  | error f => exact ⟨rfl, hstate⟩
  | ok a => exact hk a e₁ e₁' hstate

theorem Agree.bind {act act' : Emit α} {f f' : α → Emit β} (h : Agree R act act')
    (hf : ∀ a, Agree R (f a) (f' a)) : Agree R (act >>= f) (act' >>= f') :=
  (conveys_id.mpr h).bind hf

theorem Agree.ite [Decidable c] {act₁ act₂ act₁' act₂' : Emit α} (h₁ : Agree R act₁ act₁')
    (h₂ : Agree R act₂ act₂') :
    Agree R (if c then act₁ else act₂) (if c then act₁' else act₂') := by
  split
  · exact h₁
  · exact h₂

theorem run_get (e : Emitter) : (get : Emit Emitter).run.run e = (.ok e, e) := rfl

theorem run_script (act : Script.Eval α) (e : Emitter) :
    (script act).run.run e = ((act.run.run e.page.store).1,
      { e with page := { e.page with store := (act.run.run e.page.store).2 } }) :=
  rfl

/-- An expression is evaluated on a page that is ready for it. -/
theorem run_evaluate_eq (expr : String) (e : Emitter) : (evaluate expr).run.run e =
    let ready := { e with page := e.page.ready expr }
    (tryCatch (script (Script.evalText ready.page.scope expr)) fun _ => pure .none).run.run
      ready := by
  have hmodify : (modify fun e => { e with page := e.page.ready expr } : Emit Unit).run.run e =
      (.ok (), { e with page := e.page.ready expr }) := rfl
  rw [evaluate, Reader.run_bind, hmodify]
  dsimp only
  rw [Reader.run_bind, run_get]

/-- Evaluating an expression never fails, and changes nothing but the store of a page that is ready
for it. -/
theorem run_evaluate (expr : String) (e : Emitter) : ∃ o store,
    (evaluate expr).run.run e = (.ok o, { e with page := { e.page.ready expr with store } }) := by
  rw [run_evaluate_eq]
  dsimp only
  rw [Reader.run_tryCatch, run_script]
  cases ((Script.evalText (e.page.ready expr).scope expr).run.run (e.page.ready expr).store).1 with
  | error f => exact ⟨_, _, rfl⟩
  | ok o => exact ⟨_, _, rfl⟩

theorem Agree.tryCatch {act act' : Emit α} {f f' : Fault → Emit α} (h : Agree R act act')
    (hf : ∀ e, Agree R (f e) (f' e)) : Agree R (tryCatch act f) (tryCatch act' f') := by
  intro e e' he
  obtain ⟨r, e₁, e₁', hrun, hrun', hstate⟩ := (conveys_id.mpr h).runs he
  rw [Reader.run_tryCatch, Reader.run_tryCatch, hrun, hrun']
  cases r with
  | error g => exact hf g e₁ e₁' hstate
  | ok a => exact ⟨rfl, hstate⟩

/-- What follows may depend on the state, but not on the output. -/
theorem agree_get (hR : IsBond R) {f f' : Emitter → Emit β}
    (h : ∀ e out, Agree R (f e) (f' (e.withOutput out))) : Agree R (get >>= f) (get >>= f') := by
  intro e e' he
  obtain ⟨out, rfl⟩ := hR.output he
  exact h e out e _ he

theorem agree_modify (hR : IsBond R) (hg : IsAside g) : Agree R (modify g) (modify g) :=
  fun _ _ he => ⟨rfl, hR.aside hg he⟩

theorem agree_put (hR : IsBond R) (s : String) : Agree R (put s) (put s) :=
  fun _ _ he => ⟨rfl, hR.put s he⟩

theorem agree_push (hR : IsBond R) (s : String) : Agree R (push s) (push s) :=
  fun _ _ he => ⟨rfl, hR.push _ he⟩

theorem agree_pushValue [Emitter.TakesValues R] (v : Value) :
    Agree R (pushValue v) (pushValue v) :=
  fun _ _ he => ⟨rfl, Emitter.TakesValues.push v he⟩

theorem agree_deeper (hR : IsBond R) (h : Agree R act act') :
    Agree R (deeper act) (deeper act') := by
  unfold deeper
  refine Agree.bind (agree_modify hR fun _ _ => rfl) fun _ => h.bind fun _ => ?_
  exact agree_modify hR fun _ _ => rfl

theorem agree_look (hR : IsTie R) {f f' : Emitter → Emit β}
    (h : ∀ e e' : Emitter, Agree R (f e) (f' (e'.withView e.view))) :
    Agree R (get >>= f) (get >>= f') := by
  intro e e' he
  have hview : e'.withView e.view = e' := by
    rw [← hR.view he]
    rfl
  have hagree := h e e'
  rw [hview] at hagree
  exact hagree e e' he

theorem agree_change (hR : IsTie R) (hg : IsOutward g) : Agree R (modify g) (modify g) := by
  intro e e' he
  refine ⟨rfl, ?_⟩
  show R (g e) (g e')
  rw [hg e, hg e', hR.view he]
  exact hR.withView _ he

theorem agree_write (hR : IsTie R) (s : String) : Agree R (put s) (put s) :=
  fun _ _ he => ⟨rfl, hR.put s he⟩

theorem agree_append (hR : IsTie R) (s : String) : Agree R (push s) (push s) :=
  fun _ _ he => ⟨rfl, hR.push _ he⟩

theorem agree_before (hR : IsTie R) (isTag : Bool) : Agree R (before isTag) (before isTag) := by
  refine agree_look hR fun e e' => .ite ?_ (agree_pure _)
  exact (agree_write hR _).bind fun _ => agree_change hR fun _ => rfl

/-- An action that does not read the output. -/
def Unread (act : Emit Unit) : Prop := ∀ R, IsBond R → Agree R act act

theorem unread_modify (hg : Emitter.IsAside g) : Unread (modify g) :=
  fun _ hR => agree_modify hR hg

theorem unread_put (t : String) : Unread (put t) := fun _ hR => agree_put hR t

theorem unread_push (t : String) : Unread (push t) := fun _ hR => agree_push hR t

theorem unread_pure : Unread (pure ()) := fun _ _ => agree_pure _

theorem Unread.bind (h : Unread act) (h' : Unread act') : Unread (do act; act') :=
  fun R hR => (h R hR).bind fun _ => h' R hR

theorem Unread.ite [Decidable c] (h : Unread act) (h' : Unread act') :
    Unread (if c then act else act') :=
  fun R hR => .ite (h R hR) (h' R hR)

end Emit

end Jade

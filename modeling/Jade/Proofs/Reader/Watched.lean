import Jade.Proofs.Reader.Logic
import Jade.Proofs.Source.Upcoming

/-!
# Reading that stops

While a template is read, the reader comes to many states. To say something about them, reading is
made to stop in some: `Reader.guardedTemplate` reads a template as `Reader.template` does, but fails
with a fault of one's choice where a form, a text block or the next part of one begins in a state
that is not let through. Nothing in the reader catches a fault. So if the reader comes to such a
state, the outcome is the chosen fault, whichever was chosen; and if the outcome is the same as
without stopping, whatever the fault, then it never does.

A first use are tags that wait. A tag that is followed by a colon and an indentation waits for nodes
to filter. It is left where it is, so the reader comes to it again and again. Everything else that
is said about the end of reading is said for templates in which this does not happen.
-/

namespace Jade

namespace Source

/-- The kind of the token at a place among those to come. -/
def kindAt (n : Nat) (s : Source) : Option String := (upcoming n s).toOption.map Token.kind

theorem kindAt_of_stash {s : Source} {n : Nat} {t : Token} (h : s.stash[n]? = some t) :
    s.kindAt n = some t.kind := by
  rw [kindAt, upcoming_of_stash h]
  rfl

/-- A tag is next that waits for nodes to filter: its name, maybe attributes, a colon and then an
indentation. -/
def WaitingTag (s : Source) : Prop :=
  s.kindAt 0 = some "tag" ∧
    (s.kindAt 1 = some ":" ∧ s.kindAt 2 = some "indent" ∨
      s.kindAt 1 = some "attrs" ∧ s.kindAt 2 = some ":" ∧ s.kindAt 3 = some "indent")

instance (s : Source) : Decidable s.WaitingTag := inferInstanceAs (Decidable (_ ∧ _))

end Source

namespace Reader

variable {α β : Type} {e stop : Fault} {self : Parse Node} {r : Reader}

/-! ## Stopping in some states -/

/-- An action, in a state that is let through. -/
def guarded (through : Reader → Bool) (stop : Fault) (act : Parse α) : Parse α := do
  if through (← get) then act else throw stop

theorem guarded_true (stop : Fault) (act : Parse α) : guarded (fun _ => true) stop act = act := rfl

/-- The states that are let through. -/
structure Guards where
  /-- Those in which a form begins. -/
  forms : Reader → Bool := fun _ => true
  /-- Those in which a text block begins. -/
  texts : Reader → Bool := fun _ => true
  /-- Those in which the next part of a text block begins. -/
  parts : Reader → Bool := fun _ => true

/-- Read a text block, but stop with `stop` in a state that is not let through. -/
def guardedText (g : Guards) (stop : Fault) : Parse Node :=
  guarded g.texts stop (textBlockBy (guarded g.parts stop peekKind))

/-- Read a form, but stop with `stop` in a state that is not let through. -/
def guardedForm (g : Guards) (stop : Fault) (self : Parse Node) : Parse Node :=
  guarded g.forms stop (formBy (guardedText g stop) self)

/-- Read a whole template, but stop with `stop` in a state that is not let through. -/
def guardedTemplate (g : Guards) (stop : Fault) : Parse Node :=
  templateBy (expressionBy (guardedForm g stop))

/-- The fault of an outcome. -/
def fault? : Except Fault α → Option Fault
  | .error e => some e
  | .ok _ => none

/-- The action fails with this fault. -/
def FailsWith (e : Fault) (act : Parse α) (r : Reader) : Prop :=
  fault? (act.run.run r).1 = some e

instance (e : Fault) (act : Parse α) (r : Reader) : Decidable (FailsWith e act r) :=
  inferInstanceAs (Decidable (_ = _))

theorem FailsWith.bind {act : Parse α} {f : α → Parse β} (h : FailsWith e act r) :
    FailsWith e (act >>= f) r := by
  rw [FailsWith] at h ⊢
  rw [run_bind]
  rcases hrun : act.run.run r with ⟨e' | a, r'⟩
  · rwa [hrun] at h
  · rw [hrun] at h
    exact nomatch h

theorem run_guarded {through : Reader → Bool} {act : Parse α} (h : through r = true) :
    (guarded through stop act).run.run r = act.run.run r := by
  show (if through r = true then act else throw stop : Parse α).run.run r = _
  rw [if_pos h]

theorem failsWith_guarded {through : Reader → Bool} {act : Parse α} (h : through r = false) :
    FailsWith stop (guarded through stop act) r := by
  show FailsWith stop (if through r = true then act else throw stop) r
  rw [h]
  exact rfl

/-! ## Tags that wait -/

/-- A form does not begin with a tag that waits. -/
def waitGuards : Guards where
  forms r := !decide r.source.WaitingTag

theorem guardedForm_waitGuards (stop : Fault) (self : Parse Node) :
    guardedForm waitGuards stop self = guarded waitGuards.forms stop (form self) := by
  have htext : guardedText waitGuards stop = textBlock := by
    show guarded (fun _ => true) stop (textBlockBy (guarded (fun _ => true) stop peekKind)) = _
    rw [guarded_true, guarded_true, textBlock]
  rw [guardedForm, htext, form]

/-- Read a whole template, but stop with `stop` at a tag that waits. -/
def watchedTemplate (stop : Fault) : Parse Node := guardedTemplate waitGuards stop

/-- Reading the template never comes to a tag that waits. If it did, then to stop there with a fault
would make the reader fail with it, whatever the fault. -/
def NeverWaits (r : Reader) : Prop := ∃ stop, ¬ FailsWith stop (watchedTemplate stop) r

end Reader

end Jade

import Jade.Proofs.Reader.Outcome

/-!
# The states that reading comes to

While a template is read, the reader begins many forms and text blocks, each in a state of its own.
Nothing in the reader catches a fault. So a form begins in a state just if stopping there makes
reading fail with a fault that it does not fail with otherwise (`Reader.FormAt`), and so for text
blocks (`Reader.TextAt`).

Where all stages are let through, stopping makes no difference. A state in which a form or a text
block begins is therefore one of these stages.

## Main results

* `Jade.Reader.FormAt.between`, `Jade.Reader.TextAt.stage` : the states that reading comes to
-/

namespace Jade

deriving instance DecidableEq for Reader

namespace Reader

open Event (mode)

variable {r r₀ : Reader}

/-! ## The states -/

/-- While a template is read from `r₀`, a form begins in the state `r`. -/
def FormAt (r₀ r : Reader) : Prop :=
  ∃ stop, FailsWith stop (guardedTemplate { forms := fun r' => decide (r' ≠ r) } stop) r₀ ∧
    ¬ FailsWith stop template r₀

/-- While a template is read from `r₀`, a text block begins in the state `r`. -/
def TextAt (r₀ r : Reader) : Prop :=
  ∃ stop, FailsWith stop (guardedTemplate { texts := fun r' => decide (r' ≠ r) } stop) r₀ ∧
    ¬ FailsWith stop template r₀

variable {src : String} {colons : Bool} {file : Option String}

/-- **A form begins** outside of text blocks. -/
theorem FormAt.between (h : FormAt (ofSource (.ofText src colons) file) r) :
    Between (.ofText src colons) r := by
  obtain ⟨stop, hstop, hnot⟩ := h
  by_contra hr
  have hg : Guards.Admits { forms := fun r' => decide (r' ≠ r) } (.ofText src colons) :=
    { forms := fun {es _} hr' => decide_eq_true fun heq => hr ⟨es, heq ▸ hr'⟩
      texts := fun _ => rfl
      parts := fun _ _ => rfl }
  rw [FailsWith, (matches_guardedTemplate hg (ready_ofText src colons file)).run_eq] at hstop
  exact hnot hstop

/-- **A text block begins** right after lines have become plain text. -/
theorem TextAt.stage (h : TextAt (ofSource (.ofText src colons) file) r) :
    ∃ es, Stage (.ofText src colons) true none (es ++ [mode true]) r := by
  obtain ⟨stop, hstop, hnot⟩ := h
  by_contra hr
  have hg : Guards.Admits { texts := fun r' => decide (r' ≠ r) } (.ofText src colons) :=
    { forms := fun _ => rfl
      texts := fun {es _} hr' => decide_eq_true fun heq => hr ⟨es, heq ▸ hr'⟩
      parts := fun _ _ => rfl }
  rw [FailsWith, (matches_guardedTemplate hg (ready_ofText src colons file)).run_eq] at hstop
  exact hnot hstop

end Reader

end Jade

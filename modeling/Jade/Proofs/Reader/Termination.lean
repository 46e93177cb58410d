import Jade.Proofs.Reader.Depth

/-!
# Reading a tree ends

A bound that runs out while a tree is read is the fault `Fault.endless`. That is never the outcome,
unless the reader comes to a tag that waits for nodes to filter, which it never leaves. If reading
stops at such a tag, then no tag waits after a form, and two levels for each token are deep enough.

## Main results

* `Jade.Reader.matches_watchedTemplate` : reading that stops at a tag that waits
* `Jade.parse_ends` : reading a tree ends
-/

namespace Jade

namespace Reader

variable {r : Reader} {stop : Fault} {self' self : Parse Node}

theorem matches_watchedForm {post : Node → Reader → Prop} (h : ¬ r.source.WaitingTag →
      Matches (fun e _ => e ≠ .endless) (form self') (form self) post r (some stop)) :
    Matches (fun e _ => e ≠ .endless) (guardedForm waitGuards stop self') (form self) post r
      (some stop) := by
  rw [guardedForm_waitGuards]
  by_cases hwait : r.source.WaitingTag
  · exact .inr ⟨stop, rfl, failsWith_guarded (by simp [waitGuards, hwait])⟩
  · exact .guarded (by simp [waitGuards, hwait]) (h hwait)

theorem steps_watchedWithin (K depth : Nat) (hdepth : 2 * K ≤ depth) :
    Steps (fun e _ => e ≠ .endless) K (within (guardedForm waitGuards stop) depth)
      (within form depth) (some stop) := by
  refine ⟨?_, fun hendless => absurd rfl (hendless default)⟩
  induction K generalizing depth with
  | zero => exact fun r _ hlt => absurd hlt (Nat.not_lt_zero _)
  | succ K ih =>
    intro r hr hlt
    have hself {e : Nat} (he : 2 * K ≤ e) :
        Steps (fun e _ => e ≠ .endless) K (within (guardedForm waitGuards stop) e) (within form e)
          (some stop) :=
      ⟨ih e he, fun hendless => absurd rfl (hendless default)⟩
    obtain ⟨e, rfl⟩ : ∃ e, depth = e + 2 := ⟨depth - 2, by omega⟩
    refine matches_watchedForm fun hwait => ?_
    refine (steps_form (hself (by omega)) hr (fun r₁ hnext hK => ?_) (by omega)).mono
      fun _ r' hform => .inl (hform.resolve_right fun h => hwait h.2.2)
    exact matches_watchedForm fun _ => steps_form_div (hself (by omega)) hnext hK

theorem steps_watchedExpression (K : Nat) :
    Steps (fun e _ => e ≠ .endless) K (expressionBy (guardedForm waitGuards stop)) expression
      (some stop) :=
  ⟨fun r hr _ => matches_budget
    ((steps_watchedWithin _ _ (Nat.le_refl _)).passes r hr (left_lt_budget r)),
    fun hendless => absurd rfl (hendless default)⟩

/-- **Watching makes no difference** to a template, unless it is stopped. -/
theorem matches_watchedTemplate (stop : Fault) (hr : r.source.Tidy) :
    Matches (fun e _ => e ≠ .endless) (watchedTemplate stop) template (fun _ _ => True) r
      (some stop) := by
  refine matches_lineNow (matches_budget ?_)
  have hroom := left_lt_budget r
  refine Matches.bind (steps_many (steps_watchedExpression _) hr (by decide) hroom hroom hroom)
    fun nodes _ _ => .get (Leads.matches ?_)
  dsimp only
  split
  · exact Leads.bind (p := fun _ _ => True) (.throw Fault.noConfusion) fun _ _ _ => .pure trivial
  · exact .pure trivial

theorem NeverWaits.ends (h : r.NeverWaits) (hr : r.source.Tidy) :
    Ends template (fun _ _ => True) r := by
  obtain ⟨stop, hstop⟩ := h
  refine ((matches_watchedTemplate stop hr).resolve fun e he => ?_).2
  rwa [← Option.some.inj he]

theorem NeverWaits.parse_ne_endless {src : String} {colons : Bool} {file : Option String}
    (h : (ofSource (.ofText src colons) file).NeverWaits) :
    parse (.ofText src colons) file ≠ .error .endless :=
  fun herror => (h.ends (Source.tidy_ofText src colons)).error herror rfl

end Reader

/-- **Reading a tree ends**, with a tree or with a fault, unless it comes to a tag that waits: one
that is followed by a colon and an indentation, with or without attributes. -/
theorem parse_ends (src : String) (colons : Bool) (file : Option String)
    (h : (Reader.ofSource (.ofText src colons) file).NeverWaits) :
    (∃ node, parse (.ofText src colons) file = .ok node) ∨
      ∃ fault, fault ≠ .endless ∧ parse (.ofText src colons) file = .error fault := by
  have hends := h.parse_ne_endless
  cases hparse : parse (.ofText src colons) file with
  | ok node => exact .inl ⟨node, rfl⟩
  | error fault => exact .inr ⟨fault, fun he => hends (he ▸ hparse), rfl⟩

/-- A colon after a tag is no obstacle if a form follows on its line. -/
theorem parse_ends_colon_inline :
    let src := "ul\n  li#a(b='c'): i x\n  #d\n    | e"
    (Reader.ofSource (.ofText src) none).NeverWaits ∧
      ((∃ node, parse (.ofText src) none = .ok node) ∨
        ∃ fault, fault ≠ .endless ∧ parse (.ofText src) none = .error fault) := by
  have h : (Reader.ofSource (.ofText "ul\n  li#a(b='c'): i x\n  #d\n    | e") none).NeverWaits :=
    ⟨.overflow, by decide +kernel⟩
  exact ⟨h, parse_ends _ _ _ h⟩

/-- The one tag that is never left. -/
example : Reader.FailsWith .endless Reader.template
    (.ofSource (.ofText "li(a='b'):\n  i c") none) := by decide +kernel

end Jade

import Jade.Proofs.Reader.Descent
import Jade.Proofs.Reader.Termination

/-!
# What reading a template comes to

Reading any text does the same with the mode checked at every form and at every token of a text
block as without. And reading that ends with a fault ends with one of the template language, but for
three kinds of templates: a text that ends in a tag and a colon, after which a character is needed,
a script whose type has no value, of which the quotes are to be stripped, and a tag that waits, at
which reading never ends.

## Main results

* `Jade.parse_mode_exact` : lines are markup and plain text just where they should be
* `Jade.parse_fault_cases` : the faults of reading
-/

namespace Jade

/-- Whether a fault says what is wrong with the text of a template, in words of its own. -/
def Fault.isSyntactic : Fault → Bool
  | .mixedIndentation | .expected _ _ _ _ | .unexpected _ _ _ => true
  | _ => false

namespace Reader

theorem eq_error_of_fault? {α : Type} {x : Except Fault α} {e : Fault} (h : fault? x = some e) :
    x = .error e := by
  cases x with
  | error e' => rw [Option.some.inj h]
  | ok a => exact absurd h (by simp [fault?])

/-- What is known of a result by computing it is a fact about the value that is there. -/
theorem exists_ok_of_map {α β : Type} {x : Except Fault α} {f : α → β} {b : β}
    (h : x.toOption.map f = some b) : ∃ a, x = .ok a ∧ f a = b := by
  cases x with
  | error e => exact absurd h (by simp [Except.toOption])
  | ok a => exact ⟨a, rfl, Option.some.inj h⟩

theorem Foreseen.cases {s₀ : Source} {e : Fault} {r : Reader} (h : Foreseen s₀ e r) :
    e.isSyntactic = true ∨ e = .endOfSource ∧ EndsInTagColon s₀.rest ∨
      e = .noSuchMember ∧ BareType s₀ r.source ∨ e = .endless := by
  cases e with
  | mixedIndentation | expected | unexpected => exact .inl rfl
  | endOfSource => exact .inr (.inl ⟨rfl, h⟩)
  | noSuchMember => exact .inr (.inr (.inl ⟨rfl, h⟩))
  | endless => exact .inr (.inr (.inr rfl))
  | _ => exact absurd h (by simp [Foreseen])

variable {src : String} {colons : Bool} {file : Option String}

theorem foreseen_of_parse {e : Fault} (h : parse (.ofText src colons) file = .error e) :
    Foreseen (.ofText src colons) e
      (template.run.run (ofSource (.ofText src colons) file)).2 :=
  (leads_template (ready_ofText src colons file)).error h

theorem whole_of_parse {node : Node} (h : parse (.ofText src colons) file = .ok node) :
    Whole (.ofText src colons) node
      (template.run.run (ofSource (.ofText src colons) file)).2 :=
  (leads_template (ready_ofText src colons file)).ok h

end Reader

open Reader

/-- **The mode is exact.** Reading a template with checks does the same as reading it without,
whatever the fault is that a failed check would stop with. So whenever a form begins, lines are
markup and no text block is open; and every token of a text block is a piece of layout or the whole
rest of a line, so that the indentation is never put before anything but text. -/
theorem parse_mode_exact (src : String) (colons : Bool) (file : Option String) (stop : Fault) :
    let s := Source.ofText src colons
    (checkedTemplate s.rest stop).run.run (ofSource s file) =
        template.run.run (ofSource s file) ∧
      parse s file ≠ .error .wrongType := by
  intro s
  constructor
  · exact (matches_guardedTemplate (admits_modeGuards _) (ready_ofText src colons file)).run_eq
  · intro h
    exact foreseen_of_parse h

/-- A check that fails does stop reading: a form must not begin within a text block, nor may the
lines of a text block be markup. -/
example :
    FailsWith .overflow (checkedTemplate ['a'] .overflow)
        { ofSource (.ofText "a") none with spaces := some 2 } ∧
      FailsWith .overflow (guardedText (modeGuards ['\n', ' ', 'a']) .overflow)
        (ofSource (.ofText "\n a") none) := by decide +kernel

/-- **The faults of reading.** Reading that ends with a fault ends with one that says what is wrong
with the text; or the text ends in a tag and a colon, or a script whose type has no value has been
read where it ends. And it goes on for ever only if it comes to a tag that waits. -/
theorem parse_fault_cases (src : String) (colons : Bool) (file : Option String) (e : Fault)
    (h : parse (.ofText src colons) file = .error e) :
    let s := Source.ofText src colons
    e.isSyntactic = true ∨ e = .endOfSource ∧ EndsInTagColon s.rest ∨
      e = .noSuchMember ∧ BareType s (template.run.run (ofSource s file)).2.source ∨
      e = .endless ∧ ¬ (ofSource s file).NeverWaits := by
  intro s
  rcases (foreseen_of_parse h).cases with hsyntactic | hends | hbare | rfl
  · exact .inl hsyntactic
  · exact .inr (.inl hends)
  · exact .inr (.inr (.inl hbare))
  · exact .inr (.inr (.inr ⟨rfl, fun hnever => hnever.parse_ne_endless h⟩))

/-- A tag inside of a tag, with nothing after its colon. -/
theorem parse_fault_cases_colon :
    let s := Source.ofText "ul\n  li: a:"
    parse s none = .error .endOfSource ∧
      (Fault.endOfSource.isSyntactic = true ∨
        Fault.endOfSource = .endOfSource ∧ EndsInTagColon s.rest ∨
        Fault.endOfSource = .noSuchMember ∧
          BareType s (template.run.run (ofSource s none)).2.source ∨
        Fault.endOfSource = .endless ∧ ¬ (ofSource s none).NeverWaits) := by
  have h : parse (.ofText "ul\n  li: a:") none = .error .endOfSource :=
    eq_error_of_fault? (by decide +kernel)
  exact ⟨h, parse_fault_cases _ _ _ _ h⟩

/-- Faults that say nothing about the text: a character is needed after the colon of a tag, and the
type of a script needs a value. -/
theorem parse_fault_not_syntactic :
    parse (.ofText "a:") none = .error .endOfSource ∧
      parse (.ofText "script(type)") none = .error .noSuchMember ∧
      Fault.endOfSource.isSyntactic = false ∧ Fault.noSuchMember.isSyntactic = false :=
  ⟨eq_error_of_fault? (by decide +kernel), eq_error_of_fault? (by decide +kernel), rfl, rfl⟩

end Jade

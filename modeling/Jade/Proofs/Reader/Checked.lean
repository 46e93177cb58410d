import Jade.Proofs.Reader.Stage
import Jade.Proofs.Reader.Watched

/-!
# Reading that checks its mode

Lines of a template are markup or plain text, and the reader switches between the two while tokens
are already at hand. A token that was read in the wrong mode would turn text into tags or tags into
text. `Reader.checkedTemplate` is reading that stops where that happens: where a form begins in the
mode of plain text or inside of a text block, and where the next token of a text block is anything
but a piece of layout or the whole rest of a line.

If reading with checks does the same as reading without, whatever the fault that was chosen, then no
check ever fails. `Reader.Matches` says this about an action together with what the action leads to.

## Main results

* `Jade.Reader.Matches.bind`, `Jade.Reader.Matches.guarded` : actions one after the other, and a
  check that holds
-/

namespace Jade

namespace Source

/-- Between `s` and `s'` there is the whole rest of a line of `text`, from its indentation to its
end. -/
def WholeLine (text : List Char) (s : Source) (line : String) (s' : Source) : Prop :=
  line.toList ≠ [] ∧ '\n' ∉ line.toList ∧ s.rest = line.toList ++ s'.rest ∧
    (s'.rest = [] ∨ s'.rest.head? = some '\n') ∧ BeginsLine text s.rest

instance (text : List Char) (s : Source) (line : String) (s' : Source) :
    Decidable (WholeLine text s line s') :=
  inferInstanceAs (Decidable (_ ∧ _))

/-- Whether the next token of the source, if there is one, belongs to a block of plain text in
`text`: it is a line end, or the whole rest of a line. -/
def isRaw (text : List Char) (s : Source) : Bool :=
  match s.advance with
  | (.ok { body := .text line, .. }, s') => decide (WholeLine text s line s')
  | (.ok t, _) => t.body.isLine
  | (.error _, _) => true

end Source

namespace Reader

/-! ## Reading with checks -/

/-- Whether lines are markup and no text block is open. -/
def isPlain (r : Reader) : Bool := !r.source.pipeless && r.spaces.isNone

/-- Where a form begins, lines are markup and no text block is open; and the next token of a text
block belongs to plain text in `text`. -/
def modeGuards (text : List Char) : Guards where
  forms := isPlain
  parts r := r.source.isRaw text

/-- Read a whole template with checks of the mode. -/
def checkedTemplate (text : List Char) (stop : Fault) : Parse Node :=
  guardedTemplate (modeGuards text) stop

/-! ## Actions that do the same -/

variable {α β : Type} {fault : Fault → Reader → Prop} {stop : Option Fault} {r : Reader}

/-- From `r`, the action `act'` does what `act` does, and `act` leads to a result and a state as in
`post` or to a fault as in `fault`. Where a fault `stop` is given, `act'` may also stop with it. -/
def Matches (fault : Fault → Reader → Prop) (act' act : Parse α) (post : α → Reader → Prop)
    (r : Reader) (stop : Option Fault := none) : Prop :=
  act'.run.run r = act.run.run r ∧ Leads fault act post r ∨ ∃ e ∈ stop, FailsWith e act' r

section

variable {act' act : Parse α} {post post' : α → Reader → Prop}

theorem Leads.matches (h : Leads fault act post r) : Matches fault act act post r stop :=
  .inl ⟨rfl, h⟩

/-- Unless `act'` stops, both do the same. -/
theorem Matches.resolve (h : Matches fault act' act post r stop)
    (hstop : ∀ e ∈ stop, ¬ FailsWith e act' r) :
    act'.run.run r = act.run.run r ∧ Leads fault act post r :=
  h.resolve_right fun ⟨e, he, hfails⟩ => hstop e he hfails

theorem Matches.run_eq (h : Matches fault act' act post r) : act'.run.run r = act.run.run r :=
  (h.resolve nofun).1

theorem Matches.leads (h : Matches fault act' act post r) : Leads fault act post r :=
  (h.resolve nofun).2

theorem Matches.of_run {act₁' act₁ : Parse α} {r₁ : Reader}
    (h : Matches fault act₁' act₁ post r₁ stop) (hrun' : act'.run.run r = act₁'.run.run r₁)
    (hrun : act.run.run r = act₁.run.run r₁) : Matches fault act' act post r stop := by
  simp only [Matches, Leads, FailsWith] at h ⊢
  rwa [hrun', hrun]

theorem Matches.mono (h : Matches fault act' act post r stop)
    (hpost : ∀ a r', post a r' → post' a r') : Matches fault act' act post' r stop :=
  h.imp_left fun ⟨hrun, hleads⟩ => ⟨hrun, hleads.mono hpost⟩

/-- **A check that holds** makes no difference. -/
theorem Matches.guarded {e : Fault} {through : Reader → Bool} (hr : through r = true)
    (h : Matches fault act' act post r stop) :
    Matches fault (guarded through e act') act post r stop :=
  h.of_run (run_guarded hr) rfl

theorem Matches.ite {c : Prop} [Decidable c] {act₂' act₂ : Parse α}
    (h₁ : c → Matches fault act' act post r stop)
    (h₂ : ¬ c → Matches fault act₂' act₂ post r stop) :
    Matches fault (if c then act' else act₂') (if c then act else act₂) post r stop := by
  by_cases hc : c
  · rw [if_pos hc, if_pos hc]
    exact h₁ hc
  · rw [if_neg hc, if_neg hc]
    exact h₂ hc

end

/-- **One action after the other.** -/
theorem Matches.bind {act' act : Parse α} {f' f : α → Parse β} {p : α → Reader → Prop}
    {q : β → Reader → Prop} (h : Matches fault act' act p r stop)
    (hf : ∀ a r', p a r' → Matches fault (f' a) (f a) q r' stop) :
    Matches fault (act' >>= f') (act >>= f) q r stop := by
  rcases h with ⟨hsame, hleads⟩ | ⟨e, he, hfails⟩
  · rw [Leads] at hleads
    simp only [Matches, FailsWith, Leads, run_bind, hsame]
    rcases hrun : act.run.run r with ⟨e | a, r'⟩ <;> rw [hrun] at hleads
    · exact .inl ⟨rfl, hleads⟩
    · exact hf a r' hleads
  · exact .inr ⟨e, he, hfails.bind⟩

/-- An action that is the same on both sides, and another one after it. -/
theorem Leads.then {act : Parse α} {f' f : α → Parse β} {p : α → Reader → Prop}
    {q : β → Reader → Prop} (h : Leads fault act p r)
    (hf : ∀ a r', p a r' → Matches fault (f' a) (f a) q r' stop) :
    Matches fault (act >>= f') (act >>= f) q r stop :=
  h.matches.bind hf

section

variable {post : β → Reader → Prop}

theorem Matches.get {f' f : Reader → Parse β} (h : Matches fault (f' r) (f r) post r stop) :
    Matches fault (MonadState.get >>= f') (MonadState.get >>= f) post r stop :=
  h

theorem matches_lineNow {f' f : Nat → Parse β}
    (h : Matches fault (f' r.source.line) (f r.source.line) post r stop) :
    Matches fault (lineNow >>= f') (lineNow >>= f) post r stop :=
  h

theorem matches_budget {f' f : Nat → Parse β}
    (h : Matches fault (f' (r.source.size + 1)) (f (r.source.size + 1)) post r stop) :
    Matches fault (budget >>= f') (budget >>= f) post r stop :=
  h

end

end Reader

end Jade

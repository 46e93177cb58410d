import Jade.Proofs.Reader.History

/-!
# The stages of reading a template

While a template is read, the reader is at a stage: some events have led to its source, lines are
markup or plain text, and a text block may be open. What the actions on single tokens do is said
here once, for all stages. Everything said about forms is put together from it.

The faults that may come up are foreseen: those of the template language, reading that never ends,
a text that ends in a tag and a colon, and a script whose type has no value.

## Main results

* `Jade.Reader.leads_peek`, `leads_advance`, `leads_expect` : looking at tokens and taking them
-/

namespace Jade

/-! ## The heads of tags -/

/-- Whether a token belongs to the head of a tag. -/
def Token.Body.isHead : Token.Body → Bool
  | .id _ | .className _ | .attrs _ _ => true
  | _ => false

namespace Tag

/-- A tag with a token of its head added. -/
def read (tag : Tag) : Token.Body → Tag
  | .id s => tag.setAttribute "id" (.text ("\"" ++ s ++ "\""))
  | .className s => tag.setAttribute "class" (.text ("\"" ++ s ++ "\""))
  | .attrs table fixed => Reader.addAttrs tag table fixed
  | _ => tag

/-- The head of a tag: its name with the tokens of its head. -/
def ofHead (name : String) (hs : List Token.Body) : Tag := hs.foldl read { name }

end Tag

namespace Reader

open Source (History Sound Lapse)

/-! ## Faults -/

/-- On the way to `s` a script was read whose first type has no value. -/
def BareType (s₀ s : Source) : Prop :=
  ∃ es hs later, History s₀ (es ++ .token (.tag "script") :: (hs.map .token ++ later)) s ∧
    (∀ b ∈ hs, b.isHead = true) ∧
    (Tag.ofHead "script" hs).getAttribute "type" = some (.bool true)

/-- The faults that may come up when a template is read: those of the template language, reading
that never ends, a text that ends too early, and a script whose type has no value. -/
def Foreseen (s₀ : Source) (e : Fault) (r : Reader) : Prop :=
  match e with
  | .mixedIndentation | .expected _ _ _ _ | .unexpected _ _ _ | .endless => True
  | .endOfSource => EndsInTagColon s₀.rest
  | .noSuchMember => BareType s₀ r.source
  | _ => False

theorem foreseen_of_lapse {s₀ : Source} {e : Fault} {r : Reader} (h : Lapse s₀ e) :
    Foreseen s₀ e r := by
  rcases h with rfl | ⟨rfl, hends⟩
  · trivial
  · exact hends

/-! ## Stages -/

/-- The reader has come to its state by the events `es`; lines are plain text if `raw`, and `spaces`
is the indentation of the text block that is open. -/
structure Stage (s₀ : Source) (raw : Bool) (spaces : Option Nat) (es : List Event) (r : Reader) :
    Prop where
  sound : Sound s₀ r.source
  history : History s₀ es r.source
  pipeless : r.source.pipeless = raw
  spaces : r.spaces = spaces
  extending : r.extending = false

/-- A stage outside of text blocks. -/
abbrev Ready (s₀ : Source) (es : List Event) (r : Reader) : Prop := Stage s₀ false none es r

/-- The reader is between forms, whatever has happened before. -/
def Between (s₀ : Source) (r : Reader) : Prop := ∃ es, Ready s₀ es r

theorem ready_ofText (src : String) (colons : Bool) (file : Option String) :
    Ready (.ofText src colons) [] (ofSource (.ofText src colons) file) where
  sound := Source.sound_ofText src colons
  history := .start
  pipeless := rfl
  spaces := rfl
  extending := rfl

variable {α : Type} {s₀ s : Source} {raw : Bool} {spaces : Option Nat} {es : List Event}
  {r : Reader} {t : Token} {n : Nat} {kind : String}

theorem Stage.take (h : Stage s₀ raw spaces es r) (ha : r.source.advance = (.ok t, s)) :
    Stage s₀ raw spaces (es ++ [.token t.body]) { r with source := s } where
  sound := (h.sound.of_advance ha).1
  history := h.history.take ha
  pipeless := (Source.pipeless_of_advance ha).trans h.pipeless
  spaces := h.spaces
  extending := h.extending

theorem Stage.mark (h : Stage s₀ raw spaces es r) (ha : r.source.advance = (.ok t, s)) :
    Stage s₀ raw spaces (es ++ [.mark t.body]) { r with source := s } where
  sound := (h.sound.of_advance ha).1
  history := h.history.mark ha
  pipeless := (Source.pipeless_of_advance ha).trans h.pipeless
  spaces := h.spaces
  extending := h.extending

theorem Stage.mode (h : Stage s₀ raw spaces es r) (raw' : Bool) :
    Stage s₀ raw' spaces (es ++ [.mode raw'])
      { r with source := { r.source with pipeless := raw' } } where
  sound := h.sound.mode raw'
  history := h.history.mode raw'
  pipeless := rfl
  spaces := h.spaces
  extending := h.extending

theorem Stage.withSpaces (h : Stage s₀ raw spaces es r) (spaces' : Option Nat) :
    Stage s₀ raw spaces' es { r with spaces := spaces' } where
  sound := h.sound
  history := h.history
  pipeless := h.pipeless
  spaces := rfl
  extending := h.extending

theorem Stage.isLexed (h : Stage s₀ raw spaces es r)
    (ht : r.source.stash[n]? = some t) : t.body.IsLexed :=
  h.sound.lexed t (List.mem_append_left _ (List.mem_of_getElem? ht))

/-! ## Looking at tokens -/

theorem leads_lookahead (h : Stage s₀ raw spaces es r) (hn : n ≤ r.source.stash.length)
    (hlast : n = r.source.stash.length → ∀ u ∈ r.source.stash.getLast?, u.isPassable = true) :
    Leads (Foreseen s₀) (lookahead (n + 1))
      (fun t r' => Stage s₀ raw spaces es r' ∧
        r.source.lookahead (n + 1) = (.ok t, r'.source)) r := by
  refine leads_onSource (fun t s hl => ?_) fun e s hl => ?_
  · refine ⟨⟨h.sound.of_lookahead hn hlast hl, h.history.look hl, ?_, h.spaces, h.extending⟩, hl⟩
    exact (Source.pipeless_of_lookahead hl).trans h.pipeless
  · exact foreseen_of_lapse (h.sound.lapse_of_lookahead hn hl)

/-- **The next token.** -/
theorem leads_peek (h : Stage s₀ raw spaces es r) :
    Leads (Foreseen s₀) peek
      (fun t r' => Stage s₀ raw spaces es r' ∧ r'.source.stash[0]? = some t ∧
        r'.source.advance = r.source.advance) r := by
  have hlook := leads_lookahead (n := 0) h (Nat.zero_le _) fun hzero u hu => by
    rw [List.eq_nil_of_length_eq_zero hzero.symm] at hu
    cases hu
  refine hlook.mono fun t r' ⟨hr', hl⟩ => ?_
  obtain ⟨hsame, hat⟩ := Source.advance_of_peek hl
  exact ⟨hr', hat, hsame⟩

theorem leads_peekKind (h : Stage s₀ raw spaces es r) :
    Leads (Foreseen s₀) peekKind
      (fun kind r' => Stage s₀ raw spaces es r' ∧ r'.source.advance = r.source.advance ∧
        ∃ t, r'.source.stash[0]? = some t ∧ t.kind = kind) r :=
  (leads_peek h).bind fun t _ ⟨hr, ht, hsame⟩ => .pure ⟨hr, hsame, t, ht, rfl⟩

theorem leads_lookahead_succ (h : Stage s₀ raw spaces es r) (ht : r.source.stash[n]? = some t)
    (hpass : t.isPassable = true) :
    Leads (Foreseen s₀) (lookahead (n + 2))
      (fun u r' => Stage s₀ raw spaces es r' ∧ r'.source.stash[n + 1]? = some u ∧
        r.source.stash <+: r'.source.stash) r := by
  have hlt := (List.getElem?_eq_some_iff.mp ht).1
  refine (leads_lookahead (n := n + 1) h hlt fun heq v hv => ?_).mono fun u r' ⟨hr', hl⟩ => ?_
  · rw [List.getLast?_eq_getElem?, ← heq, Nat.add_sub_cancel, ht] at hv
    rwa [← Option.some.inj hv]
  · obtain ⟨hat, hpre, -⟩ := Source.lookahead_spec hl
    exact ⟨hr', hat, hpre⟩

theorem looks_stage : Looks (Foreseen s₀) (Stage s₀ raw spaces es) where
  first h := (leads_peek h).mono fun _ _ ⟨hr, ht, _⟩ => ⟨hr, ht⟩
  next h := leads_lookahead_succ h

theorem run_lookahead (n : Int) (r : Reader) :
    (lookahead n).run.run r =
      ((r.source.lookahead n).1, { r with source := (r.source.lookahead n).2 }) := rfl

theorem run_peek {s : Source} (h : r.source.lookahead 1 = (.ok t, s)) :
    peek.run.run r = (.ok t, { r with source := s }) := by
  rw [peek, run_lookahead, h]

theorem run_peekKind {s : Source} (h : r.source.lookahead 1 = (.ok t, s)) :
    peekKind.run.run r = (.ok t.kind, { r with source := s }) := by
  rw [peekKind, run_bind, run_peek h]
  rfl

/-- A token that was read ahead is looked at, and nothing changes. -/
theorem run_lookahead_of_stash (ht : r.source.stash[n]? = some t) :
    (lookahead (n + 1)).run.run r = (.ok t, r) := by
  rw [run_lookahead, Source.lookahead_of_stash ht]

/-! ## Taking tokens -/

/-- **Taking the next token.** -/
theorem leads_advance (h : Stage s₀ raw spaces es r) :
    Leads (Foreseen s₀) advance
      (fun t r' => Stage s₀ raw spaces (es ++ [.token t.body]) r' ∧ t.body.IsLexed ∧
        r.source.advance = (.ok t, r'.source)) r := by
  refine leads_onSource (fun t s ha => ?_) fun e s ha => ?_
  · exact ⟨h.take ha, (h.sound.of_advance ha).2.1, ha⟩
  · exact foreseen_of_lapse (h.sound.lapse_of_advance ha)

theorem leads_advance_seen (h : Stage s₀ raw spaces es r) (ht : r.source.stash[0]? = some t) :
    Leads (Foreseen s₀) advance
      (fun u r' => u = t ∧ Stage s₀ raw spaces (es ++ [.token t.body]) r' ∧ t.body.IsLexed ∧
        r.source.advance = (.ok t, r'.source)) r := by
  refine (leads_advance h).mono fun u r' ⟨hr', hlexed, ha⟩ => ?_
  obtain rfl : u = t := by
    have hfirst := Source.upcoming_zero_of_advance ha
    rw [Source.upcoming_of_stash ht] at hfirst
    exact (Except.ok.inj hfirst).symm
  exact ⟨rfl, hr', hlexed, ha⟩

/-- **Taking a token of a kind.** -/
theorem leads_expect (h : Stage s₀ raw spaces es r) :
    Leads (Foreseen s₀) (expect kind)
      (fun t r' => t.kind = kind ∧ Stage s₀ raw spaces (es ++ [.token t.body]) r' ∧
        t.body.IsLexed ∧ r.source.advance = (.ok t, r'.source)) r := by
  refine (leads_peekKind h).bind fun found r₁ ⟨hr₁, hsame, t, ht, hfound⟩ => ?_
  split
  · next heq =>
    refine (leads_advance_seen hr₁ ht).mono ?_
    rintro u r₂ ⟨rfl, hr₂, hlexed, ha⟩
    exact ⟨hfound.trans (eq_of_beq heq), hr₂, hlexed, hsame ▸ ha⟩
  · exact .get (leads_lineNow (.throw trivial))

/-- Taking a token of a kind for what it holds, which is all that there is to it. -/
theorem leads_expectBody {f : Token.Body → Option α} (body : α → Token.Body)
    (hbody : ∀ b a, f b = some a → b = body a) (h : Stage s₀ raw spaces es r) :
    Leads (Foreseen s₀) (expectBody kind f)
      (fun a r' => Stage s₀ raw spaces (es ++ [.token (body a)]) r' ∧ (body a).IsLexed ∧
        ∃ t, t.body = body a ∧ r.source.advance = (.ok t, r'.source)) r := by
  refine (leads_expect h).bind fun t r₁ ⟨_, hr₁, hlexed, ha⟩ => ?_
  split
  · next a hf =>
    have heq := hbody t.body a hf
    rw [heq] at hr₁ hlexed
    exact .pure ⟨hr₁, hlexed, t, heq, ha⟩
  · exact .get (leads_lineNow (.throw trivial))

theorem leads_accept (h : Stage s₀ raw spaces es r) :
    Leads (Foreseen s₀) (accept kind)
      (fun found r' => Stage s₀ raw spaces (es ++ found.toList.map fun t => .token t.body) r' ∧
        ∀ t ∈ found, t.kind = kind ∧ t.body.IsLexed) r := by
  refine (leads_peekKind h).bind fun found r₁ ⟨hr₁, _, t, ht, hfound⟩ => ?_
  split
  · next heq =>
    refine (leads_advance_seen hr₁ ht).bind ?_
    rintro u r₂ ⟨rfl, hr₂, hlexed, _⟩
    refine .pure ⟨hr₂, ?_⟩
    rintro v hv
    obtain rfl : u = v := Option.some.inj hv
    exact ⟨hfound.trans (eq_of_beq heq), hlexed⟩
  · refine .pure ⟨?_, nofun⟩
    simpa using hr₁

end Reader

end Jade

import Jade.Proofs.Reader.Tokens
import Jade.Proofs.Source.Places

/-!
# What happens to a source

While a template is read, its source goes through states. `Source.History` tells how it came from
the first of them to the present one: tokens were looked at and taken, the mode was switched between
markup and plain text, and an `#id` or a `.class` without a tag was put off, after a tag for it. The
events of a history are all but the looking.

Along a history the source stays sound (`Source.Sound`). What is left is an end of the text, the
tokens at hand are as the forms promise, and where an indentation is at hand the source stands at
the beginning of the line that it opens.

## Main results

* `Jade.Source.Sound.of_lookahead`, `of_advance`, `putOff` : what keeps a source sound
* `Jade.Source.Sound.lapse_of_advance` : the faults of reading a token
* `Jade.Source.advance_of_peek` : looking at the next token first makes no difference
-/

namespace Jade

/-- What happens to a source, but for tokens that are looked at. -/
inductive Event where
  /-- A token is taken. -/
  | token (body : Token.Body)
  /-- A token is taken as the mark of a tag, for what is in its text. -/
  | mark (body : Token.Body)
  /-- Lines become plain text, or markup again. -/
  | mode (raw : Bool)
  /-- An id or a class is put off, after a tag that it belongs to. -/
  | putOff
  deriving DecidableEq, Repr

namespace Source

variable {n : Nat} {e : Fault}

/-- The events that lead from a source to another. -/
inductive History (s₀ : Source) : List Event → Source → Prop
  | start : History s₀ [] s₀
  | look {es : List Event} {s s' : Source} {n : Int} {t : Token} (h : History s₀ es s)
    (hl : s.lookahead n = (.ok t, s')) : History s₀ es s'
  | take {es : List Event} {s s' : Source} {t : Token} (h : History s₀ es s)
    (ha : s.advance = (.ok t, s')) : History s₀ (es ++ [.token t.body]) s'
  | mark {es : List Event} {s s' : Source} {t : Token} (h : History s₀ es s)
    (ha : s.advance = (.ok t, s')) : History s₀ (es ++ [.mark t.body]) s'
  | mode {es : List Event} {s : Source} (raw : Bool) (h : History s₀ es s) :
    History s₀ (es ++ [.mode raw]) { s with pipeless := raw }
  | putOff {es : List Event} {s s' : Source} {t : Token} (h : History s₀ es s)
    (ha : s.advance = (.ok t, s')) (ht : t.isShorthand = true) :
    History s₀ (es ++ [.putOff]) (s'.putOff t)

/-! ## Looking ahead -/

theorem lookahead_of_stash {s : Source} {t : Token} (h : s.stash[n]? = some t) :
    s.lookahead (n + 1) = (.ok t, s) := by
  have hlt := (List.getElem?_eq_some_iff.mp h).1
  rw [lookahead, show ((n : Int) + 1 - s.stash.length).toNat = 0 by omega, fetch]
  dsimp only
  rw [Int.add_sub_cancel, stashedAt_natCast, h]

theorem lookahead_of_next {s s' : Source} {t : Token} (h : s.next = (.ok t, s')) :
    s.lookahead (s.stash.length + 1) = (.ok t, { s' with stash := s'.stash ++ [t] }) := by
  obtain ⟨k, hk⟩ := (reads_of_next h).stash
  have hat : (s'.stash ++ [t])[s.stash.length]? = some t := by
    rw [hk, List.append_assoc, ← List.replicate_succ', List.getElem?_append_right (Nat.le_refl _),
      Nat.sub_self, List.replicate_succ]
    rfl
  rw [lookahead, show ((s.stash.length : Int) + 1 - s.stash.length).toNat = 1 by omega, fetch, h]
  dsimp only [fetch]
  rw [Int.add_sub_cancel, stashedAt_natCast, hat]

theorem lookahead_of_next_error {s s' : Source} (h : s.next = (.error e, s')) :
    s.lookahead (s.stash.length + 1) = (.error e, s') := by
  rw [lookahead, show ((s.stash.length : Int) + 1 - s.stash.length).toNat = 1 by omega, fetch, h]

/-- **A token that is taken** may be looked at first: it then stands before what was read ahead. -/
theorem peek_of_advance {s s' : Source} {t : Token} (h : s.advance = (.ok t, s')) :
    ∃ s₁ ts, s.lookahead 1 = (.ok t, s₁) ∧ s₁.stash = t :: ts ∧ s' = { s₁ with stash := ts } := by
  cases hs : s.stash with
  | cons u us =>
    rw [advance, hs] at h
    cases h
    exact ⟨s, us, lookahead_of_stash (n := 0) (by rw [hs]; rfl), hs, rfl⟩
  | nil =>
    have hnext : s.next = (.ok t, s') := by rwa [advance, hs] at h
    have hlook := lookahead_of_next hnext
    rw [hs] at hlook
    obtain ⟨k, hk⟩ := (reads_of_next hnext).stash
    -- what reading has stashed is more of the same token
    refine ⟨_, s'.stash, hlook, ?_, rfl⟩
    rw [hk, hs, List.nil_append, ← List.replicate_succ', List.replicate_succ]

/-- **Looking at the next token first** makes no difference to what is taken and to what is left. -/
theorem advance_of_peek {s s' : Source} {t : Token} (h : s.lookahead 1 = (.ok t, s')) :
    s'.advance = s.advance ∧ s'.stash[0]? = some t := by
  rcases ha : s.advance with ⟨e | u, s₂⟩
  · rw [advance] at ha
    split at ha
    · cases ha
    · next hs =>
      have hl := lookahead_of_next_error ha
      rw [hs] at hl
      cases hl.symm.trans h
  · obtain ⟨s₁, ts, hl, hts, rfl⟩ := peek_of_advance ha
    cases hl.symm.trans h
    exact ⟨by rw [advance, hts], by rw [hts]; rfl⟩

theorem exists_advance_of_stash {s : Source} {t : Token} (h : s.stash[0]? = some t) :
    ∃ s', s.advance = (.ok t, s') := by
  cases hs : s.stash with
  | nil => rw [hs] at h; cases h
  | cons u us =>
    rw [hs] at h
    obtain rfl : u = t := Option.some.inj h
    exact ⟨{ s with stash := us }, by rw [advance, hs]⟩

/-! ## The mode -/

theorem pipeless_of_next {s s' : Source} {t : Token} (h : s.next = (.ok t, s')) :
    s'.pipeless = s.pipeless := by
  cases reads_of_next h <;> rfl

theorem pipeless_of_advance {s s' : Source} {t : Token} (h : s.advance = (.ok t, s')) :
    s'.pipeless = s.pipeless := by
  rw [advance] at h
  split at h
  · cases h
    rfl
  · exact pipeless_of_next h

theorem pipeless_of_fetch {s s' : Source} (h : s.fetch n = (.ok (), s')) :
    s'.pipeless = s.pipeless := by
  induction n generalizing s with
  | zero =>
    cases h
    rfl
  | succ n ih =>
    rw [fetch] at h
    split at h
    · cases h
    · next hnext =>
      have hkept := pipeless_of_next hnext
      exact (ih h).trans hkept

theorem pipeless_of_lookahead {n : Int} {s s' : Source} {t : Token}
    (h : s.lookahead n = (.ok t, s')) : s'.pipeless = s.pipeless := by
  rw [lookahead] at h
  split at h
  · cases h
  · next hfetch =>
    obtain ⟨-, rfl⟩ := Prod.mk.inj h
    exact pipeless_of_fetch hfetch

/-! ## Sound sources -/

/-- How a source belongs to the text that it began with. -/
structure Sound (s₀ s : Source) : Prop where
  /-- What is left is an end of the text. -/
  suffix : s.rest <:+ s₀.rest
  /-- No token at hand comes after one that is not looked beyond. -/
  tidy : s.Tidy
  /-- The tokens at hand are as promised. -/
  lexed : ∀ t ∈ s.stash ++ s.deferred, t.body.IsLexed
  /-- If an indentation is at hand, it is open, and what is left is a line without it. -/
  opened : ∀ t ∈ s.stash ++ s.deferred, ∀ w, t.body = .indent w →
    BeginsLine s₀.rest s.rest ∧ s.indents.head? = some w

theorem sound_ofText (src : String) (colons : Bool) :
    Sound (ofText src colons) (ofText src colons) where
  suffix := List.suffix_refl _
  tidy := tidy_ofText src colons
  lexed := fun t ht => absurd ht (by simp [ofText])
  opened := fun t ht => absurd ht (by simp [ofText])

variable {s₀ s s' : Source} {t : Token}

/-- What a token may be put off for when nothing was put off before: the colon of a tag. -/
theorem Reads.deferred_of_nil (h : s.Reads t s') (hd : s.deferred = []) :
    ∀ u ∈ s'.deferred, u.body = .colon := by
  cases h with
  | deferred hd' => exact nomatch hd.symm.trans hd'
  | tagColon => simp [tok]
  | _ => simp [hd]

theorem Reads.indents_of_indent (h : s.Reads t s') (hd : s.deferred = []) {w : Nat}
    (hw : t.body = .indent w) : s'.indents.head? = some w := by
  cases h with
  | deferred hd' => exact nomatch hd.symm.trans hd'
  | indent => rw [← Token.Body.indent.inj hw]; rfl
  | @content body _ _ _ hb =>
    rw [show body = .indent w from hw] at hb
    exact absurd hb (by simp [Token.Body.isContent])
  | _ => exact absurd hw (by simp [tok])

theorem Sound.of_next (h : Sound s₀ s) (hd : s.deferred = []) (hn : s.next = (.ok t, s')) :
    s'.rest <:+ s₀.rest ∧ t.body.IsLexed ∧ (∀ u ∈ s'.deferred, u.body = .colon) ∧
      ∀ w, t.body = .indent w → BeginsLine s₀.rest s'.rest ∧ s'.indents.head? = some w := by
  have hstands := next_stands hd
  rw [hn] at hstands
  obtain ⟨hsuf, hlexed, hline⟩ := hstands
  have hreads := reads_of_next hn
  refine ⟨hsuf.trans h.suffix, hlexed, hreads.deferred_of_nil hd, fun w hw => ?_⟩
  exact ⟨(hline w hw).of_suffix h.suffix, hreads.indents_of_indent hd hw⟩

/-- Looking ahead by at most one token more than were read ahead, and only beyond tokens for which
this may be done, keeps a source sound. -/
theorem Sound.of_lookahead (h : Sound s₀ s) (hn : n ≤ s.stash.length)
    (hlast : n = s.stash.length → ∀ u ∈ s.stash.getLast?, u.isPassable = true)
    (ht : s.lookahead (n + 1) = (.ok t, s')) : Sound s₀ s' := by
  have htidy := (h.tidy.of_lookahead hn hlast ht).1
  rcases Nat.lt_or_eq_of_le hn with hlt | rfl
  · rw [lookahead_of_stash (List.getElem?_eq_getElem hlt)] at ht
    cases ht
    exact h
  · rcases hnext : s.next with ⟨e | u, s₁⟩
    · cases (lookahead_of_next_error hnext).symm.trans ht
    · obtain ⟨hut, rfl⟩ := Prod.mk.inj ((lookahead_of_next hnext).symm.trans ht)
      obtain rfl : u = t := Except.ok.inj hut
      cases hd : s.deferred with
      | cons d ds =>
        -- a token that was put off only moves
        have hmove : s.next = (.ok d, { s with deferred := ds }) := by rw [next, hd]
        obtain ⟨hdu, rfl⟩ := Prod.mk.inj (hmove.symm.trans hnext)
        obtain rfl : d = u := Except.ok.inj hdu
        have hhand : s.stash ++ [d] ++ ds = s.stash ++ s.deferred := by rw [hd]; simp
        exact ⟨h.suffix, htidy, fun v hv => h.lexed v (hhand ▸ hv),
          fun v hv => h.opened v (hhand ▸ hv)⟩
      | nil =>
        obtain ⟨hsuf, hlexed, hcolon, hopen⟩ := h.of_next hd hnext
        obtain ⟨k, hk⟩ := (reads_of_next hnext).stash
        have hmem : ∀ v ∈ s₁.stash ++ [u] ++ s₁.deferred,
            v ∈ s.stash ∨ v = u ∨ v.body = .colon := by
          intro v hv
          rw [hk] at hv
          simp only [List.mem_append, List.mem_replicate, List.mem_singleton] at hv
          rcases hv with ((hv | hv) | hv) | hv
          · exact .inl hv
          · exact .inr (.inl hv.2)
          · exact .inr (.inl hv)
          · exact .inr (.inr (hcolon v hv))
        refine ⟨hsuf, htidy, fun v hv => ?_, fun v hv w hw => ?_⟩
        · rcases hmem v hv with hv | rfl | hv
          · exact h.lexed v (List.mem_append_left _ hv)
          · exact hlexed
          · rw [hv]
            trivial
        · rcases hmem v hv with hv | rfl | hv
          · -- nothing was looked beyond an indentation
            have horderly : Token.Orderly s.stash := by
              have htidy := h.tidy
              rwa [Tidy, hd, List.append_nil] at htidy
            have hpass := horderly.isPassable_of_mem (hlast rfl) v hv
            rw [Token.isPassable_of_indent hw] at hpass
            cases hpass
          · exact hopen w hw
          · cases hv.symm.trans hw

/-- **Taking a token** keeps a source sound. After an indentation nothing is at hand, and what is
left is the line that it opens. -/
theorem Sound.of_advance (h : Sound s₀ s) (ha : s.advance = (.ok t, s')) :
    Sound s₀ s' ∧ t.body.IsLexed ∧
      ∀ w, t.body = .indent w → s'.stash = [] ∧ s'.deferred = [] ∧
        BeginsLine s₀.rest s'.rest ∧ s'.indents.head? = some w := by
  obtain ⟨s₁, ts, hlook, hts, rfl⟩ := peek_of_advance ha
  have hsound := h.of_lookahead (n := 0) (Nat.zero_le _) (fun hzero u hu => by
    rw [List.eq_nil_of_length_eq_zero hzero.symm] at hu; cases hu) hlook
  have htidy := hsound.tidy
  rw [Tidy, hts, List.cons_append] at htidy
  have hmem : ∀ u ∈ ts ++ s₁.deferred, u ∈ s₁.stash ++ s₁.deferred := fun u hu => by
    rw [hts, List.cons_append]
    exact List.mem_cons_of_mem _ hu
  have hself : t ∈ s₁.stash ++ s₁.deferred := by
    rw [hts]
    exact List.mem_cons_self
  refine ⟨⟨hsound.suffix, htidy.of_cons, fun u hu => hsound.lexed u (hmem u hu), fun u hu =>
    hsound.opened u (hmem u hu)⟩, hsound.lexed t hself, fun w hw => ?_⟩
  obtain ⟨hnil, hd⟩ := List.append_eq_nil_iff.mp (htidy.eq_nil (Token.isPassable_of_indent hw))
  exact ⟨hnil, hd, hsound.opened t hself w hw⟩

/-- The faults of reading a token: a mixed indentation, or a text that ends in a tag and a colon. -/
def Lapse (s₀ : Source) (e : Fault) : Prop :=
  e = .mixedIndentation ∨ e = .endOfSource ∧ EndsInTagColon s₀.rest

theorem Sound.lapse_of_next (h : Sound s₀ s) (hn : s.next = (.error e, s')) : Lapse s₀ e := by
  cases hd : s.deferred with
  | cons d ds =>
    rw [next, hd] at hn
    cases hn
  | nil =>
    have hstands := next_stands hd
    rw [hn] at hstands
    rcases hstands with he | ⟨he, hends⟩
    · exact .inl he
    · exact .inr ⟨he, hends.of_suffix h.suffix⟩

theorem Sound.lapse_of_advance (h : Sound s₀ s) (ha : s.advance = (.error e, s')) : Lapse s₀ e := by
  rw [advance] at ha
  split at ha
  · cases ha
  · exact h.lapse_of_next ha

theorem Sound.lapse_of_lookahead (h : Sound s₀ s) (hn : n ≤ s.stash.length)
    (hl : s.lookahead (n + 1) = (.error e, s')) : Lapse s₀ e := by
  rcases Nat.lt_or_eq_of_le hn with hlt | rfl
  · rw [lookahead_of_stash (List.getElem?_eq_getElem hlt)] at hl
    cases hl
  · rcases hnext : s.next with ⟨e' | u, s₁⟩
    · obtain ⟨he, -⟩ := Prod.mk.inj ((lookahead_of_next_error hnext).symm.trans hl)
      exact Except.error.inj he ▸ h.lapse_of_next hnext
    · exact nomatch (lookahead_of_next hnext).symm.trans hl

/-- Putting an id or a class off, when nothing else is at hand. -/
theorem Sound.putOff (h : Sound s₀ s) (hs : s.stash = []) (hd : s.deferred = [])
    (ht : t.isShorthand = true) (hlexed : t.body.IsLexed) (hplain : t.isCustom = false) :
    Sound s₀ (s.putOff t) := by
  have hhand : (s.putOff t).stash ++ (s.putOff t).deferred = [s.tok (.tag "div"), t] := by
    simp [Source.putOff, defer, hs, hd]
  refine ⟨h.suffix, ?_, ?_, ?_⟩
  · rw [Tidy, hhand]
    exact (Token.Orderly.singleton rfl).append (Token.Orderly.singleton hplain)
      (by simp [Token.isPassable, tok, Token.kind, Token.Body.kind])
  · rw [hhand]
    intro u hu
    rcases List.mem_cons.mp hu with rfl | hu
    · trivial
    · rw [List.mem_singleton.mp hu]
      exact hlexed
  · rw [hhand]
    intro u hu w hw
    rcases List.mem_cons.mp hu with rfl | hu
    · exact absurd hw (by simp [tok])
    · rw [List.mem_singleton.mp hu] at hw
      rw [Token.isShorthand, hw] at ht
      cases ht

theorem Sound.mode (h : Sound s₀ s) (raw : Bool) : Sound s₀ { s with pipeless := raw } :=
  ⟨h.suffix, h.tidy, h.lexed, h.opened⟩

/-! ## Histories that are computed -/

/-- The source after an event, if it can happen. -/
def after? (s : Source) : Event → Option Source
  | .token b | .mark b =>
    match s.advance with
    | (.ok t, s') => if t.body = b then some s' else none
    | (.error _, _) => none
  | .mode raw => some { s with pipeless := raw }
  | .putOff =>
    match s.advance with
    | (.ok t, s') => if t.isShorthand then some (s'.putOff t) else none
    | (.error _, _) => none

theorem History.of_after? {s₀ s s' : Source} {es : List Event} {e : Event} (h : History s₀ es s)
    (he : s.after? e = some s') : History s₀ (es ++ [e]) s' := by
  rcases ha : s.advance with ⟨fault | t, s₁⟩ <;> cases e <;>
    simp only [after?, ha, Option.ite_none_right_eq_some, Option.some.injEq, reduceCtorEq] at he
  case error.mode raw => exact he ▸ h.mode raw
  case ok.token b => exact he.1 ▸ he.2 ▸ h.take ha
  case ok.mark b => exact he.1 ▸ he.2 ▸ h.mark ha
  case ok.mode raw => exact he ▸ h.mode raw
  case ok.putOff => exact he.2 ▸ h.putOff ha he.1

deriving instance DecidableEq for Source

/-- The source after events, with nothing looked at between them, if they can happen. -/
def afterAll? (s : Source) (es : List Event) : Option Source := es.foldlM after? s

theorem History.of_afterAll? {s₀ s s' : Source} {es fs : List Event} (h : History s₀ es s)
    (hfs : s.afterAll? fs = some s') : History s₀ (es ++ fs) s' := by
  induction fs generalizing es s with
  | nil =>
    obtain rfl : s = s' := Option.some.inj hfs
    rwa [List.append_nil]
  | cons e fs ih =>
    obtain ⟨s₁, he, hfs⟩ := Option.bind_eq_some_iff.mp hfs
    rw [← List.singleton_append, ← List.append_assoc]
    exact ih (h.of_after? he) hfs

end Source

end Jade

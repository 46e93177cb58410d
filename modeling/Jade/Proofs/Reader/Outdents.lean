import Jade.Proofs.Reader.Stage

/-!
# After an outdent

An outdent is read together with the line end before it and the indentation of the next line, and
at the end of the text. In both cases the source stands where no line ends. So the token after an
outdent is neither a line end nor an indentation, and what stands right after a block in a tree
stands right after it in the text: nothing is passed over in between.

The token after an outdent may be read long before it is taken, and other tokens may have been read
since then. What is kept is therefore said of all tokens at hand (`Source.Level`).

## Main results

* `Jade.Source.isBreak_of_next`, `Jade.Source.head?_of_next` : one token
* `Jade.Source.History.level` : whatever happens to a source
* `Jade.Reader.Stage.isBreak_of_outdent` : the token after an outdent
-/

namespace Jade

/-- Whether a token is a line end or an indentation. -/
def Token.Body.isBreak : Token.Body → Bool
  | .newline | .indent _ => true
  | _ => false

theorem Token.Body.isBreak_of_isContent {b : Token.Body} (h : b.isContent = true) :
    b.isBreak = false ∧ b ≠ .outdent := by
  cases b with
  | newline | indent | outdent => exact absurd h (by simp [isContent])
  | _ => exact ⟨rfl, by simp⟩

namespace Source

/-! ## One token -/

theorem isContent_of_inLine {s s' : Source} {t : Token} (h : s.inLine = (.ok t, s')) :
    t.body.isContent = true := by
  have hfinds := s.inLine_finds
  rw [h] at hfinds
  cases hfinds with
  | form hf hfits => exact (lineForms_makes _ hf hfits).2.1
  | tag => rfl
  | tagColon => rfl

theorem isContent_of_fresh {s s' : Source} {t : Token} (hne : s.rest ≠ [])
    (hnl : s.rest.head? ≠ some '\n') (h : s.fresh = (.ok t, s')) : t.body.isContent = true := by
  rw [fresh_of_inline hne hnl] at h
  split at h
  · obtain ⟨ht, -⟩ := Prod.mk.inj h
    rw [← Except.ok.inj ht]
    rfl
  · exact isContent_of_inLine h

/-- Where no line ends, neither a line end nor an indentation is read. -/
theorem isBreak_of_next {s s' : Source} {t : Token} (hd : s.deferred = [])
    (h : s.next = (.ok t, s')) (hnl : s.rest.head? ≠ some '\n') : t.body.isBreak = false := by
  rw [next, hd] at h
  dsimp only at h
  rw [skipBlankLines_of_ne hnl] at h
  rcases s.rest_cases with hr | ⟨cs, hr⟩ | ⟨hne, -⟩
  · rw [fresh_of_nil hr] at h
    obtain ⟨ht, -⟩ := Prod.mk.inj h
    rw [← Except.ok.inj ht, atEnd]
    split
    · rfl
    · rfl
  · rw [hr] at hnl
    exact absurd rfl hnl
  · exact (Token.Body.isBreak_of_isContent (isContent_of_fresh hne hnl h)).1

theorem head?_of_lineEnd {s s' : Source} {t : Token} {cs : List Char}
    (h : s.lineEnd cs = (.ok t, s')) (ht : t.body = .outdent) : s'.rest.head? ≠ some '\n' := by
  cases enters_of_lineEnd h with
  | back hb =>
    show (unindented cs).head? ≠ _
    cases hrest : unindented cs with
    | nil => simp
    | cons c rest => simpa [hrest, endsLine] using hb
  | _ => cases ht

theorem head?_of_next {s s' : Source} {t : Token} (hd : s.deferred = [])
    (h : s.next = (.ok t, s')) (ht : t.body = .outdent) : s'.rest.head? ≠ some '\n' := by
  rw [next, hd] at h
  dsimp only at h
  generalize s.skipBlankLines = s₁ at h
  rcases s₁.rest_cases with hr | ⟨cs, hr⟩ | ⟨hne, hnl⟩
  · rw [fresh_of_nil hr] at h
    cases h
    rw [atEnd]
    split
    · simp [hr]
    · simp [hr]
  · rw [fresh_of_newline hr] at h
    exact head?_of_lineEnd h ht
  · exact absurd ht (Token.Body.isBreak_of_isContent (isContent_of_fresh hne hnl h)).2

/-! ## Tokens at hand -/

/-- One token may come right after another: no line end and no indentation after an outdent. -/
def Follows (a b : Token.Body) : Prop := a = .outdent → b.isBreak = false

/-- No line end and no indentation comes right after an outdent, neither among the tokens `last`
that were taken and those at hand, nor in the text after them. -/
structure Level (last : List Token.Body) (s : Source) : Prop where
  chain : (last ++ (s.stash ++ s.deferred).map Token.body).IsChain Follows
  rest : (last ++ (s.stash ++ s.deferred).map Token.body).getLast? = some .outdent →
    s.rest.head? ≠ some '\n'

variable {s₀ s s' : Source} {last : List Token.Body} {t : Token}

theorem level_ofText (src : String) (colons : Bool) : Level [] (ofText src colons) where
  chain := .nil
  rest := fun h => absurd h (by simp [ofText])

theorem Level.congr (h : Level last s) (hhand : s'.stash ++ s'.deferred = s.stash ++ s.deferred)
    (hrest : s'.rest = s.rest) : Level last s' := by
  constructor
  · rw [hhand]
    exact h.chain
  · rw [hhand, hrest]
    exact h.rest

theorem Level.forget (h : Level last s) : Level [] s where
  chain := h.chain.right_of_append
  rest := by
    intro hlast
    rw [List.nil_append] at hlast
    exact h.rest (by rw [List.getLast?_append, hlast]; rfl)

/-- The token that is read from the characters comes right after those at hand. -/
theorem Level.of_next (h : Level last s) (hd : s.deferred = []) (hn : s.next = (.ok t, s')) :
    Level last { s' with stash := s'.stash ++ [t] } := by
  have hreads := reads_of_next hn
  obtain ⟨k, hk⟩ := hreads.stash
  have hcolon := hreads.deferred_of_nil hd
  obtain ⟨hchain, hrest⟩ := h
  rw [hd, List.append_nil] at hchain hrest
  -- the new tokens are all alike, but for a colon after the name of a tag
  have hnew : ∀ b ∈ (List.replicate k t ++ [t] ++ s'.deferred).map Token.body,
      b = t.body ∨ b = .colon := by
    intro b hb
    obtain ⟨u, hu, rfl⟩ := List.mem_map.mp hb
    simp only [List.mem_append, List.mem_replicate, List.mem_singleton] at hu
    rcases hu with (⟨-, rfl⟩ | rfl) | hu
    · exact .inl rfl
    · exact .inl rfl
    · exact .inr (hcolon u hu)
  have hhand : last ++ (s'.stash ++ [t] ++ s'.deferred).map Token.body =
      last ++ s.stash.map Token.body ++
        (List.replicate k t ++ [t] ++ s'.deferred).map Token.body := by
    rw [hk]
    simp
  constructor
  · dsimp only
    rw [hhand, List.isChain_append]
    refine ⟨hchain, ?_, ?_⟩
    · refine (List.pairwise_of_forall_mem_list fun a ha b hb => ?_).isChain
      rintro rfl
      rcases hnew b hb with rfl | rfl
      · rcases hnew _ ha with hsame | hsame
        · rw [← hsame]
          rfl
        · cases hsame
      · rfl
    · rintro a ha b hb rfl
      rcases hnew b (List.mem_of_mem_head? hb) with rfl | rfl
      · exact isBreak_of_next hd hn (hrest ha)
      · rfl
  · dsimp only
    rw [hhand, List.getLast?_append_of_ne_nil _ (by simp)]
    intro hlast
    rcases hnew _ (List.mem_of_getLast? hlast) with hsame | hsame
    · exact head?_of_next hd hn hsame.symm
    · cases hsame

theorem Level.of_fetch {n : Nat} (h : Level last s) (hf : s.fetch n = (.ok (), s')) :
    Level last s' := by
  induction n generalizing s with
  | zero =>
    cases hf
    exact h
  | succ n ih =>
    rw [fetch] at hf
    split at hf
    · cases hf
    · next t s₁ hn =>
      refine ih ?_ hf
      cases hd : s.deferred with
      | nil => exact h.of_next hd hn
      | cons d ds =>
        -- a token that was put off only moves
        rw [next, hd] at hn
        obtain ⟨ht, rfl⟩ := Prod.mk.inj hn
        cases ht
        exact h.congr (by rw [hd]; simp) rfl

theorem Level.of_lookahead {n : Int} (h : Level last s) (hl : s.lookahead n = (.ok t, s')) :
    Level last s' := by
  rw [lookahead] at hl
  split at hl
  · cases hl
  · next hfetch =>
    obtain ⟨-, rfl⟩ := Prod.mk.inj hl
    exact h.of_fetch hfetch

theorem Level.of_advance (h : Level last s) (ha : s.advance = (.ok t, s')) :
    Level [t.body] s' := by
  obtain ⟨s₁, ts, hlook, hts, rfl⟩ := peek_of_advance ha
  obtain ⟨hchain, hrest⟩ := h.of_lookahead hlook
  rw [hts] at hchain hrest
  refine ⟨hchain.right_of_append, fun hlast => hrest ?_⟩
  rw [List.getLast?_append_of_ne_nil _ (by simp)]
  exact hlast

theorem Level.putOff (h : Level [] s) (ht : t.isShorthand = true) : Level [] (s.putOff t) := by
  have hhand : (s.putOff t).stash ++ (s.putOff t).deferred =
      s.stash ++ s.deferred ++ [s.tok (.tag "div"), t] := by
    simp [Source.putOff, defer]
  constructor
  · rw [hhand, List.map_append, List.nil_append, List.isChain_append]
    refine ⟨h.chain, List.isChain_pair.mpr fun hout => ?_, fun a _ b hb _ => ?_⟩
    · exact absurd hout (by simp [tok])
    · obtain rfl : Token.Body.tag "div" = b := Option.some.inj hb
      rfl
  · rw [hhand, List.map_append, List.nil_append, List.getLast?_append_of_ne_nil _ (by simp)]
    intro hlast
    have hout : t.body = .outdent := Option.some.inj hlast
    rw [Token.isShorthand, hout] at ht
    cases ht

/-- The token that was taken last, if nothing else happened since then. -/
def lastTaken (es : List Event) : List Token.Body :=
  match es.getLast? with
  | some (.token b) | some (.mark b) => [b]
  | _ => []

/-- **Whatever happens to a source,** no line end and no indentation comes right after an
outdent. -/
theorem History.level {es : List Event} (h : History s₀ es s) (h₀ : Level [] s₀) :
    Level (lastTaken es) s := by
  induction h with
  | start => exact h₀
  | look _ hl ih => exact ih.of_lookahead hl
  | take _ ha ih | mark _ ha ih =>
    rw [lastTaken, List.getLast?_concat]
    exact ih.of_advance ha
  | mode raw _ ih =>
    rw [lastTaken, List.getLast?_concat]
    exact ih.forget.congr rfl rfl
  | putOff _ ha ht ih =>
    rw [lastTaken, List.getLast?_concat]
    exact (ih.of_advance ha).forget.putOff ht

end Source

namespace Reader

/-- **The token after an outdent** is neither a line end nor an indentation. -/
theorem Stage.isBreak_of_outdent {s₀ s : Source} {raw : Bool} {spaces : Option Nat}
    {es : List Event} {r : Reader} {t : Token}
    (h : Stage s₀ raw spaces (es ++ [.token .outdent]) r) (h₀ : s₀.Level [])
    (ha : r.source.advance = (.ok t, s)) : t.body.isBreak = false := by
  have hlevel := h.history.level h₀
  rw [Source.lastTaken, List.getLast?_concat] at hlevel
  obtain ⟨hchain, hrest⟩ := hlevel
  rw [Source.advance] at ha
  cases hs : r.source.stash with
  | cons u us =>
    rw [hs] at ha hchain
    cases ha
    exact (List.isChain_cons_cons.mp hchain).1 rfl
  | nil =>
    rw [hs] at ha hchain hrest
    dsimp only at ha
    cases hd : r.source.deferred with
    | cons d ds =>
      rw [hd] at hchain
      rw [Source.next, hd] at ha
      cases ha
      exact (List.isChain_cons_cons.mp hchain).1 rfl
    | nil =>
      rw [hd] at hrest
      exact Source.isBreak_of_next hd ha (hrest rfl)

end Reader

end Jade

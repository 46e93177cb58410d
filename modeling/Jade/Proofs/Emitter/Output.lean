import Jade.Proofs.Emitter.Relation

/-!
# What was written

Output is collected in pieces, and a text may join the piece before it. None of that is seen in the
end: all that counts is the sequence of characters and of values that are no texts. Both ways to
write add to the end of this sequence, and the result can be read off it.

## Main results

* `Jade.Emitter.glyphs_put`, `Jade.Emitter.glyphs_push` : writing adds to the end
* `Jade.Emitter.isBond_paired` : bonds of what was written
* `Jade.Emitter.result_eq_ok_iff`, `Jade.Emitter.result_cases` : the result
* `Jade.Session.write_eq` : a tree is written by an action that gives back what was written
-/

namespace Jade

/-- One place of the output. -/
inductive Glyph where
  | char (c : Char)
  | value (v : Value)
  deriving Repr, Inhabited

/-- The characters of a text. -/
def glyphsOf (s : String) : List Glyph := s.toList.map .char

@[simp] theorem glyphsOf_append (s t : String) : glyphsOf (s ++ t) = glyphsOf s ++ glyphsOf t := by
  simp [glyphsOf]

theorem glyphsOf_join (ss : List String) : glyphsOf (String.join ss) = ss.flatMap glyphsOf := by
  rw [glyphsOf, String.toList_join, List.map_flatMap]
  rfl

theorem char_injective : Function.Injective Glyph.char := by
  intro c d h
  exact Glyph.char.inj h

theorem glyphsOf_inj {s t : String} : glyphsOf s = glyphsOf t ↔ s = t := by
  rw [glyphsOf, glyphsOf, List.map_inj_right char_injective, String.toList_inj]

theorem value_not_mem_glyphsOf (v : Value) (s : String) : .value v ∉ glyphsOf s := by
  simp [glyphsOf]

/-- What a piece consists of. -/
def Piece.glyphs : Piece → List Glyph
  | .text s => glyphsOf s
  | .value v => [.value v]

namespace Emitter

variable {Q : List Glyph → List Glyph → Prop} {e : Emitter}

/-- All that was written, from the start on. -/
def glyphs (e : Emitter) : List Glyph := e.pieces.reverse.flatMap Piece.glyphs

@[simp] theorem glyphs_push (e : Emitter) (p : Piece) :
    (e.push p).glyphs = e.glyphs ++ p.glyphs := by
  simp [glyphs, push, Buffer.push]

/-- A text that joins a piece takes the place of a copy of it. -/
@[simp] theorem glyphs_put (e : Emitter) (s : String) :
    (e.put s).glyphs = e.glyphs ++ glyphsOf s := by
  unfold put Buffer.put
  split
  · next hmark =>
    obtain ⟨rest, hpieces⟩ := e.sound hmark
    simp [glyphs, hpieces, Piece.glyphs]
  · simp [glyphs, Piece.glyphs]

theorem glyphs_aside {g : Emitter → Emitter} (hg : IsAside g) (e : Emitter) :
    (g e).glyphs = e.glyphs := by
  have hself : g e = (g e).withOutput e.toBuffer := hg e e.toBuffer
  rw [hself]
  rfl

/-- Two states that differ in the output only, and there as in `Q`. -/
structure Paired (Q : List Glyph → List Glyph → Prop) (e e' : Emitter) : Prop where
  aside : ∃ out, e' = e.withOutput out
  glyphs : Q e.glyphs e'.glyphs

/-- **Bonds** of what was written: relations that the same text on both sides respects. -/
theorem isBond_paired (hQ : ∀ {gs gs'} t, Q gs gs' → Q (gs ++ glyphsOf t) (gs' ++ glyphsOf t)) :
    IsBond (Paired Q) where
  output h := h.aside
  put := by
    rintro e _ s ⟨⟨out, rfl⟩, h⟩
    refine ⟨⟨_, rfl⟩, ?_⟩
    rw [glyphs_put, glyphs_put]
    exact hQ _ h
  push := by
    rintro e _ p ⟨⟨out, rfl⟩, h⟩
    refine ⟨⟨_, rfl⟩, ?_⟩
    rw [glyphs_push, glyphs_push]
    exact hQ _ h
  aside := by
    rintro e _ g hg ⟨⟨out, rfl⟩, h⟩
    refine ⟨⟨out, hg e out⟩, ?_⟩
    rwa [glyphs_aside hg, glyphs_aside hg]

theorem takesValues_paired (hQ : ∀ {gs gs'} new, Q gs gs' → Q (gs ++ new) (gs' ++ new)) :
    TakesValues (Paired Q) where
  push := by
    rintro e _ v ⟨⟨out, rfl⟩, h⟩
    refine ⟨⟨_, rfl⟩, ?_⟩
    rw [glyphs_push, glyphs_push]
    exact hQ _ h

theorem Paired.refl (h : Q e.glyphs e.glyphs) : Paired Q e e :=
  ⟨⟨e.toBuffer, rfl⟩, h⟩

theorem mapM_pieceText (ps : List Piece) :
    (∃ ts, ps.mapM pieceText = .ok ts ∧ ps.flatMap Piece.glyphs = glyphsOf (String.join ts)) ∨
      ps.mapM pieceText = .error .wrongType ∧ ∃ v, .value v ∈ ps.flatMap Piece.glyphs := by
  induction ps with
  | nil => exact .inl ⟨[], rfl, rfl⟩
  | cons p ps ih =>
    rw [List.mapM_cons]
    cases p with
    | value v => exact .inr ⟨rfl, v, by simp [Piece.glyphs]⟩
    | text s =>
      rcases ih with ⟨ts, hts, hglyphs⟩ | ⟨herror, v, hv⟩
      · refine .inl ⟨s :: ts, by rw [hts]; rfl, ?_⟩
        rw [List.flatMap_cons, hglyphs, glyphsOf_join, glyphsOf_join, List.flatMap_cons]
        rfl
      · exact .inr ⟨by rw [herror]; rfl, v, List.mem_append_right _ hv⟩

/-- **The result** is the text that was written, unless a value was written that is none. -/
theorem result_cases (e : Emitter) :
    (∃ s, e.result = .ok s ∧ e.glyphs = glyphsOf s) ∨
      e.result = .error .wrongType ∧ ∃ v, .value v ∈ e.glyphs := by
  unfold result
  rcases mapM_pieceText e.pieces.reverse with ⟨ts, hts, hglyphs⟩ | ⟨herror, hv⟩
  · exact .inl ⟨String.join ts, by rw [hts]; rfl, hglyphs⟩
  · exact .inr ⟨by rw [herror]; rfl, hv⟩

theorem result_eq_ok_iff {s : String} : e.result = .ok s ↔ e.glyphs = glyphsOf s := by
  rcases result_cases e with ⟨t, hresult, hglyphs⟩ | ⟨herror, v, hv⟩
  · rw [hresult, hglyphs, glyphsOf_inj]
    exact ⟨Except.ok.inj, congrArg _⟩
  · rw [herror]
    refine ⟨nofun, fun h => ?_⟩
    rw [h] at hv
    exact absurd hv (value_not_mem_glyphsOf v s)

theorem result_eq_error_of_mem {v : Value} (hv : .value v ∈ e.glyphs) :
    e.result = .error .wrongType := by
  rcases result_cases e with ⟨t, hresult, hglyphs⟩ | ⟨herror, -⟩
  · rw [hglyphs] at hv
    exact absurd hv (value_not_mem_glyphsOf v t)
  · exact herror

end Emitter

/-! ## Whole templates -/

namespace Emit

/-- Write and give back all that was written. -/
def written (act : Emit Unit) : Emit String := do
  act
  ((← get).result : Except Fault String)

theorem run_written (act : Emit Unit) (e : Emitter) :
    (written act).run.run e = match act.run.run e with
      | (.error f, e') => (.error f, e')
      | (.ok _, e') => (e'.result, e') := by
  unfold written
  rw [Reader.run_bind]
  rcases act.run.run e with ⟨f | a, e'⟩
  · rfl
  · show (liftM e'.result : Emit String).run.run e' = (e'.result, e')
    cases e'.result with
    | ok s => rfl
    | error f => rfl

end Emit

namespace Session

variable (s : Session) (d : Dialect) (o : Options)

theorem glyphs_start : (s.start d o).1.emitter.glyphs = [] := by
  dsimp only [start]
  split
  · rfl
  · rfl

theorem mixing_start : (s.start d o).1.emitter.mixing = 0 := by
  dsimp only [start]
  split
  · rfl
  · rfl

theorem write_eq {setup : Setup} {emitter : Emitter} {session : Session}
    (h : s.start d o = (⟨d, setup, emitter⟩, session)) (root : Node) :
    s.write d o root =
      let run := (Emit.written (Emit.template setup (d.forms setup) root)).run.run emitter
      (run.1, { session with page := run.2.page.leave }) := by
  unfold write
  rw [h]
  rfl

end Session

end Jade

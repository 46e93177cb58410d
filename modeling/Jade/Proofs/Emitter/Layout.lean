import Jade.Proofs.Dialect.Alike
import Jade.Proofs.Emitter.Output

/-!
# Layout only adds blanks

A template can be written with tags on lines of their own or without. The two runs are held together
by a bond: what is written without layout is found in what is written with it, and what is left out
there is blank. Layout is the only thing that the left run writes alone, so the bond is blind to it,
and since it is respected by every dialect both runs end in the same way: with the same fault, or
with two texts that are equal once blanks are deleted.

## Main results

* `Jade.Emitter.isBond_pads`, `Jade.Emitter.isBlind_pads` : it is a bond, and blind to layout
* `Jade.Session.write_pretty` : a tree written with and without layout
-/

namespace Jade

/-- A text without its blanks. -/
def withoutBlanks (s : String) : String := String.ofList (s.toList.filter (!isBlank ·))

/-- Whether a place of the output is anything but a blank. -/
def Glyph.isInk : Glyph → Bool
  | .char c => !isBlank c
  | .value _ => true

theorem filter_glyphsOf (s : String) :
    (glyphsOf s).filter Glyph.isInk = glyphsOf (withoutBlanks s) := by
  simp [glyphsOf, withoutBlanks, List.filter_map, Function.comp_def, Glyph.isInk]

theorem isBlank_of_isLayout {c : Char} (h : Emitter.isLayout c = true) : isBlank c = true := by
  simp only [Emitter.isLayout, Bool.or_eq_true, beq_iff_eq] at h
  rcases h with rfl | rfl
  · rfl
  · rfl

namespace Emitter

/-- The output on the left is the one on the right with blanks added. -/
structure Padded (gs gs' : List Glyph) : Prop where
  sublist : gs'.Sublist gs
  ink : gs.filter Glyph.isInk = gs'.filter Glyph.isInk

/-- The emitters differ in their output only, and there in blanks. -/
abbrev Pads (e e' : Emitter) : Prop := Paired Padded e e'

theorem Padded.append {gs gs' : List Glyph} (new : List Glyph) (h : Padded gs gs') :
    Padded (gs ++ new) (gs' ++ new) := by
  refine ⟨h.sublist.append (List.Sublist.refl new), ?_⟩
  rw [List.filter_append, List.filter_append, h.ink]

/-- **The bond** between output with layout and output without. -/
theorem isBond_pads : IsBond Pads := isBond_paired fun t => Padded.append (glyphsOf t)

instance takesValues_pads : TakesValues Pads := takesValues_paired Padded.append

theorem isBlind_pads : IsBlind Pads := by
  rintro e _ s hs ⟨⟨out, rfl⟩, h⟩
  refine ⟨⟨out, rfl⟩, ?_, ?_⟩
  · rw [glyphs_put]
    exact h.sublist.trans (List.sublist_append_left _ _)
  · have hblank : (glyphsOf s).filter Glyph.isInk = [] := by
      rw [filter_glyphsOf, withoutBlanks, List.filter_eq_nil_iff.mpr]
      · rfl
      · intro c hc
        simp [isBlank_of_isLayout (List.all_eq_true.mp hs c hc)]
    rw [glyphs_put, List.filter_append, hblank, List.append_nil, h.ink]

theorem result_of_pads {e e' : Emitter} (h : Pads e e') :
    (∃ s s', e.result = .ok s ∧ e'.result = .ok s' ∧ s'.toList.Sublist s.toList ∧
        withoutBlanks s = withoutBlanks s') ∨
      e.result = .error .wrongType ∧ e'.result = .error .wrongType := by
  rcases result_cases e with ⟨s, hresult, hglyphs⟩ | ⟨herror, v, hv⟩
  · left
    rcases result_cases e' with ⟨s', hresult', hglyphs'⟩ | ⟨-, v, hv⟩
    · refine ⟨s, s', hresult, hresult', ?_, ?_⟩
      · have hsub := h.glyphs.sublist
        rw [hglyphs, hglyphs', glyphsOf, glyphsOf, List.sublist_map_iff] at hsub
        obtain ⟨cs, hcs, heq⟩ := hsub
        rwa [(List.map_inj_right char_injective).mp heq]
      · have hink := h.glyphs.ink
        rw [hglyphs, hglyphs', filter_glyphsOf, filter_glyphsOf] at hink
        exact glyphsOf_inj.mp hink
    · have hmem := h.glyphs.sublist.subset hv
      rw [hglyphs] at hmem
      exact absurd hmem (value_not_mem_glyphsOf v s)
  · right
    have hink : .value v ∈ e'.glyphs.filter Glyph.isInk := by
      rw [← h.glyphs.ink]
      exact List.mem_filter.mpr ⟨hv, rfl⟩
    exact ⟨herror, result_eq_error_of_mem (List.mem_filter.mp hink).1⟩

end Emitter

namespace Emit

/-- What comes of two actions, of which the left one may write more blanks. -/
theorem Agree.outcome {act act' : Emit Unit} (h : Agree Emitter.Pads act act') (e : Emitter) :
    ((∃ f, ((written act).run.run e).1 = .error f ∧ ((written act').run.run e).1 = .error f) ∨
      ∃ out out', ((written act).run.run e).1 = .ok out ∧ ((written act').run.run e).1 = .ok out' ∧
        out'.toList.Sublist out.toList ∧ withoutBlanks out = withoutBlanks out') ∧
      ((written act).run.run e).2.page = ((written act').run.run e).2.page := by
  obtain ⟨hout, hpads⟩ := h e e (.refl ⟨List.Sublist.refl _, rfl⟩)
  rw [run_written, run_written]
  rcases hrun : act.run.run e with ⟨r, e₁⟩
  rcases hrun' : act'.run.run e with ⟨r', e₁'⟩
  rw [hrun, hrun'] at hout hpads
  obtain rfl : r = r' := hout
  have hpage : e₁.page = e₁'.page := by
    obtain ⟨out, rfl⟩ := hpads.aside
    rfl
  cases r with
  | error f => exact ⟨.inl ⟨f, rfl, rfl⟩, hpage⟩
  | ok a =>
    refine ⟨?_, hpage⟩
    rcases Emitter.result_of_pads hpads with ⟨s, s', hs, hs', hsub, hink⟩ | ⟨herror, herror'⟩
    · exact .inr ⟨s, s', hs, hs', hsub, hink⟩
    · exact .inl ⟨.wrongType, herror, herror'⟩

end Emit

namespace Session

variable (s : Session) (d : Dialect) (o : Options)

/-- Layout is the only thing that is not the same when a template is begun. Settings may have the
last word on it. -/
theorem start_pretty :
    ∃ setup emitter session p, (p = setup.pretty ∨ setup.pretty = true) ∧
      s.start d { o with pretty := some true } = (⟨d, setup, emitter⟩, session) ∧
      s.start d { o with pretty := some false } =
        (⟨d, { setup with pretty := p }, emitter⟩, session) := by
  let laid := s.start d { o with pretty := some true }
  let bare := s.start d { o with pretty := some false }
  refine ⟨laid.1.setup, laid.1.emitter, laid.2, bare.1.setup.pretty, ?_, rfl, ?_⟩
  · rcases s with ⟨_, _, _, _, _, _, _, settings, _⟩
    cases settings with
    | none => exact .inr (by cases d <;> rfl)
    | some winning =>
      cases d with
      | django =>
        rcases winning with ⟨pretty, _⟩
        cases pretty with
        | none => exact .inr rfl
        | some b => exact .inl rfl
      | _ => exact .inr rfl
  · rcases s with ⟨_, _, _, _, _, _, _, settings, _⟩
    cases settings <;> cases d <;> rfl

/-- **Layout only adds blanks.** In every dialect, with any options and from any session, a tree
written with layout and the same tree written without fail with the same fault, or both come out as
texts: the one without layout is found in the other, and both are equal once blanks are deleted. The
session after them is the same. -/
theorem write_pretty (root : Node) :
    let pretty := s.write d { o with pretty := some true } root
    let compact := s.write d { o with pretty := some false } root
    ((∃ f, pretty.1 = .error f ∧ compact.1 = .error f) ∨
      ∃ out out', pretty.1 = .ok out ∧ compact.1 = .ok out' ∧
        out'.toList.Sublist out.toList ∧ withoutBlanks out = withoutBlanks out') ∧
      pretty.2 = compact.2 := by
  intro pretty compact
  obtain ⟨setup, emitter, session, p, hp, hpretty, hcompact⟩ := start_pretty s d o
  have hspares : Emitter.Spares Emitter.Pads setup p := by
    rcases hp with rfl | hlaid
    · exact .inl rfl
    · exact .inr ⟨hlaid, Emitter.isBlind_pads⟩
  have hagree := Emit.agree_template Emitter.isBond_pads hspares
    (d.alike_forms Emitter.isBond_pads hspares) root
  obtain ⟨hout, hpage⟩ := hagree.outcome emitter
  have hpretty' : pretty = _ := write_eq s d _ hpretty root
  have hcompact' : compact = _ := write_eq s d _ hcompact root
  rw [hpretty', hcompact']
  refine ⟨hout, ?_⟩
  simp only [hpage]

end Session

end Jade

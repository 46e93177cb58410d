import Jade.Proofs.Emitter.Depth
import Jade.Proofs.Emitter.Output
import Jade.Proofs.Reader.Outcome

/-!
# Labelled output

To say of a piece of the output what it is there for, and not only that it is found there, a dialect
can be given forms that put a label on the piece. A piece with a label is a value that stands for
its text, so the walk that writes a template can also write it with labels. Without the labels, what
is written is the same (`Emitter.Unlabels`).

What is written with labels can then be read as a sequence of marks, each of which stands on a text
that fits to it. A property of such sequences that may depend on the depth of mixins, holds of no
marks at all and passes on to sequences one after the other, holds of a whole template if the forms
of the dialect see to it.

## Main results

* `Jade.Emitter.isBond_unlabels`, `Jade.Emit.Spells.agree_label` : writing with labels and without
* `Jade.Emit.adds_between`, `Jade.Emit.adds_deeper` : labels around something
* `Jade.Session.write_labels` : whole templates
-/

namespace Jade

/-- Marks that can be put on a piece as a label and read back, with the texts that they may stand
on. -/
class Labelling (μ : Type) where
  value : μ → Value
  read : Value → Option μ
  read_value : ∀ m, read (value m) = some m
  Fits : μ → String → Prop := fun _ _ => True

variable {μ : Type} [Labelling μ]

/-- The glyph as it is without a label. -/
def Glyph.plain : Glyph → List Glyph
  | .value (.list [_, .text t]) => glyphsOf t
  | g => [g]

/-- The mark that a glyph has as a label. -/
def Glyph.mark? : Glyph → Option μ
  | .value (.list [l, .text _]) => Labelling.read l
  | _ => none

/-- The marks on the output, from the start on. -/
def labels (gs : List Glyph) : List μ := gs.filterMap Glyph.mark?

/-- Each mark on the output stands on a text that fits to it. -/
def Fitting (μ : Type) [Labelling μ] (gs : List Glyph) : Prop :=
  ∀ l t, .value (.list [l, .text t]) ∈ gs → ∀ m : μ, Labelling.read l = some m → Labelling.Fits m t

theorem Fitting.append {gs gs' : List Glyph} (h : Fitting μ gs) (h' : Fitting μ gs') :
    Fitting μ (gs ++ gs') :=
  fun l t hmem => (List.mem_append.mp hmem).elim (h l t) (h' l t)

theorem fitting_glyphsOf (t : String) : Fitting μ (glyphsOf t) := by
  intro l t' hmem
  obtain ⟨c, -, hc⟩ := List.mem_map.mp hmem
  cases hc

theorem labels_append (gs gs' : List Glyph) :
    (labels (gs ++ gs') : List μ) = labels gs ++ labels gs' :=
  List.filterMap_append ..

theorem labels_glyphsOf (t : String) : (labels (glyphsOf t) : List μ) = [] := by
  simp [labels, glyphsOf, Glyph.mark?]

theorem plain_glyphsOf (t : String) : (glyphsOf t).flatMap Glyph.plain = glyphsOf t := by
  rw [glyphsOf, List.flatMap_map]
  exact (List.map_eq_flatMap ..).symm

namespace Emit

/-- Write a text with a label. -/
def label (m : μ) (t : String) : Emit Unit := pushValue (.list [Labelling.value m, .text t])

/-- The action writes the text and does nothing else. -/
def Spells (t : String) (act : Emit Unit) : Prop :=
  ∀ e, ∃ out, act.run.run e = (.ok (), e.withOutput out) ∧
    (e.withOutput out).glyphs = e.glyphs ++ glyphsOf t

theorem spells_put (t : String) : Spells t (put t) := by
  intro e
  exact ⟨_, rfl, e.glyphs_put t⟩

theorem spells_push (t : String) : Spells t (push t) :=
  fun e => ⟨_, rfl, e.glyphs_push (.text t)⟩

theorem spells_pure : Spells "" (pure ()) :=
  fun e => ⟨e.toBuffer, rfl, (List.append_nil _).symm⟩

theorem Spells.bind {t t' : String} {act act' : Emit Unit} (h : Spells t act)
    (h' : Spells t' act') : Spells (t ++ t') (do act; act') := by
  intro e
  obtain ⟨out, hrun, hglyphs⟩ := h e
  obtain ⟨out', hrun', hglyphs'⟩ := h' (e.withOutput out)
  refine ⟨out', ?_, ?_⟩
  · rw [Reader.run_bind, hrun]
    exact hrun'
  · rw [glyphsOf_append, ← List.append_assoc, ← hglyphs]
    exact hglyphs'

end Emit

/-! ## Taking labels off -/

namespace Emitter

/-- The states differ in the output only, where texts may have labels on the right. -/
abbrev Unlabels (e e' : Emitter) : Prop := Paired (fun gs gs' => gs = gs'.flatMap Glyph.plain) e e'

theorem isBond_unlabels : IsBond Unlabels := by
  refine isBond_paired fun t h => ?_
  rw [List.flatMap_append, ← h, plain_glyphsOf]

theorem glyphs_label (m : μ) (t : String) (e : Emitter) :
    (e.push (.ofValue (.list [Labelling.value m, .text t]))).glyphs =
      e.glyphs ++ [.value (.list [Labelling.value m, .text t])] :=
  e.glyphs_push _

end Emitter

open Emitter (Unlabels IsStride IsWalk)

namespace Emit

theorem Spells.agree_label {t : String} {act : Emit Unit} (h : Spells t act) (m : μ) :
    Agree Unlabels act (label m t) := by
  rintro e _ ⟨⟨out, rfl⟩, hout⟩
  obtain ⟨out', hrun, hglyphs⟩ := h e
  rw [hrun]
  refine ⟨rfl, ⟨_, rfl⟩, ?_⟩
  show _ = ((e.withOutput out).push _).glyphs.flatMap Glyph.plain
  rw [hglyphs, hout, Emitter.glyphs_label, List.flatMap_append]
  simp [Glyph.plain]

theorem agree_get_right {R : Emitter → Emitter → Prop} {act : Emit Unit}
    {k : Emitter → Emit Unit} (h : ∀ e, Agree R act (k e)) : Agree R act (get >>= k) :=
  fun e e' he => h e' e e' he

end Emit

/-! ## What labels say -/

namespace Emitter

/-- From one depth of mixins to another one, marks as in `Q` are added on texts that fit. -/
def Adds (d d' : Int) (Q : List μ → Prop) (e e' : Emitter) : Prop :=
  e.mixing = d →
    e'.mixing = d' ∧ ∃ gs, e'.glyphs = e.glyphs ++ gs ∧ Fitting μ gs ∧ Q (labels gs)

/-- The depth of mixins is kept, and marks as in `P` are added. -/
def Labels (P : Int → List μ → Prop) (e e' : Emitter) : Prop := ∀ d, Adds d d (P d) e e'

/-- A property of sequences of marks that holds of actions one after the other. -/
class IsTrace (P : Int → List μ → Prop) : Prop where
  nil : ∀ d, P d []
  append : ∀ {d ms ms'}, P d ms → P d ms' → P d (ms ++ ms')

section Adds

variable {d d₁ d₂ : Int} {Q Q' S : List μ → Prop} {e e₁ e₂ : Emitter}

theorem Adds.trans (h : Adds d d₁ Q e e₁) (h' : Adds d₁ d₂ Q' e₁ e₂)
    (hS : ∀ {ms ms'}, Q ms → Q' ms' → S (ms ++ ms')) : Adds d d₂ S e e₂ := by
  intro he
  obtain ⟨he₁, gs, hglyphs, hfits, hQ⟩ := h he
  obtain ⟨he₂, gs', hglyphs', hfits', hQ'⟩ := h' he₁
  refine ⟨he₂, gs ++ gs', ?_, hfits.append hfits', ?_⟩
  · rw [hglyphs', hglyphs, List.append_assoc]
  · rw [labels_append]
    exact hS hQ hQ'

theorem adds_text (h : Q []) (hmixing : e₁.mixing = e.mixing) {t : String}
    (hglyphs : e₁.glyphs = e.glyphs ++ glyphsOf t) : Adds d d Q e e₁ := by
  intro he
  refine ⟨hmixing.trans he, glyphsOf t, hglyphs, fitting_glyphsOf t, ?_⟩
  rw [labels_glyphsOf]
  exact h

theorem adds_nothing (h : Q []) (hmixing : e₁.mixing = e.mixing) (hglyphs : e₁.glyphs = e.glyphs) :
    Adds d d Q e e₁ :=
  adds_text (t := "") h hmixing (hglyphs.trans (List.append_nil _).symm)

theorem adds_put (h : Q []) (e : Emitter) (t : String) : Adds d d Q e (e.put t) := by
  exact adds_text h rfl (e.glyphs_put t)

end Adds

instance isWalk_labels {P : Int → List μ → Prop} [IsTrace P] : IsWalk (Labels P) where
  refl _ d := adds_nothing (IsTrace.nil d) rfl rfl
  trans h h' d := (h d).trans (h' d) IsTrace.append
  put e t d := adds_put (IsTrace.nil d) e t
  push e t d := adds_text (IsTrace.nil d) rfl (e.glyphs_push (.text t))
  aside _ _ _ _ _ _ d := adds_nothing (IsTrace.nil d) rfl rfl
  setDoctype _ _ _ d := adds_nothing (IsTrace.nil d) rfl rfl

end Emitter

open Emitter (Adds Labels IsTrace)

namespace Emit

variable {d d₁ d₂ : Int} {Q Q' S : List μ → Prop} {act act' : Emit Unit}

theorem moves_labels {P : Int → List μ → Prop} :
    Moves (Labels P) act ↔ ∀ d, Moves (Adds d d (P d)) act :=
  ⟨fun h d => moves_of_ok fun e a e' hrun => h e a e' hrun d,
    fun h => moves_of_ok fun e a e' hrun d => h d e a e' hrun⟩

theorem Moves.labels_imp {P P' : Int → List μ → Prop} (h : Moves (Labels P) act)
    (hP : ∀ {d ms}, P d ms → P' d ms) : Moves (Labels P') act := by
  refine moves_of_ok fun e a e' hrun d he => ?_
  obtain ⟨he', gs, hglyphs, hfits, hgs⟩ := h e a e' hrun d he
  exact ⟨he', gs, hglyphs, hfits, hP hgs⟩

theorem adds_seq (h : Moves (Adds d d₁ Q) act) (h' : Moves (Adds d₁ d₂ Q') act')
    (hS : ∀ {ms ms'}, Q ms → Q' ms' → S (ms ++ ms')) : Moves (Adds d d₂ S) (do act; act') :=
  h.seq (fun _ => h') fun hfirst hsecond => hfirst.trans hsecond hS

theorem adds_get {k : Emitter → Emit Unit}
    (h : ∀ e, e.mixing = d → Moves (Adds d d₁ Q) (k e)) : Moves (Adds d d₁ Q) (get >>= k) :=
  moves_of_ok fun e a e' hrun he => h e he e a e' hrun he

theorem adds_label {m : μ} {t : String} (hfits : Labelling.Fits m t) (h : Q [m]) :
    Moves (Adds d d Q) (label m t) := by
  refine moves_modify fun e he => ⟨he, _, Emitter.glyphs_label m t e, ?_, ?_⟩
  · intro l t' hmem m' hread
    obtain ⟨rfl, rfl⟩ : l = Labelling.value m ∧ t' = t := by simpa using hmem
    obtain rfl := Option.some.inj (hread.symm.trans (Labelling.read_value m))
    exact hfits
  · simpa [labels, Glyph.mark?, Labelling.read_value] using h

/-- **Labels around something.** -/
theorem adds_between {m m' : μ} {t t' : String} (hm : Labelling.Fits m t)
    (hm' : Labelling.Fits m' t') (h : Moves (Adds d d Q) act)
    (hS : ∀ {ms}, Q ms → S (m :: (ms ++ [m']))) :
    Moves (Adds d d S) (do label m t; act; label m' t') := by
  have hend : Moves (Adds d d fun ms => ∃ ms₀, Q ms₀ ∧ ms = ms₀ ++ [m']) (do act; label m' t') :=
    adds_seq h (adds_label (Q := (· = [m'])) hm' rfl) fun hms hms' => ⟨_, hms, by rw [hms']⟩
  refine adds_seq (adds_label (Q := (· = [m])) hm rfl) hend ?_
  rintro _ _ rfl ⟨ms, hms, rfl⟩
  exact hS hms

theorem adds_deeper (h : Moves (Adds (d + 1) (d + 1) Q) act) : Moves (Adds d d Q) (deeper act) := by
  refine h.deeper fun e e' hact he => ?_
  obtain ⟨he', gs, hglyphs, hgs⟩ := hact (congrArg (· + 1) he)
  refine ⟨?_, gs, hglyphs, hgs⟩
  show e'.mixing - 1 = d
  rw [he', Int.add_sub_cancel]

end Emit

/-- **Templates with labels.** Suppose that the forms of a dialect write the same with labels, and
that their marks are as in `P`. If a tree comes out as a template, then it also does with labels; it
is the template with labels put on it, each on a text that fits, and all its marks together are as
in `P`. -/
theorem Session.write_labels {s : Session} {d : Dialect} {o : Options} {root : Node} {out : String}
    {f : Forms} {P : Int → List μ → Prop} [IsTrace P]
    (halike : (d.forms (s.start d o).1.setup).Alike Unlabels f) (hf : f.Respects (Labels P))
    (h : (s.write d o root).1 = .ok out) :
    let w := (s.start d o).1
    ∃ e, (Emit.template w.setup f root).run.run w.emitter = (.ok (), e) ∧
      e.glyphs.flatMap Glyph.plain = glyphsOf out ∧ Fitting μ e.glyphs ∧ P 0 (labels e.glyphs) := by
  intro w
  have hstart : w.emitter.glyphs = [] := s.glyphs_start d o
  have hwrite : (s.write d o root).1 =
      ((Emit.written (Emit.template w.setup (d.forms w.setup) root)).run.run w.emitter).1 := rfl
  have hagree : Emit.Agree Unlabels (Emit.template w.setup (d.forms w.setup) root)
      (Emit.template w.setup f root) :=
    Emit.agree_template Emitter.isBond_unlabels (.inl rfl) halike root
  have hmoves : Emit.Moves (Labels P) (Emit.template w.setup f root) :=
    (Emit.moves_push _).bind fun _ => Emit.moves_visit (Emit.moves_node hf root)
  rw [hwrite, Emit.run_written] at h
  obtain ⟨hout, hstate⟩ := hagree w.emitter w.emitter (.refl (by rw [hstart]; rfl))
  rcases hplain : (Emit.template w.setup (d.forms w.setup) root).run.run w.emitter with ⟨_ | a, e₀⟩
  · rw [hplain] at h
    cases h
  · rw [hplain] at h hout hstate
    rcases hrun : (Emit.template w.setup f root).run.run w.emitter with ⟨r, e⟩
    rw [hrun] at hout hstate
    obtain rfl : .ok a = r := hout
    obtain ⟨-, gs, hglyphs, hgs⟩ := hmoves _ _ _ hrun 0 (s.mixing_start d o)
    rw [hstart, List.nil_append] at hglyphs
    refine ⟨e, rfl, ?_, hglyphs ▸ hgs⟩
    rw [← Emitter.result_eq_ok_iff.mp h]
    exact hstate.glyphs.symm

/-- A source that comes out as a template, with marks that can be computed. -/
theorem Session.exists_labels (d : Dialect) (f : Setup → Forms) (src : String) (ms : List μ)
    (h : let w := (({} : Session).start d {}).1
      (parse (.ofText src) none).toOption.map (fun root =>
        ((({} : Session).write d {} root).1.toOption.isSome,
          labels ((Emit.template w.setup (f w.setup) root).run.run w.emitter).2.glyphs)) =
        some (true, ms)) :
    let w := (({} : Session).start d {}).1
    ∃ root out, parse (.ofText src) none = .ok root ∧
      (({} : Session).write d {} root).1 = .ok out ∧
      ∀ e, (Emit.template w.setup (f w.setup) root).run.run w.emitter = (.ok (), e) →
        labels e.glyphs = ms := by
  obtain ⟨root, hparse, hroot⟩ := Reader.exists_ok_of_map h
  obtain ⟨hsome, hmarks⟩ := Prod.mk.inj hroot
  rcases hout : (({} : Session).write d {} root).1 with f | out
  · rw [hout] at hsome
    exact absurd hsome (by simp [Except.toOption])
  · refine ⟨root, out, hparse, hout, fun e hrun => ?_⟩
    rw [← hmarks, hrun]

end Jade

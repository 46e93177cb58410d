import Jade.Proofs.Dialect.Hosts
import Jade.Proofs.Markup.Markers
import Jade.Proofs.Reader.Outcome

/-!
# Texts in templates

In the plain, the Jinja and the Django dialect, a text of a template is found in the output with its
markers replaced and all other characters as they were. This is so at every place where a template
has a text. Whether expressions are escaped is decided by the place and not by the mark: they are in
text after a bar, beside a tag and in a filter, and they are not in lines and blocks of text. A
backslash before a marker is lost.

## Main results

* `Jade.Session.write_interpolated` : every text of a template
-/

namespace Jade

namespace Session

variable (s : Session) (d : Dialect) (o : Options)

/-- Put one text after the other into a slot within frames, and write the tree. All trees fail with
the same fault; or the text is left out of all of them, which happens only where nodes may be left
out; or all come out as the same text around that in the slot. There every marker is written as its
expression between the delimiters of variables, escaped as in all texts at this place, and all other
characters stand for themselves; a filter is applied to the whole. If the markers fit the place,
this is what their marks ask for. -/
def Interpolates (c : Frames) (x : Slot) : Prop :=
  let setup := (s.start d o).1.setup
  let out (l : Lines) := (s.write d o (c.plug (x.plug l))).1
  (∃ f, ∀ l, out l = .error f) ∨
    (c.mayHide setup (d == .jinja) false x = true ∧ ∃ t, ∀ l, out l = .ok t) ∨
    ∃ before after, ∀ l, (∃ spans, Cut (x.carried l).toList spans) ∧
      ∀ spans, Cut (x.carried l).toList spans →
        out l = .ok (before ++
          x.written setup (String.join (spans.map (Span.shown setup x.escapes))) ++ after) ∧
        ((∀ span ∈ spans, span.Fits x.escapes) →
          String.join (spans.map (Span.shown setup x.escapes)) =
            String.join (spans.map (Span.promised setup)))

end Session

open Emit (Fills Sound)

theorem Dialect.fills_template {d : Dialect} (hd : d = .plain ∨ d = .jinja ∨ d = .django)
    (setup : Setup) (c : Frames) (x : Slot) :
    Fills false (c.mayHide setup (d == .jinja) false x)
      (fun l => x.written setup (setup.filled x.escapes (x.carried l)))
      fun l => Emit.template setup (d.forms setup) (c.plug (x.plug l)) := by
  have hfilled : ∀ escape t, (d.forms setup).interpolate escape t =
      pure (setup.filled escape t) := by
    rcases hd with rfl | rfl | rfl
    · exact fun _ _ => rfl
    · exact fun _ _ => rfl
    · exact fun _ _ => rfl
  have hsound : Sound (fun l => x.written setup (setup.filled x.escapes (x.carried l)))
      (d == .jinja) (d.forms setup) := by
    rcases hd with rfl | rfl | rfl
    · exact Forms.sound_plain setup _
    · exact Forms.sound_jinja setup _
    · exact Forms.sound_django setup _
  exact Emit.fills_template hfilled hsound c

theorem Session.interpolates (s : Session) {d : Dialect}
    (hd : d = .plain ∨ d = .jinja ∨ d = .django) (o : Options) (c : Frames) (x : Slot) :
    s.Interpolates d o c x := by
  have hfills := Dialect.fills_template hd (s.start d o).1.setup c x
  rcases hfills.outcome (s.mixing_start d o) with hfault | hhidden | ⟨before, after, hshown⟩
  · exact .inl hfault
  · exact .inr (.inl hhidden)
  · refine .inr (.inr ⟨before, after, fun l => ⟨exists_cut _, fun spans hcut => ?_⟩⟩)
    rw [← filled_of_cut hcut]
    exact ⟨hshown l, fun hfits => (filled_of_cut hcut _ _).trans (join_shown_eq_promised hfits)⟩

/-- **Every text of a template.** A text of a tree that was read stands in a slot within frames.
Whatever text is put there instead, the output is as in `Session.Interpolates`. -/
theorem Session.write_interpolated (s : Session) (d : Dialect)
    (hd : d = .plain ∨ d = .jinja ∨ d = .django) (o : Options) (src : String) (colons : Bool)
    (file : Option String) (root : Node) (hparse : parse (.ofText src colons) file = .ok root)
    (p : Place) (n : Node) (hn : root.get? p = some n) (hline : n.hasLine = true) :
    ∃ (c : Frames) (x : Slot) (l : Lines), c.place x = p ∧ c.plug (x.plug l) = root ∧
      s.Interpolates d o c x := by
  obtain ⟨nodes, line, es, ks, rfl, -, hderives, -⟩ := Reader.whole_of_parse hparse
  have hfits : Node.AllFit [.block nodes line false] := .singleton rfl hderives.fits
  obtain ⟨c, x, l, hplace, hplug⟩ :=
    Frames.exists_frames (hfits _ (List.mem_singleton.mpr rfl)) hn hline
  exact ⟨c, x, l, hplace, hplug, s.interpolates hd o c x⟩

/-- Text beside a tag in a named block. -/
theorem Session.write_interpolated_page :
    let src := "block a\n  p b #\x7bc\x7d"
    ∃ root n, parse (.ofText src) none = .ok root ∧ root.get? [0, 0, 0] = some n ∧
      n.hasLine = true ∧
      (({} : Session).write .jinja {} root).1.toOption =
        some "\x7b% block a %\x7d\n<p>b \x7b\x7bc|escape\x7d\x7d</p>\x7b% endblock %\x7d" ∧
      ∃ (c : Frames) (x : Slot) (l : Lines), c.place x = [0, 0, 0] ∧ c.plug (x.plug l) = root ∧
        ({} : Session).Interpolates .jinja {} c x := by
  intro src
  have hpage : (parse (.ofText src) none).toOption.map (fun root =>
      ((root.get? [0, 0, 0]).map Node.hasLine,
        (({} : Session).write .jinja {} root).1.toOption)) =
      some (some true,
        some "\x7b% block a %\x7d\n<p>b \x7b\x7bc|escape\x7d\x7d</p>\x7b% endblock %\x7d") := by
    decide +kernel
  obtain ⟨root, hparse, hroot⟩ := Reader.exists_ok_of_map hpage
  obtain ⟨hplace, hout⟩ := Prod.mk.inj hroot
  obtain ⟨n, hn, hline⟩ := Option.map_eq_some_iff.mp hplace
  exact ⟨root, n, hparse, hn, hline, hout,
    write_interpolated {} .jinja (.inr (.inl rfl)) {} src false none root hparse _ n hn hline⟩

/-- Markers that are not written as they ask for: one for an expression that is not escaped, one
with a backslash, and one in a block of text. -/
theorem Session.process_not_promised :
    (({} : Session).process .plain {} (.ofText "p !\x7bx\x7d") none).1.toOption =
        some "<p>\x7b\x7bx|escape\x7d\x7d</p>" ∧
      (({} : Session).process .plain {} (.ofText "p \\#\x7bx\x7d") none).1.toOption =
        some "<p>\x7b\x7bx|escape\x7d\x7d</p>" ∧
      (({} : Session).process .plain {} (.ofText "script\n  #\x7bx\x7d") none).1.toOption =
        some "<script>\x7b\x7bx\x7d\x7d\n</script>" := by
  decide +kernel

end Jade

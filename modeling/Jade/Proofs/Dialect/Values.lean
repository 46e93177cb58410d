import Jade.Proofs.Dialect.Alike
import Jade.Proofs.Emitter.Output

/-!
# Values among the pieces of a page

Nearly all that a page writes is text: what is in attributes and in the text of a template, and what
escaped code writes, is made a text before it is written. Only the value of unescaped code becomes a
piece as it is. If it is a text, it is a piece like the others. If not, it stays there unseen until
all pieces are joined, and then it is a fault, whatever the value is.

To say this of all templates, a page is rendered in a second way, in which the values of unescaped
code are kept as such. Whatever else is to be made of these values, the page is rendered in the same
way, and its pieces are those of the kept page with the values filled in. So a page comes out as a
text exactly if all kept values are texts, and then each of them stands there as it is. With escaped
code instead it always comes out, with the text of each value, escaped.

## Main results

* `Jade.Emitter.isBond_filled`, `Jade.Forms.alike_pageBy` : what is made of values has no influence
* `Jade.Session.renderBy_eq` : the pieces of a page
* `Jade.Session.write_page_values` : the outcome
-/

namespace Jade

/-- The piece, where values are made something else. -/
def Piece.fill (g : Value → Piece) : Piece → Piece
  | .text s => .text s
  | .value v => g v

/-- The text of the piece, where values are shown in some way. -/
def Piece.shown (f : Value → String) : Piece → String
  | .text s => s
  | .value v => f v

/-- The piece is a text, or a value that is one. -/
def Piece.holdsText : Piece → Bool
  | .text _ => true
  | .value v => v.isText

/-! ## Kept values -/

namespace Emitter

variable {e : Emitter} {p : Piece}

/-- The output, where values among the pieces are made something else. A piece that was put is no
value, so what is put next is not affected. -/
def fillOutput (g : Value → Piece) (b : Buffer) : Buffer :=
  { b with
    pieces := b.pieces.map (Piece.fill g)
    bound := by simpa using b.bound
    sound := fun h => by
      obtain ⟨rest, hpieces⟩ := b.sound (by simpa using h)
      exact ⟨rest.map (Piece.fill g), by rw [hpieces]; rfl⟩ }

/-- The emitter, where values among the pieces are made something else. -/
def fill (g : Value → Piece) (e : Emitter) : Emitter := e.withOutput (fillOutput g e.toBuffer)

/-- On the right, values of the left are made something else. -/
def Filled (g : Value → Piece) (e e' : Emitter) : Prop := e' = e.fill g

variable {g : Value → Piece}

theorem Filled.start (h : e.toBuffer = {}) : Filled g e e := by
  rw [Filled, Emitter.fill, h]
  exact congrArg e.withOutput h

theorem Filled.put {e' : Emitter} (s : String) (h : Filled g e e') :
    Filled g (e.put s) (e'.put s) := by
  subst h
  refine congrArg e.withOutput ?_
  show (fillOutput g e.toBuffer).put s = fillOutput g (e.toBuffer.put s)
  simp only [Buffer.put, fillOutput, List.length_map]
  split
  · simp [Piece.fill]
  · simp [Piece.fill]

theorem Filled.push {e' : Emitter} {p' : Piece} (h : Filled g e e') (hp : p' = p.fill g) :
    Filled g (e.push p) (e'.push p') := by
  subst h hp
  rfl

/-- **The bond** between kept values and what is made of them. -/
theorem isBond_filled : IsBond (Filled g) where
  output h := ⟨_, h⟩
  put s h := h.put s
  push s h := h.push rfl
  aside {e e' f} hf h := by
    subst h
    have hself : f e = (f e).withOutput e.toBuffer := hf e e.toBuffer
    have houtput : (f e).toBuffer = e.toBuffer := by
      rw [hself]
      rfl
    rw [Filled, fill, fill, hf, houtput]

/-! What comes of the pieces. -/

theorem mapM_pieceText_fill {f : Value → String} {ps : List Piece}
    (h : ∀ p ∈ ps, pieceText (p.fill g) = .ok (p.shown f)) :
    (ps.map (Piece.fill g)).mapM pieceText = .ok (ps.map (Piece.shown f)) := by
  induction ps with
  | nil => rfl
  | cons p ps ih =>
    rw [List.forall_mem_cons] at h
    rw [List.map_cons, List.mapM_cons, h.1, ih h.2]
    rfl

theorem result_fill {f : Value → String}
    (h : ∀ p ∈ e.pieces, pieceText (p.fill g) = .ok (p.shown f)) :
    (e.fill g).result = .ok (String.join (e.pieces.reverse.map (Piece.shown f))) := by
  have hmap : (e.pieces.reverse.map (Piece.fill g)).mapM pieceText = _ :=
    mapM_pieceText_fill fun p hp => h p (List.mem_reverse.mp hp)
  have hpieces : (e.fill g).pieces.reverse = e.pieces.reverse.map (Piece.fill g) :=
    List.map_reverse.symm
  rw [result, hpieces, hmap]
  rfl

theorem pieceText_ofValue (h : p.holdsText = true) :
    pieceText (p.fill .ofValue) = .ok (p.shown Value.display) := by
  cases p with
  | text s => rfl
  | value v =>
    cases v with
    | text s => rfl
    | _ => cases h

theorem result_fill_of_not_text (hp : p ∈ e.pieces) (h : p.holdsText = false) :
    (e.fill .ofValue).result = .error .wrongType := by
  cases p with
  | text s => cases h
  | value v =>
    have hv : Piece.ofValue v = .value v := by
      cases v with
      | text s => cases h
      | _ => rfl
    refine result_eq_error_of_mem (v := v) ?_
    refine List.mem_flatMap.mpr ⟨.value v, List.mem_reverse.mpr ?_, List.mem_singleton.mpr rfl⟩
    exact List.mem_map.mpr ⟨.value v, hp, hv⟩

end Emitter

/-! ## Pages -/

namespace Forms

open Emit

/-- The forms of a page that makes of the values of unescaped code what `g` says. -/
def pageBy (s : Setup) (g : Value → Piece) : Nat → Forms
  | 0 => { pageWith s fun _ => throw .tooDeep with
      code := codeBy fun v => modify (Emitter.push (g v)) }
  | depth + 1 => { pageWith s fun n => inside s (pageBy s g depth) n with
      code := codeBy fun v => modify (Emitter.push (g v)) }

/-- The forms of a page where all code is escaped. -/
def escapedPage (s : Setup) : Nat → Forms
  | 0 => { pageWith s fun _ => throw .tooDeep with
      code := fun source buffer _ body => pageCode source buffer true body }
  | depth + 1 => { pageWith s fun n => inside s (escapedPage s depth) n with
      code := fun source buffer _ body => pageCode source buffer true body }

theorem pageBy_ofValue (s : Setup) (depth : Nat) : pageBy s .ofValue depth = page s depth := by
  induction depth with
  | zero => rfl
  | succ depth ih =>
    rw [pageBy, ih]
    rfl

/-- A page where all code is escaped makes escaped texts of values. -/
theorem pageBy_escaped (s : Setup) (depth : Nat) :
    pageBy s (fun v => .text (escapeMarkup v.display)) depth = escapedPage s depth := by
  have hcode : codeBy (fun v => modify (Emitter.push (.text (escapeMarkup v.display)))) =
      fun source buffer _ body => pageCode source buffer true body := by
    funext source buffer escape body
    cases escape <;> rfl
  induction depth with
  | zero => rw [pageBy, hcode, escapedPage]
  | succ depth ih => rw [pageBy, hcode, ih, escapedPage]

/-- **What is made of values has no influence** on how a page is rendered, by induction on the depth
of calls. -/
theorem alike_pageBy (s : Setup) (g : Value → Piece) (depth : Nat) :
    (pageBy s .value depth).Alike (Emitter.Filled g) (pageBy s g depth) := by
  have hwrite (v : Value) : Agree (Emitter.Filled g) (modify (Emitter.push (.value v)))
      (modify (Emitter.push (g v))) := fun _ _ he => ⟨rfl, he.push rfl⟩
  induction depth with
  | zero => exact alike_codeBy Emitter.isBond_filled s s.pretty (fun _ => agree_throw _) hwrite
  | succ depth ih =>
    refine alike_codeBy Emitter.isBond_filled s s.pretty (fun n => ?_) hwrite
    exact (follows_node Emitter.isBond_filled (.inl rfl) ih n).2

end Forms

/-! ## Whole templates -/

/-- What comes of a run: all that was written, if it did not fail. -/
def Emit.outcome : Except Fault Unit × Emitter → Except Fault String
  | (.error f, _) => .error f
  | (.ok _, e) => e.result

theorem Emit.fst_run_written (act : Emit Unit) (e : Emitter) :
    ((written act).run.run e).1 = outcome (act.run.run e) := by
  rw [run_written]
  rcases act.run.run e with ⟨f | u, e'⟩
  · rfl
  · rfl

namespace Session

/-- A tree rendered with some forms in place of those of a page. -/
def renderWith (s : Session) (o : Options) (forms : Setup → Forms) (root : Node) :
    Except Fault Unit × Emitter :=
  let w := (s.start .page o).1
  (Emit.template w.setup (forms w.setup) root).run.run w.emitter

/-- A tree rendered as a page that makes of the values of unescaped code what `g` says. -/
def renderBy (s : Session) (o : Options) (g : Value → Piece) (root : Node) :
    Except Fault Unit × Emitter :=
  s.renderWith o (Forms.pageBy · g Forms.callLimit) root

variable (s : Session) (o : Options)

theorem output_start (d : Dialect) : (s.start d o).1.emitter.toBuffer = {} := by
  unfold start
  dsimp only
  split
  · rfl
  · rfl

/-- **The pieces of a page** are those of the page with kept values, filled in. -/
theorem renderBy_eq (g : Value → Piece) (root : Node) :
    s.renderBy o g root =
      ((s.renderBy o .value root).1, (s.renderBy o .value root).2.fill g) := by
  obtain ⟨hout, hfilled⟩ := Emit.agree_template (s := (s.start .page o).1.setup)
    Emitter.isBond_filled (.inl rfl) (Forms.alike_pageBy _ g Forms.callLimit) root _ _
    (.start (s.output_start o .page))
  exact Prod.ext hout.symm hfilled

theorem renderWith_page (root : Node) :
    s.renderWith o (Forms.page · Forms.callLimit) root = s.renderBy o .ofValue root := by
  simp only [renderBy, Forms.pageBy_ofValue]

theorem renderWith_escapedPage (root : Node) :
    s.renderWith o (Forms.escapedPage · Forms.callLimit) root =
      s.renderBy o (fun v => .text (Forms.escapeMarkup v.display)) root := by
  simp only [renderBy, Forms.pageBy_escaped]

theorem write_page_eq (root : Node) : (s.write .page o root).1 =
    Emit.outcome (s.renderWith o (Forms.page · Forms.callLimit) root) :=
  (congrArg Prod.fst (s.write_eq .page o rfl root)).trans (Emit.fst_run_written _ _)

/-- A piece of a page is a text exactly if it holds one in the page with kept values. -/
theorem exists_text_fill_iff (p : Piece) :
    (∃ t, p.fill .ofValue = .text t) ↔ p.holdsText = true := by
  cases p with
  | text s => exact iff_of_true ⟨s, rfl⟩ rfl
  | value v =>
    cases v with
    | text s => exact iff_of_true ⟨s, rfl⟩ rfl
    | _ => exact iff_of_false (fun ⟨t, h⟩ => by cases h) Bool.false_ne_true

/-- **Values among the pieces.** Take any session, options and tree, and keep the values of all
unescaped code while the tree is rendered as a page. It ends in the same way without that. All
pieces of the page are texts exactly if all these values are texts. If so, and if rendering does not
fail, the page comes out and shows each of them as the text that it is, and otherwise joining the
pieces is a fault. If all code is escaped instead, the page comes out whenever rendering does not
fail, and shows the text of each value, escaped. -/
theorem write_page_values (root : Node) :
    let page := s.renderWith o (Forms.page · Forms.callLimit) root
    let escaped := s.renderWith o (Forms.escapedPage · Forms.callLimit) root
    let kept := s.renderBy o .value root
    let texts := kept.2.pieces.all Piece.holdsText
    let shown (f : Value → String) := String.join (kept.2.pieces.reverse.map (Piece.shown f))
    page.1 = kept.1 ∧
      ((∀ p ∈ page.2.pieces, ∃ t, p = .text t) ↔ texts = true) ∧
      (s.write .page o root).1 = (do
        kept.1
        if texts then .ok (shown Value.display) else .error .wrongType) ∧
      Emit.outcome escaped = (do
        kept.1
        return shown fun v => Forms.escapeMarkup v.display) := by
  intro page escaped kept texts shown
  have hpage : page = (kept.1, kept.2.fill .ofValue) :=
    (s.renderWith_page o root).trans (s.renderBy_eq o _ root)
  have hescaped : escaped = (kept.1, kept.2.fill _) :=
    (s.renderWith_escapedPage o root).trans (s.renderBy_eq o _ root)
  refine ⟨by rw [hpage], ?_, ?_, ?_⟩
  · rw [hpage]
    refine List.forall_mem_map.trans ?_
    simp only [exists_text_fill_iff]
    exact List.all_eq_true.symm
  · refine (s.write_page_eq o root).trans ?_
    rw [show s.renderWith o (Forms.page · Forms.callLimit) root = page from rfl, hpage]
    cases kept.1 with
    | error f => rfl
    | ok u =>
      show (kept.2.fill .ofValue).result = if texts then _ else _
      split
      · next htexts =>
        exact Emitter.result_fill fun p hp =>
          Emitter.pieceText_ofValue (List.all_eq_true.mp htexts p hp)
      · next htexts =>
        obtain ⟨p, hp, hp'⟩ := List.all_eq_false.mp (Bool.eq_false_iff.mpr htexts)
        exact Emitter.result_fill_of_not_text hp (Bool.eq_false_iff.mpr hp')
  · rw [hescaped]
    cases kept.1 with
    | error f => rfl
    | ok u => exact Emitter.result_fill fun p _ => by cases p <;> rfl

/-- A number that is not escaped is a piece that is no text, and the page does not come out. With
escaped code it does. -/
theorem write_page_number :
    let s : Session := {}
    let root : Node := .block [.code " 5" true false none none] none false
    (∃ p ∈ (s.renderWith {} (Forms.page · Forms.callLimit) root).2.pieces, ∀ t, p ≠ .text t) ∧
      (s.write .page {} root).1 = .error .wrongType ∧
      Emit.outcome (s.renderWith {} (Forms.escapedPage · Forms.callLimit) root) = .ok "5" := by
  intro s root
  refine ⟨?_, by decide +kernel, by decide +kernel⟩
  have hvalue : (s.renderWith {} (Forms.page · Forms.callLimit) root).2.pieces.any (fun
      | .text _ => false
      | .value _ => true) = true := by decide +kernel
  obtain ⟨p, hp, hp'⟩ := List.any_eq_true.mp hvalue
  refine ⟨p, hp, ?_⟩
  rintro t rfl
  cases hp'

end Session

end Jade

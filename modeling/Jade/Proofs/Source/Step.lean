import Jade.Proofs.Token.Taken
import Jade.Source

/-!
# One token

What reading a token from the characters does to a source, said once. A token that was put off
comes first; at the end the open indentations close one by one; a line end opens one indentation,
closes any number of them or keeps the depth; and everything else is a token of a line. Later
results about sources go through these cases and do not look into the forms again.

Two things keep reading from giving a token: a line that is indented with tabs and blanks at once,
and a source that ends after the colon of a tag. There is no third: some form always fits.

## Main results

* `Jade.Source.lineEnd_arrives` : what a line end comes to
* `Jade.Source.reads_of_next`, `Jade.Source.fails_of_next` : there are no other ways
* `Jade.Source.next_behind` : reading from the characters does not look at the tokens read ahead
-/

namespace Jade

/-! ## Lines that hold nothing -/

namespace Rules

theorem lastLineEnd_eq_or_suffix (keep cs : List Char) :
    lastLineEnd keep cs = keep ∨
      (∃ r, lastLineEnd keep cs = '\n' :: r) ∧ lastLineEnd keep cs <:+ cs := by
  induction cs generalizing keep with
  | nil => exact .inl rfl
  | cons c cs ih =>
    rw [lastLineEnd.eq_def]
    split
    · next heq =>
      cases heq
      rcases ih keep with h | ⟨hhead, hsuf⟩
      · exact .inl h
      · exact .inr ⟨hhead, hsuf.trans (List.suffix_cons _ _)⟩
    · next heq =>
      cases heq
      rcases ih ('\n' :: cs) with h | ⟨hhead, hsuf⟩
      · exact .inr ⟨⟨cs, h⟩, [], h⟩
      · exact .inr ⟨hhead, hsuf.trans (List.suffix_cons _ _)⟩
    · exact .inl rfl

theorem dropBlankLines_suffix (cs : List Char) : dropBlankLines cs <:+ cs := by
  rw [dropBlankLines.eq_def]
  split
  · next cs =>
    rcases lastLineEnd_eq_or_suffix ('\n' :: cs) cs with h | ⟨-, hsuf⟩
    · exact ⟨[], h⟩
    · exact hsuf.trans (List.suffix_cons _ _)
  · exact List.suffix_refl _

theorem dropBlankLines_cons_newline (cs : List Char) :
    ∃ r, dropBlankLines ('\n' :: cs) = '\n' :: r := by
  rcases lastLineEnd_eq_or_suffix ('\n' :: cs) cs with h | ⟨hhead, -⟩
  · exact ⟨cs, h⟩
  · exact hhead

theorem dropBlankLines_of_ne {cs : List Char} (h : cs.head? ≠ some '\n') :
    dropBlankLines cs = cs := by
  rw [dropBlankLines.eq_def]
  split
  · exact absurd rfl h
  · rfl

end Rules

/-! ## Lines -/

/-- A character that lines are indented with. -/
def isIndentation (c : Char) : Bool := c == ' ' || c == '\t'

/-- The number of characters that a line is indented with. -/
def column (cs : List Char) : Nat := (cs.takeWhile isIndentation).length

/-- A line without its indentation. -/
def unindented (cs : List Char) : List Char := cs.dropWhile isIndentation

/-- Whether nothing is left of a line. -/
def endsLine : List Char → Bool
  | [] => true
  | c :: _ => c == '\n'

namespace Source

variable {s s' : Source} {cs : List Char} {t : Token}

/-! ## Reading -/

/-- The ways in which a token is read: a token, and the source after it. -/
inductive Reads (s : Source) : Token → Source → Prop
  /-- A token that was put before those still to read. -/
  | deferred {t : Token} {ts : List Token} (hd : s.deferred = t :: ts) :
    Reads s t { s with deferred := ts }
  /-- The end of the source. -/
  | eos (hd : s.deferred = []) (hr : s.rest = []) (hi : s.indents = []) : Reads s (s.tok .eos) s
  /-- An indentation that is open at the end of the source. -/
  | close {w : Nat} {ws : List Nat} (hd : s.deferred = []) (hr : s.rest = [])
    (hi : s.indents = w :: ws) : Reads s (s.tok .outdent) { s with indents := ws }
  /-- A line end after which the depth is as before. -/
  | newline {rest : List Char} {line : Nat} {style : Option IndentStyle} (hd : s.deferred = [])
    (hr : rest.length < s.rest.length) :
    Reads s { body := .newline, line } { s with rest, line, style }
  /-- A line end after which the depth is greater. -/
  | indent {rest : List Char} {line w : Nat} {style : Option IndentStyle} (hd : s.deferred = [])
    (hr : rest.length + w < s.rest.length) (hw : 0 < w) (hi : ∀ v ∈ s.indents.head?, v < w) :
    Reads s { body := .indent w, line } { s with rest, line, style, indents := w :: s.indents }
  /-- A line end after which the depth is smaller. All but one of the outdents are stashed. -/
  | outdent {rest : List Char} {line k : Nat} {style : Option IndentStyle} {left kept : List Nat}
    (hd : s.deferred = []) (hr : rest.length < s.rest.length) (hi : s.indents = left ++ kept)
    (hk : left.length = k + 1) :
    Reads s { body := .outdent, line }
      { s with
        rest, line, style, indents := kept
        stash := s.stash ++ List.replicate k { body := .outdent, line } }
  /-- A token of a line. -/
  | content {body : Token.Body} {rest : List Char} (hd : s.deferred = [])
    (hr : rest.length < s.rest.length) (hb : body.isContent = true) :
    Reads s (s.tok body) { s with rest }
  /-- The name of a tag with a colon after it, which is put off. -/
  | tagColon {name : String} {rest : List Char} (hd : s.deferred = [])
    (hr : rest.length + 1 < s.rest.length) :
    Reads s (s.tok (.tag name)) { s with rest, deferred := [s.tok .colon] }

/-- The ways in which no token is read: a fault, and the source after it. -/
inductive Fails (s : Source) : Fault → Source → Prop
  /-- A line is indented with tabs and blanks at once. -/
  | mixed {rest : List Char} {line : Nat} {style : Option IndentStyle} (hd : s.deferred = [])
    (hr : rest.length < s.rest.length) : Fails s .mixedIndentation { s with rest, line, style }
  /-- The source ends after the colon of a tag. -/
  | tagColon (hd : s.deferred = []) (hr : 1 < s.rest.length) :
    Fails s .endOfSource { s with rest := [], deferred := [s.tok .colon] }

/-- The outcome of reading is one of the ways above. -/
def Steps (s : Source) : Except Fault Token × Source → Prop
  | (.ok t, s') => s.Reads t s'
  | (.error e, s') => s.Fails e s'

/-- Leaving out some characters first does not matter, unless nothing is left of them. -/
theorem Steps.of_rest {r : List Char} {out : Except Fault Token × Source}
    (h : Steps { s with rest := r } out) (hd : s.deferred = []) (hle : r.length ≤ s.rest.length)
    (hnil : r = [] → s.rest = []) : s.Steps out := by
  obtain ⟨result, s'⟩ := out
  cases result with
  | error e =>
    cases h with
    | mixed hd hr => exact .mixed hd (Nat.lt_of_lt_of_le hr hle)
    | tagColon hd hr => exact .tagColon hd (Nat.lt_of_lt_of_le hr hle)
  | ok t =>
    have hsame : r = [] → { s with rest := r } = s := fun hr => by rw [hr, ← hnil hr]
    cases h with
    | deferred hd' => exact nomatch hd.symm.trans hd'
    | eos hd hr hi =>
      rw [hsame hr]
      exact .eos hd (hnil hr) hi
    | close hd hr hi =>
      have hrest : s.rest = r := (hnil hr).trans hr.symm
      subst hrest
      exact .close hd hr hi
    | newline hd hr => exact .newline hd (Nat.lt_of_lt_of_le hr hle)
    | indent hd hr hw hi => exact .indent hd (Nat.lt_of_lt_of_le hr hle) hw hi
    | outdent hd hr hi hk => exact .outdent hd (Nat.lt_of_lt_of_le hr hle) hi hk
    | content hd hr hb => exact .content hd (Nat.lt_of_lt_of_le hr hle) hb
    | tagColon hd hr => exact .tagColon hd (Nat.lt_of_lt_of_le hr hle)

/-! ## Line ends -/

/-- The ways in which a line is entered, where `cs` follows the line end: the token that is read,
and the source after it. -/
inductive Enters (s : Source) (cs : List Char) : Token → Source → Prop
  /-- The line has nothing on it. -/
  | blank {style : Option IndentStyle} (hb : endsLine (unindented cs) = true) :
    Enters s cs { body := .newline, line := s.line + 1 }
      { s with rest := unindented cs, line := s.line + 1, style }
  /-- The line goes back behind some of the open levels. -/
  | back {style : Option IndentStyle} {k : Nat} (hb : endsLine (unindented cs) = false)
    (hk : (s.indents.takeWhile (column cs < ·)).length = k + 1) :
    Enters s cs { body := .outdent, line := s.line + 1 }
      { s with
        rest := unindented cs, line := s.line + 1, style
        indents := s.indents.dropWhile (column cs < ·)
        stash := s.stash ++ List.replicate k { body := .outdent, line := s.line + 1 } }
  /-- The line is deeper than the innermost level. -/
  | deeper {style : Option IndentStyle} (hb : endsLine (unindented cs) = false)
    (hk : s.indents.takeWhile (column cs < ·) = []) (hc : column cs ≠ 0)
    (hne : s.indents.head? ≠ some (column cs)) :
    Enters s cs { body := .indent (column cs), line := s.line + 1 }
      { s with
        rest := unindented cs, line := s.line + 1, style, indents := column cs :: s.indents }
  /-- The line is at the innermost level. -/
  | same {style : Option IndentStyle} (hb : endsLine (unindented cs) = false)
    (hk : s.indents.takeWhile (column cs < ·) = [])
    (hc : column cs = 0 ∨ s.indents.head? = some (column cs)) :
    Enters s cs { body := .newline, line := s.line + 1 }
      { s with rest := unindented cs, line := s.line + 1, style }

/-- What a line end comes to: a line is entered, or its indentation is mixed. -/
def Arrives (s : Source) (cs : List Char) : Except Fault Token × Source → Prop
  | (.ok t, s') => s.Enters cs t s'
  | (.error e, s') => e = .mixedIndentation ∧ ∃ blanks rest style, cs = blanks ++ rest ∧
      (∀ c ∈ blanks, isIndentation c = true) ∧ s' = { s with rest, line := s.line + 1, style }

theorem measure_split (style : Option IndentStyle) (cs : List Char) :
    ∃ blanks, cs = blanks ++ cs.drop (measure style cs).1 ∧
      blanks.length = (measure style cs).1 ∧ ∀ c ∈ blanks, isIndentation c = true := by
  have hrun (d : Char) (hd : isIndentation d = true) : ∃ blanks,
      cs = blanks ++ cs.drop (cs.takeWhile (· == d)).length ∧
        blanks.length = (cs.takeWhile (· == d)).length ∧
        ∀ c ∈ blanks, isIndentation c = true := by
    refine ⟨cs.takeWhile (· == d), ?_, rfl, fun c hc => ?_⟩
    · exact (List.prefix_iff_eq_append.mp (List.takeWhile_prefix _)).symm
    · have hcd := List.mem_takeWhile_imp hc
      rwa [show c = d from eq_of_beq hcd]
  rw [measure.eq_def]
  dsimp only
  split
  · exact hrun '\t' rfl
  · exact hrun ' ' rfl
  · split
    · exact hrun '\t' rfl
    · split
      · exact hrun ' ' rfl
      · exact ⟨[], rfl, rfl, by simp⟩

/-- **A line end** comes to one of these. -/
theorem lineEnd_arrives (s : Source) (cs : List Char) : s.Arrives cs (s.lineEnd cs) := by
  obtain ⟨blanks, hsplit, hwidth, hblanks⟩ := measure_split s.style cs
  rw [lineEnd]
  generalize measure s.style cs = m at hsplit hwidth
  obtain ⟨width, style⟩ := m
  dsimp only at hsplit hwidth ⊢
  generalize cs.drop width = rest at hsplit
  by_cases hmix : rest.head?.any isIndentation = true
  · cases rest with
    | nil => cases hmix
    | cons c rest =>
      dsimp only
      rw [if_pos (show (c == ' ' || c == '\t') = true from hmix)]
      exact ⟨rfl, blanks, _, style, hsplit, hblanks, rfl⟩
  · -- no indentation is left, so what was measured is all of it
    obtain ⟨rfl, rfl⟩ : width = column cs ∧ rest = unindented cs := by
      rw [← hwidth, hsplit, column, unindented, List.takeWhile_append_of_pos hblanks,
        List.dropWhile_append_of_pos hblanks]
      cases rest <;> simp_all
    split
    · next hnil => exact .blank (by rw [hnil]; rfl)
    · next c rest hcons =>
      rw [hcons] at hmix
      rw [if_neg (show ¬ (c == ' ' || c == '\t') = true from hmix)]
      split
      · next hnl => exact .blank (by rw [hcons]; exact hnl)
      · next hnl =>
        have hb : endsLine (unindented cs) = false := by
          rw [hcons]
          exact Bool.not_eq_true _ ▸ hnl
        unfold enter
        split
        · next w more hleft =>
          rw [List.map_const']
          exact .back hb (by rw [hleft]; rfl)
        · next hleft =>
          split
          · next hcond =>
            obtain ⟨hc, hne⟩ := by simpa using hcond
            exact .deeper hb hleft hc hne
          · next hcond =>
            refine .same hb hleft ?_
            by_cases hc : column cs = 0
            · exact .inl hc
            · refine .inr ?_
              simpa [hc] using hcond

theorem enters_of_lineEnd (h : s.lineEnd cs = (.ok t, s')) : s.Enters cs t s' := by
  have harrives := s.lineEnd_arrives cs
  rwa [h] at harrives

theorem lt_of_deeper {ws : List Nat} {w : Nat} (hk : ws.takeWhile (w < ·) = [])
    (hne : ws.head? ≠ some w) : ∀ v ∈ ws.head?, v < w := by
  intro v hv
  obtain ⟨ws, rfl⟩ := List.head?_eq_some_iff.mp hv
  have hle : ¬ w < v := by simpa using hk
  have hne : v ≠ w := by simpa using hne
  omega

theorem lineEnd_steps (hd : s.deferred = []) (hr : s.rest = '\n' :: cs) :
    s.Steps (s.lineEnd cs) := by
  have harrives := s.lineEnd_arrives cs
  generalize s.lineEnd cs = out at harrives
  obtain ⟨e | t, s'⟩ := out
  · obtain ⟨rfl, blanks, rest, style, rfl, -, rfl⟩ := harrives
    have hlen := congrArg List.length hr
    rw [List.length_cons, List.length_append] at hlen
    exact .mixed hd (by omega)
  · have hlen : (unindented cs).length + column cs < s.rest.length := by
      have hsplit := congrArg List.length
        (List.takeWhile_append_dropWhile (p := isIndentation) (l := cs))
      rw [List.length_append] at hsplit
      rw [hr, List.length_cons, unindented, column]
      omega
    have hlt : (unindented cs).length < s.rest.length := by omega
    cases harrives with
    | blank | same => exact .newline hd hlt
    | back _ hk => exact .outdent hd hlt List.takeWhile_append_dropWhile.symm hk
    | deeper _ hk hc hne => exact .indent hd hlen (Nat.pos_of_ne_zero hc) (lt_of_deeper hk hne)

/-! ## Tokens of a line -/

theorem scan_none {f : Rules.Form} (h : s.scan f = (none, s')) : f s.rest = none ∧ s' = s := by
  rw [scan] at h
  split at h
  · cases h
  · next hform => exact ⟨hform, (Prod.mk.inj h).2.symm⟩

/-- A name with a colon at its end has a character before the colon. -/
theorem length_of_tag?_colon {rest : List Char} {name : String}
    (h : Rules.tag? cs = some (name, rest)) (hc : name.endsWith ":" = true) :
    rest.length + 1 < cs.length := by
  obtain ⟨before, rfl, ⟨c, ds, rfl, -⟩, -⟩ := Rules.eq_append_of_tag? h hc
  simp only [List.length_append, List.length_cons]
  omega

theorem scanTag_none (h : s.scanTag = (.ok none, s')) : s' = s := by
  rw [scanTag] at h
  split at h
  · exact (Prod.mk.inj h).2.symm
  · split at h
    · dsimp only at h
      split at h
      · cases h
      · cases h
    · cases h

theorem text?_isSome (hne : cs ≠ []) (hnl : cs.head? ≠ some '\n') :
    (Rules.text? cs).isSome = true := by
  obtain ⟨c, cs, rfl⟩ := List.exists_cons_of_ne_nil hne
  have hc : Rules.inLine c = true := by
    rw [Rules.inLine, bne_iff_ne]
    rintro rfl
    exact hnl rfl
  have hrun : Rules.text? (c :: cs) = some (_, _) := Rules.run?_eq_some_iff.mpr
    ⟨by rw [List.takeWhile_cons_of_pos hc]; simp, rfl, rfl⟩
  rw [hrun]
  rfl

theorem firstOf_afterAttrs_isSome (forms : List Rules.Form) (hne : cs ≠ [])
    (hnl : cs.head? ≠ some '\n') :
    (Rules.firstOf (forms ++ Rules.afterAttrs) cs).isSome = true := by
  rw [Rules.firstOf, List.findSome?_isSome_iff]
  refine ⟨Rules.form Rules.text? .text, by simp [Rules.afterAttrs], ?_⟩
  rw [Rules.form, Option.isSome_map]
  exact text?_isSome hne hnl

/-- The forms of a line, apart from the names of tags. -/
def lineForms (colons : Bool) : List Rules.Form :=
  Rules.beforeTag ++ (Rules.afterTag ++ [Rules.attrs? colons] ++ Rules.afterAttrs)

theorem forall_lineForms {P : Rules.Form → Prop} {colons : Bool}
    (hbefore : ∀ f ∈ Rules.beforeTag, P f) (hafter : ∀ f ∈ Rules.afterTag, P f)
    (hattrs : P (Rules.attrs? colons)) (hlast : ∀ f ∈ Rules.afterAttrs, P f) :
    ∀ f ∈ lineForms colons, P f := by
  simp only [lineForms, List.forall_mem_append, List.forall_mem_singleton]
  exact ⟨hbefore, ⟨hafter, hattrs⟩, hlast⟩

theorem lineForms_makes {colons : Bool} :
    ∀ f ∈ lineForms colons, Rules.Makes (fun _ => True) f :=
  forall_lineForms (fun f hf => (Rules.beforeTag_makes f hf).any)
    (fun f hf => (Rules.afterTag_makes f hf).any) (Rules.attrs?_makes _)
    fun f hf => (Rules.afterAttrs_makes f hf).any

/-- What is found on a line, and the source after it. -/
inductive Finds (s : Source) : Except Fault Token × Source → Prop
  /-- A form fits. -/
  | form {f : Rules.Form} {body : Token.Body} {rest : List Char} (hf : f ∈ lineForms s.colons)
    (h : f s.rest = some (body, rest)) : Finds s (.ok (s.tok body), { s with rest })
  /-- The name of a tag. -/
  | tag {name : String} {rest : List Char} (h : Rules.tag? s.rest = some (name, rest)) :
    Finds s (.ok (s.tok (.tag name)), { s with rest })
  /-- The name of a tag with a colon after it. -/
  | tagColon {name : String} {rest : List Char} (h : Rules.tag? s.rest = some (name, rest))
    (hc : name.endsWith ":" = true) :
    Finds s (.ok (s.tok (.tag (String.ofList name.toList.dropLast))),
      { s with rest := rest.dropWhile Rules.isSpace, deferred := s.deferred ++ [s.tok .colon] })
  /-- The source ends after the colon of a tag. -/
  | ends {name : String} {rest : List Char} (h : Rules.tag? s.rest = some (name, rest))
    (hc : name.endsWith ":" = true) (hr : rest.dropWhile Rules.isSpace = []) :
    Finds s (.error .endOfSource, { s with rest := [], deferred := s.deferred ++ [s.tok .colon] })
  /-- The line does not go on. -/
  | nothing (h : s.rest = [] ∨ s.rest.head? = some '\n') : Finds s (.error .endOfSource, s)

/-- **Reading on a line** goes one of the ways above. -/
theorem inLine_finds (s : Source) : s.Finds s.inLine := by
  have hform {forms : List Rules.Form} {t : Token} {s' : Source}
      (hforms : forms ⊆ lineForms s.colons) (h : s.scanForms forms = (some t, s')) :
      s.Finds (.ok t, s') := by
    rw [scanForms, scan] at h
    split at h
    · next hfirst =>
      obtain ⟨f, hf, hfits⟩ := List.exists_of_findSome?_eq_some hfirst
      cases h
      exact .form (hforms hf) hfits
    · cases h
  rw [inLine]
  split
  · next hbefore => exact hform (List.subset_append_left _ _) hbefore
  · next s₁ hbefore =>
    obtain ⟨-, rfl⟩ := scan_none hbefore
    rw [scanTag]
    cases htag : Rules.tag? s₁.rest with
    | none =>
      dsimp only
      split
      · next hafter => exact hform (List.subset_append_right _ _) hafter
      · next s₂ hafter =>
        -- the forms after a tag end with the one that fits any line
        obtain ⟨hnone, rfl⟩ := scan_none hafter
        refine .nothing (Decidable.byContradiction fun hno => ?_)
        obtain ⟨hne, hnl⟩ := not_or.mp hno
        have hsome := firstOf_afterAttrs_isSome (Rules.afterTag ++ [Rules.attrs? s₂.colons]) hne hnl
        rw [hnone] at hsome
        cases hsome
    | some found =>
      dsimp only
      by_cases hc : found.1.endsWith ":" = true
      · rw [if_pos hc]
        by_cases hempty : (found.2.dropWhile Rules.isSpace).isEmpty = true
        · rw [if_pos hempty, List.isEmpty_iff.mp hempty]
          exact .ends htag hc (List.isEmpty_iff.mp hempty)
        · rw [if_neg hempty]
          exact .tagColon htag hc
      · rw [if_neg hc]
        exact .tag htag

theorem inLine_steps (hd : s.deferred = []) (hne : s.rest ≠ []) (hnl : s.rest.head? ≠ some '\n') :
    s.Steps s.inLine := by
  have hfinds := s.inLine_finds
  generalize s.inLine = out at hfinds
  cases hfinds with
  | form hf h => exact .content hd (lineForms_makes _ hf h).1.length_lt (lineForms_makes _ hf h).2.1
  | tag h => exact .content hd (Rules.tag?_takes h).length_lt rfl
  | @tagColon _ rest h hc =>
    have hlen := length_of_tag?_colon h hc
    have hafter : (rest.dropWhile Rules.isSpace).length ≤ rest.length :=
      (List.dropWhile_suffix _).length_le
    rw [hd]
    exact .tagColon hd (by omega)
  | ends h hc =>
    have hlen := length_of_tag?_colon h hc
    rw [hd]
    exact .tagColon hd (by omega)
  | nothing h => exact h.elim (absurd · hne) (absurd · hnl)

/-! ## Any token -/

theorem atEnd_steps (hd : s.deferred = []) (hr : s.rest = []) : s.Reads s.atEnd.1 s.atEnd.2 := by
  rw [atEnd]
  split
  · next hi => exact .close hd hr hi
  · next hi => exact .eos hd hr hi

theorem textLine_steps (hd : s.deferred = []) (hne : s.rest ≠ []) (hnl : s.rest.head? ≠ some '\n') :
    s.Reads s.textLine.1 s.textLine.2 := by
  rw [textLine, Rules.restOfLine, List.span_eq_takeWhile_dropWhile]
  refine .content hd ?_ rfl
  obtain ⟨⟨content, rest⟩, htext⟩ := Option.isSome_iff_exists.mp (text?_isSome hne hnl)
  obtain ⟨-, -, rfl⟩ := Rules.run?_eq_some_iff.mp htext
  exact (Rules.text?_takes htext).length_lt

theorem fresh_of_nil (hr : s.rest = []) : s.fresh = (.ok s.atEnd.1, s.atEnd.2) := by
  rw [fresh, hr]

theorem fresh_of_newline (hr : s.rest = '\n' :: cs) : s.fresh = s.lineEnd cs := by
  rw [fresh, hr]
  rfl

theorem fresh_of_inline (hne : s.rest ≠ []) (hnl : s.rest.head? ≠ some '\n') :
    s.fresh = if s.pipeless then (.ok s.textLine.1, s.textLine.2) else s.inLine := by
  rw [fresh]
  split
  · next hr => exact absurd hr hne
  · next hr => exact absurd (by rw [hr]; rfl) hnl
  · rfl

/-- What the characters left can be: none, a line end, or the rest of a line. -/
theorem rest_cases (s : Source) :
    s.rest = [] ∨ (∃ cs, s.rest = '\n' :: cs) ∨ s.rest ≠ [] ∧ s.rest.head? ≠ some '\n' := by
  cases hr : s.rest with
  | nil => exact .inl rfl
  | cons c cs =>
    by_cases hc : c = '\n'
    · exact .inr (.inl ⟨cs, by rw [hc]⟩)
    · exact .inr (.inr ⟨by simp, by simpa using hc⟩)

theorem fresh_steps (hd : s.deferred = []) : s.Steps s.fresh := by
  rcases s.rest_cases with hr | ⟨cs, hr⟩ | ⟨hne, hnl⟩
  · rw [fresh_of_nil hr]
    exact atEnd_steps hd hr
  · rw [fresh_of_newline hr]
    exact lineEnd_steps hd hr
  · rw [fresh_of_inline hne hnl]
    split
    · exact textLine_steps hd hne hnl
    · exact inLine_steps hd hne hnl

/-- **One token.** Whatever a source is, reading a token from its characters goes one of the ways
above. -/
theorem next_steps (s : Source) : s.Steps s.next := by
  rw [next]
  split
  · next hd => exact .deferred hd
  · next hd =>
    rw [skipBlankLines]
    split
    · exact fresh_steps hd
    · refine (fresh_steps (s := { s with rest := Rules.dropBlankLines s.rest }) hd).of_rest hd
        (Rules.dropBlankLines_suffix s.rest).length_le fun hnil => ?_
      rw [Rules.dropBlankLines.eq_def] at hnil
      split at hnil
      · next cs hcs =>
        obtain ⟨r, hr⟩ := Rules.dropBlankLines_cons_newline cs
        exact nomatch hr.symm.trans hnil
      · exact hnil

theorem reads_of_next (h : s.next = (.ok t, s')) : s.Reads t s' := by
  have hstep := s.next_steps
  rw [h] at hstep
  exact hstep

theorem fails_of_next {e : Fault} (h : s.next = (.error e, s')) : s.Fails e s' := by
  have hstep := s.next_steps
  rw [h] at hstep
  exact hstep

/-- What reading a token stashes are more tokens like it, and only outdents come several at
once. -/
theorem Reads.stashed (h : s.Reads t s') :
    ∃ k, s'.stash = s.stash ++ List.replicate k t ∧ (k ≠ 0 → t.body = .outdent) := by
  cases h with
  | @outdent _ _ k => exact ⟨k, rfl, fun _ => rfl⟩
  | deferred => exact ⟨0, (List.append_nil _).symm, absurd rfl⟩
  | eos => exact ⟨0, (List.append_nil _).symm, absurd rfl⟩
  | close => exact ⟨0, (List.append_nil _).symm, absurd rfl⟩
  | newline => exact ⟨0, (List.append_nil _).symm, absurd rfl⟩
  | indent => exact ⟨0, (List.append_nil _).symm, absurd rfl⟩
  | content => exact ⟨0, (List.append_nil _).symm, absurd rfl⟩
  | tagColon => exact ⟨0, (List.append_nil _).symm, absurd rfl⟩

theorem Reads.stash (h : s.Reads t s') : ∃ k, s'.stash = s.stash ++ List.replicate k t := by
  obtain ⟨k, hstash, -⟩ := h.stashed
  exact ⟨k, hstash⟩

/-! ## Tokens read ahead

Reading from the characters only ever adds to the tokens read ahead, so it does the same whatever
they are. -/

/-- A source with more tokens read ahead, before those that it has. -/
def behind (ts : List Token) (s : Source) : Source := { s with stash := ts ++ s.stash }

theorem scan_behind (ts : List Token) (f : Rules.Form) (s : Source) :
    (s.behind ts).scan f = ((s.scan f).1, (s.scan f).2.behind ts) := by
  rw [scan, scan, behind]
  cases f s.rest <;> rfl

theorem lineEnd_behind (ts : List Token) (s : Source) (cs : List Char) :
    (s.behind ts).lineEnd cs = ((s.lineEnd cs).1, (s.lineEnd cs).2.behind ts) := by
  rw [lineEnd, lineEnd]
  dsimp only [behind]
  cases cs.drop (measure s.style cs).1 with
  | nil => rfl
  | cons c rest =>
    dsimp only
    by_cases hmix : (c == ' ' || c == '\t') = true
    · rw [if_pos hmix, if_pos hmix]
    · by_cases hnl : (c == '\n') = true
      · rw [if_neg hmix, if_neg hmix, if_pos hnl, if_pos hnl]
        rfl
      · rw [if_neg hmix, if_neg hmix, if_neg hnl, if_neg hnl, enter, enter]
        dsimp only
        generalize s.indents.takeWhile (fun w => decide ((measure s.style cs).1 < w)) = left
        cases left with
        | nil =>
          dsimp only
          split <;> rfl
        | cons w more =>
          dsimp only
          rw [List.append_assoc]
          rfl

theorem scanTag_behind (ts : List Token) (s : Source) :
    (s.behind ts).scanTag = (s.scanTag.1, s.scanTag.2.behind ts) := by
  rw [scanTag, scanTag]
  simp only [behind]
  cases Rules.tag? s.rest with
  | none => rfl
  | some found =>
    dsimp only
    split
    · split <;> rfl
    · rfl

theorem inLine_behind (ts : List Token) (s : Source) :
    (s.behind ts).inLine = (s.inLine.1, s.inLine.2.behind ts) := by
  rw [inLine, inLine, scanForms, scanForms, scan_behind]
  rcases s.scan (Rules.firstOf Rules.beforeTag) with ⟨_ | t, s₁⟩
  · dsimp only
    rw [scanTag_behind]
    rcases s₁.scanTag with ⟨_ | _ | t, s₂⟩
    · rfl
    · dsimp only
      rw [scanForms, scanForms, scan_behind, show (s₂.behind ts).colons = s₂.colons from rfl]
      rcases s₂.scan (Rules.firstOf (Rules.afterTag ++ [Rules.attrs? s₂.colons] ++
        Rules.afterAttrs)) with ⟨_ | t, s₃⟩ <;> rfl
    · rfl
  · rfl

theorem atEnd_behind (ts : List Token) (s : Source) :
    (s.behind ts).atEnd = (s.atEnd.1, s.atEnd.2.behind ts) := by
  rw [atEnd, atEnd, show (s.behind ts).indents = s.indents from rfl]
  split <;> rfl

theorem fresh_behind (ts : List Token) (s : Source) :
    (s.behind ts).fresh = (s.fresh.1, s.fresh.2.behind ts) := by
  rcases s.rest_cases with hr | ⟨cs, hr⟩ | ⟨hne, hnl⟩
  · rw [fresh_of_nil hr, fresh_of_nil (s := s.behind ts) hr, atEnd_behind]
  · rw [fresh_of_newline hr, fresh_of_newline (s := s.behind ts) hr, lineEnd_behind]
  · rw [fresh_of_inline hne hnl, fresh_of_inline (s := s.behind ts) hne hnl]
    rw [show (s.behind ts).pipeless = s.pipeless from rfl]
    split
    · rfl
    · exact inLine_behind ts s

/-- **The tokens read ahead do not matter.** -/
theorem next_behind (ts : List Token) (s : Source) :
    (s.behind ts).next = (s.next.1, s.next.2.behind ts) := by
  have hskip : (s.behind ts).skipBlankLines = s.skipBlankLines.behind ts := by
    rw [skipBlankLines, skipBlankLines, show (s.behind ts).pipeless = s.pipeless from rfl]
    split <;> rfl
  rw [next, next, hskip, show (s.behind ts).deferred = s.deferred from rfl]
  split
  · rfl
  · exact fresh_behind ts _

end Source

end Jade

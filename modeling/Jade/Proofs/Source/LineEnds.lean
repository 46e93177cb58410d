import Jade.Proofs.Source.Columns

/-!
# Line ends

A line end is read for the layout: lines that hold nothing are passed over, the line end after them
enters a line, and the indentation of that line is measured. Besides, a list of attributes may go
over several lines. All other tokens should keep to their line. A line end that one of them takes
has no token of its own, and what follows it is read as if it went on the same line.

Two forms do not keep to their line. A block without a name takes the line end after its keyword,
and the words that open an assignment may have line ends between them. `Rules.Oversteps` says what
they take then. There is no third one.

## Main results

* `Jade.Source.Scanner.inBounds` : forms of a line take no line end, but for the two
* `Jade.Source.next_lineEnds` : where the line ends go that a token takes
* `Jade.Source.line_ends_read` : both together
-/

namespace Jade

namespace Rules

variable {cs rest : List Char} {body : Token.Body}

/-! ## Beyond the line -/

/-- The token takes its text beyond the end of the line. -/
inductive Oversteps : Token.Body → List Char → Prop
  /-- A block without a name takes the line end after the keyword. -/
  | bareBlock : Oversteps (.block "replace" "") "block\n".toList
  /-- The words that open an assignment stand on several lines. -/
  | splitMark {mark more : List Char} {name value : String} (hmark : IsVarMark mark)
    (hnl : '\n' ∈ mark) (hmore : '\n' ∉ more) : Oversteps (.assignment name value) (mark ++ more)

theorem Oversteps.newline_mem {taken : List Char} (h : Oversteps body taken) : '\n' ∈ taken := by
  cases h with
  | bareBlock => decide
  | splitMark _ hnl => exact List.mem_append_left _ hnl

/-- What is taken for the token holds a line end only if it oversteps. -/
def InBounds (body : Token.Body) (cs rest : List Char) : Prop :=
  ∃ taken, cs = taken ++ rest ∧ ('\n' ∈ taken ↔ Oversteps body taken)

theorem inBounds_of_imp {taken : List Char} (hcs : cs = taken ++ rest)
    (h : '\n' ∈ taken → Oversteps body taken) : InBounds body cs rest :=
  ⟨taken, hcs, h, Oversteps.newline_mem⟩

theorem inBounds_of_passes (h : Passes Inline cs rest) (body : Token.Body) :
    InBounds body cs rest := by
  obtain ⟨taken, htaken, hcs⟩ := h
  exact inBounds_of_imp hcs fun hnl => absurd rfl (htaken '\n' hnl)

theorem blockForm_inBounds (h : blockForm cs = some (body, rest)) : InBounds body cs rest := by
  obtain ⟨⟨mode, name, rest'⟩, hblock, heq⟩ := Option.map_eq_some_iff.mp h
  cases heq
  rcases block?_cases hblock with htakes | ⟨rfl, rfl, hcs⟩
  · exact inBounds_of_passes htakes.passes _
  · exact inBounds_of_imp hcs fun _ => .bareBlock

theorem assignmentForm_inBounds (h : assignmentForm cs = some (body, rest)) :
    InBounds body cs rest := by
  obtain ⟨⟨mark, name, value, rest'⟩, hassign, heq⟩ := Option.map_eq_some_iff.mp h
  cases heq
  obtain ⟨words, after, hwords, rfl, more, -, hmore, rfl⟩ := assignment?_cases hassign
  have hnot : '\n' ∉ more := fun hnl => hmore '\n' hnl rfl
  refine inBounds_of_imp (List.append_assoc _ _ _).symm fun hnl => ?_
  have hnl : '\n' ∈ words := (List.mem_append.mp hnl).resolve_right hnot
  rcases hwords with rfl | hmark
  · exact absurd hnl (List.not_mem_nil)
  · exact .splitMark hmark hnl hnot

theorem Makes.inBounds {f : Form} (hf : Makes Inline f) (h : f cs = some (body, rest)) :
    InBounds body cs rest :=
  inBounds_of_passes (hf h).1.passes body

/-- Every form of a line but a list of attributes is in bounds. -/
theorem form_inBounds {f : Form} (hf : f ∈ beforeTag ++ afterTag ++ afterAttrs)
    (h : f cs = some (body, rest)) : InBounds body cs rest := by
  rcases List.mem_append.mp hf with hf | hf
  · rcases List.mem_append.mp hf with hf | hf
    · rcases beforeTag_cases f hf with hmakes | rfl | rfl
      · exact hmakes.inBounds h
      · exact blockForm_inBounds h
      · exact assignmentForm_inBounds h
    · exact (afterTag_makes f hf).inBounds h
  · exact (afterAttrs_makes f hf).inBounds h

/-! ## Lines that hold nothing -/

/-- What is passed over before the last line end are blanks and line ends. -/
theorem lastLineEnd_passes (keep cs : List Char) :
    lastLineEnd keep cs = keep ∨ Passes (fun c => c = ' ' ∨ c = '\n') cs (lastLineEnd keep cs) := by
  induction cs generalizing keep with
  | nil => exact .inl rfl
  | cons c cs ih =>
    rw [lastLineEnd.eq_def]
    split
    · next heq =>
      cases heq
      exact (ih keep).imp id fun h => (h.cons (.inl rfl)).passes
    · next heq =>
      cases heq
      rcases ih ('\n' :: cs) with h | h
      · rw [h]
        exact .inr (Passes.refl _)
      · exact .inr (h.cons (.inr rfl)).passes
    · exact .inl rfl

theorem dropBlankLines_passes (cs : List Char) :
    Passes (fun c => c = ' ' ∨ c = '\n') cs (dropBlankLines cs) := by
  rw [dropBlankLines.eq_def]
  split
  · next cs =>
    rcases lastLineEnd_passes ('\n' :: cs) cs with h | h
    · rw [h]
      exact Passes.refl _
    · exact (h.cons (.inr rfl)).passes
  · exact Passes.refl _

end Rules

namespace Source

variable {s s' : Source} {t : Token} {scanner : Scanner}

theorem skipBlankLines_passes (s : Source) :
    Passes (fun c => c = ' ' ∨ c = '\n') s.rest s.skipBlankLines.rest := by
  rw [skipBlankLines]
  split
  · exact Passes.refl _
  · exact Rules.dropBlankLines_passes s.rest

/-! ## The form that fits -/

/-- Whether a form is there to read line ends: those of the layout and lists of attributes. -/
def Scanner.readsLineEnds : Scanner → Bool
  | blank | layout | attrs => true
  | eos | pipelessText | tag | form _ => false

/-- The next token is what the form gives: nothing was put off, and no form before it fits. -/
def ReadBy (s : Source) (scanner : Scanner) (t : Token) (s' : Source) : Prop :=
  s.deferred = [] ∧ ∃ before after, Scanner.inOrder = before ++ scanner :: after ∧
    s.tryEach before = (.ok none, s) ∧ scanner.run s = (.ok (some t), s')

theorem Scanner.scan_of_run_form {f : Rules.Form} {found : Option Token}
    (h : (form f).run s = (.ok found, s')) : s.scan f = (found, s') := by
  obtain ⟨hfound, hs⟩ := Prod.mk.inj h
  exact Prod.ext (Except.ok.inj hfound) hs

theorem Scanner.scan_of_run_attrs {found : Option Token} (h : attrs.run s = (.ok found, s')) :
    s.scan (Rules.attrs? s.colons) = (found, s') := by
  rw [run] at h
  split at h
  · cases h
  · exact scan_of_run_form h

theorem Scanner.run_none (h : scanner.run s = (.ok none, s')) : s' = s := by
  have hmap : ∀ {result : Except Fault Token}, result.map some ≠ .ok none := by
    rintro (e | t) hr
    · cases hr
    · cases hr
  cases scanner with
  | eos =>
    rw [run] at h
    split at h
    · cases h
    · exact (Prod.mk.inj h).2.symm
  | blank =>
    rw [run] at h
    split at h
    · exact (Prod.mk.inj h).2.symm
    · split at h
      · exact (Prod.mk.inj h).2.symm
      · exact absurd (Prod.mk.inj h).1 hmap
  | pipelessText =>
    rw [run] at h
    split at h
    · split at h
      · cases h
      · exact (Prod.mk.inj h).2.symm
      · cases h
    · exact (Prod.mk.inj h).2.symm
  | tag => exact scanTag_none h
  | attrs => exact (scan_none (scan_of_run_attrs h)).2
  | layout =>
    rw [run] at h
    split at h
    · exact absurd (Prod.mk.inj h).1 hmap
    · exact (Prod.mk.inj h).2.symm
  | form f => exact (scan_none (scan_of_run_form h)).2

/-- Of forms that are tried in order, one is the first to fit. -/
theorem exists_of_tryEach {scanners : List Scanner}
    (h : s.tryEach scanners = (.ok (some t), s')) :
    ∃ before scanner after, scanners = before ++ scanner :: after ∧
      s.tryEach before = (.ok none, s) ∧ scanner.run s = (.ok (some t), s') := by
  induction scanners with
  | nil => cases h
  | cons scanner scanners ih =>
    rw [tryEach] at h
    split at h
    · next s₁ hrun =>
      obtain rfl := Scanner.run_none hrun
      obtain ⟨before, found, after, rfl, hbefore, hfound⟩ := ih h
      exact ⟨scanner :: before, found, after, rfl, (tryEach_cons_none hrun).trans hbefore, hfound⟩
    · exact ⟨[], scanner, scanners, rfl, rfl, h⟩

theorem exists_readBy (hd : s.deferred = []) (h : s.next = (.ok t, s')) :
    ∃ scanner, s.ReadBy scanner t s' := by
  have horder := s.scanInOrder_eq_next
  rw [scanInOrder, hd, h] at horder
  obtain ⟨before, scanner, after, hsplit, hbefore, hrun⟩ := exists_of_tryEach horder
  exact ⟨scanner, hd, before, after, hsplit, hbefore, hrun⟩

/-! ## What the forms take -/

theorem scan_inBounds {f : Rules.Form}
    (hf : f ∈ Rules.beforeTag ++ Rules.afterTag ++ Rules.afterAttrs)
    (h : s.scan f = (some t, s')) : Rules.InBounds t.body s.rest s'.rest := by
  rw [scan] at h
  split at h
  · next body rest hform =>
    cases h
    exact Rules.form_inBounds hf hform
  · cases h

/-- The name of a tag and what follows its colon are on one line, also where something is missing
after them. -/
theorem scanTag_passes {found : Except Fault (Option Token)} (h : s.scanTag = (found, s')) :
    Passes Inline s.rest s'.rest := by
  rw [scanTag] at h
  split at h
  · cases h
    exact Passes.refl _
  · next name rest htag =>
    have hname := (Rules.tag?_takes htag).passes
    split at h
    · have hafter := hname.trans (passes_spaces rest)
      dsimp only at h
      split at h
      · cases h
        exact hafter
      · cases h
        exact hafter
    · cases h
      exact hname

/-- **The forms of a line** take no line end, unless they overstep. -/
theorem Scanner.inBounds (hmem : scanner ∈ Scanner.inOrder) (hline : scanner.readsLineEnds = false)
    (h : scanner.run s = (.ok (some t), s')) : Rules.InBounds t.body s.rest s'.rest := by
  cases scanner with
  | eos =>
    rw [run] at h
    split at h
    · cases h
      have hrest : s.atEnd.2.rest = s.rest := by
        rw [atEnd]
        split <;> rfl
      rw [hrest]
      exact Rules.inBounds_of_passes (Passes.refl s.rest) _
    · cases h
  | blank => cases hline
  | pipelessText =>
    rw [run] at h
    split at h
    · split at h
      · cases h
      · cases h
      · cases h
        exact Rules.inBounds_of_passes (Rules.passes_restOfLine s.rest) _
    · cases h
  | tag => exact Rules.inBounds_of_passes (scanTag_passes h) _
  | attrs => cases hline
  | layout => cases hline
  | form f =>
    refine scan_inBounds ?_ (scan_of_run_form h)
    simpa [inOrder, or_assoc] using hmem

/-! ## Where line ends go -/

theorem ReadBy.mem_inOrder (h : s.ReadBy scanner t s') : scanner ∈ Scanner.inOrder := by
  obtain ⟨-, before, after, hsplit, -⟩ := h
  rw [hsplit]
  exact List.mem_append_right _ List.mem_cons_self

theorem ReadBy.run_eq (h : s.ReadBy scanner t s') : scanner.run s = (.ok (some t), s') := by
  obtain ⟨-, _, _, -, -, hrun⟩ := h
  exact hrun

theorem body_of_scan_attrs (h : s.scan (Rules.attrs? s.colons) = (some t, s')) :
    ∃ table fixed, t.body = .attrs table fixed := by
  rw [scan] at h
  split at h
  · next body rest hattrs =>
    rw [Rules.attrs?.eq_def] at hattrs
    split at hattrs
    · cases hattrs
      obtain ⟨ht, -⟩ := Prod.mk.inj h
      cases ht
      exact ⟨_, _, rfl⟩
    · cases hattrs
  · cases h

theorem ReadBy.cases_of_inline (h : s.ReadBy scanner t s') (hnl : s.rest.head? ≠ some '\n') :
    (∃ table fixed, t.body = .attrs table fixed) ∨ Rules.InBounds t.body s.rest s'.rest := by
  have hrun := h.run_eq
  cases scanner with
  | blank =>
    rw [blank_run_eq_none (.inr (Rules.blankLine?_eq_none hnl))] at hrun
    cases hrun
  | layout =>
    rw [Scanner.run] at hrun
    split at hrun
    · next heq => exact absurd (by rw [heq]; rfl) hnl
    · cases hrun
  | attrs => exact .inl (body_of_scan_attrs (Scanner.scan_of_run_attrs hrun))
  | eos | pipelessText | tag | form => exact .inr (Scanner.inBounds h.mem_inOrder rfl hrun)

/-- The token enters a line. After lines that hold nothing but blanks it is read for the line end
before that line, and the indentation of the line is measured. -/
def EntersLine (s : Source) (t : Token) (s' : Source) : Prop :=
  ∃ blanks cs, s.rest = blanks ++ '\n' :: cs ∧ (∀ c ∈ blanks, c = ' ' ∨ c = '\n') ∧
    s.skipBlankLines.Enters cs t s'

theorem entersLine_of_newline {cs : List Char} (hd : s.deferred = []) (hr : s.rest = '\n' :: cs)
    (h : s.next = (.ok t, s')) : s.EntersLine t s' := by
  obtain ⟨ds, hds⟩ := exists_skipBlankLines hr
  obtain ⟨blanks, hblanks, hrest⟩ := s.skipBlankLines_passes
  rw [hds] at hrest
  have hnext : s.next = s.skipBlankLines.lineEnd ds := by
    rw [next, hd]
    exact fresh_of_newline hds
  exact ⟨blanks, ds, hrest, hblanks, enters_of_lineEnd (hnext.symm.trans h)⟩

/-- A token on a line takes a line end only in a list of attributes, or if it oversteps. -/
theorem next_lineEnds_of_inline (hd : s.deferred = []) (hnl : s.rest.head? ≠ some '\n')
    (h : s.next = (.ok t, s')) :
    ∃ taken, s.rest = taken ++ s'.rest ∧ ('\n' ∈ taken →
      (∃ table fixed, t.body = .attrs table fixed) ∨ Rules.Oversteps t.body taken) := by
  obtain ⟨scanner, hread⟩ := exists_readBy hd h
  rcases hread.cases_of_inline hnl with hattrs | ⟨taken, htaken, hover⟩
  · have hstands := next_stands hd
    rw [h] at hstands
    obtain ⟨⟨taken, htaken⟩, -⟩ := hstands
    exact ⟨taken, htaken.symm, fun _ => .inl hattrs⟩
  · exact ⟨taken, htaken, fun hnl => .inr (hover.mp hnl)⟩

/-- **The line ends that a token takes**: it enters a line, it is a list of attributes, or it
oversteps. -/
theorem next_lineEnds (h : s.next = (.ok t, s')) :
    ∃ taken, s.rest = taken ++ s'.rest ∧ ('\n' ∈ taken →
      s.EntersLine t s' ∨ (∃ table fixed, t.body = .attrs table fixed) ∨
        Rules.Oversteps t.body taken) := by
  cases hd : s.deferred with
  | cons u us =>
    rw [next, hd] at h
    cases h
    exact ⟨[], rfl, fun hnl => absurd hnl List.not_mem_nil⟩
  | nil =>
    by_cases hnl : s.rest.head? = some '\n'
    · have hstands := next_stands hd
      rw [h] at hstands
      obtain ⟨⟨taken, htaken⟩, -⟩ := hstands
      obtain ⟨cs, hr⟩ := List.head?_eq_some_iff.mp hnl
      exact ⟨taken, htaken.symm, fun _ => .inl (entersLine_of_newline hd hr h)⟩
    · obtain ⟨taken, htaken, hmem⟩ := next_lineEnds_of_inline hd hnl h
      exact ⟨taken, htaken, fun hnl => .inr (hmem hnl)⟩

/-- **Line ends are read for the layout.** A token of any form but those of the layout and lists of
attributes takes a line end only if it oversteps: it is a block without a name, or an assignment
whose opening words stand on several lines. So every line end that a token takes has the
indentation after it measured and a token of the layout for it, unless it is in a list of attributes
or the token oversteps. -/
theorem line_ends_read (h : s.next = (.ok t, s')) :
    (∀ scanner, s.ReadBy scanner t s' → scanner.readsLineEnds = false →
      ∃ taken, s.rest = taken ++ s'.rest ∧ ('\n' ∈ taken ↔ Rules.Oversteps t.body taken)) ∧
    ∃ taken, s.rest = taken ++ s'.rest ∧ ('\n' ∈ taken →
      s.EntersLine t s' ∨ (∃ table fixed, t.body = .attrs table fixed) ∨
        Rules.Oversteps t.body taken) :=
  ⟨fun _ hread hline => Scanner.inBounds hread.mem_inOrder hline hread.run_eq, next_lineEnds h⟩

/-- An assignment leaves the line end after it for the layout. -/
theorem line_ends_read_assignment :
    let s := ofText "x = 1;\n  p"
    let s' := { s with rest := "\n  p".toList }
    let t : Token := ⟨.assignment "x" "1", 1⟩
    s.ReadBy (.form Rules.assignmentForm) t s' ∧
      ∃ taken, s.rest = taken ++ s'.rest ∧ ('\n' ∈ taken ↔ Rules.Oversteps t.body taken) := by
  intro s s' t
  have hread : s.ReadBy (.form Rules.assignmentForm) t s' :=
    ⟨rfl, Scanner.inOrder.take 14, Scanner.inOrder.drop 15, rfl, rfl, rfl⟩
  exact ⟨hread, (line_ends_read (show s.next = (.ok t, s') from rfl)).1 _ hread rfl⟩

/-- A block without a name takes the line end after it. The line after it is not entered, and its
indentation is read as text. An assignment takes the line end between its opening words. -/
theorem line_ends_lost :
    ((ofText "block\n  p").ReadBy (.form Rules.blockForm) ⟨.block "replace" "", 1⟩
        { rest := "  p".toList } ∧
      (ofText "block\n  p").rest = "block\n".toList ++ "  p".toList ∧ '\n' ∈ "block\n".toList ∧
      (perform [.advance, .advance, .advance] (ofText "block\n  p")).1 =
        [⟨.block "replace" "", 1⟩, ⟨.text "  p", 1⟩, ⟨.eos, 1⟩]) ∧
    (ofText "-\nvar x = 1").ReadBy (.form Rules.assignmentForm) ⟨.assignment "x" "1", 1⟩
      { rest := [] } :=
  ⟨⟨⟨rfl, Scanner.inOrder.take 8, Scanner.inOrder.drop 9, rfl, rfl, rfl⟩, rfl, by decide,
      by decide +kernel⟩,
    rfl, Scanner.inOrder.take 14, Scanner.inOrder.drop 15, rfl, rfl, rfl⟩

end Source

end Jade

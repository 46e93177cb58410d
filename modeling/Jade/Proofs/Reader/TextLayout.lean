import Jade.Proofs.Reader.Visits
import Jade.Proofs.Source.TextLines

/-!
# Blocks of plain text keep their layout

A text block is put together again from indentations, outdents, line ends and lines: a deeper line
begins a block inside of the block, and what is read of it stands between two line ends. The result
is that of going through the lines one after the other (`Source.AtLines.turns`), whatever the blocks
inside of it are.

The first line of a block has been entered before lines became plain text. Its column is known from
the indentation that is still at hand then, since nothing was read after it (`Source.Placed`).

## Main results

* `Jade.Source.History.placed` : whatever happens, indentations are in their place
* `Jade.Reader.leads_textParts`, `Jade.Reader.readsLines_textBlockParts` : the parts of a block
* `Jade.textBlock_keeps_layout` : a block of plain text keeps its layout
-/

namespace Jade

/-! ## Where a block begins -/

/-- In a text, `rest` is what follows an indentation by `w` on a line with content. -/
def IndentedBy (w : Nat) (text rest : List Char) : Prop :=
  ∃ before cs, text = before ++ '\n' :: cs ∧ rest = unindented cs ∧ column cs = w ∧
    endsLine rest = false

theorem IndentedBy.of_suffix {w : Nat} {text text' rest : List Char} (h : IndentedBy w text rest)
    (ht : text <:+ text') : IndentedBy w text' rest := by
  obtain ⟨before, cs, rfl, hrest⟩ := h
  obtain ⟨more, rfl⟩ := ht
  exact ⟨more ++ before, cs, by simp, hrest⟩

namespace Source

variable {s₀ s s' : Source} {t : Token} {w n : Nat} {es : List Event}

/-- An indentation that is read is that of the line that is entered. -/
theorem indentedBy_of_next (hd : s.deferred = []) (hn : s.next = (.ok t, s'))
    (hw : t.body = .indent w) : IndentedBy w s.rest s'.rest := by
  cases hc : s.lineAhead with
  | none =>
    -- without a line ahead the levels stay
    exfalso
    cases reads_of_next hn with
    | deferred hd' => exact nomatch hd.symm.trans hd'
    | indent _ hr =>
      have hne : s.rest ≠ [] := fun hnil => by rw [hnil] at hr; cases hr
      exact absurd (levels_of_not_lineAhead hc hne hn) (List.cons_ne_self _ _)
    | @content body _ _ _ hb =>
      rw [show body = .indent w from hw] at hb
      exact absurd hb (by simp [Token.Body.isContent])
    | _ => exact absurd hw (by simp [tok])
  | some c =>
    obtain ⟨cs, hrest, hnext, hb, -⟩ := next_of_lineAhead hc
    cases enters_of_lineEnd (hnext.symm.trans hn) with
    | deeper =>
      obtain ⟨before, hbefore⟩ := s.skipBlankLines_suffix
      rw [hrest] at hbefore
      exact ⟨before, cs, hbefore.symm, rfl, Token.Body.indent.inj hw, hb⟩
    | _ => cases hw

/-- How a source that began as `s₀` has come to an indentation that is the last token at hand. -/
structure Placed (s₀ s : Source) : Prop where
  /-- What is left is an end of the text. -/
  suffix : s.rest <:+ s₀.rest
  /-- No indentation is put off. -/
  deferred : ∀ t ∈ s.deferred, ∀ w, t.body ≠ .indent w
  /-- The indentation is that of the line that was entered. -/
  last : ∀ t ∈ s.stash.getLast?, ∀ w, t.body = .indent w → s.deferred = [] →
    IndentedBy w s₀.rest s.rest

theorem placed_ofText (src : String) (colons : Bool) :
    Placed (ofText src colons) (ofText src colons) where
  suffix := List.suffix_refl _
  deferred := fun t ht => absurd ht (by simp [ofText])
  last := fun t ht => absurd ht (by simp [ofText])

theorem Placed.read (h : Placed s₀ s) (hn : s.next = (.ok t, s')) :
    Placed s₀ { s' with stash := s'.stash ++ [t] } := by
  cases hd : s.deferred with
  | cons d ds =>
    rw [next, hd] at hn
    obtain ⟨rfl, rfl⟩ := by simpa only [Prod.mk.injEq, Except.ok.injEq] using hn
    refine ⟨h.suffix, fun u hu => h.deferred u (hd ▸ List.mem_cons_of_mem _ hu),
      fun u hu w hw => ?_⟩
    obtain rfl : d = u := by simpa using hu
    exact absurd hw (h.deferred d (hd ▸ List.mem_cons_self) w)
  | nil =>
    have hstands := next_stands hd
    rw [hn] at hstands
    refine ⟨hstands.1.trans h.suffix, fun u hu w => ?_, fun u hu w hw _ => ?_⟩
    · rw [(reads_of_next hn).deferred_of_nil hd u hu]
      simp
    · obtain rfl : t = u := by simpa using hu
      exact (indentedBy_of_next hd hn hw).of_suffix h.suffix

theorem Placed.fetch (h : Placed s₀ s) (hf : s.fetch n = (.ok (), s')) : Placed s₀ s' := by
  induction n generalizing s with
  | zero =>
    cases hf
    exact h
  | succ n ih =>
    rw [Source.fetch] at hf
    split at hf
    · cases hf
    · next hn => exact ih (h.read hn) hf

theorem Placed.lookahead {i : Int} (h : Placed s₀ s) (hl : s.lookahead i = (.ok t, s')) :
    Placed s₀ s' := by
  rw [Source.lookahead] at hl
  split at hl
  · cases hl
  · next hf =>
    obtain ⟨-, rfl⟩ := Prod.mk.inj hl
    exact h.fetch hf

theorem Placed.advance (h : Placed s₀ s) (ha : s.advance = (.ok t, s')) : Placed s₀ s' := by
  rw [Source.advance] at ha
  split at ha
  · next hs =>
    cases ha
    refine ⟨h.suffix, h.deferred, fun u hu => h.last u ?_⟩
    rw [hs, List.getLast?_cons, Option.mem_def.mp hu]
    rfl
  · next hs =>
    -- what is at hand then is more of the same
    have hread := h.read ha
    obtain ⟨k, hk⟩ := (reads_of_next ha).stash
    rw [hs, List.nil_append] at hk
    refine ⟨hread.suffix, hread.deferred, fun u hu => hread.last u ?_⟩
    have hmem := List.mem_of_getLast? hu
    rw [hk] at hmem
    rw [(List.mem_replicate.mp hmem).2]
    simp

theorem History.placed (h : History s₀ es s) (h₀ : Placed s₀ s₀) : Placed s₀ s := by
  induction h with
  | start => exact h₀
  | look _ hl ih => exact ih.lookahead hl
  | take _ ha ih => exact ih.advance ha
  | mark _ ha ih => exact ih.advance ha
  | mode raw _ ih => exact ⟨ih.suffix, ih.deferred, ih.last⟩
  | @putOff _ _ s' u _ ha hu ih =>
    have hafter := ih.advance ha
    refine ⟨hafter.suffix, fun v hv w hw => ?_, fun v hv w hw hnil => ?_⟩
    · rw [Source.putOff, defer, defer, List.mem_append, List.mem_append, List.mem_singleton,
        List.mem_singleton] at hv
      rcases hv with (hv | rfl) | rfl
      · exact hafter.deferred v hv w hw
      · exact absurd hw (by simp [tok])
      · rw [Token.isShorthand, hw] at hu
        cases hu
    · exact absurd hnil (by simp [Source.putOff, defer])

/-- **An indentation that is next** is that of the line that is left. -/
theorem Placed.indentedBy (h : Placed s₀ s) (hs : Sound s₀ s) (ha : s.advance = (.ok t, s'))
    (hw : t.body = .indent w) : IndentedBy w s₀.rest s'.rest := by
  obtain ⟨hnil, hd, -⟩ := (hs.of_advance ha).2.2 w hw
  rw [Source.advance] at ha
  split at ha
  · next u us hstash =>
    obtain ⟨rfl, rfl⟩ := by simpa only [Prod.mk.injEq, Except.ok.injEq] using ha
    obtain rfl : us = [] := hnil
    exact h.last u (by rw [hstash]; rfl) w hw hd
  · cases hdef : s.deferred with
    | cons d ds =>
      rw [next, hdef] at ha
      obtain ⟨rfl, -⟩ := by simpa only [Prod.mk.injEq, Except.ok.injEq] using ha
      exact absurd hw (h.deferred d (hdef ▸ List.mem_cons_self) w)
    | nil => exact (indentedBy_of_next hdef ha hw).of_suffix h.suffix

end Source

namespace Reader

open Source (AtLines Turns)

variable {s₀ : Source} {spaces : Option Nat} {es : List Event} {r : Reader} {base : Nat}

/-! ## The parts of a block -/

theorem repeatText_append (n : Nat) (text : List Char) :
    repeatText n " " ++ String.ofList text = padded n text := by
  have hspaces : (List.replicate n " ").flatMap String.toList = List.replicate n ' ' := by
    induction n with
    | zero => rfl
    | succ n ih => rw [List.replicate_succ, List.flatMap_cons, ih]; rfl
  apply String.toList_injective
  rw [String.toList_append, repeatText, String.toList_join, padded, String.toList_ofList,
    String.toList_ofList, hspaces]

/-- The action reads a block, wherever one begins: it gives what is made of the lines up to the end
of the block, and goes on with the lines after it. -/
def ReadsLines (s₀ : Source) (spaces : Option Nat) (act : Parse (List String)) : Prop :=
  ∀ ⦃c : Nat⦄ ⦃outs us : List Nat⦄ ⦃text : List Char⦄ ⦃ls : List (List Char)⦄ ⦃es : List Event⦄
    ⦃r : Reader⦄ ⦃t : Token⦄ ⦃s : Source⦄,
    Stage s₀ true spaces es r → (∀ outer ∈ spaces, outer < c) →
    Levels (spaces.getD c) (c :: us) → r.source.advance = (.ok t, s) → t.body = .indent c →
    AtLines outs (c :: us) 0 text ls s →
    Leads (Foreseen s₀) act
      (fun parts r' => (∃ es', Stage s₀ true spaces es' r') ∧
        ∃ k text' ls', AtLines outs us k text' ls' r'.source ∧
          outputAt (spaces.getD c) (c :: us) 0 text ls =
            parts ++ "\n" :: outputAt (spaces.getD c) us k text' ls') r

/-- **The parts of a block** up to the outdent that ends it. -/
theorem leads_textParts {inner : Parse (List String)} {w k n : Nat} {outs us : List Nat}
    {text : List Char} {ls : List (List Char)} {parts out : List String}
    (hinner : ReadsLines s₀ (some base) inner) (hr : Stage s₀ true (some base) es r)
    (hat : AtLines outs (w :: us) k text ls r.source) (hus : Levels base (w :: us))
    (hout : parts ++ outputAt base (w :: us) k text ls = out) :
    Leads (Foreseen s₀) (textParts peekKind inner (repeatText (w - base) " ") n parts)
      (fun parts' r' => (∃ es', Stage s₀ true (some base) es' r') ∧
        ∃ t s' k' text' ls', r'.source.advance = (.ok t, s') ∧ AtLines outs us k' text' ls' s' ∧
          parts' ++ "\n" :: outputAt base us k' text' ls' = out) r := by
  induction n generalizing r es k text ls parts with
  | zero => exact .throw trivial
  | succ n ih =>
    refine (leads_peekKind hr).bind fun kind r₁ ⟨hr₁, hsame, t, ht, hkind⟩ => ?_
    obtain ⟨s', ha⟩ := Source.exists_advance_of_stash ht
    have hturns := hat.turns hus (hsame ▸ ha)
    obtain ⟨body, l⟩ := t
    dsimp only at hturns
    split
    · cases hturns with
      | outdent hat' ho =>
        exact .pure ⟨⟨es, hr₁⟩, _, s', _, _, _, ha, hat', by rw [← hout, ho]; rfl⟩
      | _ => exact absurd hkind (by simp [Token.kind, Token.Body.kind])
    · cases hturns with
      | newline hat' ho =>
        refine (leads_advance_seen hr₁ ht).bind ?_
        rintro u r₂ ⟨rfl, hr₂, -, ha₂⟩
        cases ha.symm.trans ha₂
        exact ih hr₂ hat' (by rw [← hout, ho, List.append_assoc]; rfl)
      | _ => exact absurd hkind (by simp [Token.kind, Token.Body.kind])
    · cases hturns with
      | indent hc hat' ho =>
        refine (hinner hr₁ ?_ (hus.cons hc) ha rfl hat').bind ?_
        · intro outer houter
          obtain rfl : base = outer := Option.some.inj houter
          exact Nat.lt_of_le_of_lt (hus.base_le _ hus.head_mem) hc
        · rintro deeper r₂ ⟨⟨es₂, hr₂⟩, k₂, text₂, ls₂, hat₂, hdeep⟩
          rw [Option.getD_some] at hdeep
          exact ih hr₂ hat₂ (by rw [← hout, ho, hdeep]; simp)
      | _ => exact absurd hkind (by simp [Token.kind, Token.Body.kind])
    · next hout' hnew hin =>
      cases hturns with
      | text hat' ho =>
        refine (leads_advance_seen hr₁ ht).bind ?_
        rintro u r₂ ⟨rfl, hr₂, -, ha₂⟩
        cases ha.symm.trans ha₂
        refine ih hr₂ hat' ?_
        rw [← hout, ho, repeatText_append, List.append_assoc]
        rfl
      | newline => exact absurd hkind.symm hnew
      | outdent => exact absurd hkind.symm hout'
      | indent => exact absurd hkind.symm hin

/-- **A block.** -/
theorem readsLines_textBlockParts (fuel : Nat) (spaces : Option Nat) :
    ReadsLines s₀ spaces (textBlockParts peekKind fuel) := by
  induction fuel generalizing spaces with
  | zero => exact fun c outs us text ls es r t s _ _ _ _ _ _ => .throw trivial
  | succ fuel ih =>
    intro c outs us text ls es r t s hr hdeep hus ha hc hat
    refine (leads_expectBody Token.Body.indent (by grind) hr).bind ?_
    rintro w r₁ ⟨hr₁, -, t₁, htw, ha₁⟩
    obtain ⟨htt, rfl⟩ := Prod.mk.inj (ha.symm.trans ha₁)
    cases htt
    obtain rfl := Token.Body.indent.inj (hc.symm.trans htw)
    refine Leads.bind (p := fun _ r₂ => r₂ = { r₁ with spaces := some (spaces.getD c) })
      (.modify (by rw [hr₁.spaces])) ?_
    rintro _ r₂ rfl
    refine .get (leads_budget ?_)
    rw [Option.getD_some]
    refine (leads_textParts (ih _) (hr₁.withSpaces _) hat hus rfl).bind ?_
    rintro parts r₃ ⟨⟨es₃, hr₃⟩, u, s₃, k, text', ls', ha₃, hat₃, hparts⟩
    refine leads_closeBlock hr₃ hdeep fun v r₄ _ _ hr₄ ha₄ => ?_
    cases ha₃.symm.trans ha₄
    exact ⟨⟨_, hr₄⟩, k, text', ls', hat₃, hparts.symm⟩

/-! ## Whole blocks -/

theorem Gives.of_ok {α : Type} {act : Parse α} {post : α → Reader → Prop} {a : α}
    (h : Gives act post r) (hrun : (act.run.run r).1 = .ok a) : post a (act.run.run r).2 := by
  rw [Gives, Leads] at h
  split at h
  · next hact =>
    rw [hact] at hrun ⊢
    cases hrun
    exact h
  · next hact =>
    rw [hact] at hrun
    cases hrun

theorem gives_of {α : Type} {act : Parse α} {p : Prop} (h : p) : Gives act (fun _ _ => p) r := by
  rw [Gives, Leads]
  split
  · exact h
  · trivial

/-- In the state `r`, a block of plain text begins with the line `first` of the text, with the lines
`ls` after it. -/
structure BlockAt (text : List Char) (r : Reader) (first : List Char) (ls : List (List Char)) :
    Prop where
  /-- The lines are the end of the text. -/
  text : ∃ before, text = before ++ '\n' :: joinLines first ls
  /-- No line end is inside of a line. -/
  lines : ∀ l ∈ first :: ls, '\n' ∉ l
  /-- The first line has content. -/
  content : isBlankLine first = false
  /-- Its indentation is next, and then the lines without it. -/
  next : ∃ line s, r.source.advance = (.ok ⟨.indent (column first), line⟩, s) ∧
    s.rest = joinLines (unindented first) ls

variable {src : String} {colons : Bool} {file : Option String} {node : Node}

theorem gives_indentation (hr : Stage s₀ true spaces es r) :
    Gives textBlock
      (fun _ _ => ∃ t s w, r.source.advance = (.ok t, s) ∧ t.body = .indent w) r := by
  refine leads_lineNow (leads_budget ?_)
  refine Leads.bind (p := fun _ _ => ∃ t s w, r.source.advance = (.ok t, s) ∧ t.body = .indent w)
    ?_ fun _ _ h => .pure h
  refine (leads_expectBody Token.Body.indent (by grind) hr).gives.bind ?_
  rintro w r₁ ⟨-, -, t, hw, ha⟩
  exact gives_of ⟨t, r₁.source, w, ha, hw⟩

/-- **A text block that is read** begins with a line of the text. -/
theorem TextAt.exists_blockAt (h : TextAt (ofSource (.ofText src colons) file) r)
    (hrun : (textBlock.run.run r).1 = .ok node) :
    ∃ first ls, BlockAt (Source.ofText src colons).rest r first ls := by
  obtain ⟨es, hr⟩ := h.stage
  obtain ⟨⟨body, line⟩, s, w, ha, rfl⟩ := (gives_indentation hr).of_ok hrun
  have hplaced := hr.history.placed (Source.placed_ofText src colons)
  obtain ⟨before, cs, htext, hrest, rfl, hend⟩ := hplaced.indentedBy hr.sound ha rfl
  obtain ⟨first, ls, rfl, hlines⟩ := exists_joinLines cs
  rw [column_joinLines] at ha
  rw [unindented_joinLines] at hrest
  rw [hrest, endsLine_joinLines ls (hlines first List.mem_cons_self)] at hend
  exact ⟨first, ls, ⟨before, htext⟩, hlines, hend, line, s, ha, hrest⟩

/-- **The parts of a text block** are made of its lines. -/
theorem BlockAt.exists_parts {text first : List Char} {ls : List (List Char)}
    (hb : BlockAt text r first ls) (hr : Stage s₀ true none es r)
    (hrun : (textBlock.run.run r).1 = .ok node) :
    ∃ parts, node = .text parts r.source.line ∧
      parts ++ ["\n"] =
        blockLine (column first) first :: output (column first) [column first] ls := by
  obtain ⟨line, s, ha, hrest⟩ := hb.next
  obtain ⟨hstash, hdeferred, -, hhead⟩ := (hr.sound.of_advance ha).2.2 _ rfl
  obtain ⟨outs, hindents⟩ := List.head?_eq_some_iff.mp hhead
  have hlines : ∀ l ∈ unindented first :: ls, '\n' ∉ l := by
    intro l hl
    rcases List.mem_cons.mp hl with rfl | hl
    · exact newline_not_mem_unindented (hb.lines first List.mem_cons_self)
    · exact hb.lines l (List.mem_cons_of_mem _ hl)
  have hat : AtLines outs [column first] 0 (unindented first) ls s :=
    ⟨(Source.pipeless_of_advance ha).trans hr.pipeless, hdeferred, ⟨0, hstash⟩, hindents, hrest,
      hlines⟩
  have htext : unindented first ≠ [] := fun hnil => by
    have hblank := unindented_eq_nil_iff.mp hnil
    exact nomatch hb.content.symm.trans hblank
  have hblock : Gives textBlock (fun node _ => ∃ parts, node = .text parts r.source.line ∧
      parts ++ ["\n"] =
        blockLine (column first) first :: output (column first) [column first] ls) r := by
    refine leads_lineNow (leads_budget ?_)
    refine (readsLines_textBlockParts _ none hr (by simp) (.single _) ha rfl hat).gives.bind ?_
    rintro parts r' ⟨-, k, text', ls', -, hparts⟩
    refine .pure ⟨parts, rfl, ?_⟩
    rw [Option.getD_none, outputAt_of_lt (by simp) htext] at hparts
    exact hparts.symm
  exact hblock.of_ok hrun

end Reader

open Reader

/-- **A block of plain text keeps its layout.** A text block that is read begins with a line of the
text. If each line in it that goes back goes back to an open level, then the line ends aside its
parts are its lines with content, in order, each with the spaces by which it is deeper than the
first one. Before each of them are as many line ends as there are blank lines before it and levels
that it closes, with one for a line that closes none. -/
theorem textBlock_keeps_layout {src : String} {colons : Bool} {file : Option String} {r : Reader}
    {node : Node} (h : TextAt (ofSource (.ofText src colons) file) r)
    (hrun : (textBlock.run.run r).1 = .ok node) :
    (∃ first ls, BlockAt (Source.ofText src colons).rest r first ls) ∧
      ∀ first ls, BlockAt (Source.ofText src colons).rest r first ls →
        isRegular [column first] (blockLines (column first) ls) = true →
        ∃ parts, node = .text parts r.source.line ∧
          parts = blockLine (column first) first ::
            layout (column first) [column first] 0 (blockLines (column first) ls) ∧
          parts.filter (· ≠ "\n") =
            ((first :: blockLines (column first) ls).filter (!isBlankLine ·)).map
              (blockLine (column first)) := by
  refine ⟨h.exists_blockAt hrun, fun first ls hb hreg => ?_⟩
  obtain ⟨es, hr⟩ := h.stage
  obtain ⟨parts, hnode, hparts⟩ := hb.exists_parts hr hrun
  have hlayout := layout_append_newline (b := 0) (.single _) hreg
  rw [List.replicate_zero, List.nil_append] at hlayout
  rw [← hlayout, ← List.cons_append] at hparts
  obtain rfl := List.append_cancel_right hparts
  refine ⟨_, hnode, rfl, ?_⟩
  have hlines : ∀ l ∈ blockLines (column first) ls, '\n' ∉ l := fun l hl =>
    hb.lines l (List.mem_cons_of_mem _ ((List.takeWhile_sublist _).subset hl))
  have hfirst : blockLine (column first) first ≠ "\n" :=
    padded_ne_newline (newline_not_mem_unindented (hb.lines first List.mem_cons_self))
  rw [List.filter_cons_of_pos (by simpa using hfirst), filter_layout hlines,
    List.filter_cons_of_pos (by simp [hb.content]), List.map_cons]

/-- A line that closes two levels, with a blank line before it. -/
theorem textBlock_keeps_layout_nested :
    ∃ r node, TextAt (ofSource (.ofText "p.\n  a\n\n    b\n      c\n \n  d\ni" false) none) r ∧
      (textBlock.run.run r).1 = .ok node ∧
      node = .text ["a", "\n", "\n", "  b", "\n", "    c", "\n", "\n", "\n", "d"] (some 2) := by
  let r : Reader := { source := { rest := "a\n\n    b\n      c\n \n  d\ni".toList, line := 2,
                                  indents := [2], stash := [⟨.indent 2, 2⟩], style := some .spaces,
                                  pipeless := true }
                      file := none }
  let first : List Char := "  a".toList
  let ls : List (List Char) := ["", "    b", "      c", " ", "  d", "i"].map String.toList
  have htext : TextAt (ofSource (.ofText "p.\n  a\n\n    b\n      c\n \n  d\ni" false) none) r :=
    ⟨.overflow, by decide +kernel, by decide +kernel⟩
  obtain ⟨node, hrun, -⟩ : ∃ node, (textBlock.run.run r).1 = .ok node ∧ () = () :=
    exists_ok_of_map (f := fun _ => ()) (by decide +kernel)
  have hcolumn : column first = 2 := by decide +kernel
  have hblock : BlockAt (Source.ofText "p.\n  a\n\n    b\n      c\n \n  d\ni" false).rest r
      first ls :=
    ⟨⟨"p.".toList, by decide +kernel⟩, by decide +kernel, by decide +kernel, 2,
      { r.source with stash := [] }, by rw [hcolumn]; rfl, by decide +kernel⟩
  obtain ⟨parts, hnode, hparts, -⟩ :=
    (textBlock_keeps_layout htext hrun).2 first ls hblock (by decide +kernel)
  refine ⟨r, node, htext, hrun, ?_⟩
  rw [hnode, hparts]
  have hlines : blockLine (column first) first ::
      layout (column first) [column first] 0 (blockLines (column first) ls) =
        ["a", "\n", "\n", "  b", "\n", "    c", "\n", "\n", "\n", "d"] := by decide +kernel
  rw [hlines]

end Jade

import Jade.Proofs.Outline.Headline
import Jade.Proofs.Reader.Depth
import Jade.Proofs.Reader.Visits

/-!
# An id or a class without a tag belongs to a div

A form that begins with an id or a class puts it off, with a tag for it in front, and is read again
from there. What is put off comes after all tokens that have been read ahead. So this is right only
if the id or the class was the last of these, which holds wherever a form begins: nothing in the
reader looks beyond an id or a class at the beginning of a form.

After that both readings are at the same place, right after the name of a div, and differ only in
how deep they may go and in how many forms there may be. Neither matters as long as there is enough
of it.

## Main results

* `Jade.Source.next_ofText_div` : `div` before an id or a class is a token by itself
* `Jade.Reader.expression_behind_div` : a form with a div before it is read as without
* `Jade.Reader.run_template_div` : a template with `div` written before it is read as without
* `Jade.shorthand_belongs_to_div` : an id or a class without a tag belongs to a div
-/

namespace Jade

/-! ## Sources that begin with an id or a class -/

namespace Rules

/-- No control line starts with `div` and a mark. -/
theorem beforeTag_div {c : Char} (hc : c = '#' ∨ c = '.') (cs : List Char) :
    ∀ f ∈ beforeTag, f ('d' :: 'i' :: 'v' :: c :: cs) = none := by
  simp only [beforeTag, List.forall_mem_cons, List.not_mem_nil, false_imp_iff, implies_true,
    and_true]
  rcases hc with rfl | rfl <;>
    (refine ⟨?_, ?_, ?_, ?_, ?_, ?_, ?_, ?_, ?_, ?_, ?_, ?_⟩ <;> rfl)

theorem tag?_div {c : Char} (hc : c = '#' ∨ c = '.') (cs : List Char) :
    tag? ('d' :: 'i' :: 'v' :: c :: cs) = some ("div", c :: cs) := by
  rcases hc with rfl | rfl <;> rfl

end Rules

namespace Source

variable {s s' : Source} {t : Token}

theorem inLine_shorthand (h : s.inLine = (.ok t, s')) (hs : t.isShorthand = true) :
    s.rest.head? = some '#' ∨ s.rest.head? = some '.' := by
  have hfinds := s.inLine_finds
  rw [h] at hfinds
  cases hfinds with
  | @form _ body _ hf hfits =>
    have hmade := (lineForms_makes _ hf hfits).2.2
    cases body with
    | id => exact .inl hmade
    | className => exact .inr hmade
    | _ => exact absurd hs (by simp [Token.isShorthand, tok])
  | tag => exact absurd hs (by simp [Token.isShorthand, tok])
  | tagColon => exact absurd hs (by simp [Token.isShorthand, tok])

theorem atEnd_not_shorthand (s : Source) : s.atEnd.1.isShorthand = false := by
  rw [atEnd]
  split <;> rfl

/-- An id or a class that is read from the characters begins with its mark. -/
theorem head?_of_shorthand (hd : s.deferred = []) (h : s.next = (.ok t, s'))
    (hs : t.isShorthand = true) : s.rest.head? = some '#' ∨ s.rest.head? = some '.' := by
  rw [next, hd] at h
  dsimp only at h
  rcases s.rest_cases with hr | ⟨cs, hr⟩ | ⟨hne, hnl⟩
  · rw [skipBlankLines_of_ne (by simp [hr]), fresh_of_nil hr] at h
    cases h
    cases s.atEnd_not_shorthand.symm.trans hs
  · obtain ⟨ds, hds⟩ := exists_skipBlankLines hr
    rw [fresh_of_newline hds] at h
    -- a line end gives a piece of layout
    obtain ⟨u, hu, hline⟩ := (lineEnd_cases s.skipBlankLines ds).2.resolve_left (by rw [h]; simp)
    rw [h] at hu
    obtain rfl : t = u := Except.ok.inj hu
    rw [Token.isShorthand] at hs
    split at hs
    · next heq => rw [heq] at hline; exact absurd hline (by simp [Token.Body.isLine])
    · next heq => rw [heq] at hline; exact absurd hline (by simp [Token.Body.isLine])
    · cases hs
  · rw [skipBlankLines_of_ne hnl, fresh_of_inline hne hnl] at h
    split at h
    · cases h
      exact absurd hs (by simp [textLine, Token.isShorthand, tok])
    · exact inLine_shorthand h hs

/-- The name of a tag before an id or a class at the beginning of a source is read by itself. -/
theorem next_ofText_div {src : String} {colons : Bool} {s' : Source} {t : Token}
    (h : (ofText src colons).next = (.ok t, s')) (hs : t.isShorthand = true) :
    (ofText ("div" ++ src) colons).next = (.ok ⟨.tag "div", 1⟩, ofText src colons) := by
  have hrest : (ofText ("div" ++ src) colons).rest =
      'd' :: 'i' :: 'v' :: (ofText src colons).rest := by
    show joinLineEnds ("div" ++ src).toList = _
    rw [String.toList_append]
    rfl
  obtain ⟨c, cs, hcs, hc⟩ : ∃ c cs, (ofText src colons).rest = c :: cs ∧ (c = '#' ∨ c = '.') := by
    have hmark := head?_of_shorthand (s := ofText src colons) rfl h hs
    cases hr : (ofText src colons).rest with
    | nil => rw [hr] at hmark; exact absurd hmark (by simp)
    | cons c cs => rw [hr] at hmark; exact ⟨c, cs, rfl, by simpa using hmark⟩
  have hready : Outline.Ready (ofText ("div" ++ src) colons) := ⟨rfl, rfl, rfl⟩
  have hadvance := hready.advance_inline (by rw [hrest]; simp) (by rw [hrest]; simp)
  rw [hcs] at hrest
  have hname : Rules.tag? (ofText ("div" ++ src) colons).rest = some ("div", c :: cs) := by
    rw [hrest]
    exact Rules.tag?_div hc cs
  have htag := Outline.inLine_of_tag (by rw [hrest]; exact Rules.beforeTag_div hc cs) hname
    (Outline.endsWith_colon_eq_false (by decide))
  refine hadvance.trans (htag.trans ?_)
  rw [← hcs]
  rfl

/-- With a div before it, an id or a class at the beginning of a source comes second. -/
theorem lookahead_ofText_div {src : String} {colons : Bool}
    (h : (ofText src colons).lookahead 1 = (.ok t, s)) (hs : t.isShorthand = true) :
    (ofText ("div" ++ src) colons).lookahead 1 =
        (.ok ⟨.tag "div", 1⟩, (ofText src colons).behind [⟨.tag "div", 1⟩]) ∧
      ((ofText src colons).behind [⟨.tag "div", 1⟩]).lookahead 2 =
        (.ok t, s.behind [⟨.tag "div", 1⟩]) := by
  rcases hn : (ofText src colons).next with ⟨e | u, s'⟩
  · exact nomatch (lookahead_of_next_error hn).symm.trans h
  · obtain ⟨rfl, rfl⟩ := by
      simpa only [Prod.mk.injEq, Except.ok.injEq] using (lookahead_of_next hn).symm.trans h
    have hbehind := next_behind [⟨.tag "div", 1⟩] (ofText src colons)
    rw [hn] at hbehind
    exact ⟨lookahead_of_next (next_ofText_div hn hs), lookahead_of_next hbehind⟩

theorem left_le_behind (ts : List Token) (s : Source) : s.left ≤ (s.behind ts).left := by
  simp only [left, behind, Token.weights_append]
  omega

/-- An id or a class that is put off comes second, after a div. -/
theorem lookahead_putOff (hs : s.stash = [t]) (hd : s.deferred = []) :
    ∃ s₁, (({ s with stash := [] } : Source).putOff t).lookahead 1 =
        (.ok (s.tok (.tag "div")), s₁) ∧
      s₁.lookahead 2 = (.ok t, s.behind [s.tok (.tag "div")]) := by
  obtain ⟨rest, line, indents, stash, deferred, style, pipeless, colons⟩ := s
  obtain rfl : stash = [t] := hs
  obtain rfl : deferred = [] := hd
  let d : Token := ⟨.tag "div", line⟩
  have hfirst : (⟨rest, line, indents, [], [d, t], style, pipeless, colons⟩ : Source).next =
      (.ok d, ⟨rest, line, indents, [], [t], style, pipeless, colons⟩) := rfl
  have hsecond : (⟨rest, line, indents, [d], [t], style, pipeless, colons⟩ : Source).next =
      (.ok t, ⟨rest, line, indents, [d], [], style, pipeless, colons⟩) := rfl
  exact ⟨_, lookahead_of_next hfirst, lookahead_of_next hsecond⟩

end Source

namespace Reader

variable {r : Reader} {s s₁ s₂ : Source} {t d : Token} {self : Parse Node}

/-! ## Reading an id or a class -/

theorem seen_of_lookahead (hr : r.source.Tidy) (h : r.source.lookahead 1 = (.ok t, s)) :
    Seen r { r with source := s } ∧ s.stash[0]? = some t := by
  have hpeek := ends_peek hr
  rwa [Ends, Leads, run_peek h] at hpeek

theorem run_form_shorthand (h : r.source.lookahead 1 = (.ok t, s)) (ht : t.isShorthand = true)
    (hs : s.stash = [t]) :
    (form self).run.run r =
      self.run.run { r with source := ({ s with stash := [] } : Source).putOff t } := by
  rw [form, formBy, run_bind, run_peekKind h]
  rcases Token.kind_of_isShorthand ht with hk | hk
  · rw [hk]
    exact run_shorthand hs
  · rw [hk]
    exact run_shorthand hs

theorem run_isPending (ht : r.source.lookahead 2 = (.ok t, s)) (hs : t.isShorthand = true) :
    isPending.run.run r = (.ok false, { r with source := s }) := by
  have hat : s.stash[1]? = some t := (Source.lookahead_spec (n := 1) ht).1
  have hagain : s.lookahead 2 = (.ok t, s) := Source.lookahead_of_stash (n := 1) hat
  have hattrs : (t.kind == "attrs") = false := by
    rcases Token.kind_of_isShorthand hs with hk | hk <;> rw [hk] <;> rfl
  have hcolon : (t.kind == ":") = false := by
    rcases Token.kind_of_isShorthand hs with hk | hk <;> rw [hk] <;> rfl
  rw [isPending, run_bind, run_lookahead, ht]
  simp only [hattrs, Bool.false_eq_true, if_false]
  rw [run_bind, run_lookahead]
  simp only [hagain, hcolon, Bool.false_eq_true, if_false]
  rfl

/-- A tag with an id or a class after it is read after its name. -/
theorem run_form_tag {name : String} (hd : r.source.lookahead 1 = (.ok d, s₁))
    (hname : d.body = .tag name) (ht : s₁.lookahead 2 = (.ok t, s₂)) (hs : t.isShorthand = true) :
    (form self).run.run r =
      (tagNamed textBlock self name).run.run
        { r with source := { s₂ with stash := s₂.stash.tail } } := by
  have hkind : d.kind = "tag" := by rw [Token.kind, hname]; rfl
  have htext : d.text? = some name := by rw [Token.text?, hname]; rfl
  have hpending := run_isPending (r := { r with source := s₁ }) ht hs
  have hadvance : advance.run.run { r with source := s₂ } =
      (.ok d, { r with source := { s₂ with stash := s₂.stash.tail } }) := by
    obtain ⟨ts, hts⟩ : ∃ ts, s₂.stash = d :: ts := by
      have hfirst : s₁.stash[0]? = some d := (Source.lookahead_spec (n := 0) hd).1
      obtain ⟨us, hus⟩ := (Source.lookahead_spec (n := 1) ht).2.1
      cases hts : s₁.stash with
      | nil => rw [hts] at hfirst; cases hfirst
      | cons u ts =>
        rw [hts] at hfirst hus
        exact ⟨ts ++ us, by rw [← Option.some.inj hfirst, ← hus]; rfl⟩
    show (s₂.advance.1, { r with source := s₂.advance.2 }) = _
    rw [Source.advance, hts]
    rfl
  rw [form, formBy, run_bind, run_peekKind hd, hkind]
  show (tag self).run.run _ = _
  rw [tag, tagBy, run_bind, hpending]
  simp only [Bool.false_eq_true, if_false]
  rw [run_bind, hadvance]
  simp only [htext, Option.getD_some]
  rfl

/-- An id or a class is read as what comes after the name of a div. -/
theorem run_expression_shorthand (h : r.source.lookahead 1 = (.ok t, s))
    (ht : t.isShorthand = true) (hs : s.stash = [t]) (hd : s.deferred = []) :
    expression.run.run r =
      (tagNamed textBlock (within form (2 * r.source.size)) "div").run.run
        { r with source := s } := by
  obtain ⟨s₁, hfirst, hsecond⟩ := Source.lookahead_putOff hs hd
  rw [run_expression, Nat.mul_add, within, run_form_shorthand h ht hs, within,
    run_form_tag hfirst rfl hsecond ht]
  rfl

/-- A div before an id or a class is read as what comes after its name. -/
theorem run_expression_tag (hd : r.source.lookahead 1 = (.ok d, s₁)) (hname : d.body = .tag "div")
    (ht : s₁.lookahead 2 = (.ok t, s.behind [d])) (hs : t.isShorthand = true) :
    expression.run.run r =
      (tagNamed textBlock (within form (2 * r.source.size + 1)) "div").run.run
        { r with source := s } := by
  rw [run_expression, Nat.mul_add, within, run_form_tag hd hname ht hs]
  rfl

/-- What comes after the name of a div is read alike, however deep forms may go. -/
theorem alike_div {n m : Nat} (hr : r.source.Tidy) (ht : r.source.stash = [t])
    (hs : t.isShorthand = true) (hn : r.source.left ≤ n) (hm : r.source.left ≤ m) :
    Matches (fun _ _ => True) (tagNamed textBlock (within form (2 * n + 1)) "div")
      (tagNamed textBlock (within form (2 * m)) "div") (fun _ r' => Shorter 1 r r') r := by
  have hone : r.source.shorthandAt 0 = 1 := by
    rw [Source.shorthandAt, Source.upcoming_of_stash (t := t) (by rw [ht]; rfl)]
    simp [hs]
  have hsteps := steps_within (K := r.source.left) (show _ ≤ 2 * n + 1 by omega)
    (show _ ≤ 2 * m by omega)
  exact (steps_tagNamed hsteps hr (by omega)).mono fun _ _ hshort => hone ▸ hshort

/-- **A div before an id or a class makes no difference.** -/
theorem expression_behind_div (hr : r.source.Tidy) (h : r.source.lookahead 1 = (.ok t, s))
    (ht : t.isShorthand = true) (line : Nat) :
    expression.run.run { r with source := s.behind [⟨.tag "div", line⟩] } =
      expression.run.run r := by
  obtain ⟨hseen, hfirst⟩ := seen_of_lookahead hr h
  obtain ⟨hstash, hdeferred⟩ := hseen.tidy.of_shorthand hfirst ht
  have hsecond : (s.behind [⟨.tag "div", line⟩]).lookahead 2 =
      (.ok t, s.behind [⟨.tag "div", line⟩]) :=
    Source.lookahead_of_stash (n := 1) (by rw [Source.behind, hstash]; rfl)
  have htag := run_expression_tag (r := { r with source := s.behind [⟨.tag "div", line⟩] })
    (Source.lookahead_of_stash (n := 0) rfl) rfl hsecond ht
  rw [run_expression_shorthand h ht hstash hdeferred, htag]
  have hmore := s.left_le_behind [⟨.tag "div", line⟩]
  have hroom := left_lt_budget { r with source := s.behind [⟨.tag "div", line⟩] }
  have hroom' := left_lt_budget r
  have hle := hseen.left_le
  dsimp only at hroom hle
  exact (alike_div hseen.tidy hstash ht (by dsimp only; omega) (by dsimp only; omega)).run_eq

/-! ## Whole templates -/

theorem run_bind_congr {α β : Type} {act act' : Parse α} {f : α → Parse β} {r r' : Reader}
    (h : act.run.run r = act'.run.run r') :
    (act >>= f).run.run r = (act' >>= f).run.run r' := by
  rw [run_bind, run_bind, h]

theorem run_template_form (h : r.source.lookahead 1 = (.ok t, s)) (heos : t.kind ≠ "eos")
    (hline : t.kind ≠ "newline") :
    template.run.run r =
      (do
        let nodes ← expression >>= fun node => many "eos" expression r.source.size [node]
        if (← get).extending then
          context true
        return .block nodes r.source.line false : Parse Node).run.run { r with source := s } := by
  have hmany : (many "eos" expression (r.source.size + 1) []).run.run r =
      (expression >>= fun node => many "eos" expression r.source.size [node]).run.run
        { r with source := s } := by
    rw [many, run_bind, run_peekKind h]
    dsimp only
    rw [if_neg fun heq => heos (eq_of_beq heq), if_neg fun heq => hline (eq_of_beq heq)]
    rfl
  rw [run_bind, ← hmany, ← run_bind]
  rfl

/-- Forms that begin with an id or a class, with a div before it and without. -/
theorem run_forms_div {s₀ : Source} {n m : Nat}
    (hseen : Seen { r with source := s₀ } { r with source := s }) (hfirst : s.stash[0]? = some t)
    (ht : t.isShorthand = true) (hname : d.body = .tag "div")
    (hsecond : (s₀.behind [d]).lookahead 2 = (.ok t, s.behind [d])) (hn : s.left ≤ n)
    (hm : s.left ≤ m) :
    (expression >>= fun node => many "eos" expression n [node]).run.run
        { r with source := s₀.behind [d] } =
      (expression >>= fun node => many "eos" expression m [node]).run.run
        { r with source := s } := by
  obtain ⟨hstash, hdeferred⟩ := hseen.tidy.of_shorthand hfirst ht
  have htag := run_expression_tag (r := { r with source := s₀.behind [d] })
    (Source.lookahead_of_stash (n := 0) rfl) hname hsecond ht
  have hmark := run_expression_shorthand (r := { r with source := s })
    (Source.lookahead_of_stash (n := 0) hfirst) ht hstash hdeferred
  have hroom := left_lt_budget { r with source := s₀.behind [d] }
  have hroom' := left_lt_budget { r with source := s }
  have hle := hseen.left_le
  have hmore := s₀.left_le_behind [d]
  dsimp only at hroom hroom' hle
  rw [run_bind, run_bind, htag, hmark, ← run_bind, ← run_bind]
  have hdiv := alike_div (r := { r with source := s }) hseen.tidy hstash ht
    (show s.left ≤ (s₀.behind [d]).size by omega) (show s.left ≤ s.size by omega)
  refine (hdiv.bind (q := fun _ _ => True) fun node r' hshort => ?_).run_eq
  -- the form has taken the id or the class, so that both bounds go on to suffice
  have hless := hshort.left_add_le
  dsimp only at hless
  exact (steps_many steps_expression hshort.tidy (by decide) (Nat.lt_succ_self _) (by omega)
    (by omega)).mono fun _ _ _ => trivial

variable {src : String} {colons : Bool}

/-- **A div before an id or a class that a source begins with** makes no difference. -/
theorem run_template_div (file : Option String)
    (h : (Source.ofText src colons).lookahead 1 = (.ok t, s)) (ht : t.isShorthand = true) :
    template.run.run (ofSource (.ofText ("div" ++ src) colons) file) =
      template.run.run (ofSource (.ofText src colons) file) := by
  obtain ⟨hdiv, hsecond⟩ := Source.lookahead_ofText_div h ht
  obtain ⟨hseen, hfirst⟩ := seen_of_lookahead (r := ofSource (.ofText src colons) file)
    (Source.tidy_ofText src colons) h
  obtain ⟨hseen', -⟩ := seen_of_lookahead (r := ofSource (.ofText ("div" ++ src) colons) file)
    (Source.tidy_ofText _ colons) hdiv
  have hle : s.left ≤ (Source.ofText src colons).left := hseen.left_le
  have hle' : (Source.ofText src colons).left ≤ (Source.ofText ("div" ++ src) colons).left :=
    Nat.le_trans (Source.left_le_behind _ _) hseen'.left_le
  have hroom := left_lt_budget (ofSource (.ofText src colons) file)
  have hroom' := left_lt_budget (ofSource (.ofText ("div" ++ src) colons) file)
  dsimp only [ofSource] at hroom hroom'
  have hforms := run_forms_div (r := ofSource (.ofText src colons) file) hseen hfirst ht rfl hsecond
    (show s.left ≤ (Source.ofText ("div" ++ src) colons).size by omega)
    (show s.left ≤ (Source.ofText src colons).size by omega)
  have hkind := Token.kind_of_isShorthand ht
  have htemplate := run_template_form (r := ofSource (.ofText src colons) file) h
    (by rcases hkind with hk | hk <;> rw [hk] <;> decide)
    (by rcases hkind with hk | hk <;> rw [hk] <;> decide)
  have htemplate' := run_template_form (r := ofSource (.ofText ("div" ++ src) colons) file) hdiv
    (by decide) (by decide)
  exact htemplate'.trans ((run_bind_congr hforms).trans htemplate.symm)

end Reader

open Reader

/-- **An id or a class without a tag belongs to a div.** Wherever a form begins with one, it is the
only token at hand, and the form is read as if the name of a div stood before it: with the same
outcome, and with the same left to read. So a source that begins with one has the same tree, or
fails with the same fault, with `div` written before it. -/
theorem shorthand_belongs_to_div (src : String) (colons : Bool) (file : Option String) :
    (∀ r, FormAt (ofSource (.ofText src colons) file) r →
      ∀ t s, r.source.lookahead 1 = (.ok t, s) → t.isShorthand = true →
        (s.stash = [t] ∧ s.deferred = []) ∧
          ∀ line, expression.run.run { r with source := s.behind [⟨.tag "div", line⟩] } =
            expression.run.run r) ∧
      ∀ t s, (Source.ofText src colons).lookahead 1 = (.ok t, s) → t.isShorthand = true →
        parse (.ofText ("div" ++ src) colons) file = parse (.ofText src colons) file := by
  refine ⟨fun r hr t s h ht => ?_, fun t s h ht => ?_⟩
  · obtain ⟨es, hready⟩ := hr.between
    obtain ⟨hseen, hfirst⟩ := seen_of_lookahead hready.sound.tidy h
    exact ⟨hseen.tidy.of_shorthand hfirst ht, expression_behind_div hready.sound.tidy h ht⟩
  · exact congrArg Prod.fst (run_template_div file h ht)

/-- A class on the line of a tag, and an id at the beginning of a source. -/
theorem shorthand_belongs_to_div_on_line :
    (∃ r t s, FormAt (ofSource (.ofText "li: .x(y)" false) none) r ∧
      r.source.lookahead 1 = (.ok t, s) ∧ t.isShorthand = true ∧
      expression.run.run { r with source := s.behind [⟨.tag "div", 1⟩] } = expression.run.run r) ∧
      parse (.ofText ("div" ++ "#a.b") false) none = parse (.ofText "#a.b" false) none := by
  let s : Source := { rest := "(y)".toList, stash := [⟨.className "x", 1⟩], colons := false }
  have hform : FormAt (ofSource (.ofText "li: .x(y)" false) none) { source := s, file := none } :=
    ⟨.overflow, by decide +kernel, by decide +kernel⟩
  have hpeek : s.lookahead 1 = (.ok ⟨.className "x", 1⟩, s) := rfl
  have hfirst : (Source.ofText "#a.b" false).lookahead 1 =
      (.ok ⟨.id "a", 1⟩, { rest := ".b".toList, stash := [⟨.id "a", 1⟩], colons := false }) := by
    rfl
  refine ⟨⟨_, _, s, hform, hpeek, rfl, ?_⟩, ?_⟩
  · exact ((shorthand_belongs_to_div "li: .x(y)" false none).1 _ hform _ s hpeek rfl).2 1
  · exact (shorthand_belongs_to_div "#a.b" false none).2 _ _ hfirst rfl

end Jade

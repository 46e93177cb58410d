import Jade.Proofs.Outline.Forest
import Jade.Proofs.Source.Upcoming

/-!
# The tokens of a line

A line of an outline is read as a tag, its ids and classes and its text. Each of them ends where the
next one starts, because that one starts with a character of another kind (`Stops`, `EndsLine`).
What is left to see is that no other form, tried earlier, takes a part of the line. The control
lines start with words that the name of a tag does not start with (`Worded`), a comment or an
assignment would show in the text, and the forms that start with a mark are told apart by it.

## Main results

* `Jade.Outline.beforeTag_headline` : a line with a tag is no control line
* `Jade.Outline.runs_shorthand`, `runs_text` : the tokens of the parts of a line
* `Jade.Outline.runs_headline` : the tokens of a line
-/

namespace Jade

namespace Outline

variable {c : Char} {rest : List Char}

/-! ## Characters -/

theorem toNat_lt_of_isAlphanum (h : c.isAlphanum = true) : c.toNat < 0x80 := by
  have hranges : (decide ('A'.val ≤ c.val ∧ c.val ≤ 'Z'.val) ||
      (decide ('a'.val ≤ c.val) && decide (c.val ≤ 'z'.val)) ||
      (decide ('0'.val ≤ c.val) && decide (c.val ≤ '9'.val))) = true := h
  simp only [Bool.or_eq_true, Bool.and_eq_true, decide_eq_true_eq, UInt32.le_iff_toNat_le]
    at hranges
  have hlast : 'Z'.val.toNat = 90 ∧ 'z'.val.toNat = 122 ∧ '9'.val.toNat = 57 := ⟨rfl, rfl, rfl⟩
  have hc : c.toNat = c.val.toNat := rfl
  omega

theorem isWord_of_isAlphanum (h : c.isAlphanum = true) : isWord c = true := by
  rw [isWord, if_pos (toNat_lt_of_isAlphanum h), h]
  rfl

theorem isNamePart_of_isPlain (h : isPlain c = true) : Rules.isNamePart c = true := by
  rw [isPlain, Bool.or_eq_true, Bool.or_eq_true] at h
  rw [Rules.isNamePart, Bool.or_eq_true]
  rcases h with (h | h) | h
  · exact .inl (isWord_of_isAlphanum h)
  · obtain rfl := eq_of_beq h
    exact .inl (by decide)
  · exact .inr h

/-- What may follow a name on its line: a mark, a blank, or the end of the line. -/
def Stops (cs : List Char) : Prop := ∀ c ∈ cs.head?, c = '#' ∨ c = '.' ∨ c = ' ' ∨ c = '\n'

/-- Nothing is left of the line. -/
def EndsLine (cs : List Char) : Prop := ∀ c ∈ cs.head?, c = '\n'

theorem EndsLine.stops {cs : List Char} (h : EndsLine cs) : Stops cs :=
  fun c hc => .inr (.inr (.inr (h c hc)))

theorem Stops.isNamePart_eq_false {cs : List Char} (h : Stops cs) :
    ∀ c ∈ cs.head?, Rules.isNamePart c = false := by
  intro c hc
  rcases h c hc with rfl | rfl | rfl | rfl <;> decide

theorem Stops.isAlpha_eq_false {cs : List Char} (h : Stops cs) :
    ∀ c ∈ cs.head?, c.isAlpha = false := by
  intro c hc
  rcases h c hc with rfl | rfl | rfl | rfl <;> decide

theorem stops_textChars (h : Headline) (hrest : EndsLine rest) : Stops (h.textChars ++ rest) := by
  rw [Headline.textChars]
  split
  · intro c hc
    obtain rfl : ' ' = c := Option.some.inj hc
    exact .inr (.inr (.inl rfl))
  · exact hrest.stops

theorem stops_shorthands (ss : List Shorthand) (hrest : Stops rest) :
    Stops (ss.flatMap Shorthand.chars ++ rest) := by
  cases ss with
  | nil => exact hrest
  | cons s ss =>
    intro c hc
    obtain rfl : (if s.isId then '#' else '.') = c := Option.some.inj hc
    split
    · exact .inl rfl
    · exact .inr (.inl rfl)

theorem stops_tailChars (h : Headline) (hrest : EndsLine rest) : Stops (h.tailChars ++ rest) := by
  rw [Headline.tailChars, List.append_assoc]
  exact stops_shorthands _ (stops_textChars h hrest)

/-! ## Recognisers -/

theorem run?_append {p : Char → Bool} {xs : List Char} (rest : List Char) (hne : xs ≠ [])
    (hxs : ∀ c ∈ xs, p c = true) (hrest : ∀ c ∈ rest.head?, p c = false) :
    Rules.run? p (xs ++ rest) = some (String.ofList xs, rest) := by
  have htake : rest.takeWhile p = [] ∧ rest.dropWhile p = rest := by
    cases rest with
    | nil => exact ⟨rfl, rfl⟩
    | cons c cs =>
      have hc : ¬ p c = true := by rw [hrest c rfl]; decide
      exact ⟨List.takeWhile_cons_of_neg hc, List.dropWhile_cons_of_neg hc⟩
  refine Rules.run?_eq_some_iff.mpr ⟨?_, ?_, ?_⟩
  · rw [List.takeWhile_append_of_pos hxs, htake.1, List.append_nil]
    exact hne
  · rw [List.takeWhile_append_of_pos hxs, htake.1, List.append_nil]
  · rw [List.dropWhile_append_of_pos hxs, htake.2]

/-- A word does not go on into what follows, if that starts otherwise. -/
theorem prefix_of_prefix_append {word xs : List Char} (h : word <+: xs ++ rest)
    (hrest : ∀ c ∈ rest.head?, c ∉ word) : word <+: xs := by
  obtain ⟨r, hr⟩ := h
  rcases List.append_eq_append_iff.mp hr with ⟨more, hmore, -⟩ | ⟨more, hmore, hrest'⟩
  · exact ⟨more, hmore.symm⟩
  · cases more with
    | nil => exact ⟨[], by rw [hmore, List.append_nil, List.append_nil]⟩
    | cons c cs => exact absurd (by rw [hmore]; simp) (hrest c (by rw [hrest']; rfl))

theorem stripPrefix?_eq_none {word name : List Char} (hword : ∀ c ∈ word, c.isAlpha = true)
    (hrest : Stops rest) (hne : ¬ word <+: name) : stripPrefix? word (name ++ rest) = none := by
  cases hstrip : stripPrefix? word (name ++ rest) with
  | none => rfl
  | some r =>
    have hprefix : word <+: name ++ rest := ⟨r, (eq_append_of_stripPrefix? hstrip).symm⟩
    refine absurd (prefix_of_prefix_append hprefix fun c hc hmem => ?_) hne
    exact nomatch (hword c hmem).symm.trans (hrest.isAlpha_eq_false c hc)

theorem stripPrefix?_append_eq_none {w m cs : List Char} (h : stripPrefix? w cs = none) :
    stripPrefix? (w ++ m) cs = none := by
  cases hstrip : stripPrefix? (w ++ m) cs with
  | none => rfl
  | some r =>
    rw [eq_append_of_stripPrefix? hstrip, List.append_assoc, stripPrefix?_append] at h
    exact nomatch h

namespace TagName

theorem exists_cons (n : TagName) : ∃ c cs, n.text.toList = c :: cs ∧ c.isAlpha = true := by
  have hletter := n.letter
  cases hn : n.text.toList with
  | nil => rw [hn] at hletter; exact nomatch hletter
  | cons c cs => rw [hn] at hletter; exact ⟨c, cs, rfl, hletter⟩

/-- What stands at the start of a line with a tag is a letter. -/
theorem head?_append (n : TagName) (rest : List Char) :
    ∃ c, (n.text.toList ++ rest).head? = some c ∧ c.isAlpha = true := by
  obtain ⟨c, cs, hn, hc⟩ := n.exists_cons
  exact ⟨c, by rw [hn]; rfl, hc⟩

theorem keyword_eq_none (n : TagName) {rest : List Char} (hrest : Stops rest) :
    ∀ word ∈ keywords, stripPrefix? word.toList (n.text.toList ++ rest) = none := by
  intro word hword
  have halpha : ∀ word ∈ keywords, word.toList.all Char.isAlpha = true := by decide
  exact stripPrefix?_eq_none (List.all_eq_true.mp (halpha word hword)) hrest
    (n.not_keyword word hword)

end TagName

theorem dropWhile_append_of_head? {p : Char → Bool} (xs : List Char)
    (h : ∀ c ∈ rest.head?, p c = false) : (xs ++ rest).dropWhile p = xs.dropWhile p ++ rest := by
  rw [List.dropWhile_append]
  split
  · next hempty =>
    rw [List.isEmpty_iff.mp hempty, List.nil_append]
    cases rest with
    | nil => rfl
    | cons c cs => exact List.dropWhile_cons_of_neg (by rw [h c rfl]; decide)
  · rfl

/-- A blank comes after a name, or after its first part, only before a text. -/
theorem exists_text_of_blank (h : Headline) {cs : List Char} (hrest : EndsLine rest)
    (hblank : (h.chars ++ rest).dropWhile isWord = ' ' :: cs) :
    ∃ t, h.text = some t ∧ cs = t.text.toList ++ rest := by
  have hstops := stops_tailChars h hrest
  have hword : ∀ c ∈ (h.tailChars ++ rest).head?, isWord c = false := fun c hc => by
    have hpart := hstops.isNamePart_eq_false c hc
    rw [Rules.isNamePart, Bool.or_eq_false_iff] at hpart
    exact hpart.1
  rw [Headline.chars, List.append_assoc, dropWhile_append_of_head? _ hword] at hblank
  cases hx : h.name.text.toList.dropWhile isWord with
  | cons d ds =>
    -- a name holds no blank
    rw [hx] at hblank
    have hmem : ' ' ∈ h.name.text.toList :=
      (List.dropWhile_suffix isWord).subset (by rw [hx, (List.cons.inj hblank).1]; simp)
    exact absurd (h.name.isPlain_of_mem hmem) (by decide)
  | nil =>
    rw [hx, List.nil_append, Headline.tailChars] at hblank
    cases hs : h.shorthands with
    | cons s ss =>
      rw [hs] at hblank
      have hmark := (List.cons.inj hblank).1
      split at hmark <;> cases hmark
    | nil =>
      rw [hs] at hblank
      cases ht : h.text with
      | none =>
        rw [Headline.textChars, ht] at hblank
        exact absurd (hrest ' ' (by rw [show rest = _ from hblank]; rfl)) (by decide)
      | some t =>
        rw [Headline.textChars, ht] at hblank
        exact ⟨t, rfl, (List.cons.inj hblank).2.symm⟩

/-- What comes after the blanks before a text is the text's own. -/
theorem InlineText.not_prefix_dropWhile (t : InlineText) {word : List Char} (hrest : EndsLine rest)
    (hword : '\n' ∉ word) (h : ¬ word <+: t.text.toList.dropWhile Rules.isSpace) :
    ¬ word <+: (t.text.toList ++ rest).dropWhile Rules.isSpace := by
  intro hprefix
  rw [dropWhile_append_of_head? _ fun c hc => by rw [hrest c hc]; decide] at hprefix
  exact h (prefix_of_prefix_append hprefix fun c hc => hrest c hc ▸ hword)

theorem assignment?_headline (h : Headline) (hrest : EndsLine rest) :
    Rules.assignment? (h.chars ++ rest) = none := by
  obtain ⟨c, hhead, hc⟩ := h.name.head?_append (h.tailChars ++ rest)
  rw [← List.append_assoc, ← Headline.chars] at hhead
  have hdash : ¬ ((h.chars ++ rest).head? == some '-') = true := by
    rw [hhead, beq_iff_eq]
    intro heq
    rw [Option.some.inj heq] at hc
    cases hc
  rw [Rules.assignment?, if_neg hdash]
  dsimp only
  split
  · next name cs hrun =>
    have hblank := (Rules.run?_eq_some_iff.mp hrun).2.2.symm
    obtain ⟨t, -, rfl⟩ := exists_text_of_blank h hrest hblank
    split
    · next r heq =>
      exact (t.not_prefix_dropWhile hrest (by decide) t.not_assigned ⟨r, heq.symm⟩).elim
    · rfl
  · rfl

/-- What starts with a letter, but with no word that opens a control line. -/
structure Worded (cs : List Char) : Prop where
  letter : ∃ c, cs.head? = some c ∧ c.isAlpha = true
  keyword : ∀ word ∈ keywords, stripPrefix? word.toList cs = none

namespace Worded

variable {cs : List Char}

theorem head?_ne (h : Worded cs) {d : Char} (hd : d.isAlpha = false) : cs.head? ≠ some d := by
  obtain ⟨c, hhead, hc⟩ := h.letter
  intro heq
  rw [hhead] at heq
  rw [Option.some.inj heq, hd] at hc
  exact nomatch hc

theorem afterDash_eq (h : Worded cs) : Rules.afterDash cs = cs := by
  rw [Rules.afterDash.eq_def]
  split
  · exact absurd rfl (h.head?_ne (d := '-') (by decide))
  · rfl

theorem call?_eq_none (h : Worded cs) : Rules.call? cs = none := by
  rw [Rules.call?.eq_def]
  split
  · exact absurd rfl (h.head?_ne (d := '+') (by decide))
  · rfl

theorem doctype?_eq_none (h : Worded cs) : Rules.doctype? cs = none := by
  have hbang : stripPrefix? "!!!".toList cs = none := by
    cases hstrip : stripPrefix? "!!!".toList cs with
    | none => rfl
    | some r =>
      have hhead : cs.head? = some '!' := by
        rw [eq_append_of_stripPrefix? hstrip]
        rfl
      exact absurd hhead (h.head?_ne (by decide))
  rw [Rules.doctype?, hbang, h.keyword "doctype" (by decide)]
  rfl

theorem parent?_eq_none (h : Worded cs) : Rules.parent? cs = none := by
  have hextend := h.keyword "extend" (by decide)
  have hextends : stripPrefix? "extends".toList cs = none :=
    stripPrefix?_append_eq_none (m := ['s']) hextend
  rw [Rules.parent?, Rules.keyword?, Rules.keyword?, hextends, hextend]
  rfl

theorem conditional?_eq_none (h : Worded cs) : Rules.conditional? cs = none := by
  have hwords : ∀ word ∈ Rules.conditionalWords, stripPrefix? word.toList cs = none := by
    simp only [Rules.conditionalWords, List.forall_mem_cons, List.not_mem_nil, false_imp_iff,
      implies_true, and_true]
    have helse := h.keyword "else" (by decide)
    exact ⟨h.keyword "if" (by decide), h.keyword "unless" (by decide),
      stripPrefix?_append_eq_none (m := " if".toList) helse, h.keyword "elif" (by decide), helse⟩
  refine List.findSome?_eq_none_iff.mpr fun word hword => ?_
  rw [h.afterDash_eq, hwords word hword]

end Worded

variable {s : Source} {f : Rules.Form} {body : Token.Body}

theorem worded_headline (h : Headline) (hrest : EndsLine rest) : Worded (h.chars ++ rest) := by
  rw [Headline.chars, List.append_assoc]
  exact ⟨h.name.head?_append _, h.name.keyword_eq_none (stops_tailChars h hrest)⟩

/-- **No control line** starts like a line with a tag. -/
theorem beforeTag_headline (h : Headline) (hrest : EndsLine rest) :
    ∀ f ∈ Rules.beforeTag, f (h.chars ++ rest) = none := by
  have hassign := assignment?_headline h hrest
  have hw := worded_headline h hrest
  generalize h.chars ++ rest = cs at hassign hw
  simp only [Rules.beforeTag, List.forall_mem_cons, List.not_mem_nil, false_imp_iff, implies_true,
    and_true]
  refine ⟨?_, ?_, ?_, ?_, ?_, ?_, ?_, ?_, ?_, ?_, ?_, ?_⟩
  · rw [Rules.yieldForm, Rules.yield?, hw.keyword "yield" (by decide)]; rfl
  · rw [Rules.doctypeForm, hw.doctype?_eq_none]; rfl
  · rw [Rules.form, hw.parent?_eq_none]; rfl
  · rw [Rules.form, Rules.keyword?, hw.keyword "append" (by decide)]; rfl
  · rw [Rules.form, Rules.keyword?, hw.keyword "prepend" (by decide)]; rfl
  · rw [Rules.blockForm, Rules.block?, hw.keyword "block" (by decide)]; rfl
  · rw [Rules.form, Rules.inclusion?, Rules.keyword?, hw.keyword "include" (by decide)]; rfl
  · rw [Rules.mixinForm, Rules.mixin?, hw.keyword "mixin" (by decide)]; rfl
  · rw [Rules.callForm, hw.call?_eq_none]; rfl
  · rw [Rules.conditionalForm, hw.conditional?_eq_none]; rfl
  · rw [Rules.eachForm, Rules.each?, hw.afterDash_eq, hw.keyword "each" (by decide),
      hw.keyword "for" (by decide)]
    rfl
  · rw [Rules.assignmentForm, hassign]; rfl

theorem endsWith_colon_eq_false {name : String} (h : ':' ∉ name.toList) :
    name.endsWith ":" = false := by
  cases hend : name.endsWith ":" with
  | false => rfl
  | true =>
    rw [String.endsWith_eq_endsWith_toSlice, String.Slice.endsWith_string_iff] at hend
    have hsuffix : [':'] <:+ name.toList := by simpa using hend
    exact absurd (hsuffix.subset List.mem_cons_self) h

theorem TagName.colon_not_mem (n : TagName) : ':' ∉ n.text.toList :=
  fun hmem => absurd (n.isPlain_of_mem hmem) (by decide)

/-- **The name of a tag** is read up to what follows it. -/
theorem tag?_headline (n : TagName) (hrest : Stops rest) :
    Rules.tag? (n.text.toList ++ rest) = some (n.text, rest) := by
  obtain ⟨c, cs, hn, hc⟩ := n.exists_cons
  have hword : isWord c = true :=
    isWord_of_isAlphanum (by rw [Char.isAlphanum, hc]; rfl)
  have hne : n.text.toList ≠ [] := by
    rw [hn]
    exact List.cons_ne_nil c cs
  have hrun := run?_append (p := fun d => Rules.isNamePart d || d == ':') rest hne
    (fun d hd => by rw [isNamePart_of_isPlain (n.isPlain_of_mem hd)]; rfl)
    (fun d hd => by
      rw [hrest.isNamePart_eq_false d hd, Bool.false_or]
      rcases hrest d hd with rfl | rfl | rfl | rfl <;> decide)
  rw [String.ofList_toList, hn, List.cons_append] at hrun
  rw [hn, List.cons_append, Rules.tag?, if_pos hword]
  exact hrun

/-! ## Tokens -/

/-- The source is within a line, with no tokens at hand. -/
structure Ready (s : Source) : Prop where
  stash : s.stash = []
  deferred : s.deferred = []
  pipeless : s.pipeless = false

theorem Ready.with_rest (h : Ready s) (rest : List Char) :
    Ready { s with rest } := ⟨h.stash, h.deferred, h.pipeless⟩

theorem Ready.advance_eq (h : Ready s) :
    s.advance = Source.fresh { s with rest := Rules.dropBlankLines s.rest } := by
  have hmarkup : ¬ s.pipeless = true := by rw [h.pipeless]; decide
  have hadvance : s.advance = s.next := by rw [Source.advance, h.stash]
  have hnext : s.next = s.skipBlankLines.fresh := by rw [Source.next, h.deferred]
  rw [hadvance, hnext, Source.skipBlankLines, if_neg hmarkup]

theorem Ready.advance_inline (h : Ready s) (hne : s.rest ≠ []) (hnl : s.rest.head? ≠ some '\n') :
    s.advance = s.inLine := by
  have hmarkup : ¬ s.pipeless = true := by rw [h.pipeless]; decide
  rw [h.advance_eq, Rules.dropBlankLines_of_ne hnl, Source.fresh_of_inline hne hnl, if_neg hmarkup]

theorem scan_of_some (h : f s.rest = some (body, rest)) :
    s.scan f = (some (s.tok body), { s with rest }) := by
  rw [Source.scan, h]

theorem inLine_of_tag {name : String} (hbefore : ∀ f ∈ Rules.beforeTag, f s.rest = none)
    (htag : Rules.tag? s.rest = some (name, rest)) (hcolon : name.endsWith ":" = false) :
    s.inLine = (.ok (s.tok (.tag name)), { s with rest }) := by
  have hno : ¬ name.endsWith ":" = true := by rw [hcolon]; decide
  rw [Source.inLine, Source.scanForms_of_none hbefore]
  dsimp only
  rw [Source.scanTag, htag]
  dsimp only
  rw [if_neg hno]

theorem inLine_of_mark {c : Char} {cs : List Char} (hc : c ∈ ['#', '.', ' '])
    (hr : s.rest = c :: cs)
    (hform : Rules.firstOf (Rules.afterTag ++ [Rules.attrs? s.colons] ++ Rules.afterAttrs) s.rest =
      some (body, rest)) : s.inLine = (.ok (s.tok body), { s with rest }) := by
  have hbefore : ∀ f ∈ Rules.beforeTag, f s.rest = none := hr ▸ Rules.beforeTag_mark (.tail _ hc) cs
  have htag : Rules.tag? s.rest = none := by
    simp only [List.mem_cons, List.not_mem_nil, or_false] at hc
    rcases hc with rfl | rfl | rfl <;> rw [hr] <;> rfl
  rw [Source.inLine, Source.scanForms_of_none hbefore]
  dsimp only
  rw [Source.scanTag, htag]
  dsimp only
  rw [Source.scanForms, scan_of_some hform]

theorem firstOf_cons_none {fs : List Rules.Form} {cs : List Char} (h : f cs = none) :
    Rules.firstOf (f :: fs) cs = Rules.firstOf fs cs := by
  rw [Rules.firstOf, List.findSome?_cons, h]
  rfl

theorem firstOf_cons_some {fs : List Rules.Form} {cs : List Char} (h : f cs = some (body, rest)) :
    Rules.firstOf (f :: fs) cs = some (body, rest) := by
  rw [Rules.firstOf, List.findSome?_cons, h]

/-- **A shorthand** is read up to what follows it. -/
theorem runs_shorthand (sh : Shorthand) (hs : Ready s) (hr : s.rest = sh.chars ++ rest)
    (hrest : Stops rest) : s.Runs [sh.body] { s with rest } := by
  have hrun := run?_append rest sh.nonempty
    (fun d hd => isNamePart_of_isPlain (sh.isPlain_of_mem hd)) hrest.isNamePart_eq_false
  rw [String.ofList_toList] at hrun
  rw [Shorthand.chars, List.cons_append] at hr
  have hnl : s.rest.head? ≠ some '\n' := by
    rw [hr, List.head?_cons]
    cases sh.isId <;> decide
  have hadvance : s.advance = (.ok (s.tok sh.body), { s with rest }) := by
    rw [hs.advance_inline (by rw [hr]; simp) hnl]
    refine inLine_of_mark (by cases sh.isId <;> decide) hr ?_
    rw [hr, Shorthand.body]
    cases sh.isId with
    | true =>
      have hid : Rules.form Rules.id? .id ('#' :: (sh.value.toList ++ rest))
          = some (.id sh.value, rest) := by
        rw [Rules.form, Rules.id?, hrun]
        rfl
      exact (firstOf_cons_none rfl).trans ((firstOf_cons_none rfl).trans (firstOf_cons_some hid))
    | false =>
      have hclass : Rules.form Rules.className? .className ('.' :: (sh.value.toList ++ rest))
          = some (.className sh.value, rest) := by
        rw [Rules.form, Rules.className?, hrun]
        rfl
      exact (firstOf_cons_none rfl).trans ((firstOf_cons_none rfl).trans
        ((firstOf_cons_none rfl).trans (firstOf_cons_some hclass)))
  exact Source.runs_of_advance hadvance

theorem runs_shorthands (ss : List Shorthand) (hs : Ready s)
    (hr : s.rest = ss.flatMap Shorthand.chars ++ rest) (hrest : Stops rest) :
    s.Runs (ss.map Shorthand.body) { s with rest } := by
  induction ss generalizing s with
  | nil =>
    show { s with rest } = s
    rw [← show s.rest = rest from hr]
  | cons sh ss ih =>
    rw [List.flatMap_cons, List.append_assoc] at hr
    exact (runs_shorthand sh hs hr (stops_shorthands ss hrest)).append
      (ih (hs.with_rest _) rfl)

theorem InlineText.comment?_eq_none (t : InlineText) (hrest : EndsLine rest) :
    Rules.comment? (' ' :: (t.text.toList ++ rest)) = none := by
  have hslashes := t.not_prefix_dropWhile hrest (by decide) t.not_comment
  rw [Rules.comment?, List.dropWhile_cons_of_pos (by decide)]
  split
  · next r heq => exact (hslashes ⟨'-' :: r, heq.symm⟩).elim
  · next r _ heq => exact (hslashes ⟨r, heq.symm⟩).elim
  · rfl

theorem InlineText.text?_eq_some (t : InlineText) (hrest : EndsLine rest) :
    Rules.text? (' ' :: (t.text.toList ++ rest)) = some (" " ++ t.text, rest) := by
  have hline : ∀ c ∈ ' ' :: t.text.toList, Rules.inLine c = true := by
    intro c hc
    rcases List.mem_cons.mp hc with rfl | hc
    · decide
    · exact bne_iff_ne.mpr fun heq => t.oneLine.1 (heq ▸ hc)
  have hrun := run?_append (p := Rules.inLine) rest (List.cons_ne_nil ' ' t.text.toList) hline
    fun c hc => by rw [hrest c hc]; decide
  have hblank : String.ofList (' ' :: t.text.toList) = " " ++ t.text := by
    rw [← String.toList_inj, String.toList_ofList, String.toList_append]
    rfl
  rw [hblank, List.cons_append] at hrun
  exact hrun

/-- After a tag, a blank starts a text unless a comment follows. -/
theorem InlineText.firstOf_eq_some (t : InlineText) (hrest : EndsLine rest) (colons : Bool) :
    Rules.firstOf (Rules.afterTag ++ [Rules.attrs? colons] ++ Rules.afterAttrs)
      (' ' :: (t.text.toList ++ rest)) = some (.text (" " ++ t.text), rest) := by
  have htext : Rules.form Rules.text? .text (' ' :: (t.text.toList ++ rest))
      = some (.text (" " ++ t.text), rest) := by
    rw [Rules.form, t.text?_eq_some hrest]
    rfl
  have hcomment : Rules.commentForm (' ' :: (t.text.toList ++ rest)) = none := by
    rw [Rules.commentForm, t.comment?_eq_none hrest]
    rfl
  calc Rules.firstOf (Rules.afterTag ++ [Rules.attrs? colons] ++ Rules.afterAttrs) _
    _ = Rules.firstOf ([Rules.attrs? colons] ++ Rules.afterAttrs) _ :=
      (firstOf_cons_none rfl).trans ((firstOf_cons_none rfl).trans
        ((firstOf_cons_none rfl).trans (firstOf_cons_none rfl)))
    _ = Rules.firstOf Rules.afterAttrs _ := firstOf_cons_none rfl
    _ = Rules.firstOf [Rules.colonForm, Rules.form Rules.string? .string,
          Rules.form Rules.text? .text] _ := firstOf_cons_none hcomment
    _ = some (.text (" " ++ t.text), rest) :=
      (firstOf_cons_none rfl).trans ((firstOf_cons_none rfl).trans (firstOf_cons_some htext))

/-- **The text** is read up to the end of the line. -/
theorem runs_text (h : Headline) (hs : Ready s) (hr : s.rest = h.textChars ++ rest)
    (hrest : EndsLine rest) : s.Runs h.textBodies { s with rest } := by
  rw [Headline.textChars] at hr
  rw [Headline.textBodies]
  split at hr
  · next t ht =>
    have hadvance : s.advance = (.ok (s.tok (.text (" " ++ t.text))), { s with rest }) := by
      rw [hs.advance_inline (by rw [hr]; simp) (by rw [hr]; simp)]
      refine inLine_of_mark (by decide) hr ?_
      rw [hr]
      exact t.firstOf_eq_some hrest s.colons
    exact Source.runs_of_advance hadvance
  · show { s with rest } = s
    rw [← show s.rest = rest from hr]

/-- **A line with a tag** gives the tokens of its headline. -/
theorem runs_headline (h : Headline) (hs : Ready s) (hr : s.rest = h.chars ++ rest)
    (hrest : EndsLine rest) : s.Runs h.bodies { s with rest } := by
  obtain ⟨c, hhead, hc⟩ := h.name.head?_append (h.tailChars ++ rest)
  rw [← List.append_assoc, ← Headline.chars, ← hr] at hhead
  have hne : s.rest ≠ [] := fun heq => by rw [heq] at hhead; exact nomatch hhead
  have hnl : s.rest.head? ≠ some '\n' := fun heq => by
    rw [hhead] at heq
    rw [Option.some.inj heq] at hc
    cases hc
  have hname : s.advance
      = (.ok (s.tok (.tag h.name.text)), { s with rest := h.tailChars ++ rest }) := by
    rw [hs.advance_inline hne hnl]
    refine inLine_of_tag (by rw [hr]; exact beforeTag_headline h hrest) ?_
      (endsWith_colon_eq_false h.name.colon_not_mem)
    rw [hr, Headline.chars, List.append_assoc]
    exact tag?_headline h.name (stops_tailChars h hrest)
  have hmarks := runs_shorthands h.shorthands (hs.with_rest (h.tailChars ++ rest))
    (by rw [Headline.tailChars, List.append_assoc]) (stops_textChars h hrest)
  have htext := runs_text h (hs.with_rest (h.textChars ++ rest)) rfl hrest
  exact (Source.runs_of_advance hname).append (hmarks.append htext)

end Outline

end Jade

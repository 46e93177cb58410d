import Jade.Proofs.Source.Step

/-!
# Reading ends

Two facts about reading a source token by token.

*Some form always fits.* The forms are tried one after the other, and none of them has to fit. Yet
one of them does, whatever the source: `Source.scanInOrder` tries them in order and could come back
with nothing, and `Source.scanInOrder_eq_next` says that it comes back with what `Source.next`
gives, which is a token or a fault.

*Every token is paid for.* Some tokens take no characters: an outdent, a colon that was put off.
They are charged to what came before: an indentation takes a line end and at least one more
character, and the colon is a character of its tag. So what is left, counted in characters, open
indentations and tokens at hand, goes down with every token but the last one. The end itself counts
nothing, which lets it be read ahead any number of times.

## Main results

* `Jade.Source.scanInOrder_eq_next` : some form always fits
* `Jade.Source.Reads.left_add_weight_le`, `Jade.Source.left_of_advance` : every token is paid for
* `Jade.Source.reading_ends` : after as many calls as there are characters, and one more, the end
  was reached or a fault was raised
-/

namespace Jade

namespace Rules

variable {cs : List Char}

/-! ## Forms at a line end -/

/-- No control line starts with a line end, a mark or a blank. -/
theorem beforeTag_mark {c : Char} (hc : c ∈ ['\n', '#', '.', ' ']) (cs : List Char) :
    ∀ f ∈ beforeTag, f (c :: cs) = none := by
  simp only [beforeTag, List.forall_mem_cons, List.not_mem_nil, false_imp_iff, implies_true,
    and_true]
  simp only [List.mem_cons, List.not_mem_nil, or_false] at hc
  rcases hc with rfl | rfl | rfl | rfl <;>
    (refine ⟨?_, ?_, ?_, ?_, ?_, ?_, ?_, ?_, ?_, ?_, ?_, ?_⟩ <;> rfl)

theorem afterTag_newline (cs : List Char) : ∀ f ∈ afterTag, f ('\n' :: cs) = none := by
  simp only [afterTag, List.forall_mem_cons, List.not_mem_nil, false_imp_iff, implies_true,
    and_true]
  refine ⟨?_, ?_, ?_, ?_⟩ <;> rfl

/-- Passing over one blank line first does not change where the blank lines end. -/
theorem dropBlankLines_of_blankLine? {rest : List Char} (h : blankLine? cs = some rest) :
    dropBlankLines cs = dropBlankLines rest := by
  rw [blankLine?.eq_def] at h
  split at h
  · next cs =>
    split at h
    · next r hr =>
      cases h
      have hskip : ∀ (ds keep : List Char), ds.dropWhile isSpace = '\n' :: r →
          lastLineEnd keep ds = lastLineEnd ('\n' :: r) r := by
        intro ds
        induction ds with
        | nil => intro keep hds; cases hds
        | cons d ds ih =>
          intro keep hds
          by_cases hd : isSpace d = true
          · rw [List.dropWhile_cons_of_pos hd] at hds
            obtain rfl : d = ' ' := eq_of_beq hd
            exact ih keep hds
          · rw [List.dropWhile_cons_of_neg hd] at hds
            cases hds
            rfl
      exact hskip cs ('\n' :: cs) hr
    · cases h
  · cases h

theorem dropBlankLines_of_blankLine?_none (h : blankLine? cs = none) : dropBlankLines cs = cs := by
  rw [dropBlankLines.eq_def]
  split
  · next cs =>
    have hstop : ∀ (ds keep : List Char), (∀ r, ds.dropWhile isSpace ≠ '\n' :: r) →
        lastLineEnd keep ds = keep := by
      intro ds
      induction ds with
      | nil => intro keep _; rfl
      | cons d ds ih =>
        intro keep hds
        by_cases hd : isSpace d = true
        · obtain rfl : d = ' ' := eq_of_beq hd
          exact ih keep fun r hr => hds r (by rwa [List.dropWhile_cons_of_pos hd])
        · rw [lastLineEnd.eq_def]
          split
          · next heq => exact absurd (by rw [(List.cons.inj heq).1]; rfl) hd
          · next heq =>
            refine absurd ?_ (hds ds)
            rw [List.dropWhile_cons_of_neg hd, (List.cons.inj heq).1]
          · rfl
    refine hstop cs _ fun r hr => ?_
    rw [blankLine?, hr] at h
    cases h
  · rfl

theorem blankLine?_eq_none (h : cs.head? ≠ some '\n') : blankLine? cs = none := by
  rw [blankLine?.eq_def]
  split
  · exact absurd rfl h
  · rfl

end Rules

namespace Source

variable {s : Source} {scanners : List Scanner}

/-! ## The forms in order -/

/-- The forms in the order in which they are tried. -/
def Scanner.inOrder : List Scanner :=
  [blank, eos, pipelessText] ++
    (Rules.beforeTag.map form ++
      (tag :: (Rules.afterTag.map form ++ (attrs :: layout :: Rules.afterAttrs.map form))))

/-- Try forms one after the other, up to one that fits or fails. -/
def tryEach : List Scanner → Source → Except Fault (Option Token) × Source
  | [], s => (.ok none, s)
  | scanner :: scanners, s =>
    match scanner.run s with
    | (.ok none, s) => tryEach scanners s
    | outcome => outcome

/-- Read a token by trying the forms in order, after the tokens that were put off. -/
def scanInOrder (s : Source) : Except Fault (Option Token) × Source :=
  match s.deferred with
  | token :: deferred => (.ok (some token), { s with deferred })
  | [] => s.tryEach Scanner.inOrder

theorem tryEach_cons_none {scanner : Scanner} (h : scanner.run s = (.ok none, s)) :
    s.tryEach (scanner :: scanners) = s.tryEach scanners := by
  rw [tryEach, h]

theorem tryEach_cons_some {s' : Source} {scanner : Scanner} {t : Token}
    (h : scanner.run s = (.ok (some t), s')) :
    s.tryEach (scanner :: scanners) = (.ok (some t), s') := by
  rw [tryEach, h]

/-- Forms of a line that are tried one after the other are tried as one. -/
theorem tryEach_map_form (forms : List Rules.Form) (scanners : List Scanner) (s : Source) :
    s.tryEach (forms.map .form ++ scanners) =
      match s.scanForms forms with
      | (some t, s') => (.ok (some t), s')
      | (none, s') => s'.tryEach scanners := by
  rw [scanForms, scan, Rules.firstOf]
  induction forms with
  | nil => rfl
  | cons f forms ih =>
    rw [List.map_cons, List.cons_append, List.findSome?_cons]
    cases hf : f s.rest with
    | none =>
      have hrun : (Scanner.form f).run s = (.ok none, s) := by rw [Scanner.run, scan, hf]
      rw [tryEach_cons_none hrun, ih]
    | some found =>
      have hrun : (Scanner.form f).run s
          = (.ok (some (s.tok found.1)), { s with rest := found.2 }) := by
        rw [Scanner.run, scan, hf]
      rw [tryEach_cons_some hrun]

theorem scanForms_of_none {forms : List Rules.Form} (h : ∀ f ∈ forms, f s.rest = none) :
    s.scanForms forms = (none, s) := by
  have hnone : Rules.firstOf forms s.rest = none := List.findSome?_eq_none_iff.mpr h
  rw [scanForms, scan, hnone]

theorem tryEach_forms_of_none {forms : List Rules.Form} (h : ∀ f ∈ forms, f s.rest = none) :
    s.tryEach (forms.map .form ++ scanners) = s.tryEach scanners := by
  rw [tryEach_map_form, scanForms_of_none h]

/-! ### At the end, at a line end, on a line -/

theorem blank_run_eq_none (h : s.pipeless = true ∨ Rules.blankLine? s.rest = none) :
    Scanner.blank.run s = (.ok none, s) := by
  rw [Scanner.run]
  split
  · rfl
  · next hp => rw [h.resolve_left hp]

theorem tryEach_of_nil (hr : s.rest = []) :
    s.tryEach Scanner.inOrder = (.ok (some s.atEnd.1), s.atEnd.2) := by
  have hblank : Scanner.blank.run s = (.ok none, s) :=
    blank_run_eq_none (.inr (by rw [hr]; rfl))
  have heos : Scanner.eos.run s = (.ok (some s.atEnd.1), s.atEnd.2) := by
    rw [Scanner.run, hr]
    rfl
  rw [Scanner.inOrder, List.cons_append, List.cons_append, tryEach_cons_none hblank,
    tryEach_cons_some heos]

/-- At a line end no form of a line fits, and the line end is read. -/
theorem tryEach_of_newline {cs : List Char} (hr : s.rest = '\n' :: cs)
    (hblank : Scanner.blank.run s = (.ok none, s)) :
    s.tryEach Scanner.inOrder = ((s.lineEnd cs).1.map some, (s.lineEnd cs).2) := by
  have heos : Scanner.eos.run s = (.ok none, s) := by
    rw [Scanner.run, hr]
    rfl
  have htext : Scanner.pipelessText.run s = (.ok none, s) := by
    rw [Scanner.run, hr]
    split <;> rfl
  have htag : Scanner.tag.run s = (.ok none, s) := by
    rw [Scanner.run, scanTag, hr]
    rfl
  have hattrs : Scanner.attrs.run s = (.ok none, s) := by
    rw [Scanner.run, scan, hr]
    rfl
  have hlayout : Scanner.layout.run s = ((s.lineEnd cs).1.map some, (s.lineEnd cs).2) := by
    rw [Scanner.run, hr]
    rfl
  have hbefore : ∀ f ∈ Rules.beforeTag, f s.rest = none := hr ▸ Rules.beforeTag_mark (.head _) cs
  have hafter : ∀ f ∈ Rules.afterTag, f s.rest = none := hr ▸ Rules.afterTag_newline cs
  rw [Scanner.inOrder, List.cons_append, List.cons_append, List.cons_append, List.nil_append,
    tryEach_cons_none hblank, tryEach_cons_none heos, tryEach_cons_none htext,
    tryEach_forms_of_none hbefore, tryEach_cons_none htag, tryEach_forms_of_none hafter,
    tryEach_cons_none hattrs, tryEach, hlayout]
  rcases s.lineEnd cs with ⟨_ | t, s'⟩ <;> rfl

/-- On a line, the forms after a tag are tried as one: a line end is not among them. -/
theorem tryEach_afterTag (hne : s.rest ≠ []) (hnl : s.rest.head? ≠ some '\n') :
    s.tryEach (Rules.afterTag.map .form ++ (.attrs :: .layout :: Rules.afterAttrs.map .form)) =
      match s.scanForms (Rules.afterTag ++ [Rules.attrs? s.colons] ++ Rules.afterAttrs) with
      | (some t, s') => (.ok (some t), s')
      | (none, s') => (.ok none, s') := by
  have hattrs : Scanner.attrs.run s = (Scanner.form (Rules.attrs? s.colons)).run s := by
    rw [Scanner.run, Scanner.run, if_neg (by simpa using hne)]
  have hlayout : Scanner.layout.run s = (.ok none, s) := by
    rw [Scanner.run]
    split
    · next heq => exact absurd (by rw [heq]; rfl) hnl
    · rfl
  have hswap : s.tryEach (.attrs :: .layout :: Rules.afterAttrs.map .form)
      = s.tryEach (.form (Rules.attrs? s.colons) :: Rules.afterAttrs.map .form) := by
    rw [tryEach, tryEach, hattrs]
    rcases hscan : s.scan (Rules.attrs? s.colons) with ⟨_ | t, s₁⟩
    · obtain ⟨-, rfl⟩ := scan_none hscan
      rw [Scanner.run, hscan]
      exact tryEach_cons_none hlayout
    · rw [Scanner.run, hscan]
  calc s.tryEach (Rules.afterTag.map .form ++ (.attrs :: .layout :: Rules.afterAttrs.map .form))
      = s.tryEach (Rules.afterTag.map .form ++
          (.form (Rules.attrs? s.colons) :: Rules.afterAttrs.map .form)) := by
        rw [tryEach_map_form, tryEach_map_form]
        rcases hscan : s.scanForms Rules.afterTag with ⟨_ | t, s₁⟩
        · obtain ⟨-, rfl⟩ := scan_none hscan
          exact hswap
        · rfl
    _ = s.tryEach ((Rules.afterTag ++ [Rules.attrs? s.colons] ++ Rules.afterAttrs).map .form ++
          []) := by
        simp only [List.map_append, List.map_cons, List.append_assoc, List.cons_append,
          List.nil_append, List.append_nil]
    _ = _ := tryEach_map_form _ _ _

/-- On a line, plain text comes before all forms, and otherwise they are tried in order. -/
theorem tryEach_of_inline (hne : s.rest ≠ []) (hnl : s.rest.head? ≠ some '\n') :
    s.tryEach Scanner.inOrder = (s.fresh.1.map some, s.fresh.2) := by
  have hblank : Scanner.blank.run s = (.ok none, s) :=
    blank_run_eq_none (.inr (Rules.blankLine?_eq_none hnl))
  have heos : Scanner.eos.run s = (.ok none, s) := by
    rw [Scanner.run, if_neg (by simpa using hne)]
  rw [fresh_of_inline hne hnl, Scanner.inOrder, List.cons_append, List.cons_append,
    List.cons_append, List.nil_append, tryEach_cons_none hblank, tryEach_cons_none heos]
  cases hp : s.pipeless with
  | true =>
    have htext : Scanner.pipelessText.run s = (.ok (some s.textLine.1), s.textLine.2) := by
      rw [Scanner.run, if_pos hp]
      split
      · next hnil => exact absurd hnil hne
      · next heq => exact absurd (by rw [heq]; rfl) hnl
      · rfl
    rw [tryEach_cons_some htext]
    rfl
  | false =>
    have htext : Scanner.pipelessText.run s = (.ok none, s) := by
      rw [Scanner.run, hp]
      rfl
    rw [tryEach_cons_none htext, tryEach_map_form, inLine]
    rcases hbefore : s.scanForms Rules.beforeTag with ⟨_ | t, s₁⟩
    · obtain ⟨-, rfl⟩ := scan_none hbefore
      dsimp only
      rw [tryEach, Scanner.run]
      rcases htag : s₁.scanTag with ⟨_ | _ | t, s₂⟩
      · rfl
      · obtain rfl := scanTag_none htag
        dsimp only
        rw [tryEach_afterTag hne hnl]
        rcases hafter : s₂.scanForms (Rules.afterTag ++ [Rules.attrs? s₂.colons] ++
          Rules.afterAttrs) with ⟨_ | t, s₃⟩
        · -- the last of these forms fits any line
          have hsome := firstOf_afterAttrs_isSome (Rules.afterTag ++ [Rules.attrs? s₂.colons])
            hne hnl
          rw [(scan_none hafter).1] at hsome
          cases hsome
        · rfl
      · rfl
    · rfl

theorem skipBlankLines_suffix (s : Source) : s.skipBlankLines.rest <:+ s.rest := by
  rw [skipBlankLines]
  split
  · exact List.suffix_refl _
  · exact Rules.dropBlankLines_suffix s.rest

theorem skipBlankLines_of_ne (h : s.rest.head? ≠ some '\n') : s.skipBlankLines = s := by
  rw [skipBlankLines, Rules.dropBlankLines_of_ne h, ite_self]

theorem exists_skipBlankLines {cs : List Char} (h : s.rest = '\n' :: cs) :
    ∃ ds, s.skipBlankLines.rest = '\n' :: ds := by
  rw [skipBlankLines]
  split
  · exact ⟨cs, h⟩
  · rw [h]
    exact Rules.dropBlankLines_cons_newline cs

theorem skipBlankLines_eq_self (h : s.pipeless = true ∨ Rules.blankLine? s.rest = none) :
    s.skipBlankLines = s := by
  rw [skipBlankLines]
  split
  · rfl
  · next hp =>
    rw [Rules.dropBlankLines_of_blankLine?_none (h.resolve_left hp)]

/-- A blank line is passed over, and reading goes on after it. -/
theorem tryEach_of_blankLine {rest : List Char} (hd : s.deferred = []) (hp : ¬ s.pipeless = true)
    (hb : Rules.blankLine? s.rest = some rest) :
    s.tryEach Scanner.inOrder = (s.skipBlankLines.fresh.1.map some, s.skipBlankLines.fresh.2) := by
  have hskip : s.skipBlankLines = ({ s with rest } : Source).skipBlankLines := by
    rw [skipBlankLines, skipBlankLines, Rules.dropBlankLines_of_blankLine? hb, if_neg hp,
      if_neg (show ¬ ({ s with rest } : Source).pipeless = true from hp)]
  have hnext : ({ s with rest } : Source).next = s.skipBlankLines.fresh := by
    rw [hskip, next, show ({ s with rest } : Source).deferred = [] from hd]
  have hrun : Scanner.blank.run s
      = (s.skipBlankLines.fresh.1.map some, s.skipBlankLines.fresh.2) := by
    rw [Scanner.run, if_neg hp, hb, ← hnext]
  rw [Scanner.inOrder, List.cons_append, tryEach, hrun]
  rcases s.skipBlankLines.fresh with ⟨_ | t, s'⟩ <;> rfl

/-- **Some form always fits.** Trying the forms in order gives what reading a token gives. -/
theorem scanInOrder_eq_next (s : Source) : s.scanInOrder = (s.next.1.map some, s.next.2) := by
  rw [scanInOrder]
  cases hd : s.deferred with
  | cons t ts =>
    rw [next, hd]
    rfl
  | nil =>
    have hnext : s.next = s.skipBlankLines.fresh := by rw [next, hd]
    dsimp only
    rw [hnext]
    by_cases hblank : s.pipeless = true ∨ Rules.blankLine? s.rest = none
    · rw [skipBlankLines_eq_self hblank]
      rcases s.rest_cases with hr | ⟨cs, hr⟩ | ⟨hne, hnl⟩
      · rw [tryEach_of_nil hr, fresh_of_nil hr]
        rfl
      · rw [tryEach_of_newline hr (blank_run_eq_none hblank), fresh_of_newline hr]
      · rw [tryEach_of_inline hne hnl]
    · obtain ⟨hp, hb⟩ := not_or.mp hblank
      obtain ⟨rest, hrest⟩ := Option.ne_none_iff_exists'.mp hb
      exact tryEach_of_blankLine hd hp hrest

/-! ## What is left -/

end Source

/-- Every token counts, but for the end of the source. -/
def Token.weight (t : Token) : Nat :=
  match t.body with
  | .eos => 0
  | _ => 1

theorem Token.weight_le_one (t : Token) : t.weight ≤ 1 := by
  rw [weight]
  split
  · exact Nat.zero_le 1
  · exact Nat.le_refl 1

theorem Token.weight_of_ne {t : Token} (h : t.body ≠ .eos) : t.weight = 1 := by
  rw [weight]
  split
  · next heq => exact absurd heq h
  · rfl

/-- What tokens count together. -/
def Token.weights : List Token → Nat
  | [] => 0
  | t :: ts => t.weight + weights ts

theorem Token.weights_append (ts us : List Token) :
    weights (ts ++ us) = weights ts + weights us := by
  induction ts with
  | nil => exact (Nat.zero_add _).symm
  | cons t ts ih => rw [List.cons_append, weights, weights, ih, Nat.add_assoc]

theorem Token.weights_replicate {t : Token} (k : Nat) (h : t.weight = 1) :
    weights (List.replicate k t) = k := by
  induction k with
  | zero => rfl
  | succ k ih => rw [List.replicate_succ, weights, h, ih, Nat.add_comm]

namespace Source

variable {s s' : Source} {t : Token}

/-- What is left to read: characters, open indentations, and tokens at hand other than the end. -/
def left (s : Source) : Nat :=
  s.rest.length + s.indents.length + s.deferred.length + Token.weights s.stash

theorem left_ofText (src : String) (colons : Bool) :
    (ofText src colons).left = (joinLineEnds src.toList).length := by
  simp [left, ofText, Token.weights]

/-- **Every token is paid for**, out of what is left of the source. -/
theorem Reads.left_add_weight_le (h : s.Reads t s') : s'.left + t.weight ≤ s.left := by
  have hle := t.weight_le_one
  cases h with
  | deferred hd =>
    simp only [left, hd, List.length_cons]
    omega
  | eos hd hr hi => exact Nat.le_refl _
  | close hd hr hi =>
    simp only [left, hi, List.length_cons]
    omega
  | newline hd hr =>
    simp only [left]
    omega
  | indent hd hr hw hi =>
    simp only [left, List.length_cons]
    omega
  | @outdent rest line k style gone kept hd hr hi hk =>
    have hstash : Token.weights (s.stash ++ List.replicate k ⟨.outdent, line⟩)
        = Token.weights s.stash + k := by
      rw [Token.weights_append, Token.weights_replicate k rfl]
    simp only [left, hstash, hi, List.length_append, hk]
    omega
  | content hd hr hb =>
    simp only [left]
    omega
  | tagColon hd hr =>
    simp only [left, hd, List.length_cons, List.length_nil]
    omega

theorem left_of_next (h : s.next = (.ok t, s')) : s'.left + t.weight ≤ s.left :=
  (reads_of_next h).left_add_weight_le

theorem left_of_advance (h : s.advance = (.ok t, s')) : s'.left + t.weight ≤ s.left := by
  rw [advance] at h
  split at h
  · next hstash =>
    cases h
    simp only [left, hstash, Token.weights]
    omega
  · exact left_of_next h

/-! ## Repeated calls -/

/-- What repeated calls give. Plain text is switched on or off before each of them. -/
def outcomes : List Bool → Source → List (Except Fault Token)
  | [], _ => []
  | pipeless :: switches, s =>
    let (result, s) := advance { s with pipeless }
    result :: outcomes switches s

/-- Whether a call is the last one to make: it gave the end, or it failed. -/
def IsLast : Except Fault Token → Prop
  | .ok t => t.body = .eos
  | .error _ => True

/-- As long as neither the end nor a fault comes, something was left for every call. -/
theorem length_le_left_of_outcomes {switches : List Bool}
    (h : ∀ result ∈ outcomes switches s, ¬ IsLast result) : switches.length ≤ s.left := by
  induction switches generalizing s with
  | nil => exact Nat.zero_le _
  | cons pipeless switches ih =>
    rcases hcall : advance { s with pipeless } with ⟨result, s'⟩
    rw [outcomes, hcall] at h
    obtain ⟨hfirst, hrest⟩ := List.forall_mem_cons.mp h
    cases result with
    | error e => exact absurd trivial hfirst
    | ok t =>
      have hpaid := left_of_advance hcall
      rw [Token.weight_of_ne hfirst, show left { s with pipeless } = s.left from rfl] at hpaid
      have hmore := ih hrest
      rw [List.length_cons]
      omega

/-- **Reading ends.** The forms are never all passed over: trying them in order gives a token or a
fault, the one that reading gives. And with plain text switched on and off at will, as many calls
as there are characters, and one more, reach the end or a fault. -/
theorem reading_ends (src : String) (colons : Bool) (switch : Nat → Bool) :
    (∀ s : Source, s.scanInOrder.1 ≠ .ok none ∧ s.scanInOrder = (s.next.1.map some, s.next.2)) ∧
      ∃ result ∈ outcomes
          ((List.range ((joinLineEnds src.toList).length + 1)).map switch) (ofText src colons),
        IsLast result := by
  refine ⟨fun s => ⟨?_, s.scanInOrder_eq_next⟩, ?_⟩
  · rw [s.scanInOrder_eq_next]
    rcases s.next with ⟨_ | t, s'⟩
    · intro h
      exact nomatch h
    · intro h
      exact absurd (Except.ok.inj h) (by simp)
  · by_contra hnone
    have hle := length_le_left_of_outcomes fun result hmem hlast => hnone ⟨result, hmem, hlast⟩
    rw [List.length_map, List.length_range, left_ofText] at hle
    omega

end Source

end Jade

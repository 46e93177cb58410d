import Jade.Proofs.Outline.Headline

/-!
# The tokens of an outline

The written form of a forest gives the tokens of the forest. What stands between two lines depends
on their depths: an indent, a line end, or an outdent for each level that ends (`transition`).
Within a forest the depth goes down by any number of levels at once, so outdents that belong to
different tags come together, and only when the next line comes, or the end. For the induction on
the forest, what is still open after its lines is therefore left open, with the promise that closing
it spells the forest (`After`).

## Main results

* `Jade.Outline.runs_transition` : what stands between two lines
* `Jade.Outline.lexes` : the tokens of the lines of a forest
* `Jade.Outline.gives_print` : the tokens of the written form
-/

namespace Jade

namespace Outline

variable {d d' : Nat} {s : Source} {c : Char} {cs : List Char}

/-! ## Line ends -/

/-- The widths of the open indentations at a depth, innermost first. -/
def levels : Nat → List Nat
  | 0 => []
  | d + 1 => 2 * (d + 1) :: levels d

theorem takeWhile_levels (d : Nat) : (levels d).takeWhile (2 * d < ·) = [] := by
  cases d with
  | zero => rfl
  | succ d => exact List.takeWhile_cons_of_neg (by simp)

theorem dropWhile_levels (d k : Nat) : (levels (d + k)).dropWhile (2 * d < ·) = levels d := by
  induction k with
  | zero =>
    cases d with
    | zero => rfl
    | succ d => exact List.dropWhile_cons_of_neg (by simp)
  | succ k ih =>
    have hdeeper : decide (2 * d < 2 * (d + k + 1)) = true := decide_eq_true (by omega)
    exact (List.dropWhile_cons_of_pos (p := fun w => decide (2 * d < w)) hdeeper).trans ih

theorem length_takeWhile_levels (d k : Nat) :
    ((levels (d + k)).takeWhile (2 * d < ·)).length = k := by
  induction k with
  | zero => rw [Nat.add_zero, takeWhile_levels]; rfl
  | succ k ih =>
    have hdeeper : decide (2 * d < 2 * (d + k + 1)) = true := decide_eq_true (by omega)
    have htake := List.takeWhile_cons_of_pos (p := fun w => decide (2 * d < w))
      (l := levels (d + k)) hdeeper
    exact (congrArg List.length htake).trans (congrArg Nat.succ ih)

/-- The source is at the end of a line or within it, and the open indentations are those of a depth,
two blanks for each level. -/
structure Level (d : Nat) (s : Source) : Prop extends Ready s where
  indents : s.indents = levels d
  style : s.style ≠ some .tabs

theorem Level.with_rest (h : Level d s) (rest : List Char) :
    Level d { s with rest } := ⟨h.toReady.with_rest rest, h.indents, h.style⟩

/-- The tokens between a line and the next one, by their depths. -/
def transition (d d' : Nat) : List Token.Body :=
  if d < d' then [.indent (2 * d')]
  else if d = d' then [.newline]
  else List.replicate (d - d') .outdent

theorem takeWhile_replicate_append (n : Nat) (h : ∀ d ∈ cs.head?, d ≠ c) :
    (List.replicate n c ++ cs).takeWhile (· == c) = List.replicate n c := by
  have hall : ∀ d ∈ List.replicate n c, (d == c) = true :=
    fun d hd => beq_iff_eq.mpr (List.eq_of_mem_replicate hd)
  rw [List.takeWhile_append_of_pos hall]
  cases cs with
  | nil => rw [List.takeWhile_nil, List.append_nil]
  | cons d cs =>
    rw [List.takeWhile_cons_of_neg (by simpa using h d rfl), List.append_nil]

theorem measure_blanks {style : Option IndentStyle} (hstyle : style ≠ some .tabs) (d : Nat)
    (cs : List Char) (hcs : ∀ c ∈ cs.head?, c ≠ ' ' ∧ c ≠ '\t') :
    ∃ style', Source.measure style (List.replicate (2 * d) ' ' ++ cs) = (2 * d, style') ∧
      style' ≠ some .tabs := by
  have hspaces := takeWhile_replicate_append (c := ' ') (2 * d) fun c hc => (hcs c hc).1
  have htabs : (List.replicate (2 * d) ' ' ++ cs).takeWhile (· == '\t') = [] := by
    cases d with
    | zero =>
      cases cs with
      | nil => rfl
      | cons c cs => exact List.takeWhile_cons_of_neg (by simpa using (hcs c rfl).2)
    | succ d => rfl
  rw [Source.measure.eq_def, hspaces, htabs, List.length_replicate]
  cases style with
  | none =>
    by_cases hd : 2 * d = 0
    · exact ⟨none, by simp [hd], by simp⟩
    · exact ⟨some .spaces, by simp [hd], by simp⟩
  | some style =>
    cases style with
    | tabs => exact absurd rfl hstyle
    | spaces => exact ⟨some .spaces, rfl, by simp⟩

theorem lastLineEnd_blanks (keep : List Char) (n : Nat) (hcs : ∀ c ∈ cs.head?, c ≠ ' ' ∧ c ≠ '\n') :
    Rules.lastLineEnd keep (List.replicate n ' ' ++ cs) = keep := by
  induction n with
  | zero =>
    rw [List.replicate_zero, List.nil_append, Rules.lastLineEnd.eq_def]
    split
    · exact absurd rfl (hcs ' ' rfl).1
    · exact absurd rfl (hcs '\n' rfl).2
    · rfl
  | succ n ih => exact ih

theorem Level.advance_lineEnd (hs : Level d s)
    (hr : s.rest = '\n' :: (List.replicate (2 * d') ' ' ++ c :: cs))
    (hc : c ≠ ' ' ∧ c ≠ '\t' ∧ c ≠ '\n') :
    ∃ s', Level d s' ∧ s'.rest = c :: cs ∧ s.advance = s'.enter (2 * d') := by
  have hhead : ∀ e ∈ (c :: cs).head?, e ≠ ' ' ∧ e ≠ '\t' ∧ e ≠ '\n' :=
    fun e he => Option.some.inj he ▸ hc
  obtain ⟨style, hmeasure, hstyle⟩ := measure_blanks hs.style d' (c :: cs)
    fun e he => ⟨(hhead e he).1, (hhead e he).2.1⟩
  have hblank : Rules.dropBlankLines s.rest = s.rest := by
    rw [hr]
    exact lastLineEnd_blanks _ _ fun e he => ⟨(hhead e he).1, (hhead e he).2.2⟩
  have hdrop : (List.replicate (2 * d') ' ' ++ c :: cs).drop (2 * d') = c :: cs := by
    rw [List.drop_append_of_le_length (by simp), List.drop_eq_nil_of_le (by simp), List.nil_append]
  have hmix : ¬ (c == ' ' || c == '\t') = true := by simp [hc.1, hc.2.1]
  have hnl : ¬ (c == '\n') = true := by simp [hc.2.2]
  refine ⟨{ s with rest := c :: cs, line := s.line + 1, style },
    ⟨⟨hs.stash, hs.deferred, hs.pipeless⟩, hs.indents, hstyle⟩, rfl, ?_⟩
  rw [hs.advance_eq, hblank, Source.fresh_of_newline hr, Source.lineEnd]
  simp only [hmeasure, hdrop]
  rw [if_neg hmix]
  refine (if_neg hnl).trans ?_
  cases s.indents.takeWhile (2 * d' < ·) <;> rfl

theorem Level.enter_deeper (h : Level d s) :
    s.enter (2 * (d + 1))
      = (.ok (s.tok (.indent (2 * (d + 1)))), { s with indents := levels (d + 1) }) := by
  have htake : s.indents.takeWhile (2 * (d + 1) < ·) = [] := by
    rw [h.indents]
    cases d with
    | zero => rfl
    | succ d => exact List.takeWhile_cons_of_neg (by simp)
  have hnew : (2 * (d + 1) ≠ 0 && s.indents.head? ≠ some (2 * (d + 1))) = true := by
    rw [h.indents]
    cases d with
    | zero => rfl
    | succ d =>
      have hne : some (2 * (d + 1)) ≠ some (2 * (d + 1 + 1)) := fun heq => by
        have hsame := Option.some.inj heq
        omega
      exact Bool.and_eq_true_iff.mpr ⟨decide_eq_true (Nat.succ_ne_zero _), decide_eq_true hne⟩
  rw [Source.enter, htake]
  dsimp only
  rw [if_pos hnew, h.indents]
  rfl

theorem Level.enter_same (h : Level d s) : s.enter (2 * d) = (.ok (s.tok .newline), s) := by
  have hold : ¬ (2 * d ≠ 0 && s.indents.head? ≠ some (2 * d)) = true := by
    rw [h.indents]
    cases d with
    | zero => decide
    | succ d => simp [levels]
  rw [Source.enter, h.indents, takeWhile_levels, ← h.indents]
  dsimp only
  rw [if_neg hold]

theorem Level.enter_shallower {k : Nat} (h : Level (d + (k + 1)) s) :
    s.enter (2 * d)
      = (.ok (s.tok .outdent),
          { s with indents := levels d, stash := List.replicate k (s.tok .outdent) }) := by
  have hlen := length_takeWhile_levels d (k + 1)
  rw [Source.enter, h.indents]
  cases htake : (levels (d + (k + 1))).takeWhile (2 * d < ·) with
  | nil =>
    rw [htake] at hlen
    cases hlen
  | cons w more =>
    rw [htake, List.length_cons] at hlen
    dsimp only
    rw [dropWhile_levels, h.stash, List.nil_append, List.map_const', Nat.succ.inj hlen]

theorem runs_stashed {t : Token} (k : Nat) (h : s.stash = List.replicate k t) :
    s.Runs (List.replicate k t.body) { s with stash := [] } := by
  induction k generalizing s with
  | zero =>
    show { s with stash := [] } = s
    rw [← show s.stash = [] from h]
  | succ k ih =>
    rw [List.replicate_succ] at h
    exact ⟨t, { s with stash := List.replicate k t }, by rw [Source.advance, h], rfl, ih rfl⟩

/-- **Between two lines** the tokens are those of the transition between their depths, and the open
indentations are then those of the second line. -/
theorem runs_transition (cs : List Char) (hs : Level d s) (hd : d' ≤ d + 1)
    (hr : s.rest = '\n' :: (List.replicate (2 * d') ' ' ++ c :: cs))
    (hc : c ≠ ' ' ∧ c ≠ '\t' ∧ c ≠ '\n') :
    ∃ s', s.Runs (transition d d') s' ∧ Level d' s' ∧ s'.rest = c :: cs := by
  obtain ⟨u, hu, hrest, hadvance⟩ := hs.advance_lineEnd hr hc
  rcases Nat.lt_trichotomy d d' with hlt | rfl | hgt
  · obtain rfl : d' = d + 1 := by omega
    rw [hu.enter_deeper] at hadvance
    rw [transition, if_pos hlt]
    exact ⟨_, Source.runs_of_advance hadvance,
      ⟨⟨hu.stash, hu.deferred, hu.pipeless⟩, rfl, hu.style⟩, hrest⟩
  · rw [hu.enter_same] at hadvance
    rw [transition, if_neg (Nat.lt_irrefl d), if_pos rfl]
    exact ⟨u, Source.runs_of_advance hadvance, hu, hrest⟩
  · obtain ⟨k, rfl⟩ : ∃ k, d = d' + (k + 1) := ⟨d - d' - 1, by omega⟩
    rw [hu.enter_shallower] at hadvance
    rw [transition, if_neg (by omega), if_neg (by omega),
      show d' + (k + 1) - d' = k + 1 by omega, List.replicate_succ]
    have hmore := runs_stashed k
      (s := { u with indents := levels d', stash := List.replicate k (u.tok .outdent) }) rfl
    exact ⟨_, (Source.runs_of_advance hadvance).append hmore,
      ⟨⟨rfl, hu.deferred, hu.pipeless⟩, rfl, hu.style⟩, hrest⟩

/-! ## Forests -/

/-- The written form with a line end before each line. -/
def Forest.chars (depth : Nat) (f : Forest) : List Char := (f.lines depth).flatMap ('\n' :: ·)

theorem Forest.chars_cons (d : Nat) (h : Headline) (children siblings : Forest) :
    (Forest.cons h children siblings).chars d
      = '\n' :: (List.replicate (2 * d) ' ' ++
          (h.chars ++ (children.chars (d + 1) ++ siblings.chars d))) := by
  simp only [chars, lines, List.flatMap_cons, List.flatMap_append, List.cons_append,
    List.append_assoc]

theorem endsLine_chars (f : Forest) (d : Nat) {rest : List Char} (hrest : EndsLine rest) :
    EndsLine (f.chars d ++ rest) := by
  cases f with
  | nil => exact hrest
  | cons h children siblings =>
    intro c hc
    rw [Forest.chars_cons] at hc
    exact (Option.some.inj hc).symm

/-- `s'` is the source after the lines of a forest at depth `d`, whose tokens are `bs`. What is
still open belongs to the forest, also if line ends come before it is closed. -/
def After (f : Forest) (d : Nat) (rest : List Char) (bs : List Token.Body) (s' : Source) : Prop :=
  ∃ e, d ≤ e ∧ Level e s' ∧ s'.rest = rest ∧
    ∀ k, Spells f (bs ++ (List.replicate k .newline ++ List.replicate (e - d) .outdent))

/-- A forest is read from its first headline on. -/
def Lexes (f : Forest) : Prop :=
  ∀ (d : Nat) (s : Source) (rest : List Char) (h : Headline) (children siblings : Forest),
    f = .cons h children siblings → Level d s →
      s.rest = h.chars ++ (children.chars (d + 1) ++ (siblings.chars d ++ rest)) →
        EndsLine rest → ∃ bs s', s.Runs bs s' ∧ After f d rest bs s'

/-- A forest that is read from its first headline on is read after another line, too. -/
theorem Lexes.next {f : Forest} (hf : Lexes f) (hne : f ≠ .nil) {rest : List Char} (hs : Level d s)
    (hd : d' ≤ d + 1) (hr : s.rest = f.chars d' ++ rest) (hrest : EndsLine rest) :
    ∃ bs s', s.Runs (transition d d' ++ bs) s' ∧ After f d' rest bs s' := by
  cases f with
  | nil => exact absurd rfl hne
  | cons h children siblings =>
    obtain ⟨c, cs, hn, hc⟩ := h.name.exists_cons
    have hother : c ≠ ' ' ∧ c ≠ '\t' ∧ c ≠ '\n' := by
      refine ⟨?_, ?_, ?_⟩ <;> rintro rfl <;> cases hc
    rw [Forest.chars_cons, Headline.chars, hn] at hr
    obtain ⟨u, hruns, hu, hurest⟩ := runs_transition
      (cs ++ (h.tailChars ++ (children.chars (d' + 1) ++ (siblings.chars d' ++ rest)))) hs hd
      (by simp only [hr, List.cons_append, List.append_assoc]) hother
    obtain ⟨bs, s', hbs, hafter⟩ := hf d' u rest h children siblings rfl hu
      (by rw [hurest, Headline.chars, hn]; simp only [List.cons_append, List.append_assoc]) hrest
    exact ⟨bs, s', hruns.append hbs, hafter⟩

/-- The outdents after the children of a tag: those that close what is open in them, and the one
that closes them. -/
theorem replicate_outdent {e : Nat} (h : d + 1 ≤ e) :
    List.replicate (e - d) Token.Body.outdent
      = List.replicate (e - (d + 1)) .outdent ++ [.outdent] := by
  rw [← List.replicate_succ', show e - (d + 1) + 1 = e - d by omega]

/-- **The lines of a forest** give its tokens. -/
theorem lexes (f : Forest) : Lexes f := by
  induction f with
  | nil => exact nofun
  | cons head children siblings ihc ihs =>
    intro d s rest _ _ _ heq hs hr hrest
    obtain ⟨rfl, rfl, rfl⟩ := Forest.cons.inj heq
    have hsiblings := endsLine_chars siblings d hrest
    have hchildren := endsLine_chars children (d + 1) hsiblings
    have hhead := runs_headline head hs.toReady hr hchildren
    have hu := hs.with_rest (children.chars (d + 1) ++ (siblings.chars d ++ rest))
    by_cases hc : children = .nil
    · subst hc
      by_cases hsib : siblings = .nil
      · subst hsib
        refine ⟨_, _, hhead, d, Nat.le_refl d, hu, rfl, fun k => ?_⟩
        rw [Nat.sub_self, List.replicate_zero, List.append_nil]
        exact .last head k
      · obtain ⟨bs, s', hruns, e, hle, hlevel, hend, hspell⟩ :=
          ihs.next hsib hu (Nat.le_succ d) rfl hrest
        rw [transition, if_neg (Nat.lt_irrefl d), if_pos rfl] at hruns
        refine ⟨_, s', hhead.append hruns, e, hle, hlevel, hend, fun k => ?_⟩
        rw [List.append_assoc]
        exact .leaf head hsib (hspell k)
    · obtain ⟨bs, v, hruns, e, hle, hlevel, hend, hspell⟩ :=
        ihc.next hc hu (Nat.le_refl (d + 1)) rfl hsiblings
      rw [transition, if_pos (Nat.lt_succ_self d)] at hruns
      have hopen := hhead.append hruns
      by_cases hsib : siblings = .nil
      · subst hsib
        refine ⟨_, v, hopen, e, by omega, hlevel, hend, fun k => ?_⟩
        rw [replicate_outdent hle]
        have hinner := Spells.inner head (2 * (d + 1)) (hspell k) (.nil 0)
        simpa only [List.append_assoc, List.cons_append, List.nil_append, List.replicate_zero]
          using hinner
      · obtain ⟨bs', s', hruns', e', hle', hlevel', hend', hspell'⟩ :=
          ihs.next hsib hlevel (by omega) hend hrest
        rw [transition, if_neg (by omega), if_neg (by omega), replicate_outdent hle] at hruns'
        refine ⟨_, s', hopen.append hruns', e', hle', hlevel', hend', fun k => ?_⟩
        have hinner := Spells.inner head (2 * (d + 1)) (hspell 0) (hspell' k)
        simpa only [List.append_assoc, List.cons_append, List.nil_append, List.replicate_zero]
          using hinner

/-! ## The written form -/

theorem intercalate_newline (l : List Char) (ls : List (List Char)) :
    List.intercalate ['\n'] (l :: ls) = l ++ ls.flatMap ('\n' :: ·) := by
  induction ls generalizing l with
  | nil => simp [List.intercalate]
  | cons m ls ih =>
    rw [List.flatMap_cons, List.cons_append, ← ih m]
    simp [List.intercalate]

theorem joinLineEnds_eq_self (h : '\r' ∉ cs) : Source.joinLineEnds cs = cs := by
  induction cs with
  | nil => rfl
  | cons c cs ih =>
    rw [Source.joinLineEnds.eq_def]
    split
    · next heq => exact nomatch heq
    · next heq => exact absurd (by rw [(List.cons.inj heq).1]; simp) h
    · next heq => exact absurd (by rw [(List.cons.inj heq).1]; simp) h
    · next heq =>
      cases heq
      rw [ih fun hmem => h (List.mem_cons_of_mem _ hmem)]

theorem Headline.return_not_mem (h : Headline) : '\r' ∉ h.chars := by
  have hplain : isPlain '\r' = false := by decide
  intro hmem
  rw [chars, tailChars, List.mem_append, List.mem_append, List.mem_flatMap] at hmem
  rcases hmem with hname | ⟨s, -, hs⟩ | htext
  · cases (h.name.isPlain_of_mem hname).symm.trans hplain
  · rcases List.mem_cons.mp hs with heq | hvalue
    · split at heq <;> cases heq
    · cases (s.isPlain_of_mem hvalue).symm.trans hplain
  · rw [textChars] at htext
    split at htext
    · next t _ =>
      rcases List.mem_cons.mp htext with heq | ht
      · cases heq
      · exact t.oneLine.2 ht
    · cases htext

theorem Forest.return_not_mem (f : Forest) (d : Nat) : ∀ line ∈ f.lines d, '\r' ∉ line := by
  induction f generalizing d with
  | nil => exact nofun
  | cons head children siblings ihc ihs =>
    intro line hline
    rcases List.mem_cons.mp hline with rfl | hline
    · intro hmem
      rcases List.mem_append.mp hmem with hblank | hchars
      · exact absurd (List.eq_of_mem_replicate hblank) (by decide)
      · exact head.return_not_mem hchars
    · rcases List.mem_append.mp hline with hc | hs
      · exact ihc (d + 1) line hc
      · exact ihs d line hs

theorem Level.advance_end (hs : Level d s) (hr : s.rest = []) :
    s.advance = (.ok s.atEnd.1, s.atEnd.2) := by
  have hblank : Rules.dropBlankLines s.rest = s.rest := by rw [hr]; rfl
  rw [hs.advance_eq, hblank]
  exact Source.fresh_of_nil hr

theorem gives_end (hs : Level d s) (hr : s.rest = []) : s.Gives (List.replicate d .outdent) := by
  induction d generalizing s with
  | zero =>
    have hadvance : s.advance = (.ok (s.tok .eos), s) := by
      rw [hs.advance_end hr, Source.atEnd, show s.indents = [] from hs.indents]
    intro n
    induction n with
    | zero =>
      rw [Source.upcoming_zero_of_advance hadvance]
      rfl
    | succ n ih =>
      rw [Source.upcoming_succ_of_advance hadvance]
      exact ih
  | succ d ih =>
    have hadvance : s.advance = (.ok (s.tok .outdent), { s with indents := levels d }) := by
      rw [hs.advance_end hr, Source.atEnd, show s.indents = _ :: levels d from hs.indents]
    have hrest := ih (s := { s with indents := levels d })
      ⟨⟨hs.stash, hs.deferred, hs.pipeless⟩, rfl, hs.style⟩ hr
    exact (Source.runs_of_advance hadvance).gives hrest

/-- The end of the source, with or without a line end before it. -/
theorem gives_final (closed : Bool) (hs : Level d s) (hr : s.rest = if closed then ['\n'] else []) :
    ∃ k, s.Gives (List.replicate k .newline ++ List.replicate d .outdent) := by
  cases closed with
  | false => exact ⟨0, gives_end hs hr⟩
  | true =>
    have hblank : Rules.dropBlankLines s.rest = s.rest := by rw [hr]; rfl
    obtain ⟨style, hmeasure, hstyle⟩ := measure_blanks hs.style 0 []
      nofun
    have hadvance : s.advance = (.ok ⟨.newline, s.line + 1⟩,
        { s with rest := [], line := s.line + 1, style }) := by
      rw [hs.advance_eq, hblank, Source.fresh_of_newline hr, Source.lineEnd]
      simp only [show Source.measure s.style [] = (0, style) from hmeasure]
      rfl
    have hend := gives_end (s := { s with rest := [], line := s.line + 1, style })
      ⟨⟨hs.stash, hs.deferred, hs.pipeless⟩, hs.indents, hstyle⟩ rfl
    exact ⟨1, (Source.runs_of_advance hadvance).gives hend⟩

theorem endsLine_final (closed : Bool) : EndsLine (if closed then ['\n'] else []) := by
  cases closed with
  | false => exact nofun
  | true => exact fun c hc => (Option.some.inj hc).symm

/-- What is left of a written form when it is about to be read. -/
theorem rest_ofText_print (f : Forest) (closed colons : Bool) :
    (Source.ofText (f.print closed) colons).rest
      = List.intercalate ['\n'] (f.lines 0) ++ if closed then ['\n'] else [] := by
  rw [Source.ofText, Forest.print, String.toList_ofList]
  refine joinLineEnds_eq_self fun hmem => ?_
  rcases List.mem_append.mp hmem with hlines | hfinal
  · cases hl : f.lines 0 with
    | nil =>
      rw [hl] at hlines
      cases hlines
    | cons l ls =>
      have hno := f.return_not_mem 0
      rw [hl] at hlines hno
      rw [intercalate_newline, List.mem_append, List.mem_flatMap] at hlines
      rcases hlines with hfirst | ⟨m, hm, hmore⟩
      · exact hno l List.mem_cons_self hfirst
      · rcases List.mem_cons.mp hmore with heq | hmore
        · cases heq
        · exact hno m (List.mem_cons_of_mem _ hm) hmore
  · cases closed with
    | false => cases hfinal
    | true => exact absurd (List.mem_singleton.mp hfinal) (by decide)

/-- **The written form of a forest** gives its tokens. -/
theorem gives_print (f : Forest) (closed colons : Bool) :
    ∃ bs, Spells f bs ∧ (Source.ofText (f.print closed) colons).Gives bs := by
  have hlevel : Level 0 (Source.ofText (f.print closed) colons) :=
    ⟨⟨rfl, rfl, rfl⟩, rfl, by simp [Source.ofText]⟩
  have hrest := rest_ofText_print f closed colons
  cases f with
  | nil =>
    obtain ⟨k, hgives⟩ := gives_final closed hlevel hrest
    exact ⟨_, .nil k, by simpa using hgives⟩
  | cons head children siblings =>
    have hlines : List.intercalate ['\n'] ((Forest.cons head children siblings).lines 0)
        = head.chars ++ (children.chars 1 ++ siblings.chars 0) := by
      rw [Forest.lines, intercalate_newline, List.flatMap_append]
      rfl
    rw [hlines, List.append_assoc, List.append_assoc] at hrest
    obtain ⟨bs, s', hruns, e, -, hlevel', hend, hspell⟩ :=
      lexes _ 0 _ _ head children siblings rfl hlevel hrest (endsLine_final closed)
    obtain ⟨k, hgives⟩ := gives_final closed hlevel' hend
    exact ⟨_, hspell k, hruns.gives hgives⟩

end Outline

end Jade

import Jade.Proofs.Source.Indentation
import Jade.Proofs.Source.Observation
import Jade.Proofs.Source.Places

/-!
# Columns and levels

A line end reads the indentation of the line after it. Where that line has content, its column is
compared with the levels that are open: deeper levels are closed, a column beyond the innermost
level is opened, and otherwise the depth stays. The innermost level that is left should be the
column of the line, and it is, with one exception. A line that goes back to a column between two
open levels closes the inner one and opens nothing, so that the level stays below its column. The
next line at that same column is then taken for a deeper one.

A run of a source is followed by its readings (`Source.Logs`): each token that is read from the
characters, with the column of the line that it enters, if it enters one. Tokens read ahead, the
mode and tokens put off may change in any way between two readings.

## Main results

* `Jade.Source.Logs.level_le` : between two lines the level stays
* `Jade.Source.level_tracks` : when the level is the column, and what follows if it is not
-/

namespace Jade

namespace Source

variable {s s' s₀ : Source} {cs : List Char} {t : Token} {c : Nat} {log : List (Token × Option Nat)}

/-! ## The innermost level -/

/-- The innermost open level, or zero where none is open. -/
def level (s : Source) : Nat := s.indents.headD 0

theorem level_le_iff : s.level ≤ c ↔ s.indents.takeWhile (c < ·) = [] := by
  rw [level]
  cases s.indents with
  | nil => simp
  | cons w ws =>
    by_cases hw : c < w
    · simp [hw]
    · simp [hw, Nat.le_of_not_lt hw]

theorem level_eq_iff (hpos : ∀ w ∈ s.indents, 0 < w) (hle : s.level ≤ c) :
    s.level = c ↔ c = 0 ∨ s.indents.head? = some c := by
  rw [level]
  cases hi : s.indents with
  | nil => simp [eq_comm]
  | cons w ws =>
    have hw : 0 < w := hpos w (hi ▸ List.mem_cons_self)
    have hwc : w ≤ c := by rwa [level, hi] at hle
    rw [List.headD_cons, List.head?_cons, Option.some.injEq]
    omega

theorem headD_dropWhile_le (ws : List Nat) (c : Nat) : (ws.dropWhile (c < ·)).headD 0 ≤ c := by
  induction ws with
  | nil => exact Nat.zero_le c
  | cons w ws ih =>
    by_cases hw : c < w
    · rwa [List.dropWhile_cons_of_pos (by simpa using hw)]
    · rw [List.dropWhile_cons_of_neg (by simpa using hw)]
      exact Nat.le_of_not_lt hw

/-- Of levels that get narrower, those that are not deeper than `c` begin with `c` if it is one of
them. -/
theorem head?_dropWhile_of_mem {ws : List Nat} (hdec : ws.Pairwise (· > ·)) (hc : c ∈ ws) :
    (ws.dropWhile (c < ·)).head? = some c := by
  induction ws with
  | nil => cases hc
  | cons w ws ih =>
    obtain ⟨hw, hdec⟩ := List.pairwise_cons.mp hdec
    rcases List.mem_cons.mp hc with rfl | hmem
    · simp
    · have hlt : c < w := hw c hmem
      rw [List.dropWhile_cons_of_pos (by simpa using hlt)]
      exact ih hdec hmem

/-- Going back to column `c` leaves it as the innermost level if it is open or zero. -/
theorem headD_dropWhile_eq_iff {ws : List Nat} (hdec : ws.Pairwise (· > ·)) :
    (ws.dropWhile (c < ·)).headD 0 = c ↔ c = 0 ∨ c ∈ ws := by
  constructor
  · intro heq
    cases hdrop : ws.dropWhile (c < ·) with
    | nil =>
      rw [hdrop] at heq
      exact .inl heq.symm
    | cons w more =>
      rw [hdrop] at heq
      obtain rfl : w = c := heq
      have hsuf : w :: more <:+ ws := hdrop ▸ List.dropWhile_suffix _
      exact .inr (hsuf.mem List.mem_cons_self)
  · rintro (rfl | hc)
    · exact Nat.le_zero.mp (headD_dropWhile_le ws 0)
    · rw [List.headD_eq_head?_getD, head?_dropWhile_of_mem hdec hc]
      rfl

/-! ## The line ahead -/

/-- The column of the line with content that the next token from the characters enters, if it enters
one. -/
def lineAhead (s : Source) : Option Nat :=
  match s.deferred, s.skipBlankLines.rest with
  | [], '\n' :: cs => if endsLine (unindented cs) then none else some (column cs)
  | _, _ => none

theorem skipBlankLines_indents (s : Source) : s.skipBlankLines.indents = s.indents := by
  rw [skipBlankLines]
  split <;> rfl

theorem next_of_lineAhead (hc : s.lineAhead = some c) :
    ∃ cs, s.skipBlankLines.rest = '\n' :: cs ∧ s.next = s.skipBlankLines.lineEnd cs ∧
      endsLine (unindented cs) = false ∧ column cs = c := by
  rw [lineAhead] at hc
  split at hc
  · next hd hr =>
    split at hc
    · cases hc
    · next cs hb =>
      refine ⟨cs, hr, ?_, Bool.not_eq_true _ ▸ hb, Option.some.inj hc⟩
      rw [next, hd]
      exact fresh_of_newline hr
  · cases hc

/-- Passing over blank lines does not come to the end of a source. -/
theorem rest_eq_nil_of_skipBlankLines (h : s.skipBlankLines.rest = []) : s.rest = [] := by
  rcases s.rest_cases with hr | ⟨cs, hr⟩ | ⟨-, hnl⟩
  · exact hr
  · obtain ⟨rest, hrest⟩ := exists_skipBlankLines hr
    exact nomatch hrest.symm.trans h
  · rwa [skipBlankLines_of_ne hnl] at h

theorem rest_ne_nil_of_lineAhead (hc : s.lineAhead = some c) : s.rest ≠ [] := by
  intro hr
  rw [lineAhead, skipBlankLines_of_ne (by simp [hr]), hr] at hc
  split at hc
  · next heq => cases heq
  · cases hc

theorem levels_of_lineAhead (hc : s.lineAhead = some c) (h : s.next = (.ok t, s')) :
    (c < s.level ∧ t.body = .outdent ∧ s'.indents = s.indents.dropWhile (c < ·)) ∨
      (s.level ≤ c ∧ c ≠ 0 ∧ s.indents.head? ≠ some c ∧ t.body = .indent c ∧
        s'.indents = c :: s.indents) ∨
      s.level ≤ c ∧ (c = 0 ∨ s.indents.head? = some c) ∧ t.body = .newline ∧
        s'.indents = s.indents := by
  obtain ⟨cs, -, hnext, hb, rfl⟩ := next_of_lineAhead hc
  have henters := enters_of_lineEnd (hnext.symm.trans h)
  have hindents := s.skipBlankLines_indents
  cases henters with
  | blank hb' => cases hb.symm.trans hb'
  | back _ hk =>
    rw [hindents] at hk ⊢
    refine .inl ⟨?_, rfl, rfl⟩
    refine Nat.lt_of_not_le fun hle => ?_
    rw [level_le_iff.mp hle] at hk
    cases hk
  | deeper _ hk hc hne =>
    rw [hindents] at hk hne ⊢
    exact .inr (.inl ⟨level_le_iff.mpr hk, hc, hne, rfl, rfl⟩)
  | same _ hk hc =>
    rw [hindents] at hk hc ⊢
    exact .inr (.inr ⟨level_le_iff.mpr hk, hc, rfl, rfl⟩)

/-- A token that keeps the levels is none of those that change them. -/
theorem Reads.not_indentation (h : s.Reads t s') (hd : ∀ t ∈ s.deferred, t.body.isContent = true)
    (hi : s'.indents = s.indents) : t.isIndent = false ∧ t.isOutdent = false := by
  have hcontent : t.body.isContent = true → t.isIndent = false ∧ t.isOutdent = false := by
    intro hb
    rw [Token.isIndent, Token.isOutdent]
    cases hbody : t.body <;> simp_all [Token.Body.isContent]
  cases h with
  | deferred hts => exact hcontent (hd t (hts ▸ List.mem_cons_self))
  | eos => exact ⟨rfl, rfl⟩
  | close _ _ hws => exact absurd (hi.trans hws) (List.cons_ne_self _ _).symm
  | newline => exact ⟨rfl, rfl⟩
  | indent => exact absurd hi (List.cons_ne_self _ _)
  | outdent _ _ hws hk =>
    have hnil := List.append_left_eq_self.mp (hi.trans hws).symm
    rw [hnil] at hk
    cases hk
  | content _ _ hb => exact hcontent hb
  | tagColon => exact ⟨rfl, rfl⟩

/-- A token that enters no line with content keeps the levels, unless the source has ended. -/
theorem levels_of_not_lineAhead (hc : s.lineAhead = none) (hr : s.rest ≠ [])
    (h : s.next = (.ok t, s')) : s'.indents = s.indents := by
  rw [lineAhead] at hc
  rw [next] at h
  cases hd : s.deferred with
  | cons u us =>
    rw [hd] at h
    cases h
    rfl
  | nil =>
    rw [hd] at h hc
    dsimp only at h
    rw [← s.skipBlankLines_indents]
    rcases s.skipBlankLines.rest_cases with hnil | ⟨cs, hnl⟩ | ⟨hne, hnl⟩
    · exact absurd (rest_eq_nil_of_skipBlankLines hnil) hr
    · rw [hnl] at hc
      rw [fresh_of_newline hnl] at h
      have hb : endsLine (unindented cs) = true := by
        by_contra hb
        exact absurd hc (by simp [hb])
      cases enters_of_lineEnd h with
      | blank => rfl
      | back hb' => cases hb.symm.trans hb'
      | deeper hb' => cases hb.symm.trans hb'
      | same => rfl
    · rw [fresh_of_inline hne hnl] at h
      split at h
      · cases h
        rfl
      · have hline := s.skipBlankLines.inLine_goesOn
        rw [h] at hline
        obtain ⟨rest, deferred, rfl, -⟩ := hline
        rfl

/-! ## Runs -/

/-- A run of a source from `s₀`, with its readings: each token that was read from the characters,
and the column of the line with content that it entered, if it entered one. -/
inductive Logs (s₀ : Source) : List (Token × Option Nat) → Source → Prop
  /-- Nothing was read. -/
  | start : Logs s₀ [] s₀
  /-- A token is read. -/
  | reads {log : List (Token × Option Nat)} {s s' : Source} {t : Token} (h : Logs s₀ log s)
    (hs : s.next = (.ok t, s')) : Logs s₀ (log ++ [(t, s.lineAhead)]) s'
  /-- No token is read. The run may go on beyond a fault. -/
  | fails {log : List (Token × Option Nat)} {s s' : Source} {e : Fault} (h : Logs s₀ log s)
    (hs : s.next = (.error e, s')) : Logs s₀ log s'
  /-- Tokens are taken from those read ahead or put there, tokens of a line are put off, or the mode
  is changed. -/
  | uses {log : List (Token × Option Nat)} {s : Source} {stash deferred : List Token}
    {pipeless : Bool} (h : Logs s₀ log s) (hd : ∀ t ∈ deferred, t.body.isContent = true) :
    Logs s₀ log { s with stash, deferred, pipeless }

/-- The readings of up to `n` tokens, and the source after them. -/
def readings : Nat → Source → List (Token × Option Nat) × Source
  | 0, s => ([], s)
  | n + 1, s =>
    match s.next with
    | (.ok t, s') => ((t, s.lineAhead) :: (readings n s').1, (readings n s').2)
    | (.error _, s') => ([], s')

theorem Logs.readings (h : Logs s₀ log s) (n : Nat) :
    Logs s₀ (log ++ (s.readings n).1) (s.readings n).2 := by
  induction n generalizing s log with
  | zero => rwa [Source.readings, List.append_nil]
  | succ n ih =>
    rw [Source.readings]
    split
    · next hs =>
      have hmore := ih (h.reads hs)
      rwa [List.append_assoc] at hmore
    · next hs =>
      rw [List.append_nil]
      exact h.fails hs

theorem Logs.nested {src : String} {colons : Bool} (h : Logs (ofText src colons) log s) :
    s.indents.Pairwise (· > ·) ∧ (∀ w ∈ s.indents, 0 < w) ∧
      ∀ t ∈ s.deferred, t.body.isContent = true := by
  induction h with
  | start =>
    have hn := nested_ofText src colons
    exact ⟨hn.decreasing, hn.positive, hn.deferred⟩
  | reads _ hs ih =>
    obtain ⟨hdec, hpos, hd⟩ := ih
    have hr := reads_of_next hs
    obtain ⟨hdec', hpos'⟩ := hr.indents hdec hpos
    exact ⟨hdec', hpos', hr.deferred_isContent hd⟩
  | fails _ hs ih =>
    obtain ⟨hdec, hpos, hd⟩ := ih
    cases fails_of_next hs with
    | mixed => exact ⟨hdec, hpos, hd⟩
    | tagColon =>
      refine ⟨hdec, hpos, fun u hu => ?_⟩
      rw [List.mem_singleton.mp hu]
      rfl
  | uses _ hd ih => exact ⟨ih.1, ih.2.1, hd⟩

theorem Reads.rest_ne_nil (h : s.Reads t s') (hr : s'.rest ≠ []) : s.rest ≠ [] := by
  intro hnil
  have hnone : ∀ n, ¬ n < s.rest.length := fun n => by simp [hnil]
  cases h with
  | deferred => exact hr hnil
  | eos => exact hr hnil
  | close => exact hr hnil
  | newline _ hlt => exact hnone _ hlt
  | indent _ hlt => exact hnone _ hlt
  | outdent _ hlt => exact hnone _ hlt
  | content _ hlt => exact hnone _ hlt
  | tagColon _ hlt => exact hnone _ hlt

/-- A fault keeps the levels, and it takes something to come to it. -/
theorem Fails.levels {e : Fault} (h : s.Fails e s') : s'.indents = s.indents ∧ s.rest ≠ [] := by
  cases h with
  | mixed _ hlt => exact ⟨rfl, List.ne_nil_of_length_pos (Nat.zero_lt_of_lt hlt)⟩
  | tagColon _ hlt => exact ⟨rfl, List.ne_nil_of_length_pos (Nat.zero_lt_of_lt hlt)⟩

theorem level_le_of_lineAhead (hc : s.lineAhead = some c) (h : s.next = (.ok t, s')) :
    s'.level ≤ c := by
  rcases levels_of_lineAhead hc h with ⟨-, -, hi⟩ | ⟨-, -, -, -, hi⟩ | ⟨hle, -, -, hi⟩
  · rw [level, hi]
    exact headD_dropWhile_le _ _
  · rw [level, hi]
    exact Nat.le_refl c
  · rwa [level, hi]

/-- **Between two lines** the level stays where the first one left it, which is at most its column,
and nothing is opened or closed. -/
theorem Logs.level_le {before between : List (Token × Option Nat)} {t₁ : Token} {src : String}
    {colons : Bool} (h : Logs (ofText src colons) log s) (hr : s.rest ≠ [])
    (hlog : log = before ++ (t₁, some c) :: between) (hnone : ∀ x ∈ between, x.2 = none) :
    s.level ≤ c ∧ ∀ x ∈ between, x.1.isIndent = false ∧ x.1.isOutdent = false := by
  induction h generalizing between with
  | start => exact absurd hlog (by simp)
  | @reads log s s' t hl hs ih =>
    have hr := (reads_of_next hs).rest_ne_nil hr
    obtain ⟨-, -, hd⟩ := hl.nested
    rcases List.eq_nil_or_concat between with rfl | ⟨more, x, rfl⟩
    · -- the line was entered just now
      obtain ⟨rfl, hx⟩ := List.append_inj' hlog rfl
      obtain ⟨rfl, hc⟩ := by simpa using hx
      exact ⟨level_le_of_lineAhead hc hs, by simp⟩
    · rw [List.concat_eq_append] at hlog hnone ⊢
      rw [← List.cons_append, ← List.append_assoc] at hlog
      obtain ⟨hearlier, hx⟩ := List.append_inj' hlog rfl
      obtain rfl := List.singleton_inj.mp hx
      have hc : s.lineAhead = none := hnone (t, s.lineAhead) (by simp)
      have hkept := levels_of_not_lineAhead hc hr hs
      obtain ⟨hle, hmore⟩ := ih hr hearlier fun y hy => hnone y (by simp [hy])
      refine ⟨by rwa [level, hkept], fun y hy => ?_⟩
      rcases List.mem_append.mp hy with hy | hy
      · exact hmore y hy
      · rw [List.mem_singleton.mp hy]
        exact (reads_of_next hs).not_indentation hd hkept
  | fails hl hs ih =>
    obtain ⟨hkept, hr⟩ := (fails_of_next hs).levels
    obtain ⟨hle, hmore⟩ := ih hr hlog hnone
    exact ⟨by rwa [level, hkept], hmore⟩
  | uses _ _ ih => exact ih hr hlog hnone

/-- **The innermost level and the column of the line.** In every run of every source, a line with
content leaves an innermost level that is at most its column. The two are the same unless the line
goes back to a column that is neither an open level nor zero. And where two lines with content come
one after the other at one column, nothing is opened or closed between them if the first of them
left its column as the innermost level. If it did not, the second one is opened as a deeper one. -/
theorem level_tracks {src : String} {colons : Bool} {log : List (Token × Option Nat)} {c : Nat}
    (h : Logs (ofText src colons) log s) (hc : s.lineAhead = some c) (hs : s.next = (.ok t, s')) :
    s'.level ≤ c ∧ (s'.level = c ↔ s.level ≤ c ∨ c = 0 ∨ c ∈ s.indents) ∧
      ∀ before t₁ between, log = before ++ (t₁, some c) :: between →
        (∀ x ∈ between, x.2 = none) →
          (∀ x ∈ between, x.1.isIndent = false ∧ x.1.isOutdent = false) ∧
            t.body = if s.level = c then .newline else .indent c := by
  obtain ⟨hdec, hpos, -⟩ := h.nested
  have hlevels := levels_of_lineAhead hc hs
  refine ⟨level_le_of_lineAhead hc hs, ?_, fun before t₁ between hlog hnone => ?_⟩
  · rcases hlevels with ⟨hlt, -, hi⟩ | ⟨hle, -, -, -, hi⟩ | ⟨hle, hc, -, hi⟩
    · rw [level, hi, headD_dropWhile_eq_iff hdec]
      exact (or_iff_right (Nat.not_le_of_lt hlt)).symm
    · exact iff_of_true (by rw [level, hi]; rfl) (.inl hle)
    · exact iff_of_true (by rw [level, hi]; exact (level_eq_iff hpos hle).mpr hc) (.inl hle)
  · obtain ⟨hle, hbetween⟩ := h.level_le (rest_ne_nil_of_lineAhead hc) hlog hnone
    have hiff := level_eq_iff hpos hle
    refine ⟨hbetween, ?_⟩
    rcases hlevels with ⟨hlt, -, -⟩ | ⟨-, hc, hne, hbody, -⟩ | ⟨-, hc, hbody, -⟩
    · omega
    · rw [if_neg (fun heq => not_or.mpr ⟨hc, hne⟩ (hiff.mp heq)), hbody]
    · rw [if_pos (hiff.mpr hc), hbody]

/-- Two lines at one column, after a deeper one: `d` goes back to an open level. -/
theorem level_tracks_siblings :
    let s := ((ofText "a\n  b\n    c\n  d\n  e").readings 7).2
    s.lineAhead = some 2 ∧ s.next.2.level = 2 ∧
      s.next.1.toOption.map Token.body = some .newline := by
  intro s
  have hc : s.lineAhead = some 2 := by decide +kernel
  have hs : s.next = (.ok ⟨.newline, 5⟩, s.next.2) :=
    Prod.ext (eq_ok_of_toOption (by decide +kernel)) rfl
  obtain ⟨-, htracks, hsame⟩ := level_tracks (Logs.start.readings 7) hc hs
  obtain ⟨-, hbody⟩ := hsame (((ofText "a\n  b\n    c\n  d\n  e").readings 5).1) ⟨.outdent, 4⟩
    [(⟨.tag "d", 4⟩, none)] (by decide +kernel) (by simp)
  refine ⟨hc, htracks.mpr (by decide +kernel), ?_⟩
  rw [hs]
  exact congrArg some (hbody.trans (by decide +kernel))

/-- Two lines at one column that is none of the open levels. The first one, `c`, leaves level zero,
and so the second one, `d`, is opened as a deeper one. -/
theorem level_lost_between_levels :
    let s := ((ofText "a\n    b\n  c\n  d").readings 3).2
    let u := ((ofText "a\n    b\n  c\n  d").readings 5).2
    (s.lineAhead = some 2 ∧ s.next.1.toOption = some ⟨.outdent, 3⟩ ∧ s.next.2.level = 0) ∧
      u.lineAhead = some 2 ∧ u.next.1.toOption = some ⟨.indent 2, 4⟩ := by
  decide +kernel

end Source

end Jade

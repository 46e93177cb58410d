import Jade.Proofs.Source.LineEnds

/-!
# Line numbers

The line of a source is counted up where a line end is read for the layout. A line end that goes
another way is not counted: the ends of lines that hold nothing and are passed over, those inside a
list of attributes, and those that a token takes beyond its line. From there on all tokens are
numbered too low, by as many lines as were lost.

A source is used by moves, and some of them read from the characters, once or several times.
`Source.stops` are the states in which this happens. They give all tokens that are ever returned, in
order, and each of them is numbered right if nothing was lost at the stops before it.

## Main results

* `Jade.Source.next_counts` : what one reading does to the line
* `Jade.Source.Trail.counts` : and what a run does
* `Jade.Source.stash_perform` : the stops account for all tokens
* `Jade.Source.token_lines` : when a token has the number of its line
-/

namespace Jade

namespace Source

variable {s s' s'' s₀ : Source} {t : Token}

/-! ## Line ends that are not counted -/

/-- The line ends between two states of a source. -/
def lineEndsPassed (s s' : Source) : Nat := s.rest.count '\n' - s'.rest.count '\n'

/-- The line ends that are lost when the next token is read: those of the lines that are passed
over, and those in the text of a token. The line end before a line that is entered is not lost. -/
def uncounted (s : Source) : Nat :=
  match s.deferred with
  | _ :: _ => 0
  | [] =>
    lineEndsPassed s s.skipBlankLines +
      if s.rest.head? = some '\n' then 0 else lineEndsPassed s s.next.2

/-- The ways to lose a line end when the next token is read. -/
inductive LosesLineEnd (s : Source) : Prop
  /-- Lines that hold nothing are passed over. -/
  | blankLines (hd : s.deferred = []) (hskip : s.skipBlankLines.rest ≠ s.rest)
  /-- A token on a line has a line end in its text. -/
  | within {t : Token} {s' : Source} {taken : List Char} (hd : s.deferred = [])
    (hnl : s.rest.head? ≠ some '\n') (h : s.next = (.ok t, s')) (htaken : s.rest = taken ++ s'.rest)
    (hmem : '\n' ∈ taken)
    (hbody : (∃ table fixed, t.body = .attrs table fixed) ∨ Rules.Oversteps t.body taken)

/-- The line ends lost at several stops. -/
def uncountedIn : List Source → Nat
  | [] => 0
  | s :: stops => s.uncounted + uncountedIn stops

theorem uncountedIn_append (before after : List Source) :
    uncountedIn (before ++ after) = uncountedIn before + uncountedIn after := by
  induction before with
  | nil => exact (Nat.zero_add _).symm
  | cons s before ih => rw [List.cons_append, uncountedIn, uncountedIn, ih, Nat.add_assoc]

theorem uncountedIn_eq_zero_iff {stops : List Source} :
    uncountedIn stops = 0 ↔ ∀ s ∈ stops, s.uncounted = 0 := by
  induction stops with
  | nil => simp [uncountedIn]
  | cons s stops ih => rw [uncountedIn, Nat.add_eq_zero_iff, ih, List.forall_mem_cons]

/-! ## One reading -/

/-- Between the two states characters are taken, and of the line ends among them all but `lost` are
counted. -/
def Counts (s s' : Source) (lost : Nat) : Prop :=
  ∃ taken, s.rest = taken ++ s'.rest ∧ s'.line + lost = s.line + taken.count '\n'

theorem Counts.refl (s : Source) : Counts s s 0 := ⟨[], rfl, rfl⟩

theorem Counts.trans {m n : Nat} (h : Counts s s' m) (h' : Counts s' s'' n) :
    Counts s s'' (m + n) := by
  obtain ⟨taken, hrest, hline⟩ := h
  obtain ⟨taken', hrest', hline'⟩ := h'
  refine ⟨taken ++ taken', by rw [hrest, hrest', List.append_assoc], ?_⟩
  rw [List.count_append]
  omega

/-- Characters are taken, and none of their line ends is counted. -/
def Stays (s s' : Source) : Prop := s'.rest <:+ s.rest ∧ s'.line = s.line

theorem Stays.counts (h : s.Stays s') : Counts s s' (lineEndsPassed s s') := by
  obtain ⟨⟨taken, htaken⟩, hline⟩ := h
  refine ⟨taken, htaken.symm, ?_⟩
  rw [lineEndsPassed, hline, ← htaken, List.count_append]
  omega

theorem skipBlankLines_stays (s : Source) : s.Stays s.skipBlankLines := by
  refine ⟨s.skipBlankLines_suffix, ?_⟩
  rw [skipBlankLines]
  split
  · rfl
  · rfl

theorem atEnd_stays (s : Source) : s.Stays s.atEnd.2 := by
  rw [atEnd]
  split
  · exact ⟨List.suffix_refl _, rfl⟩
  · exact ⟨List.suffix_refl _, rfl⟩

theorem GoesOn.stays (h : s.GoesOn s') : s.Stays s' := by
  obtain ⟨rest, deferred, rfl, hrest⟩ := h
  exact ⟨hrest, rfl⟩

theorem fresh_stays (hnl : s.rest.head? ≠ some '\n') : s.Stays s.fresh.2 := by
  rcases s.rest_cases with hr | ⟨cs, hr⟩ | ⟨hne, -⟩
  · rw [fresh_of_nil hr]
    exact s.atEnd_stays
  · exact absurd (by rw [hr]; rfl) hnl
  · rw [fresh_of_inline hne hnl]
    split
    · exact s.textLine_goesOn.stays
    · exact s.inLine_goesOn.stays

theorem lineEnd_line (s : Source) (cs : List Char) : (s.lineEnd cs).2.line = s.line + 1 := by
  have harrives := s.lineEnd_arrives cs
  generalize s.lineEnd cs = out at harrives
  obtain ⟨e | t, s'⟩ := out
  · obtain ⟨-, blanks, rest, style, -, -, rfl⟩ := harrives
    rfl
  · cases harrives <;> rfl

theorem lineEnd_counts {cs : List Char} (hr : s.rest = '\n' :: cs) :
    Counts s (s.lineEnd cs).2 0 := by
  obtain ⟨⟨blanks, hcs, hblanks⟩, -⟩ := lineEnd_cases s cs
  have hnone : blanks.count '\n' = 0 :=
    List.count_eq_zero.mpr fun hnl => absurd (hblanks '\n' hnl) (by decide)
  refine ⟨'\n' :: blanks, ?_, ?_⟩
  · rw [hr, List.cons_append, ← hcs]
  · rw [lineEnd_line, List.count_cons_self, hnone]

/-- **One reading**, whether it gives a token or not, counts the line ends that it takes, but for
those that are lost. -/
theorem next_counts (s : Source) : Counts s s.next.2 s.uncounted := by
  have hskip := s.skipBlankLines_stays.counts
  rw [uncounted]
  split
  · next hd =>
    rw [next, hd]
    exact ⟨[], rfl, rfl⟩
  · next hd =>
    have hnext : s.next = s.skipBlankLines.fresh := by rw [next, hd]
    rw [hnext]
    split
    · next hnl =>
      obtain ⟨cs, hr⟩ := List.head?_eq_some_iff.mp hnl
      obtain ⟨ds, hds⟩ := exists_skipBlankLines hr
      rw [fresh_of_newline hds]
      exact hskip.trans (lineEnd_counts hds)
    · next hnl =>
      rw [skipBlankLines_of_ne hnl] at hskip ⊢
      exact hskip.trans (fresh_stays hnl).counts

/-! ## Losing a line end -/

theorem lineEndsPassed_ne_zero_iff {taken : List Char} (h : s.rest = taken ++ s'.rest) :
    lineEndsPassed s s' ≠ 0 ↔ '\n' ∈ taken := by
  rw [lineEndsPassed, h, List.count_append, Nat.add_sub_cancel, Ne, List.count_eq_zero, not_not]

theorem lineEndsPassed_skipBlankLines_iff :
    lineEndsPassed s s.skipBlankLines ≠ 0 ↔ s.skipBlankLines.rest ≠ s.rest := by
  obtain ⟨taken, htaken⟩ := s.skipBlankLines_suffix
  rw [lineEndsPassed_ne_zero_iff htaken.symm]
  constructor
  · intro hnl heq
    have hnil : taken = [] := List.append_left_eq_self.mp (htaken.trans heq.symm)
    exact absurd (hnil ▸ hnl) List.not_mem_nil
  · intro hne
    have hhead : s.rest.head? = some '\n' := by
      by_contra hnl
      exact hne (by rw [skipBlankLines_of_ne hnl])
    obtain ⟨cs, hcs⟩ := List.head?_eq_some_iff.mp hhead
    cases taken with
    | nil => exact absurd htaken hne
    | cons c taken =>
      rw [hcs] at htaken
      rw [(List.cons.inj htaken).1]
      exact List.mem_cons_self

theorem fresh_error_passes {e : Fault} (hnl : s.rest.head? ≠ some '\n')
    (h : s.fresh = (.error e, s')) : Passes Inline s.rest s'.rest := by
  rcases s.rest_cases with hr | ⟨cs, hr⟩ | ⟨hne, -⟩
  · rw [fresh_of_nil hr] at h
    cases h
  · exact absurd (by rw [hr]; rfl) hnl
  · rw [fresh_of_inline hne hnl] at h
    split at h
    · cases h
    · have hfinds := s.inLine_finds
      rw [h] at hfinds
      cases hfinds with
      | @ends _ rest htag _ hr =>
        exact hr ▸ (Rules.tag?_takes htag).passes.trans (passes_spaces rest)
      | nothing => exact Passes.refl _

theorem losesLineEnd_of_inline (hd : s.deferred = []) (hnl : s.rest.head? ≠ some '\n')
    (h : lineEndsPassed s s.next.2 ≠ 0) : s.LosesLineEnd := by
  rcases hnext : s.next with ⟨e | t, s'⟩
  · rw [hnext] at h
    rw [next, hd] at hnext
    dsimp only at hnext
    rw [skipBlankLines_of_ne hnl] at hnext
    obtain ⟨taken, hinline, htaken⟩ := fresh_error_passes hnl hnext
    exact absurd rfl (hinline '\n' ((lineEndsPassed_ne_zero_iff htaken).mp h))
  · rw [hnext] at h
    obtain ⟨taken, htaken, hbody⟩ := next_lineEnds_of_inline hd hnl hnext
    have hmem := (lineEndsPassed_ne_zero_iff htaken).mp h
    exact .within hd hnl hnext htaken hmem (hbody hmem)

/-- **A reading loses line ends** in one of the ways above. -/
theorem uncounted_ne_zero_iff : s.uncounted ≠ 0 ↔ s.LosesLineEnd := by
  constructor
  · intro h
    rw [uncounted] at h
    split at h
    · exact absurd rfl h
    · next hd =>
      by_cases hskip : s.skipBlankLines.rest = s.rest
      · have hzero : lineEndsPassed s s.skipBlankLines = 0 := by
          by_contra hne
          exact lineEndsPassed_skipBlankLines_iff.mp hne hskip
        rw [hzero, Nat.zero_add] at h
        split at h
        · exact absurd rfl h
        · next hnl => exact losesLineEnd_of_inline hd hnl h
      · exact .blankLines hd hskip
  · rintro (⟨hd, hskip⟩ | ⟨hd, hnl, h, htaken, hmem, -⟩)
    · have hpos := lineEndsPassed_skipBlankLines_iff.mpr hskip
      rw [uncounted, hd]
      dsimp only
      omega
    · have hpos := (lineEndsPassed_ne_zero_iff htaken).mpr hmem
      rw [uncounted, hd, h]
      dsimp only
      rw [if_neg hnl]
      omega

/-! ## Runs -/

/-- A run of a source from `s₀`, with the states in which it was read. -/
inductive Trail (s₀ : Source) : List Source → Source → Prop
  /-- Nothing was read. -/
  | start : Trail s₀ [] s₀
  /-- The source is read, with or without a fault. -/
  | reads {stops : List Source} {s : Source} (h : Trail s₀ stops s) :
    Trail s₀ (stops ++ [s]) s.next.2
  /-- Tokens are taken from those read ahead or put there, or the mode is changed. -/
  | uses {stops : List Source} {s : Source} {stash : List Token} {pipeless : Bool}
    (h : Trail s₀ stops s) : Trail s₀ stops { s with stash, pipeless }

/-- **A run** counts the line ends that it takes, but for those lost at its stops. -/
theorem Trail.counts {stops : List Source} (h : Trail s₀ stops s) :
    Counts s₀ s (uncountedIn stops) := by
  induction h with
  | start => exact Counts.refl s₀
  | @reads stops s _ ih =>
    rw [uncountedIn_append]
    exact ih.trans s.next_counts
  | uses _ ih => exact ih

theorem Trail.before {stops before after : List Source} {p : Source} (h : Trail s₀ stops s)
    (hsplit : stops = before ++ p :: after) : Trail s₀ before p := by
  induction h generalizing after with
  | start => exact absurd hsplit (by simp)
  | @reads stops s hrun ih =>
    -- the stop is the last one, or it is among those before
    rcases List.eq_nil_or_concat after with rfl | ⟨after, last, rfl⟩
    · obtain ⟨rfl, hs⟩ := List.append_inj' hsplit rfl
      rwa [← (List.cons.inj hs).1]
    · rw [List.concat_eq_append, ← List.cons_append, ← List.append_assoc] at hsplit
      exact ih (List.append_inj' hsplit rfl).1
  | uses _ ih => exact ih hsplit

/-! ## Stops -/

/-- The states in which tokens are read ahead. -/
def fetchStops : Nat → Source → List Source
  | 0, _ => []
  | n + 1, s =>
    match s.next with
    | (.error _, _) => [s]
    | (.ok t, s') => s :: fetchStops n { s' with stash := s'.stash ++ [t] }

/-- The states in which a move reads. A token that was read ahead is not read again. -/
def Move.stops : Move → Source → List Source
  | advance, s =>
    match s.stash with
    | _ :: _ => []
    | [] => [s]
  | lookahead n, s => fetchStops (n - s.stash.length).toNat s
  | pipeless _, _ => []

/-- The states in which moves read, one after the other. -/
def stops : List Move → List Token × Source → List Source
  | [], _ => []
  | move :: moves, used => move.stops used.2 ++ stops moves (move.perform used)

/-- The tokens that are read in a state: one, and as many as are stashed with it. -/
def made (s : Source) : List Token :=
  match s.next with
  | (.error _, _) => []
  | (.ok t, s') => t :: s'.stash.drop s.stash.length

theorem trail_fetch {before : List Source} (h : Trail s₀ before s) (n : Nat) :
    Trail s₀ (before ++ fetchStops n s) (fetch n s).2 := by
  induction n generalizing s before with
  | zero => rwa [fetchStops, List.append_nil]
  | succ n ih =>
    have hread := h.reads
    rw [fetchStops, fetch]
    rcases hnext : s.next with ⟨e | t, s'⟩
    · rwa [hnext] at hread
    · rw [hnext] at hread
      have hmore := ih (s := { s' with stash := s'.stash ++ [t] }) hread.uses
      rwa [List.append_assoc] at hmore

theorem Move.trail (move : Move) (given : List Token) {before : List Source}
    (h : Trail s₀ before s) : Trail s₀ (before ++ move.stops s) (move.perform (given, s)).2 := by
  cases move with
  | advance =>
    rw [stops, perform, Source.advance]
    cases hstash : s.stash with
    | cons t ts =>
      rw [List.append_nil]
      exact h.uses
    | nil =>
      have hread := h.reads
      dsimp only
      rcases hnext : s.next with ⟨e | t, s'⟩
      · rwa [hnext] at hread
      · rwa [hnext] at hread
  | lookahead n =>
    rw [stops, perform, lookahead_state]
    exact trail_fetch h _
  | pipeless on =>
    rw [stops, List.append_nil]
    exact h.uses

theorem trail_stops (moves : List Move) (used : List Token × Source) {before : List Source}
    (h : Trail s₀ before used.2) : ∃ s, Trail s₀ (before ++ stops moves used) s := by
  induction moves generalizing before used with
  | nil => exact ⟨used.2, by rwa [stops, List.append_nil]⟩
  | cons move moves ih =>
    obtain ⟨s, hs⟩ := ih (move.perform used) (move.trail used.1 h)
    exact ⟨s, by rwa [List.append_assoc] at hs⟩

/-! ## The tokens of a run -/

theorem made_of_next (h : s.next = (.ok t, s')) :
    ∃ k, s.made = List.replicate (k + 1) t ∧ s'.stash = s.stash ++ List.replicate k t ∧
      (k ≠ 0 → t.body = .outdent) := by
  obtain ⟨k, hstash, hk⟩ := (reads_of_next h).stashed
  refine ⟨k, ?_, hstash, hk⟩
  rw [made, h]
  dsimp only
  rw [hstash, List.drop_left, List.replicate_succ]

theorem made_of_error {e : Fault} (h : s.next = (.error e, s')) :
    s.made = [] ∧ s'.stash = s.stash := by
  refine ⟨by rw [made, h], ?_⟩
  cases fails_of_next h with
  | mixed => rfl
  | tagColon => rfl

theorem stash_fetch (n : Nat) (s : Source) :
    (fetch n s).2.stash = s.stash ++ (fetchStops n s).flatMap made := by
  induction n generalizing s with
  | zero => exact (List.append_nil _).symm
  | succ n ih =>
    rw [fetch, fetchStops]
    rcases hnext : s.next with ⟨e | t, s'⟩
    · obtain ⟨hmade, hstash⟩ := made_of_error hnext
      simp only [List.flatMap_cons, List.flatMap_nil, hmade, hstash, List.append_nil]
    · obtain ⟨k, hmade, hstash, -⟩ := made_of_next hnext
      dsimp only
      rw [ih, List.flatMap_cons, hmade, hstash, List.replicate_succ', List.append_assoc,
        List.append_assoc, List.append_assoc, List.append_assoc]

theorem Move.stash_perform (move : Move) (given : List Token) (s : Source) :
    (move.perform (given, s)).1 ++ (move.perform (given, s)).2.stash =
      given ++ s.stash ++ (move.stops s).flatMap made := by
  cases move with
  | advance =>
    rw [stops, perform, Source.advance]
    cases hstash : s.stash with
    | cons t ts => simp
    | nil =>
      dsimp only
      rcases hnext : s.next with ⟨e | t, s'⟩
      · obtain ⟨hmade, hstash'⟩ := made_of_error hnext
        simp [hmade, hstash', hstash]
      · obtain ⟨k, hmade, hstash', -⟩ := made_of_next hnext
        simp [hmade, hstash', hstash, List.replicate_succ]
  | lookahead n =>
    rw [stops, perform, lookahead_state, stash_fetch, List.append_assoc]
  | pipeless on => exact (List.append_nil _).symm

/-- **The stops account for all tokens**: those given and those still stashed are the tokens read at
the stops, in order. -/
theorem stash_perform (moves : List Move) (used : List Token × Source) :
    (moves.foldl (fun used move => move.perform used) used).1 ++
        (moves.foldl (fun used move => move.perform used) used).2.stash =
      used.1 ++ used.2.stash ++ (stops moves used).flatMap made := by
  induction moves generalizing used with
  | nil => exact (List.append_nil _).symm
  | cons move moves ih =>
    rw [List.foldl_cons, ih, move.stash_perform used.1 used.2, stops, List.flatMap_append,
      List.append_assoc]

/-- A token that comes alone is all that was read at one stop. -/
theorem exists_stop {stops : List Source} {seen more : List Token}
    (h : stops.flatMap made = seen ++ t :: more) (ht : t.body ≠ .outdent) :
    ∃ before p after, stops = before ++ p :: after ∧ before.flatMap made = seen ∧
      p.made = [t] := by
  induction stops generalizing seen with
  | nil => exact absurd h (by simp)
  | cons p stops ih =>
    rw [List.flatMap_cons] at h
    rcases List.append_eq_append_iff.mp h with ⟨between, rfl, hmore⟩ | ⟨between, hmade, hmore⟩
    · obtain ⟨before, q, after, rfl, rfl, hq⟩ := ih hmore
      exact ⟨p :: before, q, after, rfl, List.flatMap_cons, hq⟩
    · cases between with
      | nil =>
        have hrest : stops.flatMap made = [] ++ t :: more := hmore.symm
        obtain ⟨before, q, after, rfl, hbefore, hq⟩ := ih hrest
        rw [List.append_nil] at hmade
        refine ⟨p :: before, q, after, rfl, ?_, hq⟩
        rw [List.flatMap_cons, hbefore, hmade, List.append_nil]
      | cons u between =>
        cases hmore
        -- the token is among those of this stop, so it is the only one there
        rcases hnext : p.next with ⟨e | v, s'⟩
        · rw [(made_of_error hnext).1] at hmade
          exact absurd hmade (by simp)
        · obtain ⟨k, hrep, -, hk⟩ := made_of_next hnext
          rw [hrep] at hmade
          have hmem : t ∈ List.replicate (k + 1) v := by
            rw [hmade]
            exact List.mem_append_right _ List.mem_cons_self
          have hv : t = v := List.eq_of_mem_replicate hmem
          obtain rfl : k = 0 := by
            by_contra hne
            exact ht (hv ▸ hk hne)
          have hlen := congrArg List.length hmade
          simp only [List.length_replicate, List.length_append, List.length_cons] at hlen
          have hseen : seen = [] := List.eq_nil_of_length_eq_zero (by omega)
          exact ⟨[], p, stops, rfl, hseen.symm, by rw [hrep, hv]; rfl⟩

/-! ## The line of a token -/

/-- A token that is not of the layout is read on its line, and has the number of the line there. -/
theorem Reads.line_eq (h : s.Reads t s') (hd : s.deferred = []) (ht : t.body.isLine = false)
    (heos : t.body ≠ .eos) : t.line = s.line ∧ s'.rest.length < s.rest.length := by
  cases h with
  | deferred hd' => exact nomatch hd.symm.trans hd'
  | eos => exact absurd rfl heos
  | close => cases ht
  | newline => cases ht
  | indent => cases ht
  | outdent => cases ht
  | content hd hr => exact ⟨rfl, hr⟩
  | tagColon hd hr => exact ⟨rfl, Nat.lt_of_succ_lt hr⟩

/-- **Tokens and their lines.** Each token that is given, but those of the layout, was read at one
stop of the run, and the stops before it gave the tokens before it. Unless it was put off, it is
taken from the text there, and its line is that of its first character, less the line ends lost
until then. So it is numbered right if and only if none was lost: no line that holds nothing was
passed over, no list of attributes had a line end in it and no token overstepped. -/
theorem token_lines {src : String} {colons : Bool} {moves : List Move} {seen more : List Token}
    (h : (perform moves (ofText src colons)).1 = seen ++ t :: more) (ht : t.body.isLine = false)
    (heos : t.body ≠ .eos) :
    ∃ before p after, stops moves ([], ofText src colons) = before ++ p :: after ∧
      before.flatMap made = seen ∧ p.made = [t] ∧
      (p.deferred = [] → ∃ passed text s', p.next = (.ok t, s') ∧ text ≠ [] ∧
        p.rest = text ++ s'.rest ∧ joinLineEnds src.toList = passed ++ p.rest ∧
        t.line + uncountedIn before = 1 + passed.count '\n' ∧
        (t.line = 1 + passed.count '\n' ↔ ∀ stop ∈ before, ¬ stop.LosesLineEnd)) := by
  have hout : t.body ≠ .outdent := by
    intro hbody
    rw [hbody] at ht
    cases ht
  have hall := stash_perform moves ([], ofText src colons)
  change (perform moves (ofText src colons)).1 ++ _ = _ at hall
  rw [h, List.append_assoc, List.cons_append] at hall
  obtain ⟨before, p, after, hstops, hseen, hmade⟩ := exists_stop hall.symm hout
  refine ⟨before, p, after, hstops, hseen, hmade, fun hd => ?_⟩
  -- the stop has read the token, and the stops before it are a run
  obtain ⟨s', hnext⟩ : ∃ s', p.next = (.ok t, s') := by
    rcases hnext : p.next with ⟨e | u, s'⟩
    · rw [(made_of_error hnext).1] at hmade
      cases hmade
    · obtain ⟨k, hrep, -, -⟩ := made_of_next hnext
      rw [hmade] at hrep
      rw [(List.cons.inj hrep).1]
      exact ⟨s', rfl⟩
  obtain ⟨s, hrun⟩ := trail_stops moves ([], ofText src colons) .start
  obtain ⟨passed, hpassed, hline⟩ := (hrun.before hstops).counts
  obtain ⟨hlineNo, hlt⟩ := (reads_of_next hnext).line_eq hd ht heos
  have hstands := next_stands hd
  rw [hnext] at hstands
  obtain ⟨⟨text, htext⟩, -⟩ := hstands
  have hcount : t.line + uncountedIn before = 1 + passed.count '\n' := by rw [hlineNo, hline]; rfl
  refine ⟨passed, text, s', hnext, ?_, htext.symm, hpassed, hcount, ?_⟩
  · rintro rfl
    exact absurd (congrArg List.length htext) (Nat.ne_of_lt hlt)
  · have hnone : (∀ stop ∈ before, ¬ stop.LosesLineEnd) ↔ uncountedIn before = 0 := by
      rw [uncountedIn_eq_zero_iff]
      exact forall₂_congr fun stop _ => by rw [← uncounted_ne_zero_iff, not_not]
    rw [hnone]
    omega

/-- A token on the second line, with nothing lost before it. -/
theorem token_lines_second :
    ∃ before p after, stops (List.replicate 3 .advance) ([], ofText "a\nb") =
        before ++ p :: after ∧
      before.flatMap made = [⟨.tag "a", 1⟩, ⟨.newline, 2⟩] ∧ p.made = [⟨.tag "b", 2⟩] ∧
      (p.deferred = [] → ∃ passed text s', p.next = (.ok ⟨.tag "b", 2⟩, s') ∧ text ≠ [] ∧
        p.rest = text ++ s'.rest ∧ joinLineEnds "a\nb".toList = passed ++ p.rest ∧
        2 + uncountedIn before = 1 + passed.count '\n' ∧
        (2 = 1 + passed.count '\n' ↔ ∀ stop ∈ before, ¬ stop.LosesLineEnd)) :=
  have hgiven : (perform (List.replicate 3 .advance) (ofText "a\nb")).1 =
      [⟨.tag "a", 1⟩, ⟨.newline, 2⟩] ++ ⟨.tag "b", 2⟩ :: [] := by decide +kernel
  token_lines hgiven rfl (by decide)

/-- After a line that holds nothing, and after a list of attributes on two lines, the number is one
too low: the third line is numbered as the second. -/
theorem token_lines_behind :
    ((perform (List.replicate 4 .advance) (ofText "a\n\nb")).1 =
        [⟨.tag "a", 1⟩, ⟨.newline, 2⟩, ⟨.tag "b", 2⟩, ⟨.eos, 2⟩] ∧
      joinLineEnds "a\n\nb".toList = "a\n\n".toList ++ "b".toList ∧
      2 ≠ 1 + "a\n\n".toList.count '\n') ∧
    (perform (List.replicate 4 .advance) (ofText "a(x,\ny)\nb")).1.getLast? =
        some ⟨.tag "b", 2⟩ ∧
      joinLineEnds "a(x,\ny)\nb".toList = "a(x,\ny)\n".toList ++ "b".toList ∧
      2 ≠ 1 + "a(x,\ny)\n".toList.count '\n' := by
  decide +kernel

end Source

end Jade

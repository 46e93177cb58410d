import Jade.Proofs.Source.Columns

/-!
# Lines of plain text

A block of plain text is given as its lines. What is made of them depends on the levels that are
open: each line end, each line that is deeper and each level that ends makes a line end of its own,
and a line stands behind the spaces by which its level is deeper than the block (`output`). This is
followed token by token: where the source stands before some lines (`Source.AtLines`), the next
token is the first part of what is made of them, and the source stands before the lines that are
left (`Source.AtLines.turns`).

Where each line that goes back goes back to an open level, the level of a line is its column, and
what is made of the lines is their layout (`layout_append_newline`).

## Main results

* `Jade.layout_append_newline` : in a regular block, the layout is what is made of the lines
* `Jade.filter_layout` : the line ends aside, the layout is the lines with content
* `Jade.Source.AtLines.turns` : one token of a block
-/

namespace Jade

/-! ## Lines -/

/-- A line with further lines after it. -/
def joinLines (l : List Char) (ls : List (List Char)) : List Char := l ++ ls.flatMap ('\n' :: ·)

/-- Whether nothing but an indentation is on a line. -/
def isBlankLine (l : List Char) : Bool := l.all isIndentation

@[simp] theorem joinLines_nil_cons (l : List Char) (ls : List (List Char)) :
    joinLines [] (l :: ls) = '\n' :: joinLines l ls := by simp [joinLines]

@[simp] theorem joinLines_cons (c : Char) (l : List Char) (ls : List (List Char)) :
    joinLines (c :: l) ls = c :: joinLines l ls := rfl

theorem exists_joinLines (cs : List Char) :
    ∃ l ls, cs = joinLines l ls ∧ ∀ l' ∈ l :: ls, '\n' ∉ l' := by
  induction cs with
  | nil => exact ⟨[], [], rfl, by simp⟩
  | cons c cs ih =>
    obtain ⟨l, ls, rfl, hlines⟩ := ih
    by_cases hc : c = '\n'
    · subst hc
      exact ⟨[], l :: ls, by simp, fun l' hl' => by
        rcases List.mem_cons.mp hl' with rfl | hl'
        · simp
        · exact hlines l' hl'⟩
    · refine ⟨c :: l, ls, rfl, fun l' hl' => ?_⟩
      rcases List.mem_cons.mp hl' with rfl | hl'
      · have hl := hlines l List.mem_cons_self
        simp [hl, Ne.symm hc]
      · exact hlines l' (List.mem_cons_of_mem _ hl')

theorem unindented_eq_nil_iff {l : List Char} : unindented l = [] ↔ isBlankLine l = true := by
  rw [unindented, List.dropWhile_eq_nil_iff, isBlankLine, List.all_eq_true]

theorem newline_not_mem_unindented {l : List Char} (h : '\n' ∉ l) : '\n' ∉ unindented l :=
  fun hmem => h ((List.dropWhile_suffix _).subset hmem)

theorem column_joinLines (l : List Char) (ls : List (List Char)) :
    column (joinLines l ls) = column l := by
  induction l with
  | nil =>
    cases ls with
    | nil => rfl
    | cons l ls => rw [joinLines_nil_cons]; rfl
  | cons c l ih =>
    rw [joinLines_cons, column, column, List.takeWhile_cons, List.takeWhile_cons]
    split
    · exact congrArg (· + 1) ih
    · rfl

theorem unindented_joinLines (l : List Char) (ls : List (List Char)) :
    unindented (joinLines l ls) = joinLines (unindented l) ls := by
  induction l with
  | nil =>
    cases ls with
    | nil => rfl
    | cons l ls => rw [joinLines_nil_cons]; exact (joinLines_nil_cons l ls).symm
  | cons c l ih =>
    rw [joinLines_cons, unindented, unindented, List.dropWhile_cons, List.dropWhile_cons]
    split
    · exact ih
    · rfl

theorem endsLine_joinLines {l : List Char} (ls : List (List Char)) (h : '\n' ∉ l) :
    endsLine (joinLines (unindented l) ls) = isBlankLine l := by
  have hline := newline_not_mem_unindented h
  cases hl : unindented l with
  | nil =>
    rw [unindented_eq_nil_iff.mp hl]
    cases ls with
    | nil => rfl
    | cons l ls => rw [joinLines_nil_cons]; rfl
  | cons c cs =>
    have hblank : isBlankLine l = false := by
      rw [← Bool.not_eq_true, ← unindented_eq_nil_iff, hl]
      simp
    rw [hl] at hline
    have hc : c ≠ '\n' := fun heq => hline (heq ▸ List.mem_cons_self)
    rw [hblank, joinLines_cons, endsLine, beq_eq_false_iff_ne]
    exact hc

/-! ## Levels -/

/-- The number of levels that a line at column `c` closes, with the levels `us` open. -/
def levelsClosed (us : List Nat) (c : Nat) : Nat := (us.takeWhile (c < ·)).length

/-- The levels that are open on a line at column `c`, with the levels `us` open before it. -/
def levelsAfter (us : List Nat) (c : Nat) : List Nat :=
  if us.headD 0 < c then c :: us else us.dropWhile (c < ·)

/-- The open levels of a block that is indented by `base`, innermost first. -/
structure Levels (base : Nat) (us : List Nat) : Prop where
  /-- Each level is deeper than those around it. -/
  sorted : us.Pairwise (· > ·)
  /-- The block itself is open. -/
  base_mem : base ∈ us
  /-- All levels are inside of the block. -/
  base_le : ∀ u ∈ us, base ≤ u

variable {base c : Nat} {us outs : List Nat}

theorem Levels.single (base : Nat) : Levels base [base] :=
  ⟨List.pairwise_singleton _ _, List.mem_singleton_self _, by simp⟩

theorem Levels.ne_nil (h : Levels base us) : us ≠ [] := List.ne_nil_of_mem h.base_mem

theorem Levels.head_mem (h : Levels base us) : us.headD 0 ∈ us := by
  cases us with
  | nil => exact absurd rfl h.ne_nil
  | cons u us => exact List.mem_cons_self

theorem Levels.cons (h : Levels base us) (hc : us.headD 0 < c) : Levels base (c :: us) := by
  refine ⟨List.pairwise_cons.mpr ⟨fun u hu => ?_, h.sorted⟩, List.mem_cons_of_mem _ h.base_mem,
    fun u hu => ?_⟩
  · cases us with
    | nil => exact absurd rfl h.ne_nil
    | cons v us =>
      rcases List.mem_cons.mp hu with rfl | hu
      · exact hc
      · exact Nat.lt_trans ((List.pairwise_cons.mp h.sorted).1 u hu) hc
  · rcases List.mem_cons.mp hu with rfl | hu
    · exact Nat.le_trans (h.base_le _ h.head_mem) (Nat.le_of_lt hc)
    · exact h.base_le u hu

theorem Levels.dropWhile (h : Levels base us) (hc : base ≤ c) :
    Levels base (us.dropWhile (c < ·)) where
  sorted := h.sorted.sublist (List.dropWhile_sublist _)
  base_mem := by
    have hsplit := List.takeWhile_append_dropWhile (p := fun u => decide (c < u)) (l := us)
    have hmem := h.base_mem
    rw [← hsplit, List.mem_append] at hmem
    refine hmem.resolve_left fun hgone => ?_
    have hlt := List.mem_takeWhile_imp hgone
    rw [decide_eq_true_eq] at hlt
    omega
  base_le := fun u hu => h.base_le u ((List.dropWhile_sublist _).subset hu)

theorem Levels.after (h : Levels base us) (hc : base ≤ c) : Levels base (levelsAfter us c) := by
  rw [levelsAfter]
  split
  · next hdeep => exact h.cons hdeep
  · exact h.dropWhile hc

theorem drop_levelsClosed (us : List Nat) (c : Nat) :
    us.drop (levelsClosed us c) = us.dropWhile (c < ·) := by
  have hdrop : (us.takeWhile (c < ·) ++ us.dropWhile (c < ·)).drop (levelsClosed us c) =
      us.dropWhile (c < ·) := List.drop_left
  rwa [List.takeWhile_append_dropWhile] at hdrop

theorem levelsAfter_of_closed {k : Nat} (h : levelsClosed us c = k + 1) :
    levelsAfter us c = us.drop (k + 1) := by
  have hhead : ¬ us.headD 0 < c := by
    cases us with
    | nil => exact absurd h (by simp [levelsClosed])
    | cons u us =>
      rw [levelsClosed, List.takeWhile_cons] at h
      split at h
      · next hlt =>
        rw [decide_eq_true_eq] at hlt
        rw [List.headD_cons]
        omega
      · cases h
  rw [levelsAfter, if_neg hhead, ← h, drop_levelsClosed]

/-- A line at the innermost level closes nothing and opens nothing. -/
theorem levelsAfter_of_head (h : us.headD 0 = c) (hne : us ≠ []) :
    levelsClosed us c = 0 ∧ levelsAfter us c = us := by
  cases us with
  | nil => exact absurd rfl hne
  | cons u us =>
    obtain rfl : u = c := h
    simp [levelsClosed, levelsAfter]

theorem levelsClosed_of_lt (h : us.headD 0 < c) : levelsClosed us c = 0 := by
  cases us with
  | nil => rfl
  | cons u us =>
    have hnot : ¬ c < u := Nat.not_lt_of_lt h
    simp [levelsClosed, hnot]

/-! ## What is made of the lines -/

/-- A text behind some spaces. -/
def padded (n : Nat) (text : List Char) : String := String.ofList (List.replicate n ' ' ++ text)

/-- What is made of the lines after one at the levels `us` of a block that is indented by `base`, up
to the end of the block. Each level that ends has a line end to its name, the outermost one too. -/
def output (base : Nat) : List Nat → List (List Char) → List String
  | us, [] => List.replicate us.length "\n"
  | us, l :: ls =>
    if isBlankLine l then "\n" :: output base us ls
    else if column l < base then List.replicate us.length "\n"
    else
      List.replicate (max 1 (levelsClosed us (column l))) "\n" ++
        padded ((levelsAfter us (column l)).headD 0 - base) (unindented l) ::
          output base (levelsAfter us (column l)) ls

/-- What is made of a text and the lines after it, where `k` of the levels `us` end before it. -/
def outputAt (base : Nat) : List Nat → Nat → List Char → List (List Char) → List String
  | [], _, _, _ => []
  | _ :: us, k + 1, text, ls => "\n" :: outputAt base us k text ls
  | u :: us, 0, text, ls =>
    if text.isEmpty then output base (u :: us) ls
    else padded (u - base) text :: output base (u :: us) ls

section

variable {k : Nat} {text l : List Char} {ls : List (List Char)}

theorem outputAt_of_le (h : us.length ≤ k) :
    outputAt base us k text ls = List.replicate us.length "\n" := by
  induction us generalizing k with
  | nil => rfl
  | cons u us ih =>
    obtain ⟨k, rfl⟩ : ∃ j, k = j + 1 := ⟨k - 1, by simp at h; omega⟩
    rw [outputAt, ih (by simpa using h)]
    rfl

theorem outputAt_of_lt (h : k < us.length) (ht : text ≠ []) :
    outputAt base us k text ls = List.replicate k "\n" ++
      padded ((us.drop k).headD 0 - base) text :: output base (us.drop k) ls := by
  induction us generalizing k with
  | nil => cases h
  | cons u us ih =>
    cases k with
    | zero =>
      rw [outputAt, if_neg (by simpa using ht)]
      rfl
    | succ k =>
      rw [outputAt, ih (by simpa using h)]
      rfl

theorem outputAt_nil (h : us ≠ []) : outputAt base us 0 [] ls = output base us ls := by
  cases us with
  | nil => exact absurd rfl h
  | cons u us => rfl

theorem output_blank (h : isBlankLine l = true) :
    output base us (l :: ls) = "\n" :: output base us ls := by
  rw [output, if_pos h]

/-- A line that goes back behind some of the open levels. Those around the block may be among
them. -/
theorem output_back (hus : Levels base us) (hl : isBlankLine l = false)
    (hk : levelsClosed (us ++ outs) (column l) = k + 1) :
    output base us (l :: ls) = outputAt base us (k + 1) (unindented l) ls := by
  have hblank : ¬ isBlankLine l = true := by rw [hl]; simp
  have htext : unindented l ≠ [] := fun h => hblank (unindented_eq_nil_iff.mp h)
  rw [output, if_neg hblank]
  by_cases hc : column l < base
  · -- the whole block ends
    have hall : ∀ u ∈ us, decide (column l < u) = true := fun u hu =>
      decide_eq_true (Nat.lt_of_lt_of_le hc (hus.base_le u hu))
    rw [levelsClosed, List.takeWhile_append_of_pos hall, List.length_append] at hk
    rw [if_pos hc, outputAt_of_le (by omega)]
  · have hsome : ¬ (us.takeWhile (column l < ·)).length = us.length := by
      intro hlen
      have hall := List.takeWhile_eq_self_iff.mp
        ((List.takeWhile_prefix (fun u => decide (column l < u))).eq_of_length hlen)
      exact hc (of_decide_eq_true (hall base hus.base_mem))
    rw [levelsClosed, List.takeWhile_append, if_neg hsome] at hk
    have hlt : k + 1 < us.length := by
      have hle := (List.takeWhile_prefix (fun u => decide (column l < u)) (l := us)).length_le
      omega
    rw [if_neg hc, outputAt_of_lt hlt htext, levelsAfter_of_closed hk, levelsClosed, hk]
    rfl

theorem output_forward (hus : Levels base us) (hl : isBlankLine l = false)
    (hc : us.headD 0 ≤ column l) (hk : levelsClosed us (column l) = 0) :
    output base us (l :: ls) =
      "\n" :: outputAt base (levelsAfter us (column l)) 0 (unindented l) ls := by
  have hblank : ¬ isBlankLine l = true := by rw [hl]; simp
  have htext : unindented l ≠ [] := fun h => hblank (unindented_eq_nil_iff.mp h)
  have hbase := Nat.le_trans (hus.base_le _ hus.head_mem) hc
  rw [output, if_neg hblank, if_neg (Nat.not_lt.mpr hbase), hk,
    outputAt_of_lt (List.length_pos_iff.mpr (hus.after hbase).ne_nil) htext]
  rfl

end

/-! ## The layout of a block -/

/-- The lines of a block that is indented by `base`, of the lines after its first one: those up to a
line with content that is indented less. -/
def blockLines (base : Nat) (ls : List (List Char)) : List (List Char) :=
  ls.takeWhile fun l => isBlankLine l || decide (base ≤ column l)

/-- Whether each line that goes back goes back to an open level, with the levels `us` open before
the lines. -/
def isRegular : List Nat → List (List Char) → Bool
  | _, [] => true
  | us, l :: ls =>
    if isBlankLine l then isRegular us ls
    else decide (column l < us.headD 0 → column l ∈ us) && isRegular (levelsAfter us (column l)) ls

/-- A line of a block without its indentation, but with the spaces by which it is deeper than the
block. -/
def blockLine (base : Nat) (l : List Char) : String := padded (column l - base) (unindented l)

/-- The layout of the lines of a block, with the levels `us` open and `b` blank lines before them:
the lines with content, and before each of them as many line ends as there are blank lines and
levels that it levelsClosed, where a line that closes none has one of its own. -/
def layout (base : Nat) : List Nat → Nat → List (List Char) → List String
  | us, b, [] => List.replicate (b + (us.length - 1)) "\n"
  | us, b, l :: ls =>
    if isBlankLine l then layout base us (b + 1) ls
    else
      List.replicate (b + max 1 (levelsClosed us (column l))) "\n" ++
        blockLine base l :: layout base (levelsAfter us (column l)) 0 ls

/-- A line at an open level, or a deeper one, is at the innermost level. -/
theorem Levels.headD_after (h : Levels base us) (hc : c < us.headD 0 → c ∈ us) :
    (levelsAfter us c).headD 0 = c := by
  rw [levelsAfter]
  split
  · rfl
  · next hdeep =>
    refine (Source.headD_dropWhile_eq_iff h.sorted).mpr (.inr ?_)
    rcases Nat.lt_or_eq_of_le (Nat.le_of_not_lt hdeep) with hlt | heq
    · exact hc hlt
    · exact heq ▸ h.head_mem

theorem replicate_append_newline {n : Nat} (h : us ≠ []) :
    List.replicate (n + (us.length - 1)) "\n" ++ ["\n"] =
      List.replicate n "\n" ++ List.replicate us.length "\n" := by
  have hpos := List.length_pos_iff.mpr h
  rw [← List.replicate_succ', List.replicate_append_replicate]
  congr 1
  omega

/-- **In a regular block**, the layout is what is made of the lines, but for the end of the block
itself. -/
theorem layout_append_newline {ls : List (List Char)} {b : Nat} (hus : Levels base us)
    (hr : isRegular us (blockLines base ls) = true) :
    layout base us b (blockLines base ls) ++ ["\n"] =
      List.replicate b "\n" ++ output base us ls := by
  induction ls generalizing us b with
  | nil => exact replicate_append_newline hus.ne_nil
  | cons l ls ih =>
    by_cases hl : isBlankLine l = true
    · rw [blockLines, List.takeWhile_cons_of_pos (by simp [hl])] at hr ⊢
      rw [isRegular, if_pos hl] at hr
      rw [layout, if_pos hl, output_blank hl]
      have hlines := ih hus hr (b := b + 1)
      rw [blockLines] at hlines
      rw [hlines, List.replicate_succ', List.append_assoc]
      rfl
    · by_cases hc : column l < base
      · -- the block ends before the line
        rw [blockLines, List.takeWhile_cons_of_neg (by simp [hl]; omega), output, if_neg hl,
          if_pos hc]
        exact replicate_append_newline hus.ne_nil
      · have hle := Nat.le_of_not_lt hc
        rw [blockLines, List.takeWhile_cons_of_pos (by simp [hle])] at hr ⊢
        rw [isRegular, if_neg hl, Bool.and_eq_true, decide_eq_true_eq] at hr
        have hlines := ih (hus.after hle) hr.2 (b := 0)
        rw [blockLines, List.replicate_zero, List.nil_append] at hlines
        rw [layout, if_neg hl, output, if_neg hl, if_neg hc, List.append_assoc, List.cons_append,
          hlines, ← List.replicate_append_replicate, List.append_assoc, blockLine,
          hus.headD_after hr.1]

theorem padded_ne_newline {n : Nat} {text : List Char} (h : '\n' ∉ text) :
    padded n text ≠ "\n" := by
  intro heq
  have hmem : '\n' ∈ (padded n text).toList := by rw [heq]; simp
  rw [padded, String.toList_ofList, List.mem_append, List.mem_replicate] at hmem
  rcases hmem with ⟨-, hspace⟩ | hmem
  · cases hspace
  · exact h hmem

/-- The line ends aside, the layout is the lines with content, in order. -/
theorem filter_layout {ls : List (List Char)} {b : Nat} (h : ∀ l ∈ ls, '\n' ∉ l) :
    (layout base us b ls).filter (· ≠ "\n") =
      (ls.filter (!isBlankLine ·)).map (blockLine base) := by
  induction ls generalizing us b with
  | nil => simp [layout]
  | cons l ls ih =>
    have hrest : ∀ us b, (layout base us b ls).filter (· ≠ "\n") =
        (ls.filter (!isBlankLine ·)).map (blockLine base) := fun us b =>
      ih fun l' hl' => h l' (List.mem_cons_of_mem _ hl')
    have hline : blockLine base l ≠ "\n" :=
      padded_ne_newline (newline_not_mem_unindented (h l List.mem_cons_self))
    by_cases hl : isBlankLine l = true
    · rw [layout, if_pos hl, hrest, List.filter_cons_of_neg (by simp [hl])]
    · rw [layout, if_neg hl, List.filter_append, List.filter_cons_of_pos (by simpa using hline),
        hrest, List.filter_cons_of_pos (by simp [hl]), List.map_cons]
      simp

namespace Source

/-! ## One token of a block -/

/-- The source stands before `text` and the lines `ls`, in a block of plain text with the levels
`us` open, where `k` levels end first; the levels `outs` are open around the block. -/
structure AtLines (outs us : List Nat) (k : Nat) (text : List Char) (ls : List (List Char))
    (s : Source) : Prop where
  pipeless : s.pipeless = true
  deferred : s.deferred = []
  stash : ∃ line, s.stash = List.replicate k ⟨.outdent, line⟩
  indents : s.indents = (us ++ outs).drop k
  rest : s.rest = joinLines text ls
  lines : ∀ l ∈ text :: ls, '\n' ∉ l

/-- What a token of a block of plain text means for what is made of the block: `out` is made of the
lines before it is taken, and `s'` is the source after it. -/
inductive Turns (base : Nat) (outs us : List Nat) (out : List String) (s' : Source) :
    Token.Body → Prop
  /-- A text, up to the end of its line. -/
  | text {text : List Char} {ls : List (List Char)} (h : AtLines outs us 0 [] ls s')
    (ho : out = padded (us.headD 0 - base) text :: outputAt base us 0 [] ls) :
    Turns base outs us out s' (.text (String.ofList text))
  /-- A line at the same level, or a blank one. -/
  | newline {text : List Char} {ls : List (List Char)} (h : AtLines outs us 0 text ls s')
    (ho : out = "\n" :: outputAt base us 0 text ls) : Turns base outs us out s' .newline
  /-- The end of a level. -/
  | outdent {k : Nat} {text : List Char} {ls : List (List Char)}
    (h : AtLines outs us.tail k text ls s')
    (ho : out = "\n" :: outputAt base us.tail k text ls) : Turns base outs us out s' .outdent
  /-- A deeper line. -/
  | indent {c : Nat} {text : List Char} {ls : List (List Char)} (hc : us.headD 0 < c)
    (h : AtLines outs (c :: us) 0 text ls s')
    (ho : out = "\n" :: outputAt base (c :: us) 0 text ls) :
    Turns base outs us out s' (.indent c)

variable {s s' : Source} {k : Nat} {text l : List Char} {ls : List (List Char)} {t : Token}

theorem AtLines.stash_eq (h : AtLines outs us 0 text ls s) : s.stash = [] := by
  obtain ⟨line, hstash⟩ := h.stash
  exact hstash

theorem AtLines.indents_eq (h : AtLines outs us 0 text ls s) : s.indents = us ++ outs := h.indents

/-- **Entering a line** of a block of plain text. -/
theorem AtLines.enters (h : AtLines outs us 0 [] (l :: ls) s) (hus : Levels base us)
    (he : s.Enters (joinLines l ls) t s') :
    Turns base outs us (output base us (l :: ls)) s' t.body := by
  have hl : '\n' ∉ l := h.lines l (by simp)
  have hend : endsLine (unindented (joinLines l ls)) = isBlankLine l := by
    rw [unindented_joinLines, endsLine_joinLines ls hl]
  have hrest : unindented (joinLines l ls) = joinLines (unindented l) ls :=
    unindented_joinLines l ls
  have hlines : ∀ l' ∈ unindented l :: ls, '\n' ∉ l' := by
    intro l' hl'
    rcases List.mem_cons.mp hl' with rfl | hl'
    · exact newline_not_mem_unindented hl
    · exact h.lines l' (by simp [hl'])
  have hcolumn := column_joinLines l ls
  have hstash := h.stash_eq
  have hindents := h.indents_eq
  obtain ⟨u, us, rfl⟩ := List.exists_cons_of_ne_nil hus.ne_nil
  cases he with
  | blank hb =>
    rw [hend] at hb
    rw [unindented_eq_nil_iff.mpr hb] at hrest hlines
    refine .newline ⟨h.pipeless, h.deferred, ⟨0, hstash⟩, hindents, hrest, hlines⟩ ?_
    rw [output_blank hb]
    rfl
  | @back _ k hb hk =>
    rw [hend] at hb
    rw [hcolumn, hindents] at hk
    refine .outdent ⟨h.pipeless, h.deferred, ⟨s.line + 1, ?_⟩, ?_, hrest, hlines⟩
      (output_back hus hb hk)
    · rw [hstash, List.nil_append]
    · rw [hcolumn, hindents, ← drop_levelsClosed, levelsClosed, hk]
      rfl
  | deeper hb hk hc hne =>
    rw [hend] at hb
    rw [hcolumn, hindents] at hk hne
    have hlt : u < column l := lt_of_deeper hk hne u rfl
    have hafter : levelsAfter (u :: us) (column l) = column l :: u :: us := if_pos hlt
    rw [hcolumn]
    refine .indent hlt ⟨h.pipeless, h.deferred, ⟨0, hstash⟩, ?_, hrest, hlines⟩
      (hafter ▸ output_forward hus hb (Nat.le_of_lt hlt) (levelsClosed_of_lt hlt))
    rw [hindents]
    rfl
  | same hb hk hc =>
    rw [hend] at hb
    rw [hcolumn, hindents] at hk hc
    have hle : ¬ column l < u := by simpa [List.takeWhile_cons] using hk
    have heq : (u :: us).headD 0 = column l := by
      rw [List.headD_cons]
      rcases hc with hc | hc
      · omega
      · simpa using hc
    obtain ⟨hclosed, hafter⟩ := levelsAfter_of_head heq hus.ne_nil
    refine .newline ⟨h.pipeless, h.deferred, ⟨0, hstash⟩, hindents, hrest, hlines⟩ ?_
    rw [output_forward hus hb (Nat.le_of_eq heq) hclosed, hafter]

theorem AtLines.textLine (h : AtLines outs us 0 text ls s) :
    s.textLine = (s.tok (.text (String.ofList text)), { s with rest := joinLines [] ls }) := by
  have hinside : ∀ c ∈ text, Rules.inLine c = true := by
    intro c hc
    rw [Rules.inLine, bne_iff_ne]
    rintro rfl
    exact h.lines text List.mem_cons_self hc
  have hstop : (joinLines [] ls).takeWhile Rules.inLine = [] ∧
      (joinLines [] ls).dropWhile Rules.inLine = joinLines [] ls := by
    cases ls with
    | nil => exact ⟨rfl, rfl⟩
    | cons l ls => rw [joinLines_nil_cons]; exact ⟨rfl, rfl⟩
  have hsplit : joinLines text ls = text ++ joinLines [] ls := rfl
  rw [Source.textLine, Rules.restOfLine, List.span_eq_takeWhile_dropWhile, h.rest, hsplit,
    List.takeWhile_append_of_pos hinside, List.dropWhile_append_of_pos hinside, hstop.1, hstop.2,
    List.append_nil]

theorem AtLines.atEnd (h : AtLines outs us 0 [] [] s) (hus : Levels base us) :
    Turns base outs us (output base us []) s.atEnd.2 s.atEnd.1.body := by
  have hindents := h.indents_eq
  obtain ⟨u, us, rfl⟩ := List.exists_cons_of_ne_nil hus.ne_nil
  rw [Source.atEnd, hindents]
  have hat : AtLines outs us 0 [] [] { s with indents := us ++ outs } :=
    ⟨h.pipeless, h.deferred, ⟨0, h.stash_eq⟩, rfl, h.rest, h.lines⟩
  exact .outdent hat (by cases us <;> rfl)

/-- **One token** of a block of plain text. -/
theorem AtLines.turns (h : AtLines outs us k text ls s) (hus : Levels base us)
    (ha : s.advance = (.ok t, s')) :
    Turns base outs us (outputAt base us k text ls) s' t.body := by
  obtain ⟨line, hstash⟩ := h.stash
  rw [advance, hstash] at ha
  cases k with
  | succ k =>
    obtain ⟨rfl, rfl⟩ := by
      simpa only [List.replicate_succ, Prod.mk.injEq, Except.ok.injEq] using ha
    have hindents := h.indents
    obtain ⟨u, us, rfl⟩ := List.exists_cons_of_ne_nil hus.ne_nil
    exact .outdent ⟨h.pipeless, h.deferred, ⟨line, rfl⟩, hindents, h.rest, h.lines⟩ rfl
  | zero =>
    have hfresh : s.fresh = (.ok t, s') := by
      rwa [List.replicate_zero, next, h.deferred, skipBlankLines, h.pipeless] at ha
    have hrest := h.rest
    cases text with
    | cons c cs =>
      have hc : c ≠ '\n' := by
        rintro rfl
        exact h.lines _ List.mem_cons_self List.mem_cons_self
      rw [joinLines_cons] at hrest
      rw [fresh_of_inline (by rw [hrest]; simp) (by rw [hrest]; simpa using hc), h.pipeless,
        if_pos rfl, h.textLine] at hfresh
      cases hfresh
      obtain ⟨u, us, rfl⟩ := List.exists_cons_of_ne_nil hus.ne_nil
      exact .text ⟨h.pipeless, h.deferred, ⟨line, hstash⟩, h.indents, rfl, fun l hl => by
        rcases List.mem_cons.mp hl with rfl | hl
        · simp
        · exact h.lines l (List.mem_cons_of_mem _ hl)⟩ rfl
    | nil =>
      rw [outputAt_nil hus.ne_nil]
      cases ls with
      | nil =>
        rw [fresh_of_nil hrest] at hfresh
        cases hfresh
        exact h.atEnd hus
      | cons l ls =>
        rw [joinLines_nil_cons] at hrest
        rw [fresh_of_newline hrest] at hfresh
        exact h.enters hus (enters_of_lineEnd hfresh)

end Source

end Jade

import Jade.Token.AttributeList
import Mathlib.Data.List.Infix

/-!
# Interpolations in attribute values

The value of an attribute may hold interpolations, which are written as sums of quoted texts. The
value is cut at closing braces, and each piece but the last is an interpolation if it holds an
opening mark with something after it. Here this is related to what the text of the value is: there
is an interpolation exactly if somewhere in it an opening mark, one or more other characters and a
closing brace follow each other.

## Main results

* `Jade.AttributeList.interpolate_of_unmarked` : a value without the mark stays as it is
* `Jade.AttributeList.interpolate_snd_iff` : when an interpolation is found
-/

namespace Jade

/-! ## Cutting texts -/

theorem splitCharFrom_ne_nil (sep : Char) (run cs : List Char) : splitCharFrom sep run cs ≠ [] := by
  induction cs generalizing run with
  | nil => simp [splitCharFrom]
  | cons c cs ih =>
    rw [splitCharFrom]
    split
    · simp
    · exact ih _

theorem splitCharFrom_of_not_mem {sep : Char} {cs : List Char} (h : sep ∉ cs) (run : List Char) :
    splitCharFrom sep run cs = [run.reverse ++ cs] := by
  induction cs generalizing run with
  | nil => simp [splitCharFrom]
  | cons c cs ih =>
    obtain ⟨hc, hcs⟩ := List.ne_and_not_mem_of_not_mem_cons h
    rw [splitCharFrom, if_neg (Ne.symm hc), ih hcs]
    simp

theorem splitCharFrom_append {sep : Char} {piece : List Char} (h : sep ∉ piece)
    (run cs : List Char) :
    splitCharFrom sep run (piece ++ sep :: cs) =
      (run.reverse ++ piece) :: splitCharFrom sep [] cs := by
  induction piece generalizing run with
  | nil => simp [splitCharFrom]
  | cons c piece ih =>
    obtain ⟨hc, hpiece⟩ := List.ne_and_not_mem_of_not_mem_cons h
    rw [List.cons_append, splitCharFrom, if_neg (Ne.symm hc), ih hpiece]
    simp

theorem intercalate_cons_of_ne_nil (sep piece : List Char) {pieces : List (List Char)}
    (h : pieces ≠ []) :
    sep.intercalate (piece :: pieces) = piece ++ sep ++ sep.intercalate pieces := by
  obtain ⟨next, pieces, rfl⟩ := List.exists_cons_of_ne_nil h
  exact List.intercalate_cons_cons

/-- The first piece of a text, and the text that the others make up. Either the separator does not
occur, or the text is cut where it occurs first. -/
theorem splitTextFrom_cases {sep : List Char} (hsep : sep ≠ []) {fuel : Nat} (run : List Char)
    {cs : List Char} (hfuel : cs.length < fuel) :
    (¬sep <:+: cs ∧ splitTextFrom sep fuel run cs = [run.reverse ++ cs]) ∨
      ∃ before pieces after, splitTextFrom sep fuel run cs = (run.reverse ++ before) :: pieces ∧
        pieces ≠ [] ∧ sep.intercalate pieces = after ∧ cs = before ++ sep ++ after ∧
        ∀ before' after', cs = before' ++ sep ++ after' → before.length ≤ before'.length := by
  induction fuel generalizing run cs with
  | zero => omega
  | succ fuel ih =>
    cases cs with
    | nil => exact Or.inl ⟨fun h => hsep (List.infix_nil.mp h), by simp [splitTextFrom]⟩
    | cons c cs =>
      rw [splitTextFrom]
      cases hstrip : stripPrefix? sep (c :: cs) with
      | some rest =>
        have hcs : c :: cs = sep ++ rest := eq_append_of_stripPrefix? hstrip
        have hlength : rest.length < fuel := by
          have := congrArg List.length hcs
          have := List.length_pos_iff.mpr hsep
          simp only [List.length_cons, List.length_append] at *
          omega
        refine Or.inr ⟨[], splitTextFrom sep fuel [] rest, rest, by simp, ?_, ?_, hcs, by simp⟩
        · obtain ⟨-, h⟩ | ⟨before, pieces, after, h, -⟩ := ih [] hlength
          · simp [h]
          · simp [h]
        · obtain ⟨-, h⟩ | ⟨before, pieces, after, h, hne, hafter, hrest, -⟩ := ih [] hlength
          · simp [h]
          · rw [h, intercalate_cons_of_ne_nil _ _ hne, hafter, hrest]
            simp
      | none =>
        have hno : ∀ after, c :: cs ≠ sep ++ after := by
          intro after h
          rw [h, stripPrefix?_append] at hstrip
          cases hstrip
        have hlength : cs.length < fuel := by simpa using hfuel
        obtain ⟨hlater, h⟩ | ⟨before, pieces, after, h, hne, hafter, hcs, hfirst⟩ :=
          ih (c :: run) hlength
        · refine Or.inl ⟨fun hin => ?_, by simp [h]⟩
          obtain hpre | hin := List.infix_cons_iff.mp hin
          · obtain ⟨after, hafter⟩ := hpre
            exact hno after hafter.symm
          · exact hlater hin
        · refine Or.inr ⟨c :: before, pieces, after, by simp [h], hne, hafter, by simp [hcs], ?_⟩
          intro before' after' h'
          cases before' with
          | nil => exact absurd h' (hno after')
          | cons d before' =>
            have := hfirst before' after' (List.cons.inj h').2
            simpa using this

namespace AttributeList

/-- The mark that opens an interpolation. -/
def opening : List Char := ['#', '\x7b']

/-- A text with an interpolation: an opening mark, one or more characters and a closing brace. -/
def HasInterpolation (text : List Char) : Prop :=
  ∃ before inner after, text = before ++ opening ++ inner ++ '\x7d' :: after ∧ inner ≠ [] ∧
    '\x7d' ∉ inner

/-- A mark in two texts put together stands in one of them, or across the border. -/
theorem opening_infix_append {a b : List Char} (h : opening <:+: a ++ b) :
    opening <:+: a ∨ opening <:+: b ∨ a.getLast? = some '#' ∧ b.head? = some '\x7b' := by
  induction a with
  | nil => exact Or.inr (Or.inl h)
  | cons c a ih =>
    obtain hpre | hin := List.infix_cons_iff.mp h
    · obtain ⟨hc, hbrace⟩ := List.cons_prefix_cons.mp hpre
      cases a with
      | nil =>
        obtain ⟨t, rfl⟩ := hbrace
        exact Or.inr (Or.inr ⟨by simp [← hc], rfl⟩)
      | cons d a =>
        have hd := (List.cons_prefix_cons.mp hbrace).1
        exact Or.inl ⟨[], a, by simp [opening, ← hc, ← hd]⟩
    · obtain hin | hin | ⟨hlast, hhead⟩ := ih hin
      · exact Or.inl (List.infix_cons hin)
      · exact Or.inr (Or.inl hin)
      · refine Or.inr (Or.inr ⟨?_, hhead⟩)
        rw [List.getLast?_cons, hlast]
        rfl

theorem unmarked_append {a b : List Char} (ha : ¬opening <:+: a) (hb : ¬opening <:+: b)
    (hborder : ¬(a.getLast? = some '#' ∧ b.head? = some '\x7b')) : ¬opening <:+: a ++ b := by
  intro h
  obtain h | h | h := opening_infix_append h
  · exact ha h
  · exact hb h
  · exact hborder h

theorem unmarked_singleton (c : Char) : ¬opening <:+: [c] := by
  intro h
  have hlength := h.length_le
  simp [opening] at hlength

/-! ## Pieces -/

theorem splitAtText_cases (piece : List Char) :
    (¬opening <:+: piece ∧ splitAtText "#\x7b" (String.ofList piece) = [String.ofList piece]) ∨
      ∃ before pieces after,
        splitAtText "#\x7b" (String.ofList piece) = String.ofList before :: pieces ∧
        pieces ≠ [] ∧ joinWith "#\x7b" pieces = String.ofList after ∧
        piece = before ++ opening ++ after ∧
        ∀ before' after', piece = before' ++ opening ++ after' →
          before.length ≤ before'.length := by
  have hsplit : splitAtText "#\x7b" (String.ofList piece) =
      (splitTextFrom opening (piece.length + 1) [] piece).map String.ofList := by
    simp only [splitAtText, String.toList_ofList, String.length_ofList]
    rfl
  rw [hsplit]
  obtain ⟨hno, h⟩ | ⟨before, pieces, after, h, hne, hafter, hpiece, hfirst⟩ :=
    splitTextFrom_cases (show opening ≠ [] by simp [opening]) [] (Nat.lt_succ_self piece.length)
  · exact Or.inl ⟨hno, by simp [h]⟩
  · refine Or.inr ⟨before, pieces.map String.ofList, after, by simp [h], by simpa using hne, ?_,
      hpiece, hfirst⟩
    rw [joinWith, ← String.toList_inj, String.toList_intercalate, List.map_map,
      String.toList_ofList, ← hafter]
    simp [Function.comp_def, opening]

theorem interpolatePiece?_of_unmarked {piece : List Char} (h : ¬opening <:+: piece)
    (quote : String) : interpolatePiece? quote (String.ofList piece) = none := by
  obtain ⟨-, hsplit⟩ | ⟨before, -, after, -, -, -, hpiece, -⟩ := splitAtText_cases piece
  · rw [interpolatePiece?, hsplit]
  · exact absurd ⟨before, after, hpiece.symm⟩ h

/-- A piece with an interpolation, and the sum that is written for it. -/
theorem of_interpolatePiece? {quote sum : String} {piece : List Char}
    (h : interpolatePiece? quote (String.ofList piece) = some sum) :
    ∃ before inner, piece = before ++ opening ++ inner ∧ inner ≠ [] ∧
      sum = String.ofList before ++ quote ++ "+" ++ String.ofList inner ++ "+" ++ quote := by
  obtain ⟨hno, -⟩ | ⟨before, pieces, after, hsplit, hne, hafter, hpiece, -⟩ :=
    splitAtText_cases piece
  · rw [interpolatePiece?_of_unmarked hno] at h
    cases h
  · obtain ⟨next, pieces, rfl⟩ := List.exists_cons_of_ne_nil hne
    rw [interpolatePiece?, hsplit] at h
    simp only [hafter] at h
    split at h
    · cases h
    · next hempty => exact ⟨before, after, hpiece, by simpa using hempty, by simpa using h.symm⟩

/-- The first mark of a piece decides; if anything follows some mark, something follows it. -/
theorem exists_interpolatePiece? {piece before inner : List Char}
    (hpiece : piece = before ++ opening ++ inner) (hinner : inner ≠ []) (quote : String) :
    ∃ sum, interpolatePiece? quote (String.ofList piece) = some sum := by
  obtain ⟨hno, -⟩ | ⟨first, pieces, after, hsplit, hne, hafter, hcut, hfirst⟩ :=
    splitAtText_cases piece
  · exact absurd ⟨before, inner, hpiece.symm⟩ hno
  · have hlength : inner.length ≤ after.length := by
      have hle := hfirst before inner hpiece
      have heq := congrArg List.length (hcut.symm.trans hpiece)
      simp only [List.length_append] at heq
      omega
    have hpos : after ≠ [] := by
      have := List.length_pos_iff.mpr hinner
      exact List.length_pos_iff.mp (by omega)
    obtain ⟨next, pieces, rfl⟩ := List.exists_cons_of_ne_nil hne
    rw [interpolatePiece?, hsplit]
    simp only [hafter]
    exact ⟨_, if_neg (by simpa using hpos)⟩

/-! ## Values -/

theorem interpolate_of_not_mem {val : List Char} (h : '\x7d' ∉ val) (quote : String) :
    interpolate quote (String.ofList val) = (String.ofList val, false) := by
  rw [interpolate, splitAtChar, String.toList_ofList, splitCharFrom_of_not_mem h]
  rfl

theorem interpolate_append {piece : List Char} (hpiece : '\x7d' ∉ piece) (rest : List Char)
    (quote : String) :
    interpolate quote (String.ofList (piece ++ '\x7d' :: rest)) =
      match interpolatePiece? quote (String.ofList piece) with
      | some sum => (sum ++ (interpolate quote (String.ofList rest)).1, true)
      | none => (String.ofList piece ++ "\x7d" ++ (interpolate quote (String.ofList rest)).1,
          (interpolate quote (String.ofList rest)).2) := by
  obtain ⟨next, pieces, hpieces⟩ :=
    List.exists_cons_of_ne_nil (splitCharFrom_ne_nil '\x7d' [] rest)
  cases hsum : interpolatePiece? quote (String.ofList piece) <;>
    simp [interpolate, splitAtChar, splitCharFrom_append hpiece, hpieces, interpolatePieces, hsum]

@[elab_as_elim]
theorem brace_induction {motive : List Char → Prop} (text : List Char)
    (last : ∀ text, '\x7d' ∉ text → motive text)
    (cut : ∀ piece rest, '\x7d' ∉ piece → motive rest → motive (piece ++ '\x7d' :: rest)) :
    motive text := by
  induction hlength : text.length using Nat.strong_induction_on generalizing text with
  | h n ih =>
    by_cases h : '\x7d' ∈ text
    · obtain ⟨piece, rest, rfl, hpiece⟩ := List.eq_append_cons_of_mem h
      refine cut piece rest hpiece (ih rest.length ?_ rest rfl)
      simp only [List.length_append, List.length_cons] at hlength
      omega
    · exact last text h

theorem interpolate_of_unmarked {val : List Char} (h : ¬opening <:+: val) (quote : String) :
    interpolate quote (String.ofList val) = (String.ofList val, false) := by
  induction val using brace_induction with
  | last val hno => exact interpolate_of_not_mem hno quote
  | cut piece rest hpiece ih =>
    have hnone : interpolatePiece? quote (String.ofList piece) = none :=
      interpolatePiece?_of_unmarked (fun hin => h (hin.trans (List.infix_append' [] _ _))) quote
    have hrest : ¬opening <:+: rest := fun hin =>
      h (hin.trans ((List.suffix_cons _ rest).trans (List.suffix_append piece _)).isInfix)
    simp only [interpolate_append hpiece, hnone, ih hrest]
    simp [← String.toList_inj]

theorem interpolate_fst_of_not_found {quote : String} {val : List Char}
    (h : (interpolate quote (String.ofList val)).2 = false) :
    (interpolate quote (String.ofList val)).1 = String.ofList val := by
  induction val using brace_induction with
  | last val hno => rw [interpolate_of_not_mem hno]
  | cut piece rest hpiece ih =>
    cases hsum : interpolatePiece? quote (String.ofList piece) with
    | some sum =>
      simp only [interpolate_append hpiece, hsum] at h
      cases h
    | none =>
      simp only [interpolate_append hpiece, hsum] at h ⊢
      rw [ih h]
      simp [← String.toList_inj]

theorem append_brace_inj {piece piece' rest rest' : List Char} (h : '\x7d' ∉ piece)
    (h' : '\x7d' ∉ piece') (heq : piece ++ '\x7d' :: rest = piece' ++ '\x7d' :: rest') :
    piece = piece' ∧ rest = rest' := by
  have hsplit := congrArg (splitCharFrom '\x7d' []) heq
  rw [splitCharFrom_append h, splitCharFrom_append h'] at hsplit
  have hpiece : piece = piece' := by simpa using (List.cons.inj hsplit).1
  subst hpiece
  exact ⟨rfl, by simpa using heq⟩

/-- After a piece without an interpolation, the interpolations are those of the rest. -/
theorem hasInterpolation_append_iff {piece rest : List Char} {quote : String}
    (hpiece : '\x7d' ∉ piece) (hnone : interpolatePiece? quote (String.ofList piece) = none) :
    HasInterpolation (piece ++ '\x7d' :: rest) ↔ HasInterpolation rest := by
  constructor
  · rintro ⟨before, inner, after, htext, hne, hinner⟩
    by_cases hbefore : '\x7d' ∈ before
    · obtain ⟨first, later, rfl, hfirst⟩ := List.eq_append_cons_of_mem hbefore
      have htext' : piece ++ '\x7d' :: rest =
          first ++ '\x7d' :: (later ++ opening ++ inner ++ '\x7d' :: after) := by simp [htext]
      obtain ⟨-, rfl⟩ := append_brace_inj hpiece hfirst htext'
      exact ⟨later, inner, after, rfl, hne, hinner⟩
    · -- the piece would be all that stands before the brace of the interpolation
      have hwhole : '\x7d' ∉ before ++ opening ++ inner := by simp [hbefore, hinner, opening]
      obtain ⟨rfl, -⟩ := append_brace_inj hpiece hwhole htext
      obtain ⟨sum, hsum⟩ := exists_interpolatePiece? rfl hne quote
      exact nomatch hnone.symm.trans hsum
  · rintro ⟨before, inner, after, rfl, hne, hinner⟩
    exact ⟨piece ++ '\x7d' :: before, inner, after, by simp, hne, hinner⟩

theorem interpolate_snd_iff (quote : String) (val : List Char) :
    (interpolate quote (String.ofList val)).2 = true ↔ HasInterpolation val := by
  induction val using brace_induction with
  | last val hno =>
    rw [interpolate_of_not_mem hno]
    refine iff_of_false (by simp) ?_
    rintro ⟨before, inner, after, rfl, -, -⟩
    exact hno (by simp)
  | cut piece rest hpiece ih =>
    cases hsum : interpolatePiece? quote (String.ofList piece) with
    | some sum =>
      obtain ⟨before, inner, rfl, hne, -⟩ := of_interpolatePiece? hsum
      simp only [interpolate_append hpiece, hsum]
      refine iff_of_true trivial ⟨before, inner, rest, rfl, hne, fun h => hpiece ?_⟩
      exact List.mem_append_right _ h
    | none =>
      simp only [interpolate_append hpiece, hsum, ih, hasInterpolation_append_iff hpiece hsum]

end AttributeList

end Jade

import Jade.Proofs.Source.Upcoming

/-!
# Where tokens stand

`Source.Reads` says what reading a token does to the layout of a source. Here is what it has to do
with the text. What is left after a token is an end of what was left before it. An indentation is
found at the beginning of a line, with nothing but the blanks that it is made of before it. The
tokens keep what their forms promise: a text has no line end in it, and a conditional begins with a
word for conditionals. And a source that ends too early ends with the name of a tag and a colon.

## Main results

* `Jade.Source.next_stands` : every token and every fault stands where it should
-/

namespace Jade

variable {rest : List Char}

/-- Whether a token stands for a line end and the depth of the line after it. -/
def Token.Body.isLine : Token.Body → Bool
  | .newline | .indent _ | .outdent => true
  | _ => false

theorem Token.Body.isLexed_of_isLine {b : Token.Body} (h : b.isLine = true) : b.IsLexed := by
  cases b with
  | newline => trivial
  | indent => trivial
  | outdent => trivial
  | _ => exact absurd h (by simp [isLine])

theorem Token.Body.eq_outdent {b : Token.Body} (h : b.IsLexed) (hk : b.kind = "outdent") :
    b = .outdent := by
  cases b with
  | outdent => rfl
  | custom => exact h.elim
  | _ => exact absurd hk (by simp [kind])

/-- Nothing but an indentation stands between `rest` and the line end before it, in a text that ends
with `rest`. -/
def BeginsLine (text rest : List Char) : Prop :=
  rest <:+ text ∧
    ((text.take (text.length - rest.length)).reverse.dropWhile isIndentation).head? = some '\n'

instance (text rest : List Char) : Decidable (BeginsLine text rest) :=
  inferInstanceAs (Decidable (_ ∧ _))

theorem beginsLine_append {before blanks : List Char} (h : ∀ c ∈ blanks, isIndentation c = true) :
    BeginsLine (before ++ '\n' :: (blanks ++ rest)) rest := by
  have hsplit : before ++ '\n' :: (blanks ++ rest) = (before ++ '\n' :: blanks) ++ rest := by simp
  refine ⟨hsplit ▸ List.suffix_append _ _, ?_⟩
  rw [hsplit, List.length_append, Nat.add_sub_cancel, List.take_left, List.reverse_append,
    List.reverse_cons, List.append_assoc, List.dropWhile_append_of_pos]
  · rfl
  · intro c hc
    exact h c (List.mem_reverse.mp hc)

theorem BeginsLine.of_suffix {text text' : List Char} (h : BeginsLine text rest)
    (ht : text <:+ text') : BeginsLine text' rest := by
  obtain ⟨before, rfl⟩ := ht
  obtain ⟨hsuf, hhead⟩ := h
  refine ⟨hsuf.trans (List.suffix_append _ _), ?_⟩
  obtain ⟨first, rfl⟩ := hsuf
  rw [List.length_append, Nat.add_sub_cancel, List.take_left] at hhead
  rw [← List.append_assoc, List.length_append, Nat.add_sub_cancel, List.take_left,
    List.reverse_append, List.dropWhile_append]
  cases hdrop : first.reverse.dropWhile isIndentation with
  | nil => rw [hdrop] at hhead; cases hhead
  | cons c cs => rw [hdrop] at hhead; exact hhead

/-- The text ends with the name of a tag, a colon and nothing but blanks after it. -/
def EndsInTagColon (text : List Char) : Prop :=
  ∃ before name blanks, text = before ++ (name ++ ':' :: blanks) ∧
    (∃ c cs, name = c :: cs ∧ isWord c = true) ∧
    (∀ c ∈ name, Rules.isNamePart c = true ∨ c = ':') ∧ ∀ c ∈ blanks, c = ' '

theorem EndsInTagColon.of_suffix {text text' : List Char} (h : EndsInTagColon text)
    (ht : text <:+ text') : EndsInTagColon text' := by
  obtain ⟨first, rfl⟩ := ht
  obtain ⟨before, name, blanks, rfl, hname, hparts, hblanks⟩ := h
  exact ⟨first ++ before, name, blanks, (List.append_assoc _ _ _).symm, hname, hparts, hblanks⟩

/-! ## Forms -/

theorem Passes.suffix {p : Char → Prop} {cs : List Char} (h : Passes p cs rest) : rest <:+ cs := by
  obtain ⟨taken, -, rfl⟩ := h
  exact List.suffix_append _ _

theorem Takes.suffix {p : Char → Prop} {cs : List Char} (h : Takes p cs rest) : rest <:+ cs :=
  h.passes.suffix

namespace Source

variable {s : Source} {cs : List Char}

/-! ## One token -/

/-- What reading from the characters has to do with the text: a token takes characters from its
start and is as promised, and an indentation leaves a source at the beginning of a line; a fault is
a mixed indentation, or the source ends with a tag and a colon. -/
def Stands (s : Source) : Except Fault Token × Source → Prop
  | (.ok t, s') => s'.rest <:+ s.rest ∧ t.body.IsLexed ∧
      ∀ w, t.body = .indent w → BeginsLine s.rest s'.rest
  | (.error e, _) => e = .mixedIndentation ∨ e = .endOfSource ∧ EndsInTagColon s.rest

theorem Stands.of_suffix {r : List Char} {out : Except Fault Token × Source}
    (h : Stands { s with rest := r } out) (hr : r <:+ s.rest) : s.Stands out := by
  obtain ⟨result, s'⟩ := out
  cases result with
  | ok t =>
    obtain ⟨hrest, hlexed, hline⟩ := h
    exact ⟨hrest.trans hr, hlexed, fun w hw => (hline w hw).of_suffix hr⟩
  | error e => exact h.imp id fun ⟨he, hends⟩ => ⟨he, hends.of_suffix hr⟩

/-- A line end takes the indentation after it, and nothing else. Its token is one of the layout,
unless tabs and blanks are mixed. -/
theorem lineEnd_cases (s : Source) (cs : List Char) :
    (∃ blanks, cs = blanks ++ (s.lineEnd cs).2.rest ∧ ∀ c ∈ blanks, isIndentation c = true) ∧
      ((s.lineEnd cs).1 = .error .mixedIndentation ∨
        ∃ t, (s.lineEnd cs).1 = .ok t ∧ t.body.isLine = true) := by
  have harrives := s.lineEnd_arrives cs
  generalize s.lineEnd cs = out at harrives
  obtain ⟨e | t, s'⟩ := out
  · obtain ⟨rfl, blanks, rest, style, hcs, hblanks, rfl⟩ := harrives
    exact ⟨⟨blanks, hcs, hblanks⟩, .inl rfl⟩
  · have hrest : s'.rest = unindented cs ∧ t.body.isLine = true := by
      cases harrives <;> exact ⟨rfl, rfl⟩
    refine ⟨⟨cs.takeWhile isIndentation, ?_, fun _ => List.mem_takeWhile_imp⟩,
      .inr ⟨t, rfl, hrest.2⟩⟩
    rw [hrest.1, unindented, List.takeWhile_append_dropWhile]

theorem beginsLine_lineEnd (hr : s.rest = '\n' :: cs) :
    BeginsLine s.rest (s.lineEnd cs).2.rest := by
  obtain ⟨⟨blanks, hcs, hblanks⟩, -⟩ := lineEnd_cases s cs
  generalize (s.lineEnd cs).2.rest = rest at hcs
  rw [hr, hcs]
  show BeginsLine ([] ++ '\n' :: (blanks ++ rest)) rest
  exact beginsLine_append hblanks

theorem lineEnd_stands (hr : s.rest = '\n' :: cs) : s.Stands (s.lineEnd cs) := by
  have hbegins := beginsLine_lineEnd hr
  obtain ⟨-, hout⟩ := lineEnd_cases s cs
  generalize s.lineEnd cs = out at hbegins hout
  obtain ⟨result, s'⟩ := out
  rcases hout with rfl | ⟨t, rfl, hline⟩
  · exact .inl rfl
  · exact ⟨hbegins.1, Token.Body.isLexed_of_isLine hline, fun _ _ => hbegins⟩

/-! ## Tokens of a line -/

theorem inLine_stands (hne : s.rest ≠ []) (hnl : s.rest.head? ≠ some '\n') : s.Stands s.inLine := by
  have hfinds := s.inLine_finds
  generalize s.inLine = out at hfinds
  cases hfinds with
  | @form _ body _ hf h =>
    obtain ⟨htakes, hbody, hmade⟩ := lineForms_makes _ hf h
    refine ⟨htakes.suffix, hmade.isLexed, fun w hw => ?_⟩
    rw [show body = .indent w from hw] at hbody
    exact absurd hbody (by simp [Token.Body.isContent])
  | tag h =>
    exact ⟨(Rules.tag?_takes h).suffix, trivial, fun w hw => absurd hw (by simp [tok])⟩
  | tagColon h =>
    exact ⟨(List.dropWhile_suffix _).trans (Rules.tag?_takes h).suffix, trivial,
      fun w hw => absurd hw (by simp [tok])⟩
  | ends h hc hr =>
    obtain ⟨name, hname, hword, hparts⟩ := Rules.eq_append_of_tag? h hc
    refine .inr ⟨rfl, [], name, _, hname, hword, hparts, fun c hmem => ?_⟩
    exact eq_of_beq (List.dropWhile_eq_nil_iff.mp hr c hmem)
  | nothing h => exact h.elim (absurd · hne) (absurd · hnl)

/-- What the tokens of a line change, also if one is missing: characters are taken, and tokens may
be put off. -/
def GoesOn (s s' : Source) : Prop :=
  ∃ rest deferred, s' = { s with rest, deferred } ∧ rest <:+ s.rest

theorem GoesOn.refl (s : Source) : s.GoesOn s := ⟨s.rest, s.deferred, rfl, List.suffix_refl _⟩

theorem textLine_goesOn (s : Source) : s.GoesOn s.textLine.2 := by
  rw [textLine, Rules.restOfLine, List.span_eq_takeWhile_dropWhile]
  exact ⟨_, s.deferred, rfl, List.dropWhile_suffix _⟩

theorem inLine_goesOn (s : Source) : s.GoesOn s.inLine.2 := by
  have hfinds := s.inLine_finds
  generalize s.inLine = out at hfinds
  cases hfinds with
  | form hf h => exact ⟨_, s.deferred, rfl, (lineForms_makes _ hf h).1.suffix⟩
  | tag h => exact ⟨_, s.deferred, rfl, (Rules.tag?_takes h).suffix⟩
  | tagColon h => exact ⟨_, _, rfl, (List.dropWhile_suffix _).trans (Rules.tag?_takes h).suffix⟩
  | ends => exact ⟨[], _, rfl, List.nil_suffix⟩
  | nothing => exact .refl s

/-! ## Any token -/

theorem atEnd_stands : s.Stands (.ok s.atEnd.1, s.atEnd.2) := by
  rw [atEnd]
  split
  · exact ⟨List.suffix_refl _, trivial, fun w hw => absurd hw (by simp [tok])⟩
  · exact ⟨List.suffix_refl _, trivial, fun w hw => absurd hw (by simp [tok])⟩

theorem textLine_stands : s.Stands (.ok s.textLine.1, s.textLine.2) := by
  rw [textLine, Rules.restOfLine, List.span_eq_takeWhile_dropWhile]
  refine ⟨List.dropWhile_suffix _, ?_, fun w hw => absurd hw (by simp [tok])⟩
  show '\n' ∉ (String.ofList (s.rest.takeWhile Rules.inLine)).toList
  rw [String.toList_ofList]
  exact Rules.newline_not_mem_takeWhile s.rest

theorem fresh_stands (s : Source) : s.Stands s.fresh := by
  rcases s.rest_cases with hr | ⟨cs, hr⟩ | ⟨hne, hnl⟩
  · rw [fresh_of_nil hr]
    exact atEnd_stands
  · rw [fresh_of_newline hr]
    exact lineEnd_stands hr
  · rw [fresh_of_inline hne hnl]
    split
    · exact textLine_stands
    · exact inLine_stands hne hnl

/-- **Every token stands where it should**, unless it was put off before. -/
theorem next_stands (hd : s.deferred = []) : s.Stands s.next := by
  rw [next, hd]
  dsimp only
  rw [skipBlankLines]
  split
  · exact s.fresh_stands
  · exact (fresh_stands { s with rest := Rules.dropBlankLines s.rest }).of_suffix
      (Rules.dropBlankLines_suffix s.rest)

end Source

end Jade

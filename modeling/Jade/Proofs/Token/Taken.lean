import Jade.Token.AttributeList
import Jade.Token.Rules
import Mathlib.Data.List.TakeDrop
import Mathlib.Data.List.TakeWhile

/-!
# What a recogniser takes

A recogniser reads some characters and gives back those after them. So what it gives back is an end
of what it was given, and a proper one: no form is recognised in nothing. This is what makes reading
a template progress.

Most forms stay on their line. The relation below therefore carries the class of the characters that
were read, and a form that may read a line end is stated with the trivial class.

## Main results

* `Jade.Rules.beforeTag_makes`, `afterTag_makes`, `afterAttrs_makes`, `attrs?_makes` : every form
  takes something and makes a token of a line
* `Jade.Rules.firstOf_makes` : so does the first form of a list that fits
-/

namespace Jade

variable {c : Char}

/-- Whether a token stands for a piece of a line, and not for the layout of the source: its lines,
their depth, its end. Nothing in a source makes a token whose kind is given by name. -/
def Token.Body.isContent : Token.Body → Bool
  | .eos | .newline | .indent _ | .outdent | .custom _ _ => false
  | _ => true

/-- What the forms promise about a token: a text stays on its line, a conditional begins with one of
the words for it, and no kind is given by name. -/
def Token.Body.IsLexed : Token.Body → Prop
  | .text s | .string s => '\n' ∉ s.toList
  | .conditional word _ => word ∈ Rules.conditionalWords
  | .custom _ _ => False
  | _ => True

/-- What they promise about a token of some characters: an id or a class begins with its mark. -/
def Token.Body.IsMadeOf (cs : List Char) : Token.Body → Prop
  | .id _ => cs.head? = some '#'
  | .className _ => cs.head? = some '.'
  | b => b.IsLexed

theorem Token.Body.IsMadeOf.isLexed {cs : List Char} {b : Token.Body} (h : b.IsMadeOf cs) :
    b.IsLexed := by
  cases b with
  | id | className => trivial
  | _ => exact h

/-! ## Rests -/

/-- `rest` is what follows some characters of `cs`, all of the class `p`. -/
def Passes (p : Char → Prop) (cs rest : List Char) : Prop :=
  ∃ taken, (∀ c ∈ taken, p c) ∧ cs = taken ++ rest

/-- `rest` is what follows one or more characters of `cs`, all of the class `p`. -/
def Takes (p : Char → Prop) (cs rest : List Char) : Prop :=
  ∃ taken, taken ≠ [] ∧ (∀ c ∈ taken, p c) ∧ cs = taken ++ rest

variable {p q : Char → Prop} {as bs cs rest : List Char}

theorem Passes.refl (cs : List Char) : Passes p cs cs := ⟨[], by simp, rfl⟩

theorem Takes.passes (h : Takes p cs rest) : Passes p cs rest := by
  obtain ⟨taken, -, hp, rfl⟩ := h
  exact ⟨taken, hp, rfl⟩

theorem Passes.trans (h : Passes p as bs) (h' : Passes p bs cs) : Passes p as cs := by
  obtain ⟨taken, hp, rfl⟩ := h
  obtain ⟨taken', hp', rfl⟩ := h'
  exact ⟨taken ++ taken', List.forall_mem_append.mpr ⟨hp, hp'⟩, (List.append_assoc _ _ _).symm⟩

theorem Takes.trans (h : Takes p as bs) (h' : Passes p bs cs) : Takes p as cs := by
  obtain ⟨taken, hne, hp, rfl⟩ := h
  obtain ⟨taken', hp', rfl⟩ := h'
  exact ⟨taken ++ taken', by simp [hne], List.forall_mem_append.mpr ⟨hp, hp'⟩,
    (List.append_assoc _ _ _).symm⟩

theorem Passes.takes (h : Passes p as bs) (h' : Takes p bs cs) : Takes p as cs := by
  obtain ⟨taken, hp, rfl⟩ := h
  obtain ⟨taken', hne, hp', rfl⟩ := h'
  exact ⟨taken ++ taken', by simp [hne], List.forall_mem_append.mpr ⟨hp, hp'⟩,
    (List.append_assoc _ _ _).symm⟩

theorem Takes.mono (h : Takes p cs rest) (hpq : ∀ c, p c → q c) : Takes q cs rest := by
  obtain ⟨taken, hne, hp, rfl⟩ := h
  exact ⟨taken, hne, fun c hc => hpq c (hp c hc), rfl⟩

theorem Passes.cons (hc : p c) (h : Passes p cs rest) : Takes p (c :: cs) rest := by
  obtain ⟨taken, hp, rfl⟩ := h
  exact ⟨c :: taken, by simp, List.forall_mem_cons.mpr ⟨hc, hp⟩, rfl⟩

theorem Takes.length_lt (h : Takes p cs rest) : rest.length < cs.length := by
  obtain ⟨taken, hne, -, rfl⟩ := h
  have hpos : 0 < taken.length := List.length_pos_iff.mpr hne
  rw [List.length_append]
  omega

theorem passes_dropWhile {f : Char → Bool} (hf : ∀ c, f c = true → p c) (cs : List Char) :
    Passes p cs (cs.dropWhile f) :=
  ⟨cs.takeWhile f, fun c hc => hf c (List.mem_takeWhile_imp hc),
    (List.takeWhile_append_dropWhile).symm⟩

theorem passes_of_stripPrefix? {start : List Char} (h : stripPrefix? start cs = some rest)
    (hp : ∀ c ∈ start, p c) : Passes p cs rest :=
  ⟨start, hp, eq_append_of_stripPrefix? h⟩

/-- A character of a line: any but its end. -/
def Inline (c : Char) : Prop := c ≠ '\n'

instance : DecidablePred Inline := fun c => inferInstanceAs (Decidable (c ≠ '\n'))

theorem forall_inline {cs : List Char} (h : '\n' ∉ cs) : ∀ c ∈ cs, Inline c :=
  fun _ hc heq => h (heq ▸ hc)

theorem inline_of_isSpace (h : Rules.isSpace c = true) : Inline c := by
  rintro rfl
  cases h

theorem inline_of_inLine (h : Rules.inLine c = true) : Inline c := by
  rintro rfl
  cases h

theorem inline_of_isWord (h : isWord c = true) : Inline c := by
  rintro rfl
  cases h

theorem inline_of_isNamePart (h : Rules.isNamePart c = true) : Inline c := by
  rintro rfl
  cases h

theorem takes_word {start : List Char} (h : stripPrefix? start cs = some rest)
    (hin : start ≠ [] ∧ '\n' ∉ start) : Takes Inline cs rest :=
  ⟨start, hin.1, forall_inline hin.2, eq_append_of_stripPrefix? h⟩

theorem passes_spaces (cs : List Char) : Passes Inline cs (cs.dropWhile Rules.isSpace) :=
  passes_dropWhile (fun _ => inline_of_isSpace) cs

namespace Rules

variable {s name mode code value : String} {α : Type} {args : Option String}

/-! ## Shared parts -/

theorem passes_restOfLine (cs : List Char) : Passes Inline cs (restOfLine cs).2 := by
  rw [restOfLine, List.span_eq_takeWhile_dropWhile]
  exact passes_dropWhile (fun _ => inline_of_inLine) cs

theorem run?_eq_some_iff {f : Char → Bool} :
    run? f cs = some (s, rest) ↔
      cs.takeWhile f ≠ [] ∧ s = String.ofList (cs.takeWhile f) ∧ rest = cs.dropWhile f := by
  rw [run?, List.span_eq_takeWhile_dropWhile]
  cases htw : cs.takeWhile f with
  | nil => simp
  | cons c run => simp [eq_comm]

theorem run?_takes {f : Char → Bool} (hf : ∀ c, f c = true → p c) (h : run? f cs = some (s, rest)) :
    Takes p cs rest := by
  obtain ⟨hne, -, rfl⟩ := run?_eq_some_iff.mp h
  exact ⟨cs.takeWhile f, hne, fun c hc => hf c (List.mem_takeWhile_imp hc),
    (List.takeWhile_append_dropWhile).symm⟩

theorem text?_takes (h : text? cs = some (s, rest)) : Takes Inline cs rest :=
  run?_takes (fun _ => inline_of_inLine) h

theorem argument?_takes (h : argument? cs = some (s, rest)) : Takes Inline cs rest := by
  cases cs with
  | nil => simp [argument?] at h
  | cons c cs =>
    by_cases hc : c = ' '
    · subst hc
      refine Passes.cons (by decide) ?_
      simp only [argument?] at h
      split at h
      · next found hrun =>
        cases h
        exact (passes_spaces cs).trans (text?_takes hrun).passes
      · split at h
        · cases h
          exact passes_spaces cs
        · cases h
    · simp [argument?, hc] at h

theorem keyword?_takes {word : String} (hw : '\n' ∉ word.toList)
    (h : keyword? word cs = some (s, rest)) : Takes Inline cs rest := by
  obtain ⟨after, hstrip, harg⟩ := Option.bind_eq_some_iff.mp h
  exact (passes_of_stripPrefix? hstrip (forall_inline hw)).takes (argument?_takes harg)

theorem arguments?_passes (h : arguments? cs = some (s, rest)) : Passes Inline cs rest := by
  rw [arguments?] at h
  split at h
  · next r hr =>
    have hspaces : Passes Inline cs ('(' :: r) := hr ▸ passes_spaces cs
    simp only [restOfLine, List.span_eq_takeWhile_dropWhile] at h
    split at h
    · cases h
      refine hspaces.trans (Passes.cons (by decide) ?_).passes
      -- what stands after the last parenthesis is an end of the line
      have hsuf : ((r.takeWhile inLine).reverse.takeWhile (· ≠ ')')).reverse
          <:+ r.takeWhile inLine := by
        rw [← List.reverse_prefix, List.reverse_reverse]
        exact List.takeWhile_prefix _
      obtain ⟨before, hbefore⟩ := hsuf
      refine ⟨before, fun c hc => inline_of_inLine ?_, ?_⟩
      · exact List.mem_takeWhile_imp (hbefore ▸ List.mem_append_left _ hc)
      · rw [← List.append_assoc, hbefore, List.takeWhile_append_dropWhile]
    · cases h
  · cases h

/-- What `findSplit` accepts is what its argument accepts for some way to cut the characters. -/
theorem exists_of_findSplit {f : List Char → List Char → Option α} {a : α} {run : List Char}
    (h : findSplit f run rest = some a) :
    ∃ run' rest', run' ≠ [] ∧ f run' rest' = some a ∧
      ∃ moved, run = moved ++ run' ∧ rest' = moved.reverse ++ rest := by
  induction run generalizing rest with
  | nil => exact absurd h (by simp [findSplit])
  | cons c run ih =>
    rw [findSplit] at h
    split at h
    · next b hb =>
      cases h
      exact ⟨c :: run, rest, by simp, hb, [], by simp, by simp⟩
    · obtain ⟨run', rest', hne, hf, moved, rfl, rfl⟩ := ih h
      exact ⟨run', _, hne, hf, c :: moved, by simp, by simp⟩

/-- A cut found by `findSplit` in a run of a class takes characters of that class, and then what
its argument takes. -/
theorem findSplit_takes {f : List Char → List Char → Option α} {a : α} {run : List Char}
    (hrun : ∀ c ∈ run, p c) (h : findSplit f run.reverse rest = some a)
    (hf : ∀ run' rest', f run' rest' = some a → Passes p rest' bs) : Takes p (run ++ rest) bs := by
  obtain ⟨run', rest', hne, ha, moved, hmoved, rfl⟩ := exists_of_findSplit h
  have hcut : run = run'.reverse ++ moved.reverse := by
    rw [← List.reverse_append, ← hmoved, List.reverse_reverse]
  have htaken : Takes p (run ++ rest) (moved.reverse ++ rest) := by
    refine ⟨run'.reverse, by simpa using hne, fun c hc => hrun c ?_, by rw [hcut]; simp⟩
    rw [hcut]
    exact List.mem_append_left _ hc
  exact htaken.trans (hf _ _ ha)

theorem passes_afterDash (cs : List Char) : Passes Inline cs (afterDash cs) := by
  rw [afterDash.eq_def]
  split
  · exact (Passes.cons (by decide) (passes_spaces _)).passes
  · exact Passes.refl _

/-! ## Parts of a tag -/

theorem tag?_takes (h : tag? cs = some (name, rest)) : Takes Inline cs rest := by
  rw [tag?.eq_def] at h
  split at h
  · split at h
    · refine run?_takes (fun c hc => ?_) h
      rcases Bool.or_eq_true_iff.mp hc with hc | hc
      · exact inline_of_isNamePart hc
      · rintro rfl
        cases hc
    · cases h
  · cases h

/-- A name with a colon at its end: what is before the colon is the name of a tag. -/
theorem eq_append_of_tag? (h : tag? cs = some (name, rest)) (hc : name.endsWith ":" = true) :
    ∃ before, cs = before ++ ':' :: rest ∧ (∃ c ds, before = c :: ds ∧ isWord c = true) ∧
      ∀ c ∈ before, isNamePart c = true ∨ c = ':' := by
  rw [tag?.eq_def] at h
  split at h
  · next c cs =>
    split at h
    · next hword =>
      obtain ⟨-, rfl, rfl⟩ := run?_eq_some_iff.mp h
      rw [String.endsWith_eq_endsWith_toSlice, String.Slice.endsWith_string_iff] at hc
      obtain ⟨before, hname⟩ : [':'] <:+ (c :: cs).takeWhile fun d => isNamePart d || d == ':' := by
        simpa using hc
      refine ⟨before, ?_, ?_, fun d hd => ?_⟩
      · rw [List.append_cons, hname, List.takeWhile_append_dropWhile]
      · rw [List.takeWhile_cons_of_pos (by rw [isNamePart, hword]; rfl)] at hname
        -- the name is not empty, since its first character is no colon
        cases before with
        | nil =>
          obtain rfl := (List.cons.inj hname).1
          cases hword
        | cons d ds => exact ⟨d, ds, rfl, (List.cons.inj hname).1 ▸ hword⟩
      · have hmem := List.mem_takeWhile_imp (hname ▸ List.mem_append_left _ hd)
        simpa using hmem
    · cases h
  · cases h

theorem id?_takes (h : id? cs = some (name, rest)) : Takes Inline cs rest := by
  rw [id?.eq_def] at h
  split at h
  · exact Passes.cons (by decide) (run?_takes (fun _ => inline_of_isNamePart) h).passes
  · cases h

theorem className?_takes (h : className? cs = some (name, rest)) : Takes Inline cs rest := by
  rw [className?.eq_def] at h
  split at h
  · exact Passes.cons (by decide) (run?_takes (fun _ => inline_of_isNamePart) h).passes
  · cases h

theorem colon?_takes (h : colon? cs = some rest) : Takes Inline cs rest := by
  rw [colon?.eq_def] at h
  split at h
  · cases h
    exact Passes.cons (by decide) (passes_spaces _)
  · cases h

theorem string?_takes (h : string? cs = some (s, rest)) : Takes Inline cs rest := by
  rw [string?.eq_def] at h
  split at h
  · next cs =>
    refine Passes.cons (by decide) (Passes.cons (by decide) ?_).passes
    split at h
    · next found hrun =>
      cases h
      exact (text?_takes hrun).passes
    · cases h
      exact Passes.refl _
  · exact Passes.cons (by decide) (text?_takes h).passes
  · cases h

/-! ## Control lines -/

theorem yield?_takes (h : yield? cs = some rest) : Takes Inline cs rest := by
  obtain ⟨after, hstrip, rfl⟩ := Option.map_eq_some_iff.mp h
  exact (takes_word hstrip (by decide)).trans (passes_spaces after)

theorem doctype?_takes {name : Option String} (h : doctype? cs = some (name, rest)) :
    Takes Inline cs rest := by
  rw [doctype?] at h
  split at h
  · cases h
  · next after hstrip =>
    have hword : Takes Inline cs after := by
      rcases Option.or_eq_some_iff.mp hstrip with hstrip | ⟨-, hstrip⟩
      · exact takes_word hstrip (by decide)
      · exact takes_word hstrip (by decide)
    refine hword.trans ((passes_spaces after).trans ?_)
    dsimp only at h
    split at h
    · next found hrun =>
      cases h
      exact (text?_takes hrun).passes
    · cases h
      exact Passes.refl _

theorem parent?_takes {path : String} (h : parent? cs = some (path, rest)) :
    Takes Inline cs rest := by
  rcases Option.or_eq_some_iff.mp h with h | ⟨-, h⟩
  · exact keyword?_takes (by decide) h
  · exact keyword?_takes (by decide) h

theorem blockMode?_passes (h : blockMode? cs = some (mode, rest)) : Passes Inline cs rest := by
  obtain ⟨word, hword, h⟩ := List.exists_of_findSome?_eq_some h
  split at h
  · next after hstrip =>
    obtain ⟨-, rfl⟩ := Prod.mk.inj (Option.some.inj h)
    have hin : ∀ w ∈ ["prepend", "append"], '\n' ∉ w.toList := by decide
    exact (passes_of_stripPrefix? hstrip (forall_inline (hin word hword))).trans
      (Passes.cons (by decide) (passes_spaces after)).passes
  · cases h

/-- A named block keeps to its line, unless it has no name and takes the line end with it. -/
theorem block?_cases (h : block? cs = some (mode, name, rest)) :
    Takes Inline cs rest ∨ mode = "replace" ∧ name = "" ∧ cs = "block\n".toList ++ rest := by
  rw [block?] at h
  split at h
  · next after hstrip =>
    have hword : Takes Inline cs (' ' :: after) :=
      takes_word hstrip (by decide)
    have hbody : Passes Inline (after.dropWhile isSpace)
        ((blockMode? (after.dropWhile isSpace)).getD ("replace", after.dropWhile isSpace)).2 := by
      cases hmode : blockMode? (after.dropWhile isSpace) with
      | none => exact Passes.refl _
      | some found => exact blockMode?_passes hmode
    cases h
    refine .inl (hword.trans ?_)
    exact ((Passes.cons (by decide) (passes_spaces after)).passes.trans hbody).trans
      (passes_restOfLine _)
  · next after hstrip =>
    obtain ⟨rfl, rfl, rfl⟩ := by simpa only [Option.some.injEq, Prod.mk.injEq] using h
    have hcs : cs = "block".toList ++ '\n' :: after := eq_append_of_stripPrefix? hstrip
    exact .inr ⟨rfl, rfl, hcs⟩
  · cases h

theorem block?_takes (h : block? cs = some (mode, name, rest)) : Takes (fun _ => True) cs rest := by
  rcases block?_cases h with htakes | ⟨-, -, rfl⟩
  · exact htakes.mono fun _ _ => trivial
  · exact ⟨"block\n".toList, by decide, fun _ _ => trivial, rfl⟩

theorem nameArguments?_takes (h : nameArguments? cs = some (name, args, rest)) :
    Takes Inline cs rest := by
  rw [nameArguments?] at h
  split at h
  · cases h
  · next after hrun =>
    refine (run?_takes (fun _ => inline_of_isNamePart) hrun).trans ?_
    split at h
    · next hargs =>
      cases h
      exact arguments?_passes hargs
    · cases h
      exact Passes.refl _

theorem mixin?_takes (h : mixin? cs = some (name, args, rest)) : Takes Inline cs rest := by
  rw [mixin?] at h
  split at h
  · next after hstrip =>
    exact (takes_word hstrip (by decide)).trans
      ((Passes.cons (by decide) (passes_spaces after)).passes.trans
        (nameArguments?_takes h).passes)
  · cases h

theorem call?_takes (h : call? cs = some (name, args, rest)) : Takes Inline cs rest := by
  rw [call?.eq_def] at h
  split at h
  · exact Passes.cons (by decide) (nameArguments?_takes h).passes
  · cases h

theorem conditional?_takes {word sentence : String}
    (h : conditional? cs = some (word, sentence, rest)) : Takes Inline cs rest := by
  obtain ⟨word', hword, h⟩ := List.exists_of_findSome?_eq_some h
  split at h
  · cases h
  · next after hstrip =>
    split at h
    · cases h
    · obtain ⟨-, -, rfl⟩ := by simpa only [Option.some.injEq, Prod.mk.injEq] using h
      have hin : ∀ w ∈ conditionalWords, w.toList ≠ [] ∧ '\n' ∉ w.toList := by decide
      exact (passes_afterDash cs).takes
        ((takes_word hstrip (hin word' hword)).trans (passes_restOfLine after))

theorem inClause?_passes (h : inClause? cs = some (code, rest)) : Passes Inline cs rest := by
  rw [inClause?.eq_def] at h
  split at h
  · exact (Passes.cons (by decide)
      ((passes_spaces _).trans (keyword?_takes (by decide) h).passes)).passes
  · cases h

theorem loop?_takes {keys : String} (h : loop? cs = some (keys, code, rest)) :
    Takes Inline cs rest := by
  simp only [loop?, List.span_eq_takeWhile_dropWhile] at h
  rw [← List.takeWhile_append_dropWhile (p := isLoopPart) (l := cs)]
  refine findSplit_takes (fun c hc => ?_) h fun run' rest' hin => ?_
  · have hc : isLoopPart c = true := List.mem_takeWhile_imp hc
    rintro rfl
    cases hc
  · obtain ⟨⟨code', after⟩, hclause, heq⟩ := Option.map_eq_some_iff.mp hin
    cases heq
    exact inClause?_passes hclause

theorem reverse_takeWhile_isSpace (cs : List Char) :
    (cs.takeWhile isSpace).reverse = cs.takeWhile isSpace := by
  have hall : ∀ c ∈ cs.takeWhile isSpace, c = ' ' := by
    intro c hc
    have hspace : isSpace c = true := List.mem_takeWhile_imp hc
    exact eq_of_beq hspace
  rw [List.eq_replicate_of_mem hall, List.reverse_replicate]

theorem each?_takes {keys : String} (h : each? cs = some (keys, code, rest)) :
    Takes Inline cs rest := by
  simp only [each?, List.span_eq_takeWhile_dropWhile] at h
  split at h
  · cases h
  · next after hstrip =>
    have hword : Takes Inline (afterDash cs) after := by
      rcases Option.or_eq_some_iff.mp hstrip with hstrip | ⟨-, hstrip⟩
      · exact takes_word hstrip (by decide)
      · exact takes_word hstrip (by decide)
    refine (passes_afterDash cs).takes (hword.trans ?_)
    rw [← List.takeWhile_append_dropWhile (p := isSpace) (l := after)]
    rw [← reverse_takeWhile_isSpace] at h
    exact (findSplit_takes (fun c hc => inline_of_isSpace (List.mem_takeWhile_imp hc)) h
      fun _ _ hloop => (loop?_takes hloop).passes).passes

/-- The words that open an assignment, with blanks of any kind between them: they may stand on
several lines. -/
def IsVarMark (mark : List Char) : Prop :=
  ∃ before after, (∀ c ∈ before, isBlank c = true) ∧ (∀ c ∈ after, isBlank c = true) ∧
    mark = '-' :: (before ++ ("var".toList ++ after))

theorem varMark?_cases {mark : String} (h : varMark? cs = some (mark, rest)) :
    ∃ words, IsVarMark words ∧ cs = words ++ rest := by
  rw [varMark?.eq_def] at h
  split at h
  · split at h
    · cases h
    · next before after hbefore =>
      split at h
      · cases h
      · next hvar =>
        cases h
        obtain ⟨tail, hstrip, hafter⟩ := Option.bind_eq_some_iff.mp hvar
        obtain ⟨first, -, hfirst, rfl⟩ := run?_takes (fun _ => id) hbefore
        obtain rfl := eq_append_of_stripPrefix? hstrip
        obtain ⟨second, -, hsecond, rfl⟩ := run?_takes (fun _ => id) hafter
        exact ⟨_, ⟨first, second, hfirst, hsecond, rfl⟩, by simp⟩
  · cases h

theorem assigned?_passes (h : assigned? cs = some (value, rest)) : Passes Inline cs rest := by
  simp only [assigned?] at h
  refine (passes_spaces cs).trans ?_
  split at h
  · next found hrun =>
    cases h
    refine (run?_takes (fun c hc => ?_) hrun).passes
    rintro rfl
    cases hc
  · split at h
    · cases h
      exact Passes.refl _
    · cases h

theorem passes_afterSemicolon (cs : List Char) : Passes Inline cs (afterSemicolon cs) := by
  rw [afterSemicolon.eq_def]
  split
  · exact (Passes.cons (by decide) (passes_spaces _)).passes
  · exact Passes.refl _

/-- An assignment keeps to its line but for the words that open it. -/
theorem assignment?_cases {mark : Option String}
    (h : assignment? cs = some (mark, name, value, rest)) :
    ∃ words after, (words = [] ∨ IsVarMark words) ∧ cs = words ++ after ∧
      Takes Inline after rest := by
  simp only [assignment?] at h
  split at h
  · cases h
  · next mark' after hstart =>
    have hwords : ∃ words, (words = [] ∨ IsVarMark words) ∧ cs = words ++ after := by
      split at hstart
      · obtain ⟨⟨mark'', after'⟩, hvar, heq⟩ := Option.map_eq_some_iff.mp hstart
        cases heq
        obtain ⟨words, hwords, hcs⟩ := varMark?_cases hvar
        exact ⟨words, .inr hwords, hcs⟩
      · cases hstart
        exact ⟨[], .inl rfl, rfl⟩
    obtain ⟨words, hwords, hcs⟩ := hwords
    refine ⟨words, after, hwords, hcs, ?_⟩
    split at h
    · next name' afterName hname =>
      refine (run?_takes (fun _ => inline_of_isWord) hname).trans
        (Passes.cons (by decide) ?_).passes
      split at h
      · next afterMark hspaces =>
        obtain ⟨⟨value', afterValue⟩, hvalue, heq⟩ := Option.map_eq_some_iff.mp h
        cases heq
        have hsep : Passes Inline afterName ('=' :: afterMark) := hspaces ▸ passes_spaces afterName
        refine hsep.trans (Passes.cons (by decide) ?_).passes
        exact (assigned?_passes hvalue).trans (passes_afterSemicolon afterValue)
      · cases h
    · cases h

theorem assignment?_takes {mark : Option String}
    (h : assignment? cs = some (mark, name, value, rest)) : Takes (fun _ => True) cs rest := by
  obtain ⟨words, after, -, rfl, htakes⟩ := assignment?_cases h
  have hwords : Passes (fun _ => True) (words ++ after) after := ⟨words, fun _ _ => trivial, rfl⟩
  exact hwords.takes (htakes.mono fun _ _ => trivial)

theorem filter?_takes (h : filter? cs = some (name, rest)) : Takes Inline cs rest := by
  rw [filter?.eq_def] at h
  split at h
  · exact Passes.cons (by decide) (run?_takes (fun _ => inline_of_isWord) h).passes
  · cases h

theorem code?_takes {marks source : String} (h : code? cs = some (marks, source, rest)) :
    Takes Inline cs rest := by
  have hline : ∀ {cs : List Char} {m : String},
      (run? inLine cs).map (fun p => (m, p.1, p.2)) = some (marks, source, rest) →
        Passes Inline cs rest := by
    intro cs m hmap
    obtain ⟨⟨s, r⟩, hrun, heq⟩ := Option.map_eq_some_iff.mp hmap
    cases heq
    exact (text?_takes hrun).passes
  rw [code?.eq_def] at h
  split at h
  · exact Passes.cons (by decide) (Passes.cons (by decide) (hline h)).passes
  · exact Passes.cons (by decide) (hline h)
  · exact Passes.cons (by decide) (hline h)
  · cases h

theorem comment?_takes {hidden : Bool} {content : String}
    (h : comment? cs = some (hidden, content, rest)) : Takes Inline cs rest := by
  rw [comment?] at h
  split at h
  · next after hspaces =>
    cases h
    have hstart : Passes Inline cs ('/' :: '/' :: '-' :: after) := hspaces ▸ passes_spaces cs
    exact hstart.takes (Passes.cons (by decide) (Passes.cons (by decide)
      (Passes.cons (by decide) (passes_restOfLine after)).passes).passes)
  · next after _ hspaces =>
    cases h
    have hstart : Passes Inline cs ('/' :: '/' :: after) := hspaces ▸ passes_spaces cs
    exact hstart.takes (Passes.cons (by decide)
      (Passes.cons (by decide) (passes_restOfLine after)).passes)
  · cases h

/-! ## Forms

A form is a recogniser together with the token that it makes, a token of a line. -/

/-- `f` takes characters of the class `p`, one or more, and makes a token of a line as promised. -/
def Makes (p : Char → Prop) (f : Form) : Prop :=
  ∀ ⦃cs body rest⦄, f cs = some (body, rest) →
    Takes p cs rest ∧ body.isContent = true ∧ body.IsMadeOf cs

theorem Makes.any {f : Form} (h : Makes p f) : Makes (fun _ => True) f :=
  fun _ _ _ hf => ⟨(h hf).1.mono fun _ _ => trivial, (h hf).2⟩

/-- A form whose recogniser `f` gives the rest as `rest`, and whose token is `body`. -/
theorem makes_map {f : List Char → Option α} {body : α → Token.Body} {rest : α → List Char}
    (hbody : ∀ a, (body a).isContent = true)
    (hf : ∀ ⦃cs a⦄, f cs = some a → Takes p cs (rest a) ∧ (body a).IsMadeOf cs) :
    Makes p fun cs => (f cs).map fun a => (body a, rest a) := by
  intro cs b r h
  obtain ⟨a, ha, heq⟩ := Option.map_eq_some_iff.mp h
  cases heq
  exact ⟨(hf ha).1, hbody a, (hf ha).2⟩

theorem makes_form {f : List Char → Option (String × List Char)} {body : String → Token.Body}
    (hbody : ∀ s, (body s).isContent = true)
    (hf : ∀ ⦃cs s rest⦄, f cs = some (s, rest) → Takes p cs rest ∧ (body s).IsMadeOf cs) :
    Makes p (form f body) :=
  makes_map (fun a => hbody a.1) fun _ _ h => hf h

theorem head?_of_id? (h : id? cs = some (name, rest)) : cs.head? = some '#' := by
  rw [id?.eq_def] at h
  split at h
  · rfl
  · cases h

theorem head?_of_className? (h : className? cs = some (name, rest)) : cs.head? = some '.' := by
  rw [className?.eq_def] at h
  split at h
  · rfl
  · cases h

theorem word_mem_of_conditional? {word sentence : String}
    (h : conditional? cs = some (word, sentence, rest)) : word ∈ conditionalWords := by
  obtain ⟨word', hword, h⟩ := List.exists_of_findSome?_eq_some h
  split at h
  · cases h
  · split at h
    · cases h
    · cases h
      exact hword

theorem newline_not_mem_takeWhile (cs : List Char) : '\n' ∉ cs.takeWhile inLine := by
  intro hmem
  exact inline_of_inLine (List.mem_takeWhile_imp hmem) rfl

theorem newline_not_mem_of_run? (h : run? inLine cs = some (s, rest)) : '\n' ∉ s.toList := by
  obtain ⟨-, rfl, -⟩ := run?_eq_some_iff.mp h
  rw [String.toList_ofList]
  exact newline_not_mem_takeWhile cs

theorem newline_not_mem_of_string? (h : string? cs = some (s, rest)) : '\n' ∉ s.toList := by
  rw [string?.eq_def] at h
  split at h
  · split at h
    · next hrun =>
      cases h
      exact newline_not_mem_of_run? hrun
    · cases h
      decide
  · exact newline_not_mem_of_run? h
  · cases h

/-- Every control line takes something, and all but named blocks and assignments keep to their
line. -/
theorem beforeTag_cases :
    ∀ f ∈ beforeTag, Makes Inline f ∨ f = blockForm ∨ f = assignmentForm := by
  simp only [beforeTag, List.forall_mem_cons, List.not_mem_nil, false_imp_iff, implies_true,
    and_true]
  refine ⟨.inl ?_, .inl ?_, .inl ?_, .inl ?_, .inl ?_, .inr (.inl trivial), .inl ?_, .inl ?_,
    .inl ?_, .inl ?_, .inl ?_, .inr (.inr trivial)⟩
  · exact makes_map (fun _ => rfl) fun _ _ h => ⟨yield?_takes h, trivial⟩
  · exact makes_map (fun _ => rfl) fun _ _ h => ⟨doctype?_takes h, trivial⟩
  · exact makes_form (fun _ => rfl) fun _ _ _ h => ⟨parent?_takes h, trivial⟩
  · exact makes_form (fun _ => rfl) fun _ _ _ h => ⟨keyword?_takes (by decide) h, trivial⟩
  · exact makes_form (fun _ => rfl) fun _ _ _ h => ⟨keyword?_takes (by decide) h, trivial⟩
  · exact makes_form (fun _ => rfl) fun _ _ _ h => ⟨keyword?_takes (by decide) h, trivial⟩
  · exact makes_map (fun _ => rfl) fun _ _ h => ⟨mixin?_takes h, trivial⟩
  · exact makes_map (fun _ => rfl) fun _ _ h => ⟨call?_takes h, trivial⟩
  · exact makes_map (fun _ => rfl) fun _ _ h => ⟨conditional?_takes h, word_mem_of_conditional? h⟩
  · exact makes_map (fun _ => rfl) fun _ _ h => ⟨each?_takes h, trivial⟩

theorem beforeTag_makes : ∀ f ∈ beforeTag, Makes (fun _ => True) f := by
  intro f hf
  rcases beforeTag_cases f hf with h | rfl | rfl
  · exact h.any
  · exact makes_map (fun _ => rfl) fun _ _ h => ⟨block?_takes h, trivial⟩
  · exact makes_map (fun _ => rfl) fun _ _ h => ⟨assignment?_takes h, trivial⟩

theorem afterTag_makes : ∀ f ∈ afterTag, Makes Inline f := by
  simp only [afterTag, List.forall_mem_cons, List.not_mem_nil, false_imp_iff, implies_true,
    and_true]
  refine ⟨?_, ?_, ?_, ?_⟩
  · exact makes_form (fun _ => rfl) fun _ _ _ h => ⟨filter?_takes h, trivial⟩
  · exact makes_map (fun _ => rfl) fun _ _ h => ⟨code?_takes h, trivial⟩
  · exact makes_form (fun _ => rfl) fun _ _ _ h => ⟨id?_takes h, head?_of_id? h⟩
  · exact makes_form (fun _ => rfl) fun _ _ _ h => ⟨className?_takes h, head?_of_className? h⟩

theorem afterAttrs_makes : ∀ f ∈ afterAttrs, Makes Inline f := by
  simp only [afterAttrs, List.forall_mem_cons, List.not_mem_nil, false_imp_iff, implies_true,
    and_true]
  refine ⟨?_, ?_, ?_, ?_⟩
  · exact makes_map (fun _ => rfl) fun _ _ h => ⟨comment?_takes h, trivial⟩
  · exact makes_map (fun _ => rfl) fun _ _ h => ⟨colon?_takes h, trivial⟩
  · exact makes_form (fun _ => rfl) fun _ _ _ h => ⟨string?_takes h, newline_not_mem_of_string? h⟩
  · exact makes_form (fun _ => rfl) fun _ _ _ h => ⟨text?_takes h, newline_not_mem_of_run? h⟩

theorem attrs?_makes (colons : Bool) : Makes (fun _ => True) (attrs? colons) := by
  intro cs body rest h
  rw [attrs?.eq_def] at h
  split at h
  · next after =>
    cases h
    refine ⟨⟨('(' :: after).take (closingIndex "(" ")" ('(' :: after) + 1), by simp,
      fun _ _ => trivial, ?_⟩, rfl, trivial⟩
    exact (List.take_append_drop _ _).symm
  · cases h

end Rules

end Jade

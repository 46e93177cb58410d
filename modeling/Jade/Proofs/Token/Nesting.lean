import Jade.Proofs.Token.Listed

/-!
# What is open within a value

Reading a value keeps brackets and quotes on a stack of levels. The rules are few and are said here
by themselves, for a text and without a state: a quote opens a quoted text that ends at the next
quote of its kind, a backslash means nothing, and which brackets open and close a level depends on
the innermost one. A value that leads back to its own level is *opaque*: it is read as one value.

Opaqueness is not only enough for that but also needed, as long as the text ends in a quote. Once a
value was left, by a closing parenthesis at its own level, its characters go to a name, but for
brackets, and the last quote is lost.

## Main results

* `Jade.AttributeList.Nested.reads` : the levels are those of the reader
* `Jade.AttributeList.Nested.levels_of_val` : a text that is all in the value left no level of it
-/

namespace Jade.AttributeList

/-! ## Levels -/

/-- Something open within a value. -/
inductive Level where
  | expr
  | array
  | object
  | string (quote : Quote)
  deriving DecidableEq, Repr

/-- What is read at a level. -/
def Level.mode : Level → Mode
  | expr => .expr
  | array => .array
  | object => .object
  | string _ => .string

/-- What is open after a character, innermost first; nothing if the character ends the value or
leaves it. A blank ends a value that is the first of a list. -/
def nest (leading : Bool) : List Level → Char → Option (List Level)
  | .string q :: outer, c => some (if c = q.char then outer else .string q :: outer)
  | levels, '"' => some (.string .double :: levels)
  | levels, '\'' => some (.string .single :: levels)
  | .expr :: outer, '(' => some (.expr :: .expr :: outer)
  | .expr :: outer, ')' => some outer
  | .array :: outer, ']' => some outer
  | .object :: outer, '\x7d' => some outer
  | [], '(' => some [.expr]
  | [], '[' => some [.array]
  | [], '\x7b' => some [.object]
  | [], ')' | [], ',' | [], '\n' => none
  | [], ' ' => if leading then none else some []
  | levels, _ => some levels

/-- Whether a text leads back to the level at which it starts. -/
def isOpaque (leading : Bool) (text : List Char) : Bool := text.foldlM (nest leading) [] == some []

variable {colons : Bool} {s s' : State} {c : Char} {cs : List Char} {levels levels' : List Level}
  {w : List Mode}

/-- The state has these levels open within a value, which has `w` around it. Only the innermost
level can be a quoted text. -/
structure Nested (levels : List Level) (w : List Mode) (s : State) : Prop where
  within : s.within = levels.map Level.mode ++ .value :: w
  quote : ∀ q outer, levels = .string q :: outer → s.quote = String.singleton q.char
  outer : ∀ l ∈ levels.tail, l.mode ≠ .string

theorem nested_valued (s : State) (k : Name) : Nested [] s.within (s.valued k) :=
  ⟨rfl, by simp, by simp⟩

/-! ## One character -/

theorem turn_of_not_isBracket (h : isBracket c = false) (within : List Mode) :
    turn c within = within := by
  simp only [isBracket, Bool.or_eq_false_iff, beq_eq_false_iff_ne] at h
  simp [turn, h]

theorem no_role_of_isSeparator (h : s.isSeparator c = true) :
    isQuote c = false ∧ isBracket c = false := by
  simp only [State.isSeparator, Bool.or_eq_true, Bool.and_eq_true, beq_iff_eq] at h
  rcases h with (rfl | rfl) | ⟨⟨⟨rfl, -⟩, -⟩, -⟩
  · exact ⟨rfl, rfl⟩
  · exact ⟨rfl, rfl⟩
  · exact ⟨rfl, rfl⟩

theorem no_role_of_isEquals (h : isEquals colons c = true) :
    isQuote c = false ∧ isBracket c = false := by
  simp only [isEquals, Bool.or_eq_true, Bool.and_eq_true, beq_iff_eq] at h
  rcases h with rfl | ⟨-, rfl⟩
  · exact ⟨rfl, rfl⟩
  · exact ⟨rfl, rfl⟩

theorem isQuote_of_isBracket (h : isBracket c = true) : isQuote c = false := by
  simp only [isBracket, Bool.or_eq_true, beq_iff_eq] at h
  rcases h with ((((rfl | rfl) | rfl) | rfl) | rfl) | rfl <;> rfl

/-- `s'` is `s` after a character of a value, outside of quoted texts. -/
structure Takes (s : State) (c : Char) (s' : State) : Prop where
  key : s'.key = s.key
  val : s'.val = s.val.push c
  within : s'.within = if isQuote c then .string :: s.within else turn c s.within
  quote : isQuote c = true → s'.quote = String.singleton c

theorem Takes.of_no_role (hc : isQuote c = false ∧ isBracket c = false) (hkey : s'.key = s.key)
    (hval : s'.val = s.val.push c) (hwithin : s'.within = s.within) : Takes s c s' where
  key := hkey
  val := hval
  within := by rw [hwithin, hc.1, if_neg Bool.false_ne_true, turn_of_not_isBracket hc.2]
  quote := by simp [hc.1]

/-- Whether characters go to the value and quotes open a text. -/
def Mode.takesQuotes : Mode → Bool
  | value | expr | array | object => true
  | key | quotedKey | string => false

/-- Outside of quoted texts, a character of a value that does not end it goes to the value. -/
theorem takes_step (hm : s.mode.takesQuotes = true) (hb : s.breaks c = false) :
    Takes s c (step colons s c) := by
  by_cases hsep : s.isSeparator c = true
  · have hheld : s.mode.holdsSeparators = true := by simpa [State.breaks, hsep] using hb
    rw [step_separator hsep, if_pos hheld]
    exact .of_no_role (no_role_of_isSeparator hsep) rfl rfl rfl
  · rcases char_cases colons c with hc | hc | hc | hc
    · have hequals : s.noted.equals c = s.noted.addVal c := by
        cases hmode : s.mode <;> simp_all [State.equals, State.noted, State.mode, Mode.takesQuotes]
      rw [step_equals hc, hequals]
      exact .of_no_role (no_role_of_isEquals hc) rfl rfl rfl
    · rw [step_bracket colons s hc]
      exact ⟨rfl, rfl, by simp [isQuote_of_isBracket hc], by simp [isQuote_of_isBracket hc]⟩
    · have hmark : s.noted.quoteMark c =
          { (s.noted.push .string).addVal c with quote := String.singleton c } := by
        cases hmode : s.mode <;>
          simp_all [State.quoteMark, State.noted, State.mode, Mode.takesQuotes]
      rw [step_quote hc, hmark]
      exact ⟨rfl, rfl, by rw [if_pos hc]; rfl, fun _ => rfl⟩
    · have hkey : (s.mode == .key || s.mode == .quotedKey) = false := by
        cases hmode : s.mode <;> simp_all [Mode.takesQuotes]
      have hplain : s.noted.plain c = { s.noted.addVal c with
          fixedSoFar := s.noted.fixedSoFar &&
            (s.noted.mode == .key || s.noted.mode == .string || c.isDigit) } := by
        rw [plain_eq]
        exact if_neg (by simpa [State.noted, State.mode] using hkey)
      simp only [isPlain, Bool.not_eq_true', Bool.or_eq_false_iff] at hc
      rw [step_plain (by simp [isPlain, hc]) (by simpa using hsep), hplain]
      exact .of_no_role ⟨hc.2, hc.1.2⟩ rfl rfl rfl

/-! ## Levels and the reader -/

/-- Outside of quoted texts, the levels turn as those of the reader do. -/
theorem turn_of_nest {leading : Bool} (hquote : isQuote c = false)
    (hstring : ∀ q outer, levels ≠ .string q :: outer) (h : nest leading levels c = some levels') :
    turn c (levels.map Level.mode ++ .value :: w) = levels'.map Level.mode ++ .value :: w := by
  revert h
  fun_cases nest leading levels c with
  | case1 => exact absurd rfl (hstring _ _)
  | case2 | case3 => cases hquote
  | case11 | case12 | case13 | case14 =>
    intro h
    cases h
  | case16 =>
    intro h
    cases h
    cases levels with
    | nil => simp_all [turn]
    | cons l outer =>
      cases l with
      | expr => simp_all [turn, Level.mode]
      | array => simp_all [turn, Level.mode]
      | object => simp_all [turn, Level.mode]
      | string q => exact absurd rfl (hstring q outer)
  | _ =>
    intro h
    cases h
    rfl

theorem mode_ne_string_of_nest {leading : Bool} (hquote : isQuote c = false)
    (hinner : ∀ l ∈ levels, l.mode ≠ .string) (h : nest leading levels c = some levels') :
    ∀ l ∈ levels', l.mode ≠ .string := by
  revert h
  fun_cases nest leading levels c with
  | case1 => exact absurd rfl (hinner _ List.mem_cons_self)
  | case2 | case3 => cases hquote
  | case11 | case12 | case13 | case14 =>
    intro h
    cases h
  | _ =>
    intro h
    cases h
    simp_all [Level.mode]

theorem Nested.mode_nil (hs : Nested [] w s) : s.mode = .value := mode_of_within hs.within

theorem Nested.mode_cons {l : Level} {outer : List Level} (hs : Nested (l :: outer) w s) :
    s.mode = l.mode :=
  mode_of_within hs.within

theorem Level.holdsSeparators_mode (l : Level) : l.mode.holdsSeparators = true := by
  cases l <;> rfl

theorem Nested.eq_nil_of_ends (hs : Nested levels w s) (h : s.ends c = true) : levels = [] := by
  cases levels with
  | nil => rfl
  | cons l outer =>
    simp [State.ends, State.breaks, hs.mode_cons, l.holdsSeparators_mode] at h

theorem Nested.breaks_of_some (hs : Nested levels w s)
    (h : nest w.isEmpty levels c = some levels') : s.breaks c = false := by
  cases levels with
  | cons l outer => simp [State.breaks, hs.mode_cons, l.holdsSeparators_mode]
  | nil =>
    have hcomma : c ≠ ',' := by
      rintro rfl
      exact absurd h (by simp [nest])
    have hline : c ≠ '\n' := by
      rintro rfl
      exact absurd h (by simp [nest])
    have hblank : ¬(c = ' ' ∧ s.within.length = 1) := by
      rintro ⟨rfl, hlength⟩
      have hw : w = [] := by simpa [hs.within] using hlength
      exact absurd h (by simp [nest, hw])
    simp only [not_and] at hblank
    have hsep : s.isSeparator c = false := by
      by_cases hc : c = ' '
      · simp [State.isSeparator, hcomma, hline, hblank hc]
      · simp [State.isSeparator, hcomma, hline, hc]
    simp [State.breaks, hsep]

/-- A character for which the levels have nothing ends the value or leaves it. -/
theorem Nested.cases_of_none (hs : Nested levels w s) (hval : (strip s.val).isEmpty = false)
    (h : nest w.isEmpty levels c = none) : levels = [] ∧ (c = ')' ∨ s.breaks c = true) := by
  revert h
  fun_cases nest w.isEmpty levels c with
  | case11 => exact fun _ => ⟨rfl, Or.inl rfl⟩
  | case12 | case13 =>
    refine fun _ => ⟨rfl, Or.inr ?_⟩
    simp [State.breaks, State.isSeparator, hs.mode_nil, Mode.holdsSeparators]
  | case14 hleading =>
    have hw : w = [] := by simpa using hleading
    refine fun _ => ⟨rfl, Or.inr ?_⟩
    simp [State.breaks, State.isSeparator, hs.mode_nil, Mode.holdsSeparators, hs.within, hw, hval]
  | _ => rintro ⟨⟩

theorem nest_quote {leading : Bool} (hstring : ∀ q outer, levels ≠ .string q :: outer) (q : Quote) :
    nest leading levels q.char = some (.string q :: levels) := by
  cases levels with
  | nil => cases q <;> rfl
  | cons l outer =>
    cases l with
    | string q' => exact absurd rfl (hstring q' outer)
    | expr => cases q <;> rfl
    | array => cases q <;> rfl
    | object => cases q <;> rfl

theorem exists_quote (h : isQuote c = true) : ∃ q : Quote, q.char = c := by
  simp only [isQuote, Bool.or_eq_true, beq_iff_eq] at h
  rcases h with rfl | rfl
  · exact ⟨.double, rfl⟩
  · exact ⟨.single, rfl⟩

/-- What a character does that keeps within the value: it goes to the value, and the levels of the
reader change like those of the text. -/
structure Keeps (levels' : List Level) (w : List Mode) (s : State) (c : Char) (s' : State) :
    Prop where
  key : s'.key = s.key
  val : s'.val = s.val.push c
  nested : Nested levels' w s'

theorem Nested.keeps_string {q : Quote} {outer : List Level} (hs : Nested (.string q :: outer) w s)
    (c : Char) :
    Keeps (if c = q.char then outer else .string q :: outer) w s c (step colons s c) := by
  have hm : s.mode = .string := hs.mode_cons
  have hquote : s.quote = String.singleton q.char := hs.quote q outer rfl
  by_cases hc : c = q.char
  · subst hc
    have hstep : step colons s q.char = s.pop.addVal q.char :=
      (reads_string_close hm q.isQuote_char hquote).1
    rw [if_pos rfl, hstep]
    refine ⟨rfl, rfl, ?_, ?_, fun l hl => hs.outer l (List.mem_of_mem_tail hl)⟩
    · simp [State.pop, State.addVal, hs.within]
    · rintro q' outer' rfl
      exact absurd rfl (hs.outer (.string q') List.mem_cons_self)
  · have hne : s.quote ≠ String.singleton c := by
      rw [hquote]
      intro h
      exact hc (by simpa [← String.toList_inj] using h.symm)
    have hstep : step colons s c = s.addVal c := (reads_string hm hne).1
    rw [if_neg hc, hstep]
    exact ⟨rfl, rfl, hs.within, hs.quote, hs.outer⟩

theorem Nested.keeps (hs : Nested levels w s) (h : nest w.isEmpty levels c = some levels') :
    Keeps levels' w s c (step colons s c) := by
  by_cases hstring : ∃ q outer, levels = .string q :: outer
  · obtain ⟨q, outer, rfl⟩ := hstring
    cases h
    exact hs.keeps_string c
  · have hstring' : ∀ q outer, levels ≠ .string q :: outer :=
      fun q outer heq => hstring ⟨q, outer, heq⟩
    have hm : s.mode.takesQuotes = true := by
      cases levels with
      | nil => simp [hs.mode_nil, Mode.takesQuotes]
      | cons l outer =>
        cases l with
        | string q => exact absurd rfl (hstring' q outer)
        | expr => simp [hs.mode_cons, Level.mode, Mode.takesQuotes]
        | array => simp [hs.mode_cons, Level.mode, Mode.takesQuotes]
        | object => simp [hs.mode_cons, Level.mode, Mode.takesQuotes]
    have htakes : Takes s c (step colons s c) := takes_step hm (hs.breaks_of_some h)
    have hinner : ∀ l ∈ levels, l.mode ≠ .string := by
      cases levels with
      | nil => simp
      | cons l outer =>
        refine List.forall_mem_cons.mpr ⟨?_, hs.outer⟩
        intro hmode
        cases l with
        | string q => exact absurd rfl (hstring' q outer)
        | expr | array | object => cases hmode
    refine ⟨htakes.key, htakes.val, ?_⟩
    by_cases hquote : isQuote c = true
    · obtain ⟨q, rfl⟩ := exists_quote hquote
      obtain rfl : Level.string q :: levels = levels' :=
        Option.some.inj ((nest_quote hstring' q).symm.trans h)
      refine ⟨?_, ?_, hinner⟩
      · rw [htakes.within, if_pos hquote, hs.within]
        rfl
      · rintro q' outer heq
        obtain ⟨hlevel, -⟩ := List.cons.inj heq
        obtain rfl := Level.string.inj hlevel
        exact htakes.quote hquote
    · have hquote' : isQuote c = false := by simpa using hquote
      have hinner' := mode_ne_string_of_nest hquote' hinner h
      refine ⟨?_, ?_, fun l hl => hinner' l (List.mem_of_mem_tail hl)⟩
      · rw [htakes.within, if_neg hquote, hs.within]
        exact turn_of_nest hquote' hstring' h
      · rintro q outer rfl
        exact absurd rfl (hinner' (.string q) List.mem_cons_self)

/-! ## A text -/

/-- A text that keeps within the value goes to the value and stores nothing. -/
theorem Nested.reads (hs : Nested levels w s)
    (h : cs.foldlM (nest w.isEmpty) levels = some levels') :
    ∃ s', Reads colons s cs [] s' ∧ Nested levels' w s' ∧ s'.key = s.key ∧
      s'.val = s.val ++ String.ofList cs := by
  induction cs generalizing s levels with
  | nil =>
    obtain rfl : levels = levels' := by simpa using h
    exact ⟨s, Reads.nil colons s, hs, rfl, by simp⟩
  | cons c cs ih =>
    rw [List.foldlM_cons, Option.bind_eq_bind, Option.bind_eq_some_iff] at h
    obtain ⟨next, hnext, hrest⟩ := h
    have hkeeps : Keeps next w s c (step colons s c) := hs.keeps hnext
    obtain ⟨s', hreads, hs', hkey, hval⟩ := ih hkeeps.nested hrest
    refine ⟨s', (reads_of_not_breaks (hs.breaks_of_some hnext) rfl).cons hreads, hs', ?_, ?_⟩
    · rw [hkey, hkeeps.key]
    · rw [hval, hkeeps.val, push_append]

/-! ## Leaving a value -/

theorem length_val_step_le (colons : Bool) (s : State) (c : Char) :
    (step colons s c).val.toList.length ≤ s.val.toList.length + 1 := by
  obtain ⟨-, hstep⟩ | ⟨-, hstep⟩ | ⟨-, habsorbs⟩ := step_cases colons s c
  · rw [hstep]
    exact Nat.zero_le _
  · rw [hstep]
    exact Nat.le_succ_of_le (toList_strip_sublist s.val).length_le
  · obtain ⟨-, hval⟩ | ⟨-, hval⟩ | ⟨-, hval⟩ := habsorbs.texts
    · rw [hval]
      exact Nat.le_succ _
    · rw [hval]
      exact Nat.le_succ _
    · rw [hval, String.toList_push, List.length_append]
      exact Nat.le_refl _

theorem length_val_run_le (colons : Bool) (s : State) (cs : List Char) :
    (cs.foldl (step colons) s).val.toList.length ≤ s.val.toList.length + cs.length := by
  induction cs generalizing s with
  | nil => exact Nat.le_refl _
  | cons c cs ih =>
    have hstep := length_val_step_le colons s c
    have hrest := ih (step colons s c)
    rw [List.foldl_cons, List.length_cons]
    omega

theorem length_val_step_of_key (hm : s.mode = .key) (hc : isBracket c = false) :
    (step colons s c).val.toList.length ≤ s.val.toList.length := by
  have hnoted : s.noted = s := State.noted_of_not_isComputed (hm ▸ rfl)
  by_cases hsep : s.isSeparator c = true
  · have hbreaks : s.breaks c = true := by simp [State.breaks, hsep, hm, Mode.holdsSeparators]
    by_cases hkey : (strip s.key).isEmpty = true
    · rw [step_nameless hbreaks hkey]
      exact (toList_strip_sublist s.val).length_le
    · have hends : s.ends c = true := by simp [State.ends, hbreaks, hkey]
      rw [step_ends hends]
      exact Nat.zero_le _
  · rcases char_cases colons c with hrole | hrole | hrole | hrole
    · rw [step_equals hrole, hnoted, State.equals, hm]
      exact Nat.le_refl _
    · exact absurd hrole (by simp [hc])
    · rw [step_quote hrole, hnoted, State.quoteMark, hm]
      exact Nat.le_refl _
    · rw [step_plain hrole (by simpa using hsep), hnoted, plain_eq, hm]
      exact Nat.le_refl _

/-- A text with a quote in it that is read in a name does not all go to the value. -/
theorem length_val_run_lt (hm : s.mode = .key) (hquote : ∃ q ∈ cs, isQuote q = true) :
    (cs.foldl (step colons) s).val.toList.length < s.val.toList.length + cs.length := by
  induction cs generalizing s with
  | nil => exact absurd hquote (by simp)
  | cons c cs ih =>
    rw [List.foldl_cons, List.length_cons]
    by_cases hc : isBracket c = true
    · have hstep : step colons s c = { s.noted.addVal c with within := turn c s.within } :=
        step_bracket colons s hc
      have hmode : (step colons s c).mode = .key := by
        have hturn : turn c s.within = s.within := by
          have hhead : s.within.headD .key = .key := hm
          simp [turn, hhead, -List.headD_eq_head?_getD]
        rw [hstep, State.mode, hturn]
        exact hm
      have hlater : ∃ q ∈ cs, isQuote q = true := by
        obtain ⟨q, hq, hquote⟩ := hquote
        rcases List.mem_cons.mp hq with rfl | hq
        · exact absurd hquote (by simp [isQuote_of_isBracket hc])
        · exact ⟨q, hq, hquote⟩
      have hval := length_val_step_le colons s c
      have hrest := ih hmode hlater
      omega
    · have hval := @length_val_step_of_key colons s c hm (by simpa using hc)
      have hrest := length_val_run_le colons (step colons s c) cs
      omega

/-- A text that ends in a quote and went to the value whole, with nothing stored, kept within the
value. -/
theorem Nested.levels_of_val (hs : Nested levels w s) (hw : w.headD .key = .key)
    (hkey : ∃ d ∈ s.key.toList, isBlank d = false) (hval : ∃ d ∈ s.val.toList, isBlank d = false)
    (hlast : ∀ q ∈ cs.getLast?, isQuote q = true) (hstored : stored colons s cs = [])
    (hall : (cs.foldl (step colons) s).val = s.val ++ String.ofList cs) :
    ∃ levels', cs.foldlM (nest w.isEmpty) levels = some levels' ∧
      Nested levels' w (cs.foldl (step colons) s) := by
  induction cs generalizing s levels with
  | nil => exact ⟨levels, rfl, hs⟩
  | cons c cs ih =>
    obtain ⟨hends, hstored⟩ := stored_cons_eq_nil hstored
    rw [List.foldl_cons] at hall
    cases hnest : nest w.isEmpty levels c with
    | some next =>
      have hkeeps : Keeps next w s c (step colons s c) := hs.keeps hnest
      have hkey' : ∃ d ∈ (step colons s c).key.toList, isBlank d = false := by rwa [hkeeps.key]
      have hval' : ∃ d ∈ (step colons s c).val.toList, isBlank d = false := by
        obtain ⟨d, hd, hblank⟩ := hval
        refine ⟨d, ?_, hblank⟩
        rw [hkeeps.val, String.toList_push]
        exact List.mem_append_left _ hd
      have hlast' : ∀ q ∈ cs.getLast?, isQuote q = true := by
        cases cs with
        | nil => simp
        | cons d cs => rwa [List.getLast?_cons_cons] at hlast
      rw [← push_append, ← hkeeps.val] at hall
      obtain ⟨levels', hfold, hs'⟩ := ih hkeeps.nested hkey' hval' hlast' hstored hall
      exact ⟨levels', by rw [List.foldlM_cons, hnest]; exact hfold, hs'⟩
    | none =>
      obtain ⟨rfl, rfl | hbreaks⟩ := hs.cases_of_none (isEmpty_strip_of_mem hval) hnest
      · -- the value was left, and the quote at the end of the text will be missing in it
        exfalso
        have hstep : step colons s ')' = { s.noted.addVal ')' with within := turn ')' s.within } :=
          step_bracket colons s rfl
        have hmode : (step colons s ')').mode = .key := by
          have hturn : turn ')' s.within = w := by simp [turn, hs.within]
          rw [hstep, State.mode, hturn]
          exact hw
        have hquote : ∃ q ∈ cs, isQuote q = true := by
          cases cs with
          | nil => exact absurd (hlast ')' rfl) (by decide)
          | cons d cs =>
            rw [List.getLast?_cons_cons] at hlast
            have hne : d :: cs ≠ [] := List.cons_ne_nil d cs
            exact ⟨_, List.getLast_mem hne, hlast _ (List.getLast_mem_getLast? hne)⟩
        have hlength := @length_val_run_lt colons _ cs hmode hquote
        have hstep' := length_val_step_le colons s ')'
        rw [hall, String.toList_append, List.length_append, String.toList_ofList,
          List.length_cons] at hlength
        omega
      · exact absurd hends (by simp [State.ends, hbreaks, isEmpty_strip_of_mem hkey])

end Jade.AttributeList

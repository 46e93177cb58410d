import Jade.Proofs.Token.Stored
import Jade.Proofs.Token.Sums
import Mathlib.Data.List.TakeWhile

/-!
# Reading names and values

How an attribute list reads the texts that it is usually made of: blanks, a name, an equals sign, a
value and a separator. A value is read *whole* if all of it becomes part of the value at hand and
reading goes on in that value. Texts that are read whole can be put together, and quoted texts,
numerals and words are such texts. An attribute with such a value is stored as it is written.

## Main results

* `Jade.AttributeList.whole_append`, `whole_quoted`, `whole_of_isBare` : texts that are read whole
* `Jade.AttributeList.Idle.reads_flag`, `Idle.reads_setting` : an attribute is stored as it is
  written
-/

namespace Jade

/-! ## Trimming -/

/-- A text with something other than blanks at both ends. -/
structure IsTrim (text : List Char) : Prop where
  first : ∃ c ∈ text.head?, isBlank c = false
  last : ∃ c ∈ text.getLast?, isBlank c = false

theorem trimBy_append {p : Char → Bool} {gap text : List Char} (hgap : ∀ c ∈ gap, p c = true)
    (hfirst : ∃ c ∈ text.head?, p c = false) (hlast : ∃ c ∈ text.getLast?, p c = false) :
    trimBy p (gap ++ text) = text := by
  have hstart : ∀ {t : List Char}, (∃ c ∈ t.head?, p c = false) → t.dropWhile p = t := by
    rintro t ⟨c, hc, hp⟩
    cases t with
    | nil => simp at hc
    | cons d t =>
      obtain rfl : d = c := by simpa using hc
      exact List.dropWhile_cons_of_neg (by simp [hp])
  rw [trimBy, trimStartBy, List.dropWhile_append_of_pos hgap, hstart hfirst, trimEndBy, hstart,
    List.reverse_reverse]
  rwa [List.head?_reverse]

theorem strip_append {gap text : List Char} (hgap : ∀ c ∈ gap, isBlank c = true)
    (htext : IsTrim text) : strip (String.ofList (gap ++ text)) = String.ofList text := by
  rw [strip, stripBy, String.toList_ofList, trimBy_append hgap htext.first htext.last]

theorem strip_of_isTrim {text : List Char} (htext : IsTrim text) :
    strip (String.ofList text) = String.ofList text := by
  have h := @strip_append [] text (by simp) htext
  rwa [List.nil_append] at h

theorem strip_of_isBlank {gap : List Char} (hgap : ∀ c ∈ gap, isBlank c = true) :
    strip (String.ofList gap) = "" := by
  have hnil : gap.dropWhile isBlank = [] := List.dropWhile_eq_nil_iff.mpr hgap
  rw [strip, stripBy, String.toList_ofList, trimBy, trimStartBy, hnil]
  rfl

theorem trimBy_sublist (p : Char → Bool) (cs : List Char) : (trimBy p cs).Sublist cs := by
  have hend : (trimBy p cs).Sublist (trimStartBy p cs) := by
    rw [trimBy, trimEndBy]
    simpa using (List.dropWhile_sublist p (l := (trimStartBy p cs).reverse)).reverse
  exact hend.trans (List.dropWhile_sublist p)

theorem toList_strip_sublist (t : String) : (strip t).toList.Sublist t.toList := by
  rw [strip, stripBy, String.toList_ofList]
  exact trimBy_sublist isBlank t.toList

theorem mem_dropWhile {p : Char → Bool} {c : Char} {cs : List Char} (hc : c ∈ cs)
    (hp : p c = false) : c ∈ cs.dropWhile p := by
  rw [← List.takeWhile_append_dropWhile (p := p) (l := cs), List.mem_append] at hc
  refine hc.resolve_left fun hstart => ?_
  exact absurd (List.mem_takeWhile_imp hstart) (by simp [hp])

/-- A text with something other than blanks is not empty without the blanks around it. -/
theorem isEmpty_strip_of_mem {t : String} (h : ∃ c ∈ t.toList, isBlank c = false) :
    (strip t).isEmpty = false := by
  obtain ⟨c, hc, hblank⟩ := h
  have hmem : c ∈ (strip t).toList := by
    rw [strip, stripBy, String.toList_ofList, trimBy, trimEndBy, trimStartBy, List.mem_reverse]
    exact mem_dropWhile (List.mem_reverse.mpr (mem_dropWhile hc hblank)) hblank
  rw [Bool.eq_false_iff, ne_eq, String.isEmpty_iff]
  intro hempty
  rw [hempty] at hmem
  cases hmem

theorem IsTrim.ne_nil {text : List Char} (h : IsTrim text) : text ≠ [] := by
  obtain ⟨c, hc, -⟩ := h.first
  rintro rfl
  simp at hc

theorem IsTrim.append {a b : List Char} (ha : IsTrim a) (hb : IsTrim b) (middle : List Char) :
    IsTrim (a ++ middle ++ b) where
  first := by
    obtain ⟨c, hc, hblank⟩ := ha.first
    refine ⟨c, ?_, hblank⟩
    rw [List.append_assoc, List.head?_append_of_ne_nil _ ha.ne_nil]
    exact hc
  last := by
    obtain ⟨c, hc, hblank⟩ := hb.last
    refine ⟨c, ?_, hblank⟩
    rw [List.getLast?_append_of_ne_nil _ hb.ne_nil]
    exact hc

theorem isTrim_of_forall {text : List Char} (hne : text ≠ [])
    (h : ∀ c ∈ text, isBlank c = false) : IsTrim text where
  first := ⟨text.head hne, List.head_mem_head? hne, h _ (List.head_mem hne)⟩
  last := ⟨text.getLast hne, List.getLast_mem_getLast? hne, h _ (List.getLast_mem hne)⟩

namespace AttributeList

variable {colons : Bool} {s s' s'' : State} {c : Char} {a b : List Char} {es es' : List Entry}

/-! ## Reading a text -/

/-- Reading a text in the state `s` stores `es` and leads to the state `s'`. -/
def Reads (colons : Bool) (s : State) (text : List Char) (es : List Entry) (s' : State) : Prop :=
  text.foldl (step colons) s = s' ∧ stored colons s text = es

theorem Reads.nil (colons : Bool) (s : State) : Reads colons s [] [] s := ⟨rfl, rfl⟩

theorem Reads.append (ha : Reads colons s a es s') (hb : Reads colons s' b es' s'') :
    Reads colons s (a ++ b) (es ++ es') s'' := by
  obtain ⟨rfl, rfl⟩ := ha
  obtain ⟨rfl, rfl⟩ := hb
  exact ⟨List.foldl_append, stored_append ..⟩

theorem Reads.cons (ha : Reads colons s [c] [] s') (hb : Reads colons s' b es s'') :
    Reads colons s (c :: b) es s'' :=
  ha.append hb

theorem reads_of_not_ends (h : s.ends c = false) : Reads colons s [c] [] (step colons s c) :=
  ⟨rfl, by simp [stored, h]⟩

theorem reads_ends (h : s.ends c = true) : Reads colons s [c] [s.entry] (s.store s.entry) :=
  ⟨step_ends h, by simp [stored, h]⟩

theorem reads_of_not_breaks (h : s.breaks c = false) (hstep : step colons s c = s') :
    Reads colons s [c] [] s' :=
  hstep ▸ reads_of_not_ends (by simp [State.ends, h])

/-! ## Characters -/

/-- A character with no role at all: neither blank nor separator, equals sign, bracket or quote. -/
def isBare (c : Char) : Bool :=
  !(isBlank c || c == ',' || isEquals true c || isBracket c || isQuote c)

theorem isPlain_of_isBare (h : isBare c = true) : isPlain colons c = true := by
  simp only [isBare, isEquals, Bool.not_eq_true', Bool.or_eq_false_iff, Bool.true_and] at h
  simp [isPlain, isEquals, h]

theorem isPlain_of_isBlank (h : isBlank c = true) : isPlain colons c = true := by
  have hne : ∀ d, isBlank d = false → c ≠ d := by
    rintro d hd rfl
    exact absurd h (by simp [hd])
  simp [isPlain, isEquals, isBracket, isQuote, hne '=' (by decide), hne ':' (by decide),
    hne '(' (by decide), hne ')' (by decide), hne '\x7b' (by decide), hne '\x7d' (by decide),
    hne '[' (by decide), hne ']' (by decide), hne '"' (by decide), hne '\'' (by decide)]

theorem isBlank_of_isBare (h : isBare c = true) : isBlank c = false := by
  simp only [isBare, Bool.not_eq_true', Bool.or_eq_false_iff] at h
  exact h.1.1.1.1

theorem isSeparator_of_isBare (h : isBare c = true) (s : State) : s.isSeparator c = false := by
  have hblank : isBlank c = false := isBlank_of_isBare h
  have hcomma : c ≠ ',' := by
    rintro rfl
    cases h
  have hline : c ≠ '\n' := by
    rintro rfl
    cases hblank
  have hspace : c ≠ ' ' := by
    rintro rfl
    cases hblank
  simp [State.isSeparator, hcomma, hline, hspace]

theorem breaks_of_mode_string (h : s.mode = .string) (c : Char) : s.breaks c = false := by
  simp [State.breaks, h, Mode.holdsSeparators]

theorem plain_eq (s : State) (c : Char) :
    s.plain c =
      if s.mode == .key || s.mode == .quotedKey then
        { s.addKey c with
          fixedSoFar := s.fixedSoFar && (s.mode == .key || s.mode == .string || c.isDigit) }
      else
        { s.addVal c with
          fixedSoFar := s.fixedSoFar && (s.mode == .key || s.mode == .string || c.isDigit) } :=
  rfl

theorem reads_key_plain (hm : s.mode = .key) (hc : isPlain colons c = true)
    (hsep : s.isSeparator c = false) : Reads colons s [c] [] (s.addKey c) := by
  refine reads_of_not_breaks (by simp [State.breaks, hsep]) ?_
  rw [step_plain hc hsep, State.noted_of_not_isComputed (hm ▸ rfl), plain_eq, hm]
  simp [State.addKey]

theorem reads_value_plain (hm : s.mode = .value) (hc : isPlain colons c = true)
    (hsep : s.isSeparator c = false) :
    Reads colons s [c] [] { s.addVal c with fixedSoFar := s.fixedSoFar && c.isDigit } := by
  refine reads_of_not_breaks (by simp [State.breaks, hsep]) ?_
  rw [step_plain hc hsep, State.noted_of_not_isComputed (hm ▸ rfl), plain_eq, hm]
  rfl

theorem reads_key_equals (hm : s.mode = .key) : Reads colons s ['='] [] (s.push .value) := by
  refine reads_of_not_breaks (by simp [State.breaks, State.isSeparator]) ?_
  rw [step_equals (by rfl), State.noted_of_not_isComputed (hm ▸ rfl), State.equals, hm]

theorem reads_value_equals (hm : s.mode = .value) : Reads colons s ['='] [] (s.addVal '=') := by
  refine reads_of_not_breaks (by simp [State.breaks, State.isSeparator]) ?_
  rw [step_equals (by rfl), State.noted_of_not_isComputed (hm ▸ rfl), State.equals, hm]

theorem turn_string {within : List Mode} (h : within.headD .key = .string) (c : Char) :
    turn c within = within := by
  simp [turn, h, -List.headD_eq_head?_getD]

/-- Within a quoted text, every character but its own quote is part of the text. -/
theorem reads_string (hm : s.mode = .string) (hc : s.quote ≠ String.singleton c) :
    Reads colons s [c] [] (s.addVal c) := by
  refine reads_of_not_breaks (breaks_of_mode_string hm c) ?_
  have hnoted : s.noted = s := State.noted_of_not_isComputed (hm ▸ rfl)
  by_cases hsep : s.isSeparator c = true
  · rw [step_separator hsep, hnoted, hm]
    rfl
  · rcases char_cases colons c with hrole | hrole | hrole | hrole
    · rw [step_equals hrole, hnoted, State.equals, hm]
    · rw [step_bracket colons s hrole, hnoted, turn_string hm]
      rfl
    · rw [step_quote hrole, hnoted, State.quoteMark, hm]
      simp [hc]
    · rw [step_plain hrole (by simpa using hsep), hnoted, plain_eq, hm]
      simp [State.addVal]

theorem reads_string_close (hm : s.mode = .string) (hc : isQuote c = true)
    (hquote : s.quote = String.singleton c) : Reads colons s [c] [] (s.pop.addVal c) := by
  refine reads_of_not_breaks (breaks_of_mode_string hm c) ?_
  rw [step_quote hc, State.noted_of_not_isComputed (hm ▸ rfl), State.quoteMark, hm]
  simp [hquote]

theorem reads_value_quote (hm : s.mode = .value) (hc : isQuote c = true) :
    Reads colons s [c] [] { (s.push .string).addVal c with quote := String.singleton c } := by
  have hsep : s.isSeparator c = false := by
    simp only [isQuote, Bool.or_eq_true, beq_iff_eq] at hc
    rcases hc with rfl | rfl
    · simp [State.isSeparator]
    · simp [State.isSeparator]
  refine reads_of_not_breaks (by simp [State.breaks, hsep]) ?_
  rw [step_quote hc, State.noted_of_not_isComputed (hm ▸ rfl), State.quoteMark, hm]

/-! ## Whole texts -/

/-- Read in a value, the text becomes part of it whole, and reading goes on in the same value. With
`within` no more than the levels around the value are given: at the head of a list there are none,
and there a blank ends the value. -/
def Whole (colons : Bool) (within : List Mode) (text : List Char) (isFixed : Bool) : Prop :=
  ∀ s : State, s.within = .value :: within → ∃ quote, Reads colons s text []
    { s with
      val := s.val ++ String.ofList text, quote, fixedSoFar := s.fixedSoFar && isFixed }

variable {within : List Mode} {f g : Bool}

theorem mode_of_within {m : Mode} (h : s.within = m :: within) : s.mode = m := by
  rw [State.mode, h]
  rfl

theorem whole_nil (colons : Bool) (within : List Mode) : Whole colons within [] true := by
  intro s _
  refine ⟨s.quote, ?_⟩
  simpa using Reads.nil colons s

theorem whole_append (ha : Whole colons within a f) (hb : Whole colons within b g) :
    Whole colons within (a ++ b) (f && g) := by
  intro s hs
  obtain ⟨quote, hreads⟩ := ha s hs
  obtain ⟨quote', hreads'⟩ := hb { s with
    val := s.val ++ String.ofList a, quote, fixedSoFar := s.fixedSoFar && f } hs
  refine ⟨quote', ?_⟩
  simpa [String.append_assoc, Bool.and_assoc] using hreads.append hreads'

theorem push_append (t : String) (c : Char) (cs : List Char) :
    t.push c ++ String.ofList cs = t ++ String.ofList (c :: cs) := by
  simp [← String.toList_inj]

theorem whole_singleton (h : ∀ s : State, s.within = .value :: within →
    Reads colons s [c] [] { s.addVal c with fixedSoFar := s.fixedSoFar && f }) :
    Whole colons within [c] f := by
  intro s hs
  refine ⟨s.quote, ?_⟩
  rw [← push_append, String.ofList_nil, String.append_empty]
  exact h s hs

/-- A word is read whole; it is fixed if it is made of digits. -/
theorem whole_of_isBare {text : List Char} (h : ∀ c ∈ text, isBare c = true) :
    Whole colons within text (text.all Char.isDigit) := by
  induction text with
  | nil => exact whole_nil colons within
  | cons c text ih =>
    have hc : isBare c = true := h c List.mem_cons_self
    have hfirst : Whole colons within [c] c.isDigit := by
      refine whole_singleton fun s hs => ?_
      exact reads_value_plain (mode_of_within hs) (isPlain_of_isBare hc)
        (isSeparator_of_isBare hc s)
    exact whole_append hfirst (ih fun d hd => h d (List.mem_cons_of_mem _ hd))

theorem whole_equals (colons : Bool) (within : List Mode) : Whole colons within ['='] true := by
  refine whole_singleton fun s hs => ?_
  rw [Bool.and_true]
  exact reads_value_equals (mode_of_within hs)

/-- After the first attribute, a blank is part of a value, which is then computed. -/
theorem whole_blank (colons : Bool) (h : within ≠ []) : Whole colons within [' '] false := by
  refine whole_singleton fun s hs => ?_
  have hlength : s.within.length ≠ 1 := by
    rw [hs]
    simpa using h
  have hsep : s.isSeparator ' ' = false := by simp [State.isSeparator, hlength]
  exact reads_value_plain (mode_of_within hs) (by cases colons <;> rfl) hsep

theorem reads_content {q : Char} {content : List Char} (hcontent : q ∉ content) :
    ∀ s : State, s.mode = .string → s.quote = String.singleton q →
      Reads colons s content [] { s with val := s.val ++ String.ofList content } := by
  induction content with
  | nil =>
    intro s _ _
    simpa using Reads.nil colons s
  | cons c content ih =>
    intro s hm hquote
    obtain ⟨hc, hcontent⟩ := List.ne_and_not_mem_of_not_mem_cons hcontent
    have hne : s.quote ≠ String.singleton c := by
      rw [hquote]
      intro h
      exact hc (by simpa [← String.toList_inj] using h)
    have hrest := ih hcontent (s.addVal c) hm hquote
    rw [State.addVal, push_append] at hrest
    exact (reads_string hm hne).cons hrest

/-- A quoted text is read whole, and is fixed, whatever is in it besides its own quote. -/
theorem whole_quoted {q : Char} (hq : isQuote q = true) {content : List Char}
    (hcontent : q ∉ content) : Whole colons within (q :: content ++ [q]) true := by
  intro s hs
  let opened : State :=
    { s with within := .string :: s.within, val := s.val.push q, quote := String.singleton q }
  let filled : State := { opened with val := opened.val ++ String.ofList content }
  have hopen : Reads colons s [q] [] opened := reads_value_quote (mode_of_within hs) hq
  have hinside : Reads colons opened content [] filled := reads_content hcontent opened rfl rfl
  have hclose : Reads colons filled [q] [] (filled.pop.addVal q) := reads_string_close rfl hq rfl
  have hval : (filled.pop.addVal q).val = s.val ++ String.ofList (q :: content ++ [q]) := by
    simp [filled, opened, State.pop, State.addVal, ← String.toList_inj]
  refine ⟨String.singleton q, ?_⟩
  rw [← hval, Bool.and_true]
  exact (hopen.cons hinside).append hclose

/-! ## Attributes -/

/-- A state before an attribute: no more than blanks were read since the last one. -/
structure Idle (s : State) : Prop where
  mode : s.mode = .key
  key : ∃ gap, s.key = String.ofList gap ∧ ∀ c ∈ gap, isBlank c = true
  val : s.val = ""
  fixedSoFar : s.fixedSoFar = true

theorem idle_store (s : State) (e : Entry) : Idle (s.store e) :=
  ⟨rfl, ⟨[], rfl, by simp⟩, rfl, rfl⟩

theorem idle_empty : Idle {} := ⟨rfl, ⟨[], rfl, by simp⟩, rfl, rfl⟩

theorem Idle.reads_blank (hs : Idle s) (hc : isBlank c = true) :
    ∃ s', Reads colons s [c] [] s' ∧ Idle s' ∧ s.within <:+ s'.within := by
  obtain ⟨gap, hkey, hgap⟩ := hs.key
  by_cases hline : c = '\n'
  · -- a line end separates, but there is nothing to store
    subst hline
    have hbreaks : s.breaks '\n' = true := by
      simp [State.breaks, State.isSeparator, hs.mode, Mode.holdsSeparators]
    have hempty : (strip s.key).isEmpty = true := by rw [hkey, strip_of_isBlank hgap]; rfl
    refine ⟨_, reads_of_not_ends (by simp [State.ends, hempty]), ?_, ?_⟩
    · rw [step_nameless hbreaks hempty]
      refine ⟨rfl, ⟨[], ?_, by simp⟩, ?_, hs.fixedSoFar⟩
      · exact String.isEmpty_iff.mp hempty
      · rw [hs.val]
        rfl
    · rw [step_nameless hbreaks hempty]
      exact List.suffix_cons ..
  · have hsep : s.isSeparator c = false := by
      have hcomma : c ≠ ',' := by
        rintro rfl
        cases hc
      simp [State.isSeparator, hcomma, hline, hs.mode]
    refine ⟨s.addKey c, reads_key_plain hs.mode (isPlain_of_isBlank hc) hsep, ?_, List.suffix_rfl⟩
    refine ⟨hs.mode, ⟨gap ++ [c], ?_, ?_⟩, hs.val, hs.fixedSoFar⟩
    · simp [State.addKey, hkey]
    · simpa [or_imp, forall_and, hc] using hgap

theorem Idle.reads_gap (hs : Idle s) {gap : List Char} (hgap : ∀ c ∈ gap, isBlank c = true) :
    ∃ s', Reads colons s gap [] s' ∧ Idle s' ∧ s.within <:+ s'.within := by
  induction gap generalizing s with
  | nil => exact ⟨s, Reads.nil colons s, hs, List.suffix_rfl⟩
  | cons c gap ih =>
    obtain ⟨s', hreads, hs', hwithin⟩ := hs.reads_blank (hgap c List.mem_cons_self)
    obtain ⟨s'', hreads', hs'', hwithin'⟩ := ih hs' fun d hd => hgap d (List.mem_cons_of_mem _ hd)
    exact ⟨s'', hreads.cons hreads', hs'', hwithin.trans hwithin'⟩

/-- The name of an attribute: one or more bare characters, none of them the mark that declares a
computed value fixed. -/
structure Name where
  chars : List Char
  ne_nil : chars ≠ []
  bare : ∀ c ∈ chars, isBare c = true
  unmarked : '!' ∉ chars

/-- The name as a text. -/
def Name.text (k : Name) : String := String.ofList k.chars

theorem Name.isTrim (k : Name) : IsTrim k.chars :=
  isTrim_of_forall k.ne_nil fun c hc => isBlank_of_isBare (k.bare c hc)

theorem Name.stripQuotes_text (k : Name) : stripQuotes k.text = k.text := by
  have hno : ∀ c ∈ k.chars, isQuote c = false := by
    intro c hc
    have hbare := k.bare c hc
    simp only [isBare, Bool.not_eq_true', Bool.or_eq_false_iff] at hbare
    exact hbare.2
  have htrim : trimBy isQuote ([] ++ k.chars) = k.chars :=
    trimBy_append (by simp)
      ⟨_, List.head_mem_head? k.ne_nil, hno _ (List.head_mem k.ne_nil)⟩
      ⟨_, List.getLast_mem_getLast? k.ne_nil, hno _ (List.getLast_mem k.ne_nil)⟩
  rw [stripQuotes, stripBy, Name.text, String.toList_ofList]
  exact congrArg String.ofList htrim

theorem Name.endsWith_mark (k : Name) : k.text.endsWith "!" = false := by
  rw [Bool.eq_false_iff, ne_eq, String.endsWith_eq_endsWith_toSlice,
    String.Slice.endsWith_string_iff]
  intro hend
  have hsuffix : ['!'] <:+ k.chars := by simpa [Name.text] using hend
  exact k.unmarked (hsuffix.subset List.mem_cons_self)

/-- The text of the name of a state before an attribute, once a name was read. -/
def Named (s : State) (k : Name) : Prop :=
  ∃ gap, s.key = String.ofList (gap ++ k.chars) ∧ ∀ c ∈ gap, isBlank c = true

theorem Named.strip_key {k : Name} (h : Named s k) : strip s.key = k.text := by
  obtain ⟨gap, hkey, hgap⟩ := h
  rw [hkey, strip_append hgap k.isTrim]
  rfl

theorem Named.ends_iff {k : Name} (h : Named s k) : s.ends c = s.breaks c := by
  have hne : k.text.isEmpty = false := by simp [Name.text, k.ne_nil]
  simp [State.ends, h.strip_key, hne]

theorem reads_bare {text : List Char} (htext : ∀ c ∈ text, isBare c = true) (hm : s.mode = .key) :
    Reads colons s text [] { s with key := s.key ++ String.ofList text } := by
  induction text generalizing s with
  | nil => simpa using Reads.nil colons s
  | cons c text ih =>
    have hc : isBare c = true := htext c List.mem_cons_self
    have hrest : Reads colons (s.addKey c) text []
        { s with key := s.key ++ String.ofList (c :: text) } := by
      rw [← push_append]
      exact ih (fun d hd => htext d (List.mem_cons_of_mem _ hd)) hm
    exact (reads_key_plain hm (isPlain_of_isBare hc) (isSeparator_of_isBare hc s)).cons hrest

theorem Idle.named (hs : Idle s) (k : Name) :
    Named { s with key := s.key ++ String.ofList k.chars } k := by
  obtain ⟨gap, hkey, hgap⟩ := hs.key
  exact ⟨gap, by simp [hkey], hgap⟩

theorem Named.entry_flag {k : Name} (h : Named s k) (hval : s.val = "") :
    s.entry = ⟨k.text, .flag, s.fixedSoFar⟩ := by
  simp only [State.entry, h.strip_key, k.endsWith_mark, hval, k.stripQuotes_text, Bool.and_false,
    Bool.false_eq_true, if_false, Bool.or_false]
  have hempty : strip "" = "" := rfl
  simp [hempty, interpolate_empty]

theorem Named.entry_setting {k : Name} (h : Named s k) {v : List Char}
    (hval : s.val = String.ofList v) (htrim : IsTrim v) (hmark : ¬opening <:+: v) :
    s.entry = ⟨k.text, .expr (String.ofList v), s.fixedSoFar⟩ := by
  simp only [State.entry, h.strip_key, k.endsWith_mark, hval, k.stripQuotes_text, Bool.and_false,
    Bool.false_eq_true, if_false, Bool.or_false, strip_of_isTrim htrim,
    interpolate_of_unmarked hmark]
  simp [htrim.ne_nil]

/-- **An attribute without a value** is stored as it is written. -/
theorem Idle.reads_flag (hs : Idle s) (k : Name) :
    ∃ s', Reads colons s (k.chars ++ [',']) [⟨k.text, .flag, true⟩] s' ∧ Idle s' ∧
      s'.within ≠ [] := by
  let t : State := { s with key := s.key ++ String.ofList k.chars }
  have hnamed : Named t k := hs.named k
  have hbreaks : t.breaks ',' = true := by
    have hm : t.mode = .key := hs.mode
    simp [State.breaks, State.isSeparator, hm, Mode.holdsSeparators]
  have hentry : t.entry = ⟨k.text, .flag, true⟩ := by
    rw [hnamed.entry_flag hs.val]
    exact congrArg _ hs.fixedSoFar
  refine ⟨t.store t.entry, ?_, idle_store t _, List.cons_ne_nil _ _⟩
  rw [← hentry]
  exact (reads_bare k.bare hs.mode).append (reads_ends (hnamed.ends_iff.trans hbreaks))

/-- The state after a name and an equals sign. -/
def State.valued (s : State) (k : Name) : State :=
  { s with key := s.key ++ String.ofList k.chars, within := .value :: s.within }

theorem Idle.reads_name (hs : Idle s) (k : Name) :
    Reads colons s (k.chars ++ ['=']) [] (s.valued k) := by
  let named : State := { s with key := s.key ++ String.ofList k.chars }
  have hname : Reads colons s k.chars [] named := reads_bare k.bare hs.mode
  have hequals : Reads colons named ['='] [] (s.valued k) := reads_key_equals hs.mode
  exact hname.append hequals

/-- An attribute is stored as it is written if its value leads back to the level at which it
started, with all of it in the value. At the head of a list a blank ends it too. -/
theorem Idle.reads_valued (hs : Idle s) (k : Name) {v : List Char} {t : State}
    (hvalue : Reads colons (s.valued k) v [] t) (hwithin : t.within = .value :: s.within)
    (hkey : t.key = (s.valued k).key) (hval : t.val = String.ofList v) (htrim : IsTrim v)
    (hmark : ¬opening <:+: v) (hc : c = ',' ∨ c = ' ' ∧ s.within = []) :
    ∃ s', Reads colons s (k.chars ++ '=' :: v ++ [c])
        [⟨k.text, .expr (String.ofList v), t.fixedSoFar⟩] s' ∧ Idle s' ∧ s'.within ≠ [] := by
  have hnamed : Named t k := by
    obtain ⟨gap, hgap, hblank⟩ := hs.named k
    exact ⟨gap, hkey.trans hgap, hblank⟩
  have hbreaks : t.breaks c = true := by
    have hm : t.mode = .value := mode_of_within hwithin
    rcases hc with rfl | ⟨rfl, hnone⟩
    · simp [State.breaks, State.isSeparator, hm, Mode.holdsSeparators]
    · have hlength : t.within.length = 1 := by simp [hwithin, hnone]
      simp [State.breaks, State.isSeparator, hm, Mode.holdsSeparators, hlength, hval,
        strip_of_isTrim htrim, htrim.ne_nil]
  refine ⟨t.store t.entry, ?_, idle_store t _, List.cons_ne_nil _ _⟩
  have hbefore : Reads colons s (k.chars ++ '=' :: v) [] t := by
    simpa using (hs.reads_name k).append hvalue
  rw [← hnamed.entry_setting hval htrim hmark]
  exact hbefore.append (reads_ends (hnamed.ends_iff.trans hbreaks))

/-- **An attribute with a value** that is read whole is stored as it is written. -/
theorem Idle.reads_setting (hs : Idle s) (k : Name) {v : List Char}
    (hwhole : Whole colons s.within v f) (htrim : IsTrim v) (hmark : ¬opening <:+: v)
    (hc : c = ',' ∨ c = ' ' ∧ s.within = []) :
    ∃ s', Reads colons s (k.chars ++ '=' :: v ++ [c]) [⟨k.text, .expr (String.ofList v), f⟩] s' ∧
      Idle s' ∧ s'.within ≠ [] := by
  obtain ⟨quote, hvalue⟩ := hwhole (s.valued k) rfl
  have hval : (s.valued k).val ++ String.ofList v = String.ofList v := by
    rw [State.valued, hs.val, String.empty_append]
  have hfixed : ((s.valued k).fixedSoFar && f) = f := by
    rw [State.valued, hs.fixedSoFar, Bool.true_and]
  have hreads := hs.reads_valued k hvalue rfl rfl hval htrim hmark hc
  rwa [hfixed] at hreads

end AttributeList

end Jade

import Jade.Proofs.Token.Delimiters
import Jade.Proofs.Token.Values
import Jade.Source

/-!
# Attribute lists that are read as they are written

The lists that a template usually has: attributes with distinct names, separated by commas with
blanks or line ends after them, each without a value or with a quoted text, a numeral or a word.
Such a list is read to its closing parenthesis, and the token holds what was written. A quoted text
may hold anything but its own quote, parentheses that are not balanced and the mark of an
interpolation.

The levels that a list opens are never closed: the state after an attribute has all levels of those
before it below its own. What carries the induction is therefore not a state but a condition on it,
`Idle`, and that the values of a list are read whole whatever the levels are.

## Main results

* `Jade.AttributeList.Listing.scan_written` : a list is read as it is written
-/

namespace Jade.AttributeList

variable {c : Char}

/-! ## Bare characters -/

/-- The code points of the characters that are not bare. -/
def roleCodes : List Nat :=
  [0x09, 0x0a, 0x0b, 0x0c, 0x0d, 0x1c, 0x1d, 0x1e, 0x1f, 0x20, 0x85, 0xa0, 0x1680, 0x2000, 0x2001,
    0x2002, 0x2003, 0x2004, 0x2005, 0x2006, 0x2007, 0x2008, 0x2009, 0x200a, 0x2028, 0x2029, 0x202f,
    0x205f, 0x3000] ++ [',', '=', ':', '(', ')', '\x7b', '\x7d', '[', ']', '"', '\''].map Char.toNat

theorem toNat_mem_roleCodes (h : isBare c = false) : c.toNat ∈ roleCodes := by
  simp only [isBare, isEquals, isBracket, isQuote, Bool.not_eq_false', Bool.or_eq_true, beq_iff_eq,
    Bool.true_and, or_assoc] at h
  rcases h with h | h
  · simp only [isBlank, Bool.or_eq_true, Bool.and_eq_true, decide_eq_true_eq, beq_iff_eq] at h
    rw [roleCodes, List.mem_append]
    left
    simp only [List.mem_cons, List.not_mem_nil, or_false]
    omega
  · rw [roleCodes, List.mem_append]
    right
    apply List.mem_map_of_mem
    simpa using h

/-- A class with none of the code points that have a role is a class of bare characters. -/
theorem isBare_of_class {p : Char → Bool} (hp : roleCodes.all (fun n => !p (Char.ofNat n)) = true)
    (h : p c = true) : isBare c = true := by
  by_contra hno
  have hmem := toNat_mem_roleCodes (Bool.eq_false_iff.mpr hno)
  have := List.all_eq_true.mp hp _ hmem
  rw [Char.ofNat_toNat, h] at this
  cases this

theorem isBare_of_isDigit (h : c.isDigit = true) : isBare c = true :=
  isBare_of_class (by decide) h

/-! ## Values -/

/-- A quote. -/
inductive Quote where
  | single
  | double
  deriving DecidableEq, Repr

/-- The quote as a character. -/
def Quote.char : Quote → Char
  | single => '\''
  | double => '"'

theorem Quote.isQuote_char (q : Quote) : isQuote q.char = true := by
  cases q with
  | single => rfl
  | double => rfl

/-- A quoted text. -/
structure Quoted where
  quote : Quote
  content : List Char
  closed : quote.char ∉ content
  unmarked : ¬opening <:+: content
  balanced : isBalanced content = true

/-- The text with its quotes. -/
def Quoted.chars (v : Quoted) : List Char := v.quote.char :: v.content ++ [v.quote.char]

/-- A numeral: one or more digits. -/
structure Numeral where
  chars : List Char
  ne_nil : chars ≠ []
  isDigit : ∀ c ∈ chars, c.isDigit = true

/-- A word: bare characters that are not all digits. -/
structure Word where
  chars : List Char
  bare : ∀ c ∈ chars, isBare c = true
  nondigit : ∃ c ∈ chars, c.isDigit = false

/-- A value that is fixed. -/
inductive Literal where
  | quoted (v : Quoted)
  | numeral (v : Numeral)

/-- The literal as it is written. -/
def Literal.chars : Literal → List Char
  | quoted v => v.chars
  | numeral v => v.chars

/-- The value of an attribute as it is written. -/
inductive Written where
  | flag
  | literal (v : Literal)
  | word (v : Word)

/-- What follows the name. -/
def Written.chars : Written → List Char
  | flag => []
  | literal v => '=' :: v.chars
  | word v => '=' :: v.chars

/-- The value that is stored. -/
def Written.attr : Written → AttrText
  | flag => .flag
  | literal v => .expr (String.ofList v.chars)
  | word v => .expr (String.ofList v.chars)

/-- Whether the value is fixed. -/
def Written.isFixed : Written → Bool
  | flag | literal _ => true
  | word _ => false

/-! ## Lists -/

/-- An attribute with the blanks and line ends before it. -/
structure Item where
  gap : List Char
  isBlank : ∀ c ∈ gap, isBlank c = true
  name : Name
  value : Written

/-- The attribute as it is written. -/
def Item.chars (i : Item) : List Char := i.gap ++ (i.name.chars ++ i.value.chars)

/-- The attribute as it is stored. -/
def Item.entry (i : Item) : Entry := ⟨i.name.text, i.value.attr, i.value.isFixed⟩

/-- A list of attributes with distinct names. -/
structure Listing where
  items : List Item
  distinct : (items.map fun i => i.name.text).Nodup

/-- What is between the parentheses. -/
def Listing.inner (l : Listing) : List Char := [','].intercalate (l.items.map Item.chars)

/-- The list as it is written. -/
def Listing.text (l : Listing) : List Char := '(' :: (l.inner ++ [')'])

/-! ## Reading values -/

theorem Quote.isBlank_char (q : Quote) : isBlank q.char = false := by
  cases q with
  | single => rfl
  | double => rfl

theorem isTrim_quoted (q : Quote) (content : List Char) : IsTrim (q.char :: content ++ [q.char]) :=
  ⟨⟨q.char, rfl, q.isBlank_char⟩, ⟨q.char, List.getLast?_concat, q.isBlank_char⟩⟩

theorem unmarked_of_isBare {text : List Char} (h : ∀ c ∈ text, isBare c = true) :
    ¬opening <:+: text := by
  intro hin
  have hbrace : isBare '\x7b' = true := h _ (hin.subset (by simp [opening]))
  cases hbrace

/-- A mark that does not stand in a text does not stand in it with quotes around it either. -/
theorem unmarked_quoted (q : Quote) {content : List Char} (h : ¬opening <:+: content) :
    ¬opening <:+: q.char :: content ++ [q.char] := by
  have hq : q.char ≠ '#' ∧ q.char ≠ '\x7b' := by
    cases q with
    | single => decide
    | double => decide
  have hstart : ¬opening <:+: [q.char] ++ content :=
    unmarked_append (unmarked_singleton _) h (by simp [hq.1])
  exact unmarked_append hstart (unmarked_singleton _) (by simp [hq.2])

theorem Literal.isTrim (v : Literal) : IsTrim v.chars := by
  cases v with
  | quoted v => exact isTrim_quoted v.quote v.content
  | numeral v =>
    exact isTrim_of_forall v.ne_nil fun c hc =>
      isBlank_of_isBare (isBare_of_isDigit (v.isDigit c hc))

theorem Literal.unmarked_chars (v : Literal) : ¬opening <:+: v.chars := by
  cases v with
  | quoted v => exact unmarked_quoted v.quote v.unmarked
  | numeral v => exact unmarked_of_isBare fun c hc => isBare_of_isDigit (v.isDigit c hc)

theorem Literal.whole (v : Literal) (colons : Bool) (within : List Mode) :
    Whole colons within v.chars true := by
  cases v with
  | quoted v => exact whole_quoted v.quote.isQuote_char v.closed
  | numeral v =>
    have hall : v.chars.all Char.isDigit = true := List.all_eq_true.mpr v.isDigit
    rw [← hall]
    exact whole_of_isBare fun c hc => isBare_of_isDigit (v.isDigit c hc)

theorem Word.whole (v : Word) (colons : Bool) (within : List Mode) :
    Whole colons within v.chars false := by
  have hall : v.chars.all Char.isDigit = false := by
    obtain ⟨c, hc, hdigit⟩ := v.nondigit
    exact List.all_eq_false.mpr ⟨c, hc, by simp [hdigit]⟩
  rw [← hall]
  exact whole_of_isBare v.bare

theorem Word.ne_nil (v : Word) : v.chars ≠ [] := by
  obtain ⟨c, hc, -⟩ := v.nondigit
  exact List.ne_nil_of_mem hc

/-! ## Reading lists -/

variable {colons : Bool} {s : State}

/-- An attribute is stored as it is written, whatever the levels around it are. -/
theorem Item.reads (i : Item) (hs : Idle s) :
    ∃ s', Reads colons s (i.chars ++ [',']) [i.entry] s' ∧ Idle s' := by
  obtain ⟨t, hgap, ht, -⟩ : ∃ t, Reads colons s i.gap [] t ∧ Idle t ∧ s.within <:+ t.within :=
    hs.reads_gap i.isBlank
  obtain ⟨s', hreads, hs', -⟩ : ∃ s', Reads colons t (i.name.chars ++ i.value.chars ++ [','])
      [i.entry] s' ∧ Idle s' ∧ s'.within ≠ [] := by
    rw [Item.entry]
    cases i.value with
    | flag =>
      rw [Written.chars, List.append_nil]
      exact ht.reads_flag i.name
    | literal v =>
      exact ht.reads_setting i.name (v.whole colons _) v.isTrim v.unmarked_chars (Or.inl rfl)
    | word v =>
      refine ht.reads_setting i.name (v.whole colons _) ?_ (unmarked_of_isBare v.bare) (Or.inl rfl)
      exact isTrim_of_forall v.ne_nil fun c hc => isBlank_of_isBare (v.bare c hc)
  refine ⟨s', ?_, hs'⟩
  rw [Item.chars, List.append_assoc]
  exact hgap.append hreads

theorem reads_items (items : List Item) (hs : Idle s) :
    ∃ s', Reads colons s (items.flatMap fun i => i.chars ++ [',']) (items.map Item.entry) s' ∧
      Idle s' := by
  induction items generalizing s with
  | nil => exact ⟨s, Reads.nil colons s, hs⟩
  | cons i items ih =>
    obtain ⟨t, hfirst, ht⟩ := i.reads hs
    obtain ⟨s', hrest, hs'⟩ := ih ht
    exact ⟨s', hfirst.append hrest, hs'⟩

theorem intercalate_concat (sep : Char) (text : List Char) (texts : List (List Char)) :
    [sep].intercalate (text :: texts) ++ [sep] = (text :: texts).flatMap (· ++ [sep]) := by
  induction texts generalizing text with
  | nil => simp
  | cons next texts ih =>
    rw [List.intercalate_cons_cons, List.append_assoc, ih]
    simp only [List.flatMap_cons]

/-- A list stores its attributes, as they are written and in order. -/
theorem Listing.entries_inner (l : Listing) (colons : Bool) :
    entries colons l.inner = l.items.map Item.entry := by
  rw [entries, Listing.inner]
  cases l.items with
  | nil => rfl
  | cons i items =>
    obtain ⟨s', ⟨-, hstored⟩, -⟩ := reads_items (i :: items) idle_empty
    rw [List.map_cons, intercalate_concat, ← List.map_cons, List.flatMap_map]
    exact hstored

theorem isOutside_of_class {p : Char → Bool} (hopen : p '(' = false) (hclose : p ')' = false)
    (h : p c = true) : isOutside c = true := by
  have hne : c ≠ '(' := by
    rintro rfl
    exact absurd h (by simp [hopen])
  have hne' : c ≠ ')' := by
    rintro rfl
    exact absurd h (by simp [hclose])
  simp [isOutside, hne, hne']

theorem isOutside_of_isBare (h : isBare c = true) : isOutside c = true :=
  isOutside_of_class (by decide) (by decide) h

theorem isOutside_of_isBlank (h : isBlank c = true) : isOutside c = true :=
  isOutside_of_class (by decide) (by decide) h

theorem isBalanced_of_isBare {text : List Char} (h : ∀ c ∈ text, isBare c = true) :
    isBalanced text = true :=
  isBalanced_of_isOutside fun c hc => isOutside_of_isBare (h c hc)

theorem Literal.isBalanced_chars (v : Literal) : isBalanced v.chars = true := by
  cases v with
  | quoted v =>
    have hquote : isBalanced [v.quote.char] = true := by
      cases v.quote with
      | single => rfl
      | double => rfl
    exact isBalanced_append (isBalanced_append hquote v.balanced) hquote
  | numeral v => exact isBalanced_of_isBare fun c hc => isBare_of_isDigit (v.isDigit c hc)

theorem isBalanced_intercalate {texts : List (List Char)}
    (h : ∀ t ∈ texts, isBalanced t = true) : isBalanced ([','].intercalate texts) = true := by
  induction texts with
  | nil => rfl
  | cons text texts ih =>
    have htext := h text List.mem_cons_self
    have hrest := ih fun t ht => h t (List.mem_cons_of_mem _ ht)
    cases texts with
    | nil => simpa using htext
    | cons next texts =>
      rw [List.intercalate_cons_cons]
      exact isBalanced_append (isBalanced_append htext rfl) hrest

theorem Written.isBalanced_chars (w : Written) : isBalanced w.chars = true := by
  cases w with
  | flag => rfl
  | literal v => exact isBalanced_append (a := ['=']) rfl v.isBalanced_chars
  | word v => exact isBalanced_append (a := ['=']) rfl (isBalanced_of_isBare v.bare)

theorem Item.isBalanced_chars (i : Item) : isBalanced i.chars = true :=
  isBalanced_append (isBalanced_of_isOutside fun c hc => isOutside_of_isBlank (i.isBlank c hc))
    (isBalanced_append (isBalanced_of_isBare i.name.bare) i.value.isBalanced_chars)

theorem Listing.isBalanced_inner (l : Listing) : isBalanced l.inner = true := by
  apply isBalanced_intercalate
  intro text htext
  obtain ⟨i, -, rfl⟩ := List.mem_map.mp htext
  exact i.isBalanced_chars

/-- The table of a list has its names in order, each with its value. -/
theorem Listing.items_read (l : Listing) (colons : Bool) :
    (read colons l.inner).table.items =
      l.items.map fun i => (i.name.text, some i.value.attr) := by
  have hnodup : ((l.items.map fun i => i.entry.pair).map Prod.fst).Nodup := by
    rw [List.map_map]
    exact l.distinct
  rw [read_table, l.entries_inner, List.map_map]
  refine (Table.items_storeAll Table.consistent_empty hnodup (by simp)).trans ?_
  rw [List.map_map]
  rfl

theorem Listing.mem_fixed (l : Listing) (colons : Bool) (k : String) :
    k ∈ (read colons l.inner).fixed ↔
      ∃ i ∈ l.items, i.name.text = k ∧ i.value.isFixed = true := by
  rw [mem_read_fixed, l.entries_inner]
  simp only [List.mem_map, exists_exists_and_eq_and]
  exact exists_congr fun i => and_congr_right fun _ => and_comm

/-- **A list of attributes is read as it is written.** Whatever follows it, the token holds the
names in order, each with its value, the fixed ones are those without a value, with a quoted text or
with a numeral, and what follows is left. This holds with and without colons as equals signs. -/
theorem Listing.scan_written (l : Listing) (s : Source) (rest : List Char) :
    ∃ table fixed, Source.Scanner.attrs.run { s with rest := l.text ++ rest } =
        (.ok (some ⟨.attrs table fixed, s.line⟩), { s with rest }) ∧
      table.items = (l.items.map fun i => (i.name.text, some i.value.attr)) ∧
      ∀ k, k ∈ fixed ↔ ∃ i ∈ l.items, i.name.text = k ∧ i.value.isFixed = true :=
  ⟨_, _, Source.run_attrs_of_isBalanced l.isBalanced_inner s rest, l.items_read s.colons,
    l.mem_fixed s.colons⟩

end Jade.AttributeList

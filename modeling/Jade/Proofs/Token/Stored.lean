import Jade.Proofs.Table
import Jade.Token.AttributeList

/-!
# What an attribute list stores

An attribute list is read character by character, and what is read is stored at separators. This
module says once what a character does: it ends an attribute, or it is taken into the name or the
value or neither. What a whole text stores follows from that: the table and the names of fixed
values are those of the attributes that ended in it, in order.

## Main results

* `Jade.AttributeList.step_cases` : all that a character can do
* `Jade.AttributeList.table_run`, `mem_fixed_run` : a text
* `Jade.AttributeList.read_table`, `mem_read_fixed` : a list
-/

namespace Jade.AttributeList

/-- An attribute that was read to its end. -/
structure Entry where
  /-- The name under which the value is stored. -/
  key : String
  /-- The value. -/
  value : AttrText
  /-- Whether the value is fixed. -/
  isFixed : Bool
  deriving DecidableEq, Repr

/-- The pair that goes into the table. -/
def Entry.pair (e : Entry) : String × AttrText := (e.key, e.value)

variable {colons : Bool} {s : State} {c : Char}

/-- The attribute that a separator ends in this state. -/
def State.entry (s : State) : Entry :=
  let name := strip s.key
  let marked := !s.fixedSoFar && name.endsWith "!"
  let sum := interpolate s.quote (strip s.val)
  { key := stripQuotes (if marked then String.ofList name.toList.dropLast else name)
    value := if (strip s.val).isEmpty then .flag else .expr sum.1
    isFixed := (s.fixedSoFar || marked) && !sum.2 }

theorem State.value_entry (s : State) : s.entry.value =
    if (strip s.val).isEmpty then .flag else .expr (interpolate s.quote (strip s.val)).1 := by
  simp only [State.entry]

/-- The state after an attribute was stored. -/
def State.store (s : State) (e : Entry) : State where
  within := .key :: s.within
  table := s.table.set e.key e.value
  fixed := if e.isFixed then addFixed s.fixed e.key else s.fixed

theorem interpolate_empty (quote : String) : interpolate quote "" = ("", false) := rfl

theorem State.finish_of_isEmpty (h : (strip s.key).isEmpty = true) :
    s.finish = { s.push .key with val := strip s.val, key := strip s.key } := by
  simp only [State.finish, State.push, h, if_true]

theorem State.finish_eq_store (h : (strip s.key).isEmpty = false) : s.finish = s.store s.entry := by
  have hkey : ¬(strip s.key).isEmpty = true := by simp [h]
  rw [State.finish]
  refine (if_neg hkey).trans ?_
  by_cases hval : (strip s.val).isEmpty = true
  · refine (if_pos hval).trans ?_
    have hempty : strip s.val = "" := String.isEmpty_iff.mp hval
    simp only [State.store, State.entry, hempty, interpolate_empty, State.push, Bool.not_false,
      Bool.and_true]
    rfl
  · refine (if_neg hval).trans ?_
    simp only [State.store, State.entry, if_neg hval, State.push]
    rfl

/-! ## One character

The step is opened only here. Each lemma says what one kind of character does. -/

/-- The state with a note that the value is computed, if it is being read within brackets. -/
def State.noted (s : State) : State :=
  { s with fixedSoFar := s.fixedSoFar && !s.mode.isComputed }

theorem State.noted_of_not_isComputed (h : s.mode.isComputed = false) : s.noted = s := by
  simp [State.noted, h]

/-- An opening or closing bracket. -/
def isBracket (c : Char) : Bool :=
  c == '(' || c == ')' || c == '\x7b' || c == '\x7d' || c == '[' || c == ']'

/-- A quote of either kind. -/
def isQuote (c : Char) : Bool := c == '"' || c == '\''

/-- An equals sign, or a colon where it counts as one. -/
def isEquals (colons : Bool) (c : Char) : Bool := c == '=' || colons && c == ':'

/-- A character with no role of its own, separators included. -/
def isPlain (colons : Bool) (c : Char) : Bool :=
  !(isEquals colons c || isBracket c || isQuote c)

theorem step_separator (h : s.isSeparator c = true) :
    step colons s c = if s.mode.holdsSeparators then s.noted.addVal c else s.noted.finish := by
  have hcolon : ¬(colons && c == ':') = true := by
    intro hc
    have : c = ':' := by simp at hc; exact hc.2
    subst this
    exact absurd h (by simp [State.isSeparator])
  simp only [step, if_neg hcolon]
  exact if_pos h

theorem step_equals (h : isEquals colons c = true) : step colons s c = s.noted.equals c := by
  have hc : (if (colons && c == ':') = true then '=' else c) = '=' := by
    simp only [isEquals, Bool.or_eq_true, beq_iff_eq] at h
    by_cases hcolon : (colons && c == ':') = true
    · exact if_pos hcolon
    · simpa [hcolon] using h
  simp only [step, hc]
  exact (if_neg (by simp [State.isSeparator])).trans (if_pos rfl)

/-- The levels after a bracket. In a name and within a quoted text it opens and closes none. -/
def turn (c : Char) (within : List Mode) : List Mode :=
  let m := within.headD .key
  if c == '(' && (m == .value || m == .expr) then .expr :: within
  else if c == '\x7b' && m == .value then .object :: within
  else if c == '[' && m == .value then .array :: within
  else if c == ')' && (m == .value || m == .expr) || c == '\x7d' && m == .object ||
      c == ']' && m == .array then within.tail
  else within

/-- A character that goes to the value and moves to other levels if a condition holds. -/
theorem step_of_turn {b : Bool} {t : State} (ht : t = { s.noted with within := t.within })
    (hstep : step colons s c = (if b then t else s.noted).addVal c)
    (hturn : turn c s.within = if b then t.within else s.within) :
    step colons s c = { s.noted.addVal c with within := turn c s.within } := by
  rw [hstep, hturn]
  cases b with
  | true => rw [ht]; rfl
  | false => rfl

theorem step_bracket (colons : Bool) (s : State) (h : isBracket c = true) :
    step colons s c = { s.noted.addVal c with within := turn c s.within } := by
  simp only [isBracket, Bool.or_eq_true, beq_iff_eq] at h
  rcases h with ((((rfl | rfl) | rfl) | rfl) | rfl) | rfl
  · refine step_of_turn (b := s.mode == .value || s.mode == .expr) (t := s.noted.push .expr) rfl
      ?_ ?_
    · simp [step, State.isSeparator, State.noted, State.mode]
    · simp [turn, State.noted, State.mode, State.push]
  · refine step_of_turn (b := s.mode == .value || s.mode == .expr) (t := s.noted.pop) rfl ?_ ?_
    · simp [step, State.isSeparator, State.noted, State.mode]
    · simp [turn, State.noted, State.mode, State.pop]
  · refine step_of_turn (b := s.mode == .value) (t := s.noted.push .object) rfl ?_ ?_
    · simp [step, State.isSeparator, State.noted, State.mode]
    · simp [turn, State.noted, State.mode, State.push]
  · refine step_of_turn (b := s.mode == .object) (t := s.noted.pop) rfl ?_ ?_
    · simp [step, State.isSeparator, State.noted, State.mode]
    · simp [turn, State.noted, State.mode, State.pop]
  · refine step_of_turn (b := s.mode == .value) (t := s.noted.push .array) rfl ?_ ?_
    · simp [step, State.isSeparator, State.noted, State.mode]
    · simp [turn, State.noted, State.mode, State.push]
  · refine step_of_turn (b := s.mode == .array) (t := s.noted.pop) rfl ?_ ?_
    · simp [step, State.isSeparator, State.noted, State.mode]
    · simp [turn, State.noted, State.mode, State.pop]

theorem step_quote (h : isQuote c = true) : step colons s c = s.noted.quoteMark c := by
  simp only [isQuote, Bool.or_eq_true, beq_iff_eq] at h
  rcases h with rfl | rfl
  · simp [step, State.isSeparator, State.noted]
  · simp [step, State.isSeparator, State.noted]

theorem step_plain (h : isPlain colons c = true) (hsep : s.isSeparator c = false) :
    step colons s c = s.noted.plain c := by
  simp only [isPlain, isEquals, isBracket, isQuote, Bool.not_eq_true', Bool.or_eq_false_iff,
    beq_eq_false_iff_ne] at h
  have hsep' : s.noted.isSeparator c = false := hsep
  simp only [State.noted] at hsep'
  simp [step, h, hsep', State.noted]

/-- Whether a character separates attributes here. -/
def State.breaks (s : State) (c : Char) : Bool := s.isSeparator c && !s.mode.holdsSeparators

/-- Whether a character ends an attribute that has a name. -/
def State.ends (s : State) (c : Char) : Bool := s.breaks c && !(strip s.key).isEmpty

theorem step_breaks (h : s.breaks c = true) : step colons s c = s.finish := by
  obtain ⟨hsep, hheld⟩ : s.isSeparator c = true ∧ s.mode.holdsSeparators = false := by
    simpa [State.breaks] using h
  have hcomputed : s.mode.isComputed = false := by
    cases hm : s.mode <;> simp_all [Mode.holdsSeparators, Mode.isComputed]
  rw [step_separator hsep, if_neg (by simp [hheld]), State.noted_of_not_isComputed hcomputed]

theorem step_ends (h : s.ends c = true) : step colons s c = s.store s.entry := by
  obtain ⟨hbreaks, hkey⟩ : s.breaks c = true ∧ (strip s.key).isEmpty = false := by
    simpa [State.ends] using h
  rw [step_breaks hbreaks, State.finish_eq_store hkey]

/-- A separator with no name before it starts a name and leaves the value, but for blanks. -/
theorem step_nameless (h : s.breaks c = true) (hkey : (strip s.key).isEmpty = true) :
    step colons s c = { s.push .key with val := strip s.val, key := strip s.key } := by
  rw [step_breaks h, State.finish_of_isEmpty hkey]

/-- Whether a value that was fixed so far stays so with a character read in this mode. -/
def keepsFixed (colons : Bool) (m : Mode) (c : Char) : Bool :=
  !m.isComputed && (m == .key || m == .string || c.isDigit || !isPlain colons c)

/-- `s'` is `s` after a character that separates nothing was taken into the name, into the value or
into neither. -/
structure Absorbs (colons : Bool) (s : State) (c : Char) (s' : State) : Prop where
  table : s'.table = s.table
  fixed : s'.fixed = s.fixed
  fixedSoFar : s'.fixedSoFar = (s.fixedSoFar && keepsFixed colons s.mode c)
  quote : s'.quote = s.quote ∨ isQuote c = true ∧ s'.quote = String.singleton c
  texts : s'.key = s.key ∧ s'.val = s.val ∨ s'.key = s.key.push c ∧ s'.val = s.val ∨
    s'.key = s.key ∧ s'.val = s.val.push c

theorem char_cases (colons : Bool) (c : Char) : isEquals colons c = true ∨ isBracket c = true ∨
    isQuote c = true ∨ isPlain colons c = true := by
  cases h₁ : isEquals colons c <;> cases h₂ : isBracket c <;> cases h₃ : isQuote c <;>
    simp [isPlain, h₁, h₂, h₃]

/-- A character with a role of its own leaves a fixed value fixed, but for a note that it was read
within brackets. -/
theorem Absorbs.of_role {s' : State} (hc : isPlain colons c = false)
    (htable : s'.table = s.table) (hfixed : s'.fixed = s.fixed)
    (hsofar : s'.fixedSoFar = s.noted.fixedSoFar)
    (hquote : s'.quote = s.quote ∨ isQuote c = true ∧ s'.quote = String.singleton c)
    (htexts : s'.key = s.key ∧ s'.val = s.val ∨ s'.key = s.key.push c ∧ s'.val = s.val ∨
      s'.key = s.key ∧ s'.val = s.val.push c) : Absorbs colons s c s' where
  table := htable
  fixed := hfixed
  fixedSoFar := by simp [hsofar, State.noted, keepsFixed, hc]
  quote := hquote
  texts := htexts

theorem absorbs_equals (hc : isEquals colons c = true) :
    Absorbs colons s c (s.noted.equals c) := by
  have hplain : isPlain colons c = false := by simp [isPlain, hc]
  have hval : Absorbs colons s c (s.noted.addVal c) :=
    .of_role hplain rfl rfl rfl (Or.inl rfl) (Or.inr (Or.inr ⟨rfl, rfl⟩))
  rw [State.equals]
  split
  · exact .of_role hplain rfl rfl rfl (Or.inl rfl) (Or.inr (Or.inl ⟨rfl, rfl⟩))
  · exact hval
  · exact hval
  · exact hval
  · exact hval
  · exact hval
  · exact .of_role hplain rfl rfl rfl (Or.inl rfl) (Or.inl ⟨rfl, rfl⟩)

theorem absorbs_quoteMark (hc : isQuote c = true) :
    Absorbs colons s c (s.noted.quoteMark c) := by
  have hplain : isPlain colons c = false := by simp [isPlain, hc]
  rw [State.quoteMark]
  split
  · exact .of_role hplain rfl rfl rfl (Or.inl rfl) (Or.inl ⟨rfl, rfl⟩)
  · exact .of_role hplain rfl rfl rfl (Or.inl rfl) (Or.inl ⟨rfl, rfl⟩)
  · split
    · exact .of_role hplain rfl rfl rfl (Or.inl rfl) (Or.inr (Or.inr ⟨rfl, rfl⟩))
    · exact .of_role hplain rfl rfl rfl (Or.inl rfl) (Or.inr (Or.inr ⟨rfl, rfl⟩))
  · exact .of_role hplain rfl rfl rfl (Or.inr ⟨hc, rfl⟩) (Or.inr (Or.inr ⟨rfl, rfl⟩))

theorem absorbs_plain (hc : isPlain colons c = true) : Absorbs colons s c (s.noted.plain c) := by
  have hsofar : (s.noted.fixedSoFar && (s.mode == .key || s.mode == .string || c.isDigit)) =
      (s.fixedSoFar && keepsFixed colons s.mode c) := by
    simp [State.noted, keepsFixed, hc, Bool.and_assoc]
  rw [State.plain]
  split
  · exact ⟨rfl, rfl, hsofar, Or.inl rfl, Or.inr (Or.inl ⟨rfl, rfl⟩)⟩
  · exact ⟨rfl, rfl, hsofar, Or.inl rfl, Or.inr (Or.inr ⟨rfl, rfl⟩)⟩

theorem absorbs_step (colons : Bool) (h : s.breaks c = false) :
    Absorbs colons s c (step colons s c) := by
  by_cases hsep : s.isSeparator c = true
  · have hheld : s.mode.holdsSeparators = true := by simpa [State.breaks, hsep] using h
    rw [step_separator hsep, if_pos hheld]
    refine ⟨rfl, rfl, ?_, Or.inl rfl, Or.inr (Or.inr ⟨rfl, rfl⟩)⟩
    cases hm : s.mode <;>
      simp_all [Mode.holdsSeparators, State.noted, State.addVal, keepsFixed, Mode.isComputed]
  · rcases char_cases colons c with hc | hc | hc | hc
    · rw [step_equals hc]
      exact absorbs_equals hc
    · rw [step_bracket colons s hc]
      exact .of_role (by simp [isPlain, hc]) rfl rfl rfl (Or.inl rfl) (Or.inr (Or.inr ⟨rfl, rfl⟩))
    · rw [step_quote hc]
      exact absorbs_quoteMark hc
    · rw [step_plain hc (by simpa using hsep)]
      exact absorbs_plain hc

/-- All that a character can do: it ends an attribute, it separates with no name before it, or it is
taken up. -/
theorem step_cases (colons : Bool) (s : State) (c : Char) :
    s.ends c = true ∧ step colons s c = s.store s.entry ∨
      s.ends c = false ∧
        step colons s c = { s.push .key with val := strip s.val, key := strip s.key } ∨
      s.ends c = false ∧ Absorbs colons s c (step colons s c) := by
  by_cases hbreaks : s.breaks c = true
  · by_cases hkey : (strip s.key).isEmpty = true
    · exact Or.inr (Or.inl ⟨by simp [State.ends, hkey], step_nameless hbreaks hkey⟩)
    · have hends : s.ends c = true := by simp [State.ends, hbreaks, hkey]
      exact Or.inl ⟨hends, step_ends hends⟩
  · have hbreaks' : s.breaks c = false := by simpa using hbreaks
    exact Or.inr (Or.inr ⟨by simp [State.ends, hbreaks'], absorbs_step colons hbreaks'⟩)

/-! ## A text -/

/-- The attributes that end in a text, in order. -/
def stored (colons : Bool) (s : State) : List Char → List Entry
  | [] => []
  | c :: cs =>
    if s.ends c then s.entry :: stored colons (step colons s c) cs
    else stored colons (step colons s c) cs

theorem stored_append (colons : Bool) (s : State) (as bs : List Char) :
    stored colons s (as ++ bs) =
      stored colons s as ++ stored colons (as.foldl (step colons) s) bs := by
  induction as generalizing s with
  | nil => rfl
  | cons c as ih =>
    rw [List.cons_append, stored, stored, List.foldl_cons, ih]
    split
    · rfl
    · rfl

theorem stored_cons_eq_nil {cs : List Char} (h : stored colons s (c :: cs) = []) :
    s.ends c = false ∧ stored colons (step colons s c) cs = [] := by
  rw [stored] at h
  by_cases hends : s.ends c = true
  · rw [if_pos hends] at h
    exact absurd h (List.cons_ne_nil _ _)
  · rw [if_neg hends] at h
    exact ⟨by simpa using hends, h⟩

theorem table_step_of_not_ends (h : s.ends c = false) :
    (step colons s c).table = s.table ∧ (step colons s c).fixed = s.fixed := by
  obtain ⟨hends, -⟩ | ⟨-, hstep⟩ | ⟨-, habsorbs⟩ := step_cases colons s c
  · exact absurd h (by simp [hends])
  · rw [hstep]
    exact ⟨rfl, rfl⟩
  · exact ⟨habsorbs.table, habsorbs.fixed⟩

/-- The table after a text holds the attributes that ended in it. -/
theorem table_run (colons : Bool) (s : State) (cs : List Char) :
    (cs.foldl (step colons) s).table =
      s.table.storeAll ((stored colons s cs).map Entry.pair) := by
  induction cs generalizing s with
  | nil => rfl
  | cons c cs ih =>
    rw [List.foldl_cons, ih, stored]
    split
    · next h => rw [step_ends h, List.map_cons, Table.storeAll_cons, State.store, Entry.pair]
    · next h => rw [(table_step_of_not_ends (by simpa using h)).1]

theorem mem_addFixed {fixed : List String} {name k : String} :
    k ∈ addFixed fixed name ↔ k ∈ fixed ∨ k = name := by
  rw [addFixed]
  split
  · next h =>
    rw [or_iff_left_of_imp]
    rintro rfl
    exact List.contains_iff_mem.mp h
  · rw [List.mem_append, List.mem_singleton]

/-- The names of fixed values after a text are those before it and those of the attributes with
fixed values that ended in it. -/
theorem mem_fixed_run (colons : Bool) (s : State) (cs : List Char) (k : String) :
    k ∈ (cs.foldl (step colons) s).fixed ↔
      k ∈ s.fixed ∨ ∃ e ∈ stored colons s cs, e.isFixed = true ∧ e.key = k := by
  induction cs generalizing s with
  | nil => simp [stored]
  | cons c cs ih =>
    rw [List.foldl_cons, ih, stored]
    split
    · next h =>
      rw [step_ends h, State.store]
      by_cases hfixed : s.entry.isFixed = true
      · simp only [hfixed, if_true, mem_addFixed, List.mem_cons, exists_eq_or_imp, true_and,
          or_assoc, eq_comm]
      · simp [hfixed]
    · next h => rw [(table_step_of_not_ends (by simpa using h)).2]

/-- What a whole list stores; its end separates too. -/
def entries (colons : Bool) (text : List Char) : List Entry := stored colons {} (text ++ [','])

theorem read_table (colons : Bool) (text : List Char) :
    (read colons text).table = ({} : Table String AttrText).storeAll
      ((entries colons text).map Entry.pair) :=
  table_run colons {} (text ++ [','])

theorem mem_read_fixed (colons : Bool) (text : List Char) (k : String) :
    k ∈ (read colons text).fixed ↔ ∃ e ∈ entries colons text, e.isFixed = true ∧ e.key = k := by
  rw [read, mem_fixed_run]
  simp [entries]

end Jade.AttributeList

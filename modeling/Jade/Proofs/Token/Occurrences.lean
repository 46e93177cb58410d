import Jade.Proofs.Token.Delimiters
import Jade.Proofs.Token.Stored
import Jade.Proofs.Token.Sums

/-!
# Fixed values and repeated names

The token of an attribute list has a table, in which a later value replaces an earlier one of the
same name, and the names of fixed values, which only grow. So a name is among the fixed ones if
*one* of its occurrences in the list was fixed, while the value in the table is that of the last
one.

Whether an occurrence is fixed is said here without the reader's flag, from the characters that were
read for it: each of them, with the mode in which it was read, keeps a value fixed or does not. A
mark at the end of the name overrules that, and an interpolation in the value overrules both.

## Main results

* `Jade.AttributeList.stored_eq_map_entry` : a list stores its occurrences
* `Jade.AttributeList.scan_fixed_iff` : the table and the fixed names of any list
-/

namespace Jade.AttributeList

variable {colons : Bool} {s : State} {run : List (Mode × Char)}

/-! ## Occurrences -/

/-- An attribute as it was read. -/
structure Occurrence where
  /-- The name, without the blanks around it. -/
  name : String
  /-- The value, without the blanks around it. -/
  text : String
  /-- The quote that opened the last quoted text of the value. -/
  quote : String
  /-- The characters that were read for it, each with the mode in which it was read. -/
  read : List (Mode × Char)

/-- Whether every character that was read leaves a value fixed. -/
def isPure (colons : Bool) (run : List (Mode × Char)) : Bool :=
  run.all fun p => keepsFixed colons p.1 p.2

/-- The name under which the value is stored. A mark is dropped only if it has an effect. -/
def Occurrence.key (colons : Bool) (o : Occurrence) : String :=
  stripQuotes (if !isPure colons o.read && o.name.endsWith "!" then
    String.ofList o.name.toList.dropLast else o.name)

/-- The value that is stored. -/
def Occurrence.value (o : Occurrence) : AttrText :=
  if o.text.isEmpty then .flag else .expr (interpolate o.quote o.text).1

/-- The value is fixed: by its characters or by a mark at the name, and without an interpolation. -/
def Occurrence.IsLiteral (colons : Bool) (o : Occurrence) : Prop :=
  (isPure colons o.read = true ∨ o.name.endsWith "!" = true) ∧ ¬HasInterpolation o.text.toList

/-- The attribute as it is stored. -/
def Occurrence.entry (colons : Bool) (o : Occurrence) : Entry where
  key := o.key colons
  value := o.value
  isFixed := (isPure colons o.read || o.name.endsWith "!") && !(interpolate o.quote o.text).2

theorem Occurrence.isFixed_entry_iff (o : Occurrence) :
    (o.entry colons).isFixed = true ↔ o.IsLiteral colons := by
  have hsum := interpolate_snd_iff o.quote o.text.toList
  rw [String.ofList_toList] at hsum
  simp [Occurrence.entry, Occurrence.IsLiteral, ← hsum]

/-- The attributes that end in a text, if `run` was read for the first of them so far. Separators
are no part of an attribute. -/
def occurrencesFrom (colons : Bool) (s : State) (run : List (Mode × Char)) :
    List Char → List Occurrence
  | [] => []
  | c :: cs =>
    if s.ends c then
      ⟨strip s.key, strip s.val, s.quote, run⟩ :: occurrencesFrom colons (step colons s c) [] cs
    else if s.breaks c then occurrencesFrom colons (step colons s c) run cs
    else occurrencesFrom colons (step colons s c) (run ++ [(s.mode, c)]) cs

/-- The attributes of a list; its end separates too. -/
def occurrences (colons : Bool) (text : List Char) : List Occurrence :=
  occurrencesFrom colons {} [] (text ++ [','])

/-- The last attribute that is stored under a name. -/
def lastOf (colons : Bool) (os : List Occurrence) (k : String) : Option Occurrence :=
  os.reverse.find? fun o => o.key colons == k

/-! ## What is stored -/

theorem State.entry_eq (h : s.fixedSoFar = isPure colons run) :
    s.entry = (⟨strip s.key, strip s.val, s.quote, run⟩ : Occurrence).entry colons := by
  simp only [State.entry, Occurrence.entry, Occurrence.key, Occurrence.value, h]
  cases isPure colons run with
  | true => simp
  | false => simp

/-- What a text stores are the attributes that end in it. The flag of the state is the conjunction
over the characters that were read, which is what the induction carries along. -/
theorem stored_eq_map_entry (colons : Bool) (cs : List Char)
    (h : s.fixedSoFar = isPure colons run) :
    stored colons s cs = (occurrencesFrom colons s run cs).map (Occurrence.entry colons) := by
  induction cs generalizing s run with
  | nil => rfl
  | cons c cs ih =>
    rw [stored, occurrencesFrom]
    by_cases hends : s.ends c = true
    · have hrest : (step colons s c).fixedSoFar = isPure colons [] := by
        rw [step_ends hends]
        rfl
      rw [if_pos hends, if_pos hends, List.map_cons, ← State.entry_eq h, ih hrest]
    · rw [if_neg hends, if_neg hends]
      by_cases hbreaks : s.breaks c = true
      · have hkey : (strip s.key).isEmpty = true := by simpa [State.ends, hbreaks] using hends
        have hrest : (step colons s c).fixedSoFar = isPure colons run := by
          rw [step_nameless hbreaks hkey]
          exact h
        rw [if_pos hbreaks, ih hrest]
      · have hrest : (step colons s c).fixedSoFar = isPure colons (run ++ [(s.mode, c)]) := by
          rw [(absorbs_step colons (by simpa using hbreaks)).fixedSoFar, h]
          simp [isPure]
        rw [if_neg hbreaks, ih hrest]

theorem entries_eq_map_entry (colons : Bool) (text : List Char) :
    entries colons text = (occurrences colons text).map (Occurrence.entry colons) :=
  stored_eq_map_entry colons (text ++ [',']) rfl

theorem get?_read_table (colons : Bool) (text : List Char) (k : String) :
    (read colons text).table.get? k =
      (lastOf colons (occurrences colons text) k).map Occurrence.value := by
  have hempty : ({} : Table String AttrText).get? k = none := rfl
  rw [read_table, Table.get?_storeAll, hempty, Option.or_none, entries_eq_map_entry, List.map_map,
    ← List.map_reverse, List.find?_map, Option.map_map, lastOf]
  rfl

theorem isSome_lastOf_iff (os : List Occurrence) (k : String) :
    (lastOf colons os k).isSome = true ↔ ∃ o ∈ os, o.key colons = k := by
  simp [lastOf, List.find?_isSome]

theorem mem_keys_read_table (colons : Bool) (text : List Char) (k : String) :
    k ∈ (read colons text).table.keys ↔ ∃ o ∈ occurrences colons text, o.key colons = k := by
  rw [read_table, Table.mem_keys_storeAll Table.consistent_empty, entries_eq_map_entry]
  simp [Occurrence.entry, Entry.pair]

theorem mem_read_fixed_iff (colons : Bool) (text : List Char) (k : String) :
    k ∈ (read colons text).fixed ↔
      ∃ o ∈ occurrences colons text, o.key colons = k ∧ o.IsLiteral colons := by
  rw [mem_read_fixed, entries_eq_map_entry]
  simp only [List.mem_map, exists_exists_and_eq_and, Occurrence.isFixed_entry_iff]
  exact exists_congr fun o => and_congr_right fun _ => and_comm

theorem mem_of_lastOf {os : List Occurrence} {k : String} {o : Occurrence}
    (h : lastOf colons os k = some o) : o ∈ os ∧ o.key colons = k := by
  have hmem := List.mem_of_find?_eq_some h
  have hkey := List.find?_some h
  exact ⟨List.mem_reverse.mp hmem, by simpa using hkey⟩

/-! ## Tokens -/

theorem body_of_attrs? {cs rest : List Char} {body : Token.Body}
    (h : Rules.attrs? colons cs = some (body, rest)) :
    body = .attrs (read colons (inside cs)).table (read colons (inside cs)).fixed := by
  revert h
  fun_cases Rules.attrs? colons cs with
  | case1 cs =>
    intro h
    exact (congrArg Prod.fst (Option.some.inj h)).symm
  | case2 cs hno =>
    intro h
    cases h

theorem body_of_run_attrs {s s' : Source} {t : Token}
    (h : Source.Scanner.attrs.run s = (.ok (some t), s')) :
    t.body =
      .attrs (read s.colons (inside s.rest)).table (read s.colons (inside s.rest)).fixed := by
  rw [Source.Scanner.run] at h
  split at h
  · cases h
  · cases hattrs : Rules.attrs? s.colons s.rest with
    | none => simp [Source.scan, hattrs] at h
    | some found =>
      simp only [Source.scan, hattrs, Prod.mk.injEq, Except.ok.injEq, Option.some.injEq] at h
      rw [← h.1]
      exact body_of_attrs? hattrs

/-- **The names of fixed values.** Whenever an attribute list gives a token: the table has the names
that occur in the list, each with the value of its last occurrence, and a name is among the fixed
ones if one of its occurrences is fixed. So the fixed names say whether the value in the table is
fixed just for those names of which the last occurrence is fixed, or none is. -/
theorem scan_fixed_iff {s s' : Source} {t : Token}
    (h : Source.Scanner.attrs.run s = (.ok (some t), s')) :
    ∃ table fixed os, t.body = .attrs table fixed ∧ os = occurrences s.colons (inside s.rest) ∧
      (∀ k, k ∈ table.keys ↔ ∃ o ∈ os, o.key s.colons = k) ∧
      (∀ k, table.get? k = (lastOf s.colons os k).map Occurrence.value) ∧
      (∀ k, k ∈ fixed ↔ ∃ o ∈ os, o.key s.colons = k ∧ o.IsLiteral s.colons) ∧
      ∀ k, (k ∈ fixed ↔ ∃ o, lastOf s.colons os k = some o ∧ o.IsLiteral s.colons) ↔
        (∀ o, lastOf s.colons os k = some o → o.IsLiteral s.colons) ∨
          ∀ o ∈ os, o.key s.colons = k → ¬o.IsLiteral s.colons := by
  have hfixed := mem_read_fixed_iff s.colons (inside s.rest)
  refine ⟨_, _, _, body_of_run_attrs h, rfl, mem_keys_read_table _ _, get?_read_table _ _, hfixed,
    ?_⟩
  intro k
  rw [hfixed]
  constructor
  · intro hexact
    by_cases hnone : ∃ o ∈ occurrences s.colons (inside s.rest), o.key s.colons = k ∧
        o.IsLiteral s.colons
    · obtain ⟨last, hlast, hliteral⟩ := hexact.mp hnone
      left
      intro o ho
      obtain rfl : last = o := Option.some.inj (hlast.symm.trans ho)
      exact hliteral
    · right
      intro o ho hkey hliteral
      exact hnone ⟨o, ho, hkey, hliteral⟩
  · rintro (hlast | hnone)
    · constructor
      · rintro ⟨o, ho, hkey, -⟩
        have hsome := (isSome_lastOf_iff _ k).mpr ⟨o, ho, hkey⟩
        obtain ⟨last, heq⟩ := Option.isSome_iff_exists.mp hsome
        exact ⟨last, heq, hlast last heq⟩
      · rintro ⟨last, heq, hliteral⟩
        obtain ⟨hmem, hkey⟩ := mem_of_lastOf heq
        exact ⟨last, hmem, hkey, hliteral⟩
    · refine iff_of_false ?_ ?_
      · rintro ⟨o, ho, hkey, hliteral⟩
        exact hnone o ho hkey hliteral
      · rintro ⟨last, heq, hliteral⟩
        obtain ⟨hmem, hkey⟩ := mem_of_lastOf heq
        exact hnone last hmem hkey hliteral

/-- In a list with a repeated name and a mark, the fixed names are those with a fixed occurrence. -/
theorem scan_fixed_iff_repeated : ∃ table fixed,
    Source.Scanner.attrs.run { rest := "(a=1,a=b,c!=d)e".toList } =
      (.ok (some ⟨.attrs table fixed, 1⟩), { rest := ['e'] }) ∧
    ∀ k, k ∈ fixed ↔ ∃ o ∈ occurrences false "a=1,a=b,c!=d".toList,
      o.key false = k ∧ o.IsLiteral false := by
  have hrun : Source.Scanner.attrs.run { rest := "(a=1,a=b,c!=d)e".toList } =
      (.ok (some ⟨.attrs (read false "a=1,a=b,c!=d".toList).table
        (read false "a=1,a=b,c!=d".toList).fixed, 1⟩), { rest := ['e'] }) := rfl
  obtain ⟨table, fixed, os, hbody, rfl, -, -, hfixed, -⟩ := scan_fixed_iff hrun
  obtain ⟨rfl, rfl⟩ := Token.Body.attrs.inj hbody
  exact ⟨_, _, hrun, hfixed⟩

/-- A name whose last value is computed stays among the fixed names if an earlier value was
fixed. -/
theorem scan_fixed_stale : ∃ table fixed table' fixed',
    Source.Scanner.attrs.run { rest := "(a=1,a=b)".toList } =
      (.ok (some ⟨.attrs table fixed, 1⟩), { rest := [] }) ∧
    table.get? "a" = some (.expr "b") ∧ "a" ∈ fixed ∧
    Source.Scanner.attrs.run { rest := "(a=b)".toList } =
      (.ok (some ⟨.attrs table' fixed', 1⟩), { rest := [] }) ∧
    table'.get? "a" = some (.expr "b") ∧ "a" ∉ fixed' :=
  ⟨_, _, _, _, rfl, by decide +kernel, by decide +kernel, rfl, by decide +kernel, by decide +kernel⟩

end Jade.AttributeList

import Jade.Proofs.Token.Listed

/-!
# Attribute lists with blanks between the attributes

A blank separates attributes like a comma only at the head of a list. It ends a value only if that
value stands alone, which the number of levels tells, and the levels of an attribute are never
closed: from the second attribute on, a blank is a character of the value like any other. What is
written after it belongs to the value up to the next comma, and a value with more than one setting
in it is not fixed.

So a list of settings with a comma or a blank in each gap is read as its first setting and the
*runs* of the others, cut at the commas. It is read as with commas throughout if only the first gap
has a blank, and if the names are distinct then only in that case.

## Main results

* `Jade.AttributeList.Spaced.scan_runs` : the reading, and when it is the one with commas
-/

namespace Jade.AttributeList

/-! ## Lists -/

/-- A name with a fixed value. -/
structure Setting where
  name : Name
  value : Literal

/-- The setting as it is written. -/
def Setting.chars (p : Setting) : List Char := p.name.chars ++ '=' :: p.value.chars

/-- The setting as it is stored if it stands for itself. -/
def Setting.entry (p : Setting) : Entry := ⟨p.name.text, .expr (String.ofList p.value.chars), true⟩

/-- What stands between two settings. -/
inductive Gap where
  | comma
  | blank
  deriving DecidableEq, Repr

/-- The gap as it is written. -/
def Gap.char : Gap → Char
  | comma => ','
  | blank => ' '

/-- A list of one or more settings. -/
structure Spaced where
  first : Setting
  others : List (Gap × Setting)

/-- Settings with the gaps before them, as they are written. -/
def gapped (others : List (Gap × Setting)) : List Char :=
  others.flatMap fun p => p.1.char :: p.2.chars

/-- What is between the parentheses. -/
def Spaced.inner (l : Spaced) : List Char := l.first.chars ++ gapped l.others

/-- The list as it is written. -/
def Spaced.text (l : Spaced) : List Char := '(' :: (l.inner ++ [')'])

/-- The names in order. -/
def Spaced.names (l : Spaced) : List String :=
  l.first.name.text :: l.others.map fun p => p.2.name.text

/-- The same settings with commas between them. -/
def Spaced.commas (l : Spaced) : Spaced := { l with others := l.others.map fun p => (.comma, p.2) }

/-- Whether every gap but the first has a comma. -/
def Spaced.isCut (l : Spaced) : Bool := l.others.tail.all fun p => p.1 == .comma

/-! ## Runs -/

/-- Settings with blanks between them. -/
structure Run where
  head : Setting
  tail : List Setting

/-- What stands after the first equals sign of a run. -/
def Run.value (r : Run) : List Char :=
  r.head.value.chars ++ r.tail.flatMap fun p => ' ' :: p.chars

/-- The run as it is written. -/
def Run.chars (r : Run) : List Char := r.head.name.chars ++ '=' :: r.value

/-- The attribute as which a run is stored: all of it but the first name is one value. -/
def Run.entry (r : Run) : Entry :=
  ⟨r.head.name.text, .expr (String.ofList r.value), r.tail.isEmpty⟩

/-- The runs of settings of which `head` and `tail` are the first so far. -/
def runsFrom (head : Setting) (tail : List Setting) : List (Gap × Setting) → List Run
  | [] => [⟨head, tail⟩]
  | (.blank, p) :: rest => runsFrom head (tail ++ [p]) rest
  | (.comma, p) :: rest => ⟨head, tail⟩ :: runsFrom p [] rest

/-- The runs of all settings but the first. -/
def Spaced.runs (l : Spaced) : List Run :=
  match l.others with
  | [] => []
  | (_, p) :: rest => runsFrom p [] rest

/-- What the list is read as: its first setting and the runs of the others. -/
def Spaced.entries (l : Spaced) : List Entry := l.first.entry :: l.runs.map Run.entry

/-! ## Reading a run -/

variable {colons : Bool} {within : List Mode} {f : Bool} {v : List Char} {s : State}

/-- The text is read whole and stored as it is written. -/
structure Solid (colons : Bool) (within : List Mode) (v : List Char) (isFixed : Bool) : Prop where
  whole : Whole colons within v isFixed
  isTrim : IsTrim v
  unmarked : ¬opening <:+: v

theorem Literal.solid (v : Literal) (colons : Bool) (within : List Mode) :
    Solid colons within v.chars true :=
  ⟨v.whole colons within, v.isTrim, v.unmarked_chars⟩

theorem Setting.unmarked_chars (p : Setting) : ¬opening <:+: p.chars := by
  have hequals : ¬opening <:+: ['='] ++ p.value.chars :=
    unmarked_append (unmarked_singleton _) p.value.unmarked_chars (by simp)
  exact unmarked_append (unmarked_of_isBare p.name.bare) hequals (by simp)

theorem Setting.whole_chars (p : Setting) (colons : Bool) (within : List Mode) :
    ∃ g, Whole colons within p.chars g :=
  ⟨_, whole_append (whole_of_isBare p.name.bare)
    (whole_append (whole_equals colons within) (p.value.whole colons within))⟩

/-- After the first attribute of a list, a value goes on over a blank and a setting, and is computed
then. -/
theorem Solid.setting (hv : Solid colons within v f) (hwithin : within ≠ []) (p : Setting) :
    Solid colons within (v ++ ' ' :: p.chars) false where
  whole := by
    obtain ⟨g, hp⟩ := p.whole_chars colons within
    have h := whole_append hv.whole (whole_append (whole_blank colons hwithin) hp)
    rwa [Bool.false_and, Bool.and_false] at h
  isTrim := by
    have h := hv.isTrim.append p.value.isTrim (' ' :: p.name.chars ++ ['='])
    simpa [Setting.chars] using h
  unmarked := by
    have hblank : ¬opening <:+: [' '] ++ p.chars :=
      unmarked_append (unmarked_singleton _) p.unmarked_chars (by simp)
    exact unmarked_append hv.unmarked hblank (by simp)

theorem Solid.settings (hv : Solid colons within v f) (hwithin : within ≠ [])
    (tail : List Setting) :
    Solid colons within (v ++ tail.flatMap fun p => ' ' :: p.chars) (f && tail.isEmpty) := by
  induction tail generalizing v f with
  | nil => simpa using hv
  | cons p tail ih =>
    have h := ih (hv.setting hwithin p)
    rw [Bool.false_and, List.append_assoc] at h
    rwa [List.flatMap_cons, List.isEmpty_cons, Bool.and_false]

/-- After the first attribute of a list, a run is stored as one attribute. -/
theorem Run.reads (r : Run) (hs : Idle s) (hwithin : s.within ≠ []) :
    ∃ s', Reads colons s (r.chars ++ [',']) [r.entry] s' ∧ Idle s' ∧ s'.within ≠ [] := by
  have hsolid : Solid colons s.within r.value r.tail.isEmpty :=
    (r.head.value.solid colons s.within).settings hwithin r.tail
  exact hs.reads_setting r.head.name hsolid.whole hsolid.isTrim hsolid.unmarked (Or.inl rfl)

theorem reads_runs (runs : List Run) (hs : Idle s) (hwithin : s.within ≠ []) :
    ∃ s', Reads colons s (runs.flatMap fun r => r.chars ++ [',']) (runs.map Run.entry) s' := by
  induction runs generalizing s with
  | nil => exact ⟨s, Reads.nil colons s⟩
  | cons r runs ih =>
    obtain ⟨t, hfirst, ht, hwithin'⟩ := r.reads hs hwithin
    obtain ⟨s', hrest⟩ := ih ht hwithin'
    exact ⟨s', hfirst.append hrest⟩

/-! ## Reading a list -/

theorem flatMap_runsFrom (head : Setting) (tail : List Setting) (rest : List (Gap × Setting)) :
    (runsFrom head tail rest).flatMap (fun r => r.chars ++ [',']) =
      (⟨head, tail⟩ : Run).chars ++ gapped rest ++ [','] := by
  induction rest generalizing head tail with
  | nil => simp [runsFrom, gapped]
  | cons g rest ih =>
    obtain ⟨g, p⟩ := g
    cases g with
    | comma =>
      rw [runsFrom, List.flatMap_cons, ih]
      simp [gapped, Gap.char, Run.chars, Run.value, Setting.chars]
    | blank =>
      rw [runsFrom, ih]
      simp [gapped, Gap.char, Run.chars, Run.value, Setting.chars]

/-- A list is read as its first setting and the runs of the others. -/
theorem Spaced.entries_inner (l : Spaced) (colons : Bool) :
    AttributeList.entries colons l.inner = l.entries := by
  obtain ⟨first, others⟩ := l
  have hfirst : ∀ c, c = ',' ∨ c = ' ' → ∃ s', Reads colons {} (first.chars ++ [c])
      [first.entry] s' ∧ Idle s' ∧ s'.within ≠ [] := fun c hc =>
    idle_empty.reads_setting first.name (first.value.whole colons []) first.value.isTrim
      first.value.unmarked_chars (hc.imp_right fun h => ⟨h, rfl⟩)
  cases others with
  | nil =>
    obtain ⟨s', ⟨-, hstored⟩, -⟩ := hfirst ',' (Or.inl rfl)
    simpa [AttributeList.entries, Spaced.inner, gapped, Spaced.entries, Spaced.runs] using hstored
  | cons g rest =>
    obtain ⟨g, p⟩ := g
    have hg : g.char = ',' ∨ g.char = ' ' := by
      cases g with
      | comma => exact Or.inl rfl
      | blank => exact Or.inr rfl
    obtain ⟨t, hreads, ht, hwithin⟩ := hfirst g.char hg
    obtain ⟨s', hruns⟩ := reads_runs (runsFrom p [] rest) ht hwithin
    rw [flatMap_runsFrom] at hruns
    have htext : Spaced.inner ⟨first, (g, p) :: rest⟩ ++ [','] =
        (first.chars ++ [g.char]) ++ ((⟨p, []⟩ : Run).chars ++ gapped rest ++ [',']) := by
      simp [Spaced.inner, gapped, Run.chars, Run.value, Setting.chars]
    rw [AttributeList.entries, htext]
    exact (hreads.append hruns).2

theorem Setting.isBalanced_chars (p : Setting) : isBalanced p.chars = true :=
  isBalanced_append (isBalanced_of_isBare p.name.bare)
    (isBalanced_append (a := ['=']) rfl p.value.isBalanced_chars)

theorem isBalanced_gapped (others : List (Gap × Setting)) : isBalanced (gapped others) = true := by
  induction others with
  | nil => rfl
  | cons g others ih =>
    obtain ⟨g, p⟩ := g
    have hgap : isBalanced [g.char] = true := by
      cases g with
      | comma => rfl
      | blank => rfl
    exact isBalanced_append (isBalanced_append hgap p.isBalanced_chars) ih

theorem Spaced.isBalanced_inner (l : Spaced) : isBalanced l.inner = true :=
  isBalanced_append l.first.isBalanced_chars (isBalanced_gapped l.others)

/-! ## Runs and commas -/

/-- The settings of a list. -/
def Spaced.settings (l : Spaced) : List Setting := l.first :: l.others.map Prod.snd

theorem runsFrom_of_commas (head : Setting) {rest : List (Gap × Setting)}
    (h : rest.all (fun p => p.1 == .comma) = true) :
    (runsFrom head [] rest).map Run.entry =
      head.entry :: rest.map fun p => p.2.entry := by
  induction rest generalizing head with
  | nil => simp [runsFrom, Run.entry, Run.value, Setting.entry]
  | cons g rest ih =>
    obtain ⟨g, p⟩ := g
    obtain ⟨rfl, hrest⟩ : g = .comma ∧ rest.all (fun p => p.1 == .comma) = true := by simpa using h
    rw [runsFrom, List.map_cons, ih p hrest]
    simp [Run.entry, Run.value, Setting.entry]

/-- Every setting is read by itself if every gap but the first has a comma. -/
theorem Spaced.entries_of_isCut {l : Spaced} (h : l.isCut = true) :
    l.entries = l.settings.map Setting.entry := by
  obtain ⟨first, others⟩ := l
  cases others with
  | nil => rfl
  | cons g rest =>
    have hruns : (runsFrom g.2 [] rest).map Run.entry = g.2.entry :: rest.map fun p => p.2.entry :=
      runsFrom_of_commas g.2 h
    simp [Spaced.entries, Spaced.runs, Spaced.settings, hruns]

theorem Spaced.isCut_commas (l : Spaced) : l.commas.isCut = true := by
  simp [Spaced.isCut, Spaced.commas, ← List.map_tail]

theorem Spaced.settings_commas (l : Spaced) : l.commas.settings = l.settings := by
  simp [Spaced.settings, Spaced.commas]

theorem length_runsFrom (head : Setting) (tail : List Setting) (rest : List (Gap × Setting)) :
    (runsFrom head tail rest).length = (rest.countP fun p => p.1 == .comma) + 1 := by
  induction rest generalizing head tail with
  | nil => rfl
  | cons g rest ih =>
    obtain ⟨g, p⟩ := g
    cases g with
    | comma => simp [runsFrom, ih]
    | blank => simp [runsFrom, ih]

/-- A list with as many attributes as settings has a comma in every gap but the first. -/
theorem Spaced.isCut_of_length {l : Spaced} (h : l.entries.length = l.settings.length) :
    l.isCut = true := by
  obtain ⟨first, others⟩ := l
  cases others with
  | nil => rfl
  | cons g rest =>
    have hcount : (rest.countP fun p => p.1 == .comma) = rest.length := by
      simpa [Spaced.entries, Spaced.runs, Spaced.settings, length_runsFrom] using h
    exact List.all_eq_true.mpr (List.countP_eq_length.mp hcount)

theorem keys_runsFrom_sublist (head : Setting) (tail : List Setting) (rest : List (Gap × Setting)) :
    ((runsFrom head tail rest).map fun r => r.head.name.text).Sublist
      (head.name.text :: rest.map fun p => p.2.name.text) := by
  induction rest generalizing head tail with
  | nil => exact List.Sublist.refl _
  | cons g rest ih =>
    obtain ⟨g, p⟩ := g
    cases g with
    | comma => exact (ih p []).cons_cons _
    | blank => exact (ih head (tail ++ [p])).trans ((List.sublist_cons_self _ _).cons_cons _)

/-- The attributes of a list have some of its names, in order. -/
theorem Spaced.keys_entries_sublist (l : Spaced) :
    (l.entries.map Entry.key).Sublist l.names := by
  obtain ⟨first, others⟩ := l
  cases others with
  | nil => exact List.Sublist.refl _
  | cons g rest =>
    rw [Spaced.entries, List.map_cons, List.map_map]
    exact (keys_runsFrom_sublist g.2 [] rest).cons_cons _

/-- With distinct names, the table has one item for each attribute. -/
theorem Spaced.length_items {l : Spaced} (hnames : l.names.Nodup) (colons : Bool) :
    (read colons l.inner).table.items.length = l.entries.length := by
  have hkeys : ((l.entries.map Entry.pair).map Prod.fst).Nodup := by
    rw [List.map_map]
    exact l.keys_entries_sublist.nodup hnames
  rw [read_table, l.entries_inner, Table.items_storeAll Table.consistent_empty hkeys (by simp)]
  simp [Table.items]

theorem Spaced.names_commas (l : Spaced) : l.commas.names = l.names := by
  simp [Spaced.names, Spaced.commas]

/-- **Blanks between attributes.** A list of settings with a comma or a blank in each gap is read to
its end, as its first setting and the runs of the others. This is how it is read with commas
throughout if every gap but the first has a comma, and with distinct names only if so. -/
theorem Spaced.scan_runs (l : Spaced) (s : Source) (rest : List Char) :
    ∃ table fixed table' fixed',
      Source.Scanner.attrs.run { s with rest := l.text ++ rest } =
        (.ok (some ⟨.attrs table fixed, s.line⟩), { s with rest }) ∧
      Source.Scanner.attrs.run { s with rest := l.commas.text ++ rest } =
        (.ok (some ⟨.attrs table' fixed', s.line⟩), { s with rest }) ∧
      table = ({} : Table String AttrText).storeAll (l.entries.map Entry.pair) ∧
      (∀ k, k ∈ fixed ↔ ∃ e ∈ l.entries, e.isFixed = true ∧ e.key = k) ∧
      (l.isCut = true → table.items = table'.items ∧ ∀ k, k ∈ fixed ↔ k ∈ fixed') ∧
      (l.names.Nodup → table.items = table'.items → l.isCut = true) := by
  have htable := read_table s.colons l.inner
  have hfixed := mem_read_fixed s.colons l.inner
  rw [l.entries_inner] at htable
  simp only [l.entries_inner] at hfixed
  have hcommas : l.commas.entries = l.settings.map Setting.entry := by
    rw [Spaced.entries_of_isCut l.isCut_commas, l.settings_commas]
  refine ⟨_, _, _, _, Source.run_attrs_of_isBalanced l.isBalanced_inner s rest,
    Source.run_attrs_of_isBalanced l.commas.isBalanced_inner s rest, htable, hfixed, ?_, ?_⟩
  · intro hcut
    have hsame : l.entries = l.commas.entries := by rw [Spaced.entries_of_isCut hcut, hcommas]
    refine ⟨?_, fun k => ?_⟩
    · rw [htable, read_table, l.commas.entries_inner, hsame]
    · rw [hfixed, mem_read_fixed, l.commas.entries_inner, hsame]
  · intro hnames hitems
    have hnames' : l.commas.names.Nodup := by rwa [l.names_commas]
    apply Spaced.isCut_of_length
    rw [← Spaced.length_items hnames s.colons, hitems, Spaced.length_items hnames' s.colons,
      hcommas, List.length_map]

/-- A blank in the first gap separates like a comma. -/
theorem Spaced.scan_runs_first_blank : ∃ table fixed table' fixed',
    Source.Scanner.attrs.run { rest := "(a=1 b='x y',c=3)d".toList } =
      (.ok (some ⟨.attrs table fixed, 1⟩), { rest := ['d'] }) ∧
    Source.Scanner.attrs.run { rest := "(a=1,b='x y',c=3)d".toList } =
      (.ok (some ⟨.attrs table' fixed', 1⟩), { rest := ['d'] }) ∧
    table.items = table'.items ∧ ∀ k, k ∈ fixed ↔ k ∈ fixed' := by
  let l : Spaced := {
    first := {
      name := ⟨['a'], List.cons_ne_nil _ _, List.forall_mem_singleton.mpr (by decide), by decide⟩
      value := .numeral ⟨['1'], List.cons_ne_nil _ _, List.forall_mem_singleton.mpr (by decide)⟩ }
    others := [
      (.blank, {
        name := ⟨['b'], List.cons_ne_nil _ _, List.forall_mem_singleton.mpr (by decide), by decide⟩
        value := .quoted ⟨.single, ['x', ' ', 'y'], by decide, by decide, by decide⟩ }),
      (.comma, {
        name := ⟨['c'], List.cons_ne_nil _ _, List.forall_mem_singleton.mpr (by decide), by decide⟩
        value := .numeral ⟨['3'], List.cons_ne_nil _ _,
          List.forall_mem_singleton.mpr (by decide)⟩ })] }
  obtain ⟨table, fixed, table', fixed', hread, hread', -, -, hsame, honly⟩ :=
    Spaced.scan_runs l { rest := [] } ['d']
  have hcut : l.isCut = true := honly (by decide +kernel) (hsame rfl).1
  exact ⟨table, fixed, table', fixed', hread, hread', hsame hcut⟩

/-- A blank in the second gap does not separate: the third setting becomes part of the second value,
which is not fixed then. -/
theorem scan_second_blank : ∃ table fixed,
    Source.Scanner.attrs.run { rest := "(a=1 b=2 c=3)".toList } =
      (.ok (some ⟨.attrs table fixed, 1⟩), { rest := [] }) ∧
    table.items = [("a", some (.expr "1")), ("b", some (.expr "2 c=3"))] ∧ fixed = ["a"] :=
  ⟨_, _, rfl, by decide +kernel, by decide +kernel⟩

end Jade.AttributeList

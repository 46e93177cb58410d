import Jade.Proofs.Token.Nesting
import Jade.Proofs.Token.Weights

/-!
# Attribute lists of quotations

Lists in which every value is a quotation, with anything inside: parentheses, commas, quotes after a
backslash. Two things decide whether such a list is read as it is written, and they know nothing of
each other. Its end is found by counting parentheses, those in quotations too, so it is found if the
parentheses of all quotations together are balanced. And each quotation has to be opaque, since its
own quote ends it although a backslash stands before it, and what follows is read outside of quotes.

Both are also needed. That a table with the right pairs cannot come about in another way, with a
quotation split and put together again, follows from the weights: what is lost by a split is missing
in the end.

## Main results

* `Jade.AttributeList.isOpaque_of_not_mem` : a quotation without its own quote inside is opaque
* `Jade.AttributeList.Citation.isOpaque_of_stored` : a quotation that is stored whole is opaque
* `Jade.AttributeList.Citations.scan_quotations_iff` : where a list ends, and when it is read as it
  is written
-/

namespace Jade.AttributeList

/-! ## Lists -/

/-- A text in quotes. Nothing is asked of the text but that it has no interpolation: its own quote
may stand in it, with or without a backslash. -/
structure Quotation where
  quote : Quote
  body : List Char
  unmarked : ¬opening <:+: body

/-- The text with its quotes. -/
def Quotation.chars (v : Quotation) : List Char := v.quote.char :: v.body ++ [v.quote.char]

/-- A name with a quotation. -/
structure Citation where
  name : Name
  value : Quotation

/-- The attribute as it is written. -/
def Citation.chars (i : Citation) : List Char := i.name.chars ++ '=' :: i.value.chars

/-- The attribute as it should be stored. -/
def Citation.pair (i : Citation) : String × AttrText :=
  (i.name.text, .expr (String.ofList i.value.chars))

/-- An attribute after the first one, with the blanks before it. -/
structure Further where
  gap : List Char
  isBlank : ∀ c ∈ gap, isBlank c = true
  item : Citation

/-- A list of one or more attributes with distinct names. -/
structure Citations where
  first : Citation
  others : List Further
  distinct : (first.name.text :: others.map fun p => p.item.name.text).Nodup

/-- The attributes in order. -/
def Citations.items (l : Citations) : List Citation := l.first :: l.others.map Further.item

/-- What is between the parentheses. -/
def Citations.inner (l : Citations) : List Char :=
  l.first.chars ++ l.others.flatMap fun p => ',' :: (p.gap ++ p.item.chars)

/-- The list as it is written. -/
def Citations.text (l : Citations) : List Char := '(' :: (l.inner ++ [')'])

/-- All quotations of the list, one after the other. -/
def Citations.quotations (l : Citations) : List Char := l.items.flatMap fun i => i.value.chars

/-- Whether every quotation of the list is opaque. -/
def Citations.isOpaque (l : Citations) : Bool :=
  AttributeList.isOpaque true l.first.value.chars &&
    l.others.all fun p => AttributeList.isOpaque false p.item.value.chars

/-! ## Opaque quotations -/

variable {colons : Bool} {s : State} {rest : List Char} {pairs : List (String × AttrText)}

theorem foldlM_nest_of_not_mem {leading : Bool} {q : Quote} {levels : List Level} {text : List Char}
    (h : q.char ∉ text) :
    text.foldlM (nest leading) (.string q :: levels) = some (.string q :: levels) := by
  induction text with
  | nil => rfl
  | cons c text ih =>
    obtain ⟨hc, htext⟩ := List.ne_and_not_mem_of_not_mem_cons h
    have hnest : nest leading (.string q :: levels) c = some (.string q :: levels) := by
      rw [nest, if_neg (Ne.symm hc)]
    rw [List.foldlM_cons, hnest]
    exact ih htext

theorem isOpaque_of_not_mem (leading : Bool) {v : Quotation} (h : v.quote.char ∉ v.body) :
    isOpaque leading v.chars = true := by
  have hopen : nest leading [] v.quote.char = some [.string v.quote] := nest_quote (by simp) v.quote
  have hclose : nest leading [.string v.quote] v.quote.char = some [] := by rw [nest, if_pos rfl]
  have hbody : v.body.foldlM (nest leading) [.string v.quote] = some [.string v.quote] :=
    foldlM_nest_of_not_mem h
  have hfold : v.chars.foldlM (nest leading) [] = some [] := by
    rw [Quotation.chars, List.cons_append, List.foldlM_cons, hopen, Option.bind_eq_bind,
      Option.bind_some, List.foldlM_append, hbody, Option.bind_eq_bind, Option.bind_some,
      List.foldlM_cons, hclose]
    rfl
  simp [isOpaque, hfold]

theorem Quotation.isTrim (v : Quotation) : IsTrim v.chars := isTrim_quoted v.quote v.body

theorem Quotation.unmarked_chars (v : Quotation) : ¬opening <:+: v.chars :=
  unmarked_quoted v.quote v.unmarked

/-- An attribute with an opaque quotation is stored as it is written. -/
theorem Citation.reads (i : Citation) (hs : Idle s)
    (h : isOpaque s.within.isEmpty i.value.chars = true) :
    ∃ e s', Reads colons s (i.chars ++ [',']) [e] s' ∧ e.pair = i.pair ∧ Idle s' ∧
      s'.within ≠ [] := by
  have hfold : i.value.chars.foldlM (nest s.within.isEmpty) [] = some [] := by
    simpa [isOpaque] using h
  obtain ⟨t, hvalue, ht, hkey, hval⟩ :=
    @Nested.reads colons _ _ _ _ _ (nested_valued s i.name) hfold
  have hval' : t.val = String.ofList i.value.chars := by
    rw [hval, State.valued, hs.val, String.empty_append]
  obtain ⟨s', hreads, hs'⟩ := hs.reads_valued i.name hvalue ht.within hkey hval' i.value.isTrim
    i.value.unmarked_chars (Or.inl rfl)
  exact ⟨_, s', hreads, rfl, hs'⟩

/-! ## What a quotation weighs -/

theorem weight_pos_of_isBare {c : Char} (h : isBare c = true) : 0 < weight [c] := by
  have hheavy : isHeavy c = true := by
    simp only [isBare, isEquals, Bool.not_eq_true', Bool.or_eq_false_iff] at h
    simp [isHeavy, h]
  rw [weight, List.countP_singleton, if_pos hheavy]
  omega

theorem Quote.weight_char (q : Quote) : weight [q.char] = 1 := by
  cases q with
  | single => decide
  | double => decide

/-- An attribute weighs as much as what should be stored for it. -/
theorem Citation.weight_chars (i : Citation) : weight i.chars = weight (spelled i.pair) := by
  have hequals : weight ['='] = 0 := by decide
  rw [Citation.chars, weight_append, weight_cons, hequals, spelled, weight_append, Citation.pair]
  simp [Name.text]

/-! ## Reading on within a value -/

theorem within_step_of_isBlank {c : Char} (hheld : s.mode.holdsSeparators = true)
    (hc : isBlank c = true) : (step colons s c).within = s.within := by
  by_cases hsep : s.isSeparator c = true
  · rw [step_separator hsep, if_pos hheld]
    rfl
  · rw [step_plain (isPlain_of_isBlank hc) (by simpa using hsep), plain_eq]
    split
    · rfl
    · rfl

/-- Within brackets and quotes, blanks separate nothing and change no level. -/
theorem reads_gap_of_holds {gap : List Char} (hheld : s.mode.holdsSeparators = true)
    (hgap : ∀ c ∈ gap, isBlank c = true) :
    ∃ s', Reads colons s gap [] s' ∧ s'.within = s.within := by
  induction gap generalizing s with
  | nil => exact ⟨s, Reads.nil colons s, rfl⟩
  | cons c gap ih =>
    have hwithin : (step colons s c).within = s.within :=
      within_step_of_isBlank hheld (hgap c List.mem_cons_self)
    have hheld' : (step colons s c).mode.holdsSeparators = true := by
      rwa [State.mode, hwithin]
    obtain ⟨s', hreads, hs'⟩ := ih hheld' fun d hd => hgap d (List.mem_cons_of_mem _ hd)
    refine ⟨s', Reads.cons (reads_of_not_breaks ?_ rfl) hreads, hs'.trans hwithin⟩
    simp [State.breaks, hheld]

theorem key_run_of_stored_nil {cs : List Char} (hkey : ∃ d ∈ s.key.toList, isBlank d = false)
    (h : stored colons s cs = []) :
    ∃ d ∈ (cs.foldl (step colons) s).key.toList, isBlank d = false := by
  induction cs generalizing s with
  | nil => exact hkey
  | cons c cs ih =>
    obtain ⟨hends, h⟩ := stored_cons_eq_nil h
    have hbreaks : s.breaks c = false := by
      simpa [State.ends, isEmpty_strip_of_mem hkey] using hends
    refine ih ?_ h
    obtain ⟨heq, -⟩ | ⟨heq, -⟩ | ⟨heq, -⟩ := (absorbs_step colons hbreaks).texts
    · rwa [heq]
    · obtain ⟨d, hd, hblank⟩ := hkey
      refine ⟨d, ?_, hblank⟩
      rw [heq, String.toList_push]
      exact List.mem_append_left _ hd
    · rwa [heq]

/-! ## Only opaque quotations are stored whole -/

/-- What follows an attribute and its comma: nothing, or blanks and the start of a name. -/
def Starts (rest : List Char) : Prop :=
  rest = [] ∨ ∃ gap c tail,
    rest = gap ++ c :: tail ∧ (∀ d ∈ gap, isBlank d = true) ∧ isBare c = true

theorem ends_of_isQuote {c : Char} (h : isQuote c = true) (s : State) : s.ends c = false := by
  have hsep : s.isSeparator c = false := by
    by_contra hsep
    exact absurd h (by simp [(no_role_of_isSeparator (by simpa using hsep)).1])
  simp [State.ends, State.breaks, hsep]

theorem Citation.run_chars (i : Citation) (hs : Idle s) :
    i.chars.foldl (step colons) s = i.value.chars.foldl (step colons) (s.valued i.name) ∧
      stored colons s i.chars = stored colons (s.valued i.name) i.value.chars := by
  have hname : Reads colons s (i.name.chars ++ ['=']) [] (s.valued i.name) := hs.reads_name i.name
  rw [Citation.chars, List.append_cons, List.foldl_append, stored_append, hname.1, hname.2]
  exact ⟨rfl, rfl⟩

theorem Citation.exists_mem_key (i : Citation) (s : State) :
    ∃ d ∈ (s.valued i.name).key.toList, isBlank d = false := by
  obtain ⟨c, hc⟩ := List.exists_mem_of_ne_nil _ i.name.ne_nil
  refine ⟨c, ?_, isBlank_of_isBare (i.name.bare c hc)⟩
  simp [State.valued, hc]

section Converse

variable {i : Citation} (hs : Idle s) (hquote : weight s.quote.toList ≤ 1)
  (hstored : (stored colons s (i.chars ++ ',' :: rest)).map Entry.pair = i.pair :: pairs)

include hs hquote hstored

/-- Nothing is stored within the attribute: it would lack the weight of the last quote. -/
theorem Citation.stored_chars_eq_nil : stored colons s i.chars = [] := by
  by_contra hne
  obtain ⟨e, es, hcons⟩ := List.exists_cons_of_ne_nil hne
  have hpair : e.pair = i.pair := by
    rw [stored_append, hcons, List.cons_append, List.map_cons] at hstored
    exact (List.cons.inj hstored).1
  let before : List Char := i.name.chars ++ '=' :: i.value.quote.char :: i.value.body
  have hchars : i.chars = before ++ [i.value.quote.char] := by
    simp [before, Citation.chars, Quotation.chars]
  have hbefore : stored colons s before = e :: es := by
    rw [hchars, stored_append] at hcons
    simpa [stored, ends_of_isQuote i.value.quote.isQuote_char] using hcons
  have hrun := @load_run colons s hquote before
  have hweight := i.weight_chars
  rw [hbefore, List.map_cons, load_cons, hpair, hs.load] at hrun
  rw [hchars, weight_append, i.value.quote.weight_char] at hweight
  omega

theorem Citation.key_run :
    ∃ d ∈ (i.chars.foldl (step colons) s).key.toList, isBlank d = false := by
  have hnone := Citation.stored_chars_eq_nil hs hquote hstored
  rw [(i.run_chars hs).2] at hnone
  rw [(i.run_chars hs).1]
  exact key_run_of_stored_nil (i.exists_mem_key s) hnone

/-- The comma after the attribute ends it. Otherwise it is read within brackets or quotes, and so
are the blanks after it; then the next name is begun before anything is stored, and the rest does
not weigh enough for what is still to come. -/
theorem Citation.ends_comma (hload : weight rest ≤ load pairs) (hrest : Starts rest) :
    (i.chars.foldl (step colons) s).ends ',' = true := by
  have hnone := Citation.stored_chars_eq_nil hs hquote hstored
  have hkey := Citation.key_run hs hquote hstored
  rw [stored_append, hnone, List.nil_append] at hstored
  have hquote' := @weight_quote_run colons s hquote i.chars
  generalize i.chars.foldl (step colons) s = u at hstored hkey hquote'
  by_contra hends
  have hbreaks : u.breaks ',' = false := by
    simpa [State.ends, isEmpty_strip_of_mem hkey] using hends
  have hsep : u.isSeparator ',' = true := rfl
  have hheld : u.mode.holdsSeparators = true := by simpa [State.breaks, hsep] using hbreaks
  have hstep : step colons u ',' = u.noted.addVal ',' := by rw [step_separator hsep, if_pos hheld]
  rw [stored, if_neg hends, hstep] at hstored
  have hheld' : (u.noted.addVal ',').mode.holdsSeparators = true := hheld
  rcases hrest with rfl | ⟨gap, c, tail, rfl, hgap, hc⟩
  · exact absurd hstored (by simp [stored])
  · obtain ⟨t, hreads, hwithin⟩ := @reads_gap_of_holds colons _ gap hheld' hgap
    have hnext : stored colons t (c :: tail) = stored colons (step colons t c) tail := by
      have hends' : t.ends c = false := by simp [State.ends, State.breaks, isSeparator_of_isBare hc]
      rw [stored, if_neg (by simp [hends'])]
    rw [stored_append, hreads.1, hreads.2, List.nil_append, hnext] at hstored
    obtain ⟨e, es, hcons, -, hes⟩ := List.map_eq_cons_iff.mp hstored
    have hquote'' : weight (step colons t c).quote.toList ≤ 1 := by
      have h := @weight_quote_run colons _ hquote' (',' :: (gap ++ [c]))
      rw [List.foldl_cons, hstep, List.foldl_append, hreads.1] at h
      exact h
    have htail := load_tail_le hquote'' hcons
    have hheavy := weight_pos_of_isBare hc
    rw [hes] at htail
    rw [weight_append, weight_cons] at hload
    omega

theorem Citation.val_run (hload : weight rest ≤ load pairs) (hrest : Starts rest) :
    (i.chars.foldl (step colons) s).val = String.ofList i.value.chars := by
  have hnone := Citation.stored_chars_eq_nil hs hquote hstored
  have hends := Citation.ends_comma hs hquote hstored hload hrest
  have hrun := @load_run colons s hquote i.chars
  have hquote' := @weight_quote_run colons s hquote i.chars
  have hlength : (i.chars.foldl (step colons) s).val.toList.length ≤ i.value.chars.length := by
    have hle := length_val_run_le colons (s.valued i.name) i.value.chars
    rw [(i.run_chars hs).1]
    simpa [State.valued, hs.val] using hle
  rw [stored_append, hnone, List.nil_append] at hstored
  rw [hnone, hs.load, i.weight_chars] at hrun
  generalize i.chars.foldl (step colons) s = u at hstored hends hrun hquote' hlength ⊢
  rw [stored, if_pos hends, List.map_cons] at hstored
  have hpair : u.entry.pair = i.pair := (List.cons.inj hstored).1
  have hentry := weight_entry hquote'
  rw [hpair] at hentry
  have hfound : (interpolate u.quote (strip u.val)).2 = false := by
    have hzero : (interpolate u.quote (strip u.val)).2.toNat = 0 := by
      simp only [List.map_nil, load_nil] at hrun
      omega
    simpa using hzero
  rw [Entry.pair, Citation.pair] at hpair
  have hvalue : u.entry.value = .expr (String.ofList i.value.chars) := (Prod.mk.inj hpair).2
  have hstrip : strip u.val = String.ofList i.value.chars := by
    rw [State.value_entry] at hvalue
    split at hvalue
    · cases hvalue
    · have hsame : (interpolate u.quote (strip u.val)).1 = strip u.val := by
        have h := @interpolate_fst_of_not_found u.quote (strip u.val).toList
        rw [String.ofList_toList] at h
        exact h hfound
      rw [hsame] at hvalue
      exact AttrText.expr.inj hvalue
  have hsublist := toList_strip_sublist u.val
  rw [hstrip, String.toList_ofList] at hsublist
  rw [← String.toList_inj, String.toList_ofList]
  exact (hsublist.eq_of_length_le hlength).symm

/-- **A quotation that is stored whole is opaque**, if what follows weighs no more than what is
stored after it. -/
theorem Citation.isOpaque_of_stored (hload : weight rest ≤ load pairs) (hrest : Starts rest) :
    isOpaque s.within.isEmpty i.value.chars = true := by
  have hnone := Citation.stored_chars_eq_nil hs hquote hstored
  have hends := Citation.ends_comma hs hquote hstored hload hrest
  have hval := Citation.val_run hs hquote hstored hload hrest
  rw [(i.run_chars hs).1] at hends hval
  rw [(i.run_chars hs).2] at hnone
  have hopen : nest s.within.isEmpty [] i.value.quote.char = some [.string i.value.quote] :=
    nest_quote (by simp) i.value.quote
  have hkeeps : Keeps [.string i.value.quote] s.within (s.valued i.name) i.value.quote.char
      (step colons (s.valued i.name) i.value.quote.char) := (nested_valued s i.name).keeps hopen
  have hval' : (step colons (s.valued i.name) i.value.quote.char).val =
      String.ofList [i.value.quote.char] := by
    rw [hkeeps.val, State.valued, hs.val]
    rfl
  rw [Quotation.chars, List.cons_append] at hnone hval hends
  rw [List.foldl_cons] at hval hends
  obtain ⟨-, hnone⟩ := stored_cons_eq_nil hnone
  obtain ⟨levels, hfold, hlevels⟩ := hkeeps.nested.levels_of_val hs.mode
    (by rw [hkeeps.key]; exact i.exists_mem_key s)
    (by rw [hval']; exact ⟨_, by simp, i.value.quote.isBlank_char⟩)
    (by simp [i.value.quote.isQuote_char]) hnone (by rw [hval, hval', ← String.ofList_append]; rfl)
  obtain rfl := hlevels.eq_nil_of_ends hends
  have hall : i.value.chars.foldlM (nest s.within.isEmpty) [] = some [] := by
    rw [Quotation.chars, List.cons_append, List.foldlM_cons, hopen]
    exact hfold
  simp [isOpaque, hall]

end Converse

/-! ## Reading lists -/

/-- Attributes after the first one as they are read, each with the comma after it. -/
def further (others : List Further) : List Char :=
  others.flatMap fun p => p.gap ++ (p.item.chars ++ [','])

theorem further_cons (p : Further) (others : List Further) :
    further (p :: others) = p.gap ++ (p.item.chars ++ ',' :: further others) := by
  simp [further]

theorem Citations.inner_concat (l : Citations) :
    l.inner ++ [','] = l.first.chars ++ ',' :: further l.others := by
  have hothers : ∀ others : List Further,
      (others.flatMap fun p => ',' :: (p.gap ++ p.item.chars)) ++ [','] =
        ',' :: further others := by
    intro others
    induction others with
    | nil => rfl
    | cons p others ih =>
      rw [List.flatMap_cons, List.append_assoc, ih, further_cons]
      simp
  rw [Citations.inner, List.append_assoc, hothers]

theorem starts_further (others : List Further) : Starts (further others) := by
  cases others with
  | nil => exact Or.inl rfl
  | cons p others =>
    obtain ⟨c, name, hname⟩ := List.exists_cons_of_ne_nil p.item.name.ne_nil
    refine Or.inr ⟨p.gap, c, name ++ '=' :: p.item.value.chars ++ ',' :: further others, ?_,
      p.isBlank, p.item.name.bare c (by simp [hname])⟩
    rw [further_cons, Citation.chars, hname]
    simp

theorem weight_further (others : List Further) :
    weight (further others) = load (others.map fun p => p.item.pair) := by
  have hcomma : weight [','] = 0 := by decide
  induction others with
  | nil => rfl
  | cons p others ih =>
    rw [further_cons, List.map_cons, load_cons, weight_append, weight_append, weight_cons, hcomma,
      weight_of_isBlank p.isBlank, p.item.weight_chars, ih]
    omega

/-- An attribute and those after it are stored as they are written exactly if its quotation is
opaque and those after it are stored so. -/
theorem Citation.stored_iff (i : Citation) {others : List Further} (hs : Idle s)
    (hquote : weight s.quote.toList ≤ 1) {q : Prop}
    (hq : ∀ s', Idle s' → s'.within ≠ [] → weight s'.quote.toList ≤ 1 →
      ((stored colons s' (further others)).map Entry.pair = others.map (fun p => p.item.pair) ↔
        q)) :
    (stored colons s (i.chars ++ ',' :: further others)).map Entry.pair =
        i.pair :: others.map (fun p => p.item.pair) ↔
      isOpaque s.within.isEmpty i.value.chars = true ∧ q := by
  have hstep (h : isOpaque s.within.isEmpty i.value.chars = true) :
      (stored colons s (i.chars ++ ',' :: further others)).map Entry.pair =
        i.pair :: others.map (fun p => p.item.pair) ↔ q := by
    obtain ⟨e, s', hitem, hpair, hs', hwithin⟩ := @Citation.reads colons _ i hs h
    have hquote' := @weight_quote_run colons s hquote (i.chars ++ [','])
    rw [hitem.1] at hquote'
    rw [List.append_cons, stored_append, hitem.1, hitem.2, List.singleton_append, List.map_cons,
      hpair, List.cons_inj_right]
    exact hq s' hs' hwithin hquote'
  constructor
  · intro h
    have hwhole := Citation.isOpaque_of_stored hs hquote h (weight_further others).le
      (starts_further others)
    exact ⟨hwhole, (hstep hwhole).mp h⟩
  · rintro ⟨hwhole, hrest⟩
    exact (hstep hwhole).mpr hrest

theorem stored_further_iff {others : List Further} (hs : Idle s) (hwithin : s.within ≠ [])
    (hquote : weight s.quote.toList ≤ 1) :
    (stored colons s (further others)).map Entry.pair = others.map (fun p => p.item.pair) ↔
      others.all (fun p => isOpaque false p.item.value.chars) = true := by
  induction others generalizing s with
  | nil => exact iff_of_true rfl rfl
  | cons p others ih =>
    obtain ⟨t, hgap, ht, hsuffix⟩ := @Idle.reads_gap colons _ hs _ p.isBlank
    have hwithin' : t.within ≠ [] := fun hnil => hwithin (List.suffix_nil.mp (hnil ▸ hsuffix))
    have hquote' := @weight_quote_run colons s hquote p.gap
    rw [hgap.1] at hquote'
    rw [further_cons, stored_append, hgap.1, hgap.2, List.nil_append, List.map_cons, List.all_cons,
      Bool.and_eq_true]
    have hitem := p.item.stored_iff ht hquote' fun s' hs' hwithin hquote => ih hs' hwithin hquote
    rwa [List.isEmpty_eq_false_iff.mpr hwithin'] at hitem

/-- A list stores its attributes as they are written exactly if every quotation is opaque. -/
theorem Citations.entries_iff (l : Citations) (colons : Bool) :
    (entries colons l.inner).map Entry.pair = l.items.map Citation.pair ↔ l.isOpaque = true := by
  rw [entries, l.inner_concat, Citations.items, List.map_cons, List.map_map, Citations.isOpaque,
    Bool.and_eq_true]
  exact l.first.stored_iff idle_empty (Nat.zero_le 1) fun _ hs hwithin hquote =>
    stored_further_iff hs hwithin hquote

/-- The names of a list, each with its quotation. -/
def Citations.shown (l : Citations) : List (String × Option AttrText) :=
  l.items.map fun i => (i.name.text, some (.expr (String.ofList i.value.chars)))

theorem Citations.nodup_keys (l : Citations) :
    ((l.items.map Citation.pair).map Prod.fst).Nodup := by
  have h := l.distinct
  rw [Citations.items, List.map_map]
  simpa [Citation.pair, Function.comp_def] using h

theorem Name.weight_text_pos (k : Name) : 0 < weight k.text.toList := by
  obtain ⟨c, cs, hcs⟩ := List.exists_cons_of_ne_nil k.ne_nil
  have hc := weight_pos_of_isBare (k.bare c (by simp [hcs]))
  rw [Name.text, String.toList_ofList, hcs, weight_cons]
  omega

/-- The table of a list shows its attributes as they are written exactly if every quotation is
opaque. -/
theorem Citations.items_read_iff (l : Citations) (colons : Bool) :
    (read colons l.inner).table.items = l.shown ↔ l.isOpaque = true := by
  rw [← l.entries_iff colons]
  have hshown : l.shown = (l.items.map Citation.pair).map fun p => (p.1, some p.2) := by
    rw [Citations.shown, List.map_map]
    rfl
  have hload : load ((entries colons l.inner).map Entry.pair) ≤
      load (l.items.map Citation.pair) := by
    have hcomma : weight [','] = 0 := by decide
    have hrun := @load_run colons {} (Nat.zero_le 1) (l.inner ++ [','])
    have hfurther := weight_further l.others
    rw [l.inner_concat, weight_append, weight_cons, hcomma, l.first.weight_chars,
      idle_empty.load] at hrun
    rw [entries, l.inner_concat, Citations.items, List.map_cons, load_cons, List.map_map]
    simp only [Function.comp_def]
    omega
  rw [read_table, hshown]
  constructor
  · intro hitems
    refine eq_of_items_of_load_le hitems l.nodup_keys ?_ hload
    intro p hp
    obtain ⟨i, -, rfl⟩ := List.mem_map.mp hp
    exact i.name.weight_text_pos
  · intro hentries
    rw [hentries, Table.items_storeAll Table.consistent_empty l.nodup_keys (by simp)]
    rfl

/-! ## The end of a list -/

theorem filter_of_isOutside {cs : List Char} (h : ∀ c ∈ cs, isOutside c = true) :
    cs.filter (fun c => !isOutside c) = [] :=
  List.filter_eq_nil_iff.mpr fun c hc => by simp [h c hc]

theorem Citation.filter_chars (i : Citation) :
    i.chars.filter (fun c => !isOutside c) = i.value.chars.filter fun c => !isOutside c := by
  have hname : i.name.chars.filter (fun c => !isOutside c) = [] :=
    filter_of_isOutside fun c hc => isOutside_of_isBare (i.name.bare c hc)
  rw [Citation.chars, List.filter_append, hname, List.filter_cons_of_neg (by decide),
    List.nil_append]

theorem Citations.isBalanced_inner (l : Citations) :
    isBalanced l.inner = isBalanced l.quotations := by
  have hothers : ∀ others : List Further,
      (others.flatMap fun p => ',' :: (p.gap ++ p.item.chars)).filter (fun c => !isOutside c) =
        ((others.map Further.item).flatMap fun i => i.value.chars).filter
          fun c => !isOutside c := by
    intro others
    induction others with
    | nil => rfl
    | cons p others ih =>
      have hgap : p.gap.filter (fun c => !isOutside c) = [] :=
        filter_of_isOutside fun c hc => isOutside_of_isBlank (p.isBlank c hc)
      rw [List.flatMap_cons, List.map_cons, List.flatMap_cons, List.filter_append,
        List.filter_append, List.filter_cons_of_neg (by decide), List.filter_append, hgap,
        p.item.filter_chars, ih, List.nil_append]
  have hfilter : l.inner.filter (fun c => !isOutside c) =
      l.quotations.filter fun c => !isOutside c := by
    rw [Citations.inner, Citations.quotations, Citations.items, List.flatMap_cons,
      List.filter_append, List.filter_append, l.first.filter_chars, hothers]
  rw [isBalanced, isBalanced, ← closes_filter, hfilter, closes_filter]

/-- **Quotations as values.** A list of names with quotations always gives a token. What follows the
list is left exactly if the parentheses of all quotations together are balanced. The list is read as
it is written, to its end and with all names in order and their quotations, exactly if moreover
every quotation is opaque; and they all are if none has its own quote inside. -/
theorem Citations.scan_quotations_iff (l : Citations) (s : Source) (rest : List Char) :
    ∃ table fixed left,
      Source.Scanner.attrs.run { s with rest := l.text ++ rest } =
        (.ok (some ⟨.attrs table fixed, s.line⟩), { s with rest := left }) ∧
      (left = rest ↔ isBalanced l.quotations = true) ∧
      (left = rest ∧ table.items = l.shown ↔
        isBalanced l.quotations = true ∧ l.isOpaque = true) ∧
      ((∀ i ∈ l.items, i.value.quote.char ∉ i.value.body) → l.isOpaque = true) := by
  have htext : l.text ++ rest = '(' :: (l.inner ++ ')' :: rest) := by simp [Citations.text]
  have hleft := drop_closingIndex_eq_iff l.inner rest
  rw [l.isBalanced_inner] at hleft
  rw [htext]
  refine ⟨_, _, _, Source.run_attrs s _, hleft, ?_, ?_⟩
  · rw [hleft]
    refine and_congr_right fun hbalanced => ?_
    rw [inside_of_isBalanced (l.isBalanced_inner.trans hbalanced), l.items_read_iff]
  · intro h
    rw [Citations.isOpaque, Bool.and_eq_true, List.all_eq_true]
    refine ⟨isOpaque_of_not_mem true (h l.first List.mem_cons_self), fun p hp => ?_⟩
    exact isOpaque_of_not_mem false
      (h p.item (List.mem_cons_of_mem _ (List.mem_map_of_mem hp)))

/-- Quotes after backslashes and parentheses that match within a quotation. -/
theorem Citations.scan_quotations_iff_escaped : ∃ table fixed,
    Source.Scanner.attrs.run { rest := "(a='x', b='(\\'y\\')')c".toList } =
      (.ok (some ⟨.attrs table fixed, 1⟩), { rest := ['c'] }) ∧
    table.items = [("a", some (.expr "'x'")), ("b", some (.expr "'(\\'y\\')'"))] := by
  let l : Citations := {
    first := {
      name := ⟨['a'], List.cons_ne_nil _ _, List.forall_mem_singleton.mpr (by decide), by decide⟩
      value := ⟨.single, ['x'], by decide⟩ }
    others := [{
      gap := [' ']
      isBlank := List.forall_mem_singleton.mpr (by decide)
      item := {
        name := ⟨['b'], List.cons_ne_nil _ _, List.forall_mem_singleton.mpr (by decide), by decide⟩
        value := ⟨.single, ['(', '\\', '\'', 'y', '\\', '\'', ')'], by decide⟩ } }]
    distinct := by decide +kernel }
  obtain ⟨table, fixed, left, hrun, -, hread, -⟩ :=
    Citations.scan_quotations_iff l { rest := [] } ['c']
  obtain ⟨rfl, hitems⟩ := hread.mpr ⟨by decide, by decide⟩
  exact ⟨table, fixed, hrun, hitems⟩

/-- A parenthesis in a quotation ends the list, and a quote after a backslash ends the quotation. -/
theorem scan_quotation_split :
    (∃ table fixed, Source.Scanner.attrs.run { rest := "(a=')')".toList } =
        (.ok (some ⟨.attrs table fixed, 1⟩), { rest := "')".toList }) ∧ table.items = []) ∧
      ∃ table fixed, Source.Scanner.attrs.run { rest := "(a='it\\'s')".toList } =
        (.ok (some ⟨.attrs table fixed, 1⟩), { rest := [] }) ∧ table.items = [] :=
  ⟨⟨_, _, rfl, by decide +kernel⟩, ⟨_, _, rfl, by decide +kernel⟩⟩

end Jade.AttributeList

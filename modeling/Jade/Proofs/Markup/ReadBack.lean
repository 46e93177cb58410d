import Jade.Proofs.Markup.Computed

/-!
# Attributes that can be read back

What is written for attributes is a run of names, each after a blank, and some of them have a value
between quotes. A name without a blank and without an equals sign ends where the value begins or the
next blank stands, and a value without a quote ends at the next one. Attributes of this kind can be
read back from what is written. The classes come last, so their value need not be of this kind.

Two ways to write the same attributes therefore write the same text only if they agree on each
attribute. An attribute that one way leaves out and the other does not cannot be made up for by
others.

## Main results

* `Jade.entries_inj` : attributes are determined by what is written for them
* `Jade.Forms.pageAttributes_agree_iff` : when a page and a rendered template write the same
-/

namespace Jade

variable {v v' : Option String} {rest : List Char}

/-! ## Names, values and what comes after them -/

/-- Whether a name ends before a blank or an equals sign. -/
def IsName (s : String) : Prop := ∀ c ∈ s.toList, c ≠ ' ' ∧ c ≠ '='

instance (s : String) : Decidable (IsName s) :=
  List.decidableBAll (fun c => c ≠ ' ' ∧ c ≠ '=') s.toList

/-- Whether a value, if there is one, has no quote in it. -/
def IsQuotable (v : Option String) : Prop := ∀ t ∈ v, '"' ∉ t.toList

/-- What ends where a property ends can be told apart from what comes after it. -/
theorem append_inj_of_stop {α : Type} {p : α → Prop} {xs xs' rest rest' : List α}
    (hxs : ∀ c ∈ xs, p c) (hxs' : ∀ c ∈ xs', p c) (hrest : ∀ c ∈ rest.head?, ¬ p c)
    (hrest' : ∀ c ∈ rest'.head?, ¬ p c) (h : xs ++ rest = xs' ++ rest') :
    xs = xs' ∧ rest = rest' := by
  induction xs generalizing xs' with
  | nil =>
    cases xs' with
    | nil => exact ⟨rfl, h⟩
    | cons c xs' =>
      subst h
      exact absurd (hxs' c (List.mem_cons_self ..)) (hrest c rfl)
  | cons c xs ih =>
    cases xs' with
    | nil =>
      subst h
      exact absurd (hxs c (List.mem_cons_self ..)) (hrest' c rfl)
    | cons c' xs' =>
      rw [List.forall_mem_cons] at hxs hxs'
      rw [List.cons_append, List.cons_append, List.cons.injEq] at h
      obtain ⟨rfl, rfl⟩ := ih hxs.2 hxs'.2 h.2
      obtain rfl := h.1
      exact ⟨rfl, rfl⟩

/-- The characters of a value with what stands around it. -/
def valueChars (v : Option String) : List Char :=
  v.elim [] fun t => '=' :: '"' :: (t.toList ++ ['"'])

theorem toList_assigned (name : String) (v : Option String) :
    (assigned name v).toList = name.toList ++ valueChars v := by
  cases v <;> simp [assigned, valueChars]

theorem valueChars_injective (h : valueChars v = valueChars v') : v = v' := by
  cases v with
  | none =>
    cases v' with
    | none => rfl
    | some t' => cases h
  | some t =>
    cases v' with
    | none => cases h
    | some t' =>
      simp only [valueChars, Option.elim_some, List.cons.injEq, true_and] at h
      rw [String.toList_inj.mp (List.append_cancel_right h)]

/-- Whether characters are none at all or begin with a blank. -/
def BeginsBlank (cs : List Char) : Prop := ∀ c ∈ cs.head?, c = ' '

/-- A name is told apart from its value and what comes after it. -/
theorem name_inj {name name' : String} {rest' : List Char} (hname : IsName name)
    (hname' : IsName name') (hrest : BeginsBlank rest) (hrest' : BeginsBlank rest')
    (h : name.toList ++ (valueChars v ++ rest) = name'.toList ++ (valueChars v' ++ rest')) :
    name = name' ∧ valueChars v ++ rest = valueChars v' ++ rest' := by
  have hstop : ∀ {v : Option String} {rest : List Char}, BeginsBlank rest →
      ∀ c ∈ (valueChars v ++ rest).head?, ¬(c ≠ ' ' ∧ c ≠ '=') := by
    intro v rest hrest c hc
    cases v with
    | none => exact fun hne => hne.1 (hrest c hc)
    | some t =>
      obtain rfl : '=' = c := Option.some.inj hc
      exact fun hne => hne.2 rfl
  obtain ⟨hchars, hafter⟩ := append_inj_of_stop hname hname' (hstop hrest) (hstop hrest') h
  exact ⟨String.toList_inj.mp hchars, hafter⟩

theorem value_inj {rest' : List Char} (hv : IsQuotable v) (hv' : IsQuotable v')
    (hrest : BeginsBlank rest) (hrest' : BeginsBlank rest')
    (h : valueChars v ++ rest = valueChars v' ++ rest') : v = v' ∧ rest = rest' := by
  cases v with
  | none =>
    cases v' with
    | none => exact ⟨rfl, h⟩
    | some t' =>
      subst h
      have hblank := hrest '=' rfl
      cases hblank
  | some t =>
    cases v' with
    | none =>
      subst h
      have hblank := hrest' '=' rfl
      cases hblank
    | some t' =>
      have hquote : ∀ {t : String}, IsQuotable (some t) → ∀ c ∈ t.toList, c ≠ '"' := by
        rintro t ht c hc rfl
        exact ht t rfl hc
      simp only [valueChars, Option.elim_some, List.cons_append, List.cons.injEq, true_and,
        List.append_assoc] at h
      have hstop : ∀ {rest : List Char}, ∀ c ∈ ('"' :: rest).head?, ¬c ≠ '"' :=
        fun c hc => not_not.mpr (Option.some.inj hc).symm
      obtain ⟨ht, h⟩ := append_inj_of_stop (hquote hv) (hquote hv') hstop hstop h
      exact ⟨congrArg some (String.toList_inj.mp ht), (List.cons.inj h).2⟩

/-! ## Attributes one after the other -/

/-- A name with its value, if it has one, after a blank. -/
def entryChars (entry : String × Option String) : List Char :=
  ' ' :: (entry.1.toList ++ valueChars entry.2)

theorem entryChars_append (entry : String × Option String) (rest : List Char) :
    entryChars entry ++ rest = ' ' :: (entry.1.toList ++ (valueChars entry.2 ++ rest)) := by
  rw [entryChars, List.cons_append, List.append_assoc]

theorem toList_shownText (shown : List (String × Option (Option String))) :
    (shownText shown).toList =
      (shown.filterMap fun p => p.2.map (p.1, ·)).flatMap entryChars := by
  induction shown with
  | nil => simp [shownText]
  | cons p shown ih =>
    obtain ⟨name, v⟩ := p
    cases v with
    | none => simpa [shownText, spaced] using ih
    | some v =>
      simp only [List.filterMap_cons, Option.map_some, List.flatMap_cons, ← ih]
      simp [shownText, spaced, entryChars, toList_assigned]

/-- The classes at the end, if they are shown. -/
def lastChars (last : Option (Option String)) : List Char :=
  last.elim [] fun v => entryChars ("class", v)

theorem beginsBlank_entries (entries : List (String × Option String))
    (last : Option (Option String)) :
    BeginsBlank (entries.flatMap entryChars ++ lastChars last) := by
  intro c hc
  cases entries with
  | nil =>
    cases last with
    | none => cases hc
    | some v => exact (Option.some.inj hc).symm
  | cons entry entries => exact (Option.some.inj hc).symm

/-- An attribute that can be read back and is no class. -/
def IsLegible (entry : String × Option String) : Prop :=
  IsName entry.1 ∧ entry.1 ≠ "class" ∧ IsQuotable entry.2

theorem isName_class : IsName "class" := by decide

theorem lastChars_ne {last : Option (Option String)} {entry : String × Option String}
    (hentry : IsLegible entry) (hrest : BeginsBlank rest) :
    lastChars last ≠ entryChars entry ++ rest := by
  intro h
  cases last with
  | none => cases h
  | some v =>
    rw [← List.append_nil (lastChars (some v)), entryChars_append] at h
    have h := (List.cons.inj ((entryChars_append ("class", v) []).symm.trans h)).2
    obtain ⟨hname, -⟩ := name_inj isName_class hentry.1 (by rintro c ⟨⟩) hrest h
    exact hentry.2.1 hname.symm

/-- **Attributes are determined by what is written for them.** -/
theorem entries_inj {entries entries' : List (String × Option String)}
    {last last' : Option (Option String)} (hentries : ∀ entry ∈ entries, IsLegible entry)
    (hentries' : ∀ entry ∈ entries', IsLegible entry)
    (h : entries.flatMap entryChars ++ lastChars last =
      entries'.flatMap entryChars ++ lastChars last') : entries = entries' ∧ last = last' := by
  induction entries generalizing entries' with
  | nil =>
    cases entries' with
    | nil =>
      refine ⟨rfl, ?_⟩
      cases last with
      | none =>
        cases last' with
        | none => rfl
        | some v' => cases h
      | some v =>
        cases last' with
        | none => cases h
        | some v' =>
          have h : valueChars v = valueChars v' := List.append_cancel_left (List.cons.inj h).2
          rw [valueChars_injective h]
    | cons entry' entries' =>
      rw [List.flatMap_cons, List.append_assoc] at h
      exact absurd h (lastChars_ne (hentries' entry' (List.mem_cons_self ..))
        (beginsBlank_entries _ _))
  | cons entry entries ih =>
    cases entries' with
    | nil =>
      rw [List.flatMap_cons, List.append_assoc] at h
      exact absurd h.symm (lastChars_ne (hentries entry (List.mem_cons_self ..))
        (beginsBlank_entries _ _))
    | cons entry' entries' =>
      obtain ⟨name, v⟩ := entry
      obtain ⟨name', v'⟩ := entry'
      rw [List.forall_mem_cons] at hentries hentries'
      rw [List.flatMap_cons, List.flatMap_cons, List.append_assoc, List.append_assoc,
        entryChars_append, entryChars_append] at h
      have h := (List.cons.inj h).2
      have hrest := beginsBlank_entries entries last
      have hrest' := beginsBlank_entries entries' last'
      obtain ⟨rfl, h⟩ := name_inj hentries.1.1 hentries'.1.1 hrest hrest' h
      obtain ⟨rfl, hafter⟩ := value_inj hentries.1.2.2 hentries'.1.2.2 hrest hrest' h
      obtain ⟨rfl, rfl⟩ := ih hentries.2 hentries'.2 hafter
      exact ⟨rfl, rfl⟩

/-! ## Computed attributes -/

theorem quote_not_mem_toString (n : Int) : '"' ∉ (toString n).toList := by
  rw [← escapeText_toString_int]
  exact quote_not_mem_escapeText _

namespace ComputedNamed

variable {terse : Bool} {a : ComputedNamed}

/-- The attributes that are shown, where `shown` says with which value. -/
def entries (shown : ComputedNamed → Option (Option String)) (as : List ComputedNamed) :
    List (String × Option String) :=
  as.filterMap fun a => (shown a).map (a.name, ·)

theorem isQuotable_inTemplate {v : Option String} (h : a.inTemplate terse = some v) :
    IsQuotable v := by
  rintro t rfl
  rcases a with ⟨name, hname, value⟩
  cases value with
  | text s =>
    obtain rfl := Option.some.inj (Option.some.inj h)
    exact quote_not_mem_escapeText s
  | int n =>
    obtain rfl := Option.some.inj (Option.some.inj h)
    exact quote_not_mem_toString n
  | bool b =>
    cases b with
    | false => cases h
    | true =>
      cases terse with
      | true => cases h
      | false =>
        obtain rfl := Option.some.inj (Option.some.inj h)
        exact quote_not_mem_escapeText name
  | none => cases h

theorem isQuotable_inPage {v : Option String} (h : a.inPage terse = some v) : IsQuotable v := by
  rintro t rfl
  rcases a with ⟨name, hname, value⟩
  cases value with
  | text s =>
    obtain ⟨rfl, -⟩ := unlessName_eq_some_iff.mp (Option.some.inj h)
    exact quote_not_mem_escapeText s
  | int n =>
    by_cases hn : n = 0
    · subst hn
      cases h
    · simp only [inPage, if_neg hn] at h
      obtain ⟨rfl, -⟩ := unlessName_eq_some_iff.mp (Option.some.inj h)
      exact quote_not_mem_toString n
  | bool b =>
    cases b with
    | false => cases h
    | true =>
      cases terse with
      | true => cases h
      | false =>
        obtain rfl := Option.some.inj (Option.some.inj h)
        decide
  | none => cases h

/-- A page shows no attribute that a rendered template does not show. -/
theorem inTemplate_ne_none (h : a.inPage terse ≠ none) : a.inTemplate terse ≠ none := by
  rcases a with ⟨name, hname, value⟩
  cases value with
  | text s => exact Option.some_ne_none _
  | int n => exact Option.some_ne_none _
  | bool b =>
    cases b with
    | false => exact absurd rfl h
    | true => exact Option.some_ne_none _
  | none => exact absurd rfl h

theorem isLegible_entries {shown : ComputedNamed → Option (Option String)}
    (hshown : ∀ a v, shown a = some v → IsQuotable v) {as : List ComputedNamed}
    (hnames : ∀ a ∈ as, IsName a.name) : ∀ entry ∈ entries shown as, IsLegible entry := by
  intro entry hentry
  obtain ⟨a, ha, hmap⟩ := List.mem_filterMap.mp hentry
  obtain ⟨v, hv, rfl⟩ := Option.map_eq_some_iff.mp hmap
  exact ⟨hnames a ha, a.ne_class, hshown a v hv⟩

theorem entries_cons (shown : ComputedNamed → Option (Option String)) (a : ComputedNamed)
    (as : List ComputedNamed) :
    entries shown (a :: as) = ((shown a).map (a.name, ·)).toList ++ entries shown as := by
  cases h : shown a <;> simp [entries, h]

theorem length_entries_le (terse : Bool) (as : List ComputedNamed) :
    (entries (inPage terse) as).length ≤ (entries (inTemplate terse) as).length := by
  induction as with
  | nil => exact le_rfl
  | cons a as ih =>
    rw [entries_cons, entries_cons, List.length_append, List.length_append]
    refine Nat.add_le_add ?_ ih
    by_cases hpage : a.inPage terse = none
    · rw [hpage]
      exact Nat.zero_le _
    · obtain ⟨v, hv⟩ := Option.ne_none_iff_exists'.mp (inTemplate_ne_none hpage)
      rw [hv]
      cases a.inPage terse <;> simp

/-- If the same attributes are shown in both ways, none was left out: it would be missing at the
end. -/
theorem inPage_eq_of_entries {as : List ComputedNamed}
    (h : entries (inPage terse) as = entries (inTemplate terse) as) :
    ∀ a ∈ as, a.inPage terse = a.inTemplate terse := by
  induction as with
  | nil => exact nofun
  | cons a as ih =>
    have hle := length_entries_le terse as
    rw [entries_cons, entries_cons] at h
    rw [List.forall_mem_cons]
    cases hpage : a.inPage terse with
    | none =>
      cases htemplate : a.inTemplate terse with
      | none =>
        rw [hpage, htemplate] at h
        exact ⟨rfl, ih h⟩
      | some w =>
        rw [hpage, htemplate] at h
        have hlength := congrArg List.length h
        simp only [Option.map_none, Option.toList_none, List.nil_append, Option.map_some,
          Option.toList_some, List.singleton_append, List.length_cons] at hlength
        omega
    | some v =>
      obtain ⟨w, hw⟩ := Option.ne_none_iff_exists'.mp
        (inTemplate_ne_none (hpage.trans_ne (Option.some_ne_none v)))
      rw [hpage, hw] at h
      obtain ⟨hhead, htail⟩ := List.cons.inj h
      exact ⟨by rw [hw, (Prod.mk.inj hhead).2], ih htail⟩

end ComputedNamed

namespace ComputedAttribute

/-- What is written for computed attributes, as names and values. -/
theorem toList_computedText (shown : ComputedNamed → Option (Option String))
    (as : List ComputedNamed) (last : Option (Option String)) :
    (shownText (as.map (fun a => (a.name, shown a)) ++ [("class", last)])).toList =
      (ComputedNamed.entries shown as).flatMap entryChars ++ lastChars last := by
  have hlast : lastChars last =
      ([("class", last)].filterMap fun p => p.2.map (p.1, ·)).flatMap entryChars := by
    cases last <;> simp [lastChars]
  rw [toList_shownText, List.filterMap_append, List.flatMap_append, List.filterMap_map, hlast]
  rfl

/-- **Where both write the same.** -/
theorem shownText_eq_iff (terse : Bool) (cs : List ComputedAttribute) :
    ((∀ a ∈ others cs, a.Settled terse) ∧ ClassValue.AllSettled terse (classes cs) →
        shownText (inPage terse cs) = shownText (inTemplate terse cs)) ∧
      ((∀ a ∈ others cs, IsName a.name) →
        shownText (inPage terse cs) = shownText (inTemplate terse cs) →
        (∀ a ∈ others cs, a.Settled terse) ∧ ClassValue.AllSettled terse (classes cs)) := by
  constructor
  · rintro ⟨hothers, hclasses⟩
    rw [inPage, inTemplate, ClassValue.inPage_eq_iff.mpr hclasses]
    refine congrArg (fun shown => shownText (shown ++ _)) (List.map_congr_left fun a ha => ?_)
    rw [ComputedNamed.inPage_eq_iff.mpr (hothers a ha)]
  · intro hnames h
    have hchars := congrArg String.toList h
    rw [inPage, inTemplate, toList_computedText, toList_computedText] at hchars
    obtain ⟨hentries, hlast⟩ := entries_inj
      (ComputedNamed.isLegible_entries (fun _ _ => ComputedNamed.isQuotable_inPage) hnames)
      (ComputedNamed.isLegible_entries (fun _ _ => ComputedNamed.isQuotable_inTemplate) hnames)
      hchars
    refine ⟨fun a ha => ?_, ClassValue.inPage_eq_iff.mp hlast⟩
    exact ComputedNamed.inPage_eq_iff.mp (ComputedNamed.inPage_eq_of_entries hentries a ha)

end ComputedAttribute

open ComputedAttribute in
/-- **Computed attributes agree**, but for what a page takes for something else. Let the expressions
of attributes have texts, integers, truth values or the absent value as their values, and those of
classes also lists of texts. A page writes the attributes without a fault, and so does a rendered
template if it is given the names with their values and then all classes in one list, unless they
are all absent or false. Both texts are the same if each attribute is settled and the classes are.
Conversely these conditions hold if both texts are the same and no name has a blank or an equals
sign in it. -/
theorem Forms.pageAttributes_agree_iff (s : Setup) (xs : List (String × ComputedAttribute))
    (e e₁ : Emitter)
    (hvalues : ((xs.map Prod.fst).mapM Emit.valueOf).run.run e =
      (.ok (xs.map (·.2.value)), e₁)) :
    ∃ text text' e',
      ((Dialect.page.forms s).computed (xs.map fun x => x.2.asRead x.1)).run.run e = (.ok (), e') ∧
      e'.page = e₁.page ∧ e'.glyphs = e.glyphs ++ glyphsOf text ∧
      writeAttributes (.list ((pairs (xs.map Prod.snd)).map .pair)) e.terse = .ok text' ∧
      ((∀ a ∈ others (xs.map Prod.snd), a.Settled e.terse) ∧
          ClassValue.AllSettled e.terse (classes (xs.map Prod.snd)) → text = text') ∧
      ((∀ a ∈ others (xs.map Prod.snd), IsName a.name) → text = text' →
        (∀ a ∈ others (xs.map Prod.snd), a.Settled e.terse) ∧
          ClassValue.AllSettled e.terse (classes (xs.map Prod.snd))) := by
  obtain ⟨e', hrun, hpage, hglyphs⟩ := run_pageAttributes xs hvalues
  obtain ⟨hsame, hsettled⟩ := shownText_eq_iff e.terse (xs.map Prod.snd)
  exact ⟨_, _, e', hrun, hpage, hglyphs, writeAttributes_computed e.terse _, hsame, hsettled⟩

open ComputedAttribute in
/-- An integer, the absent value, a text with something to escape, and a list with a class. -/
theorem Forms.pageAttributes_agree_mixed :
    let xs : List (String × ComputedAttribute) :=
      [("7-4", .named ⟨"a", by decide, .int 3⟩), ("None", .named ⟨"b", by decide, .none⟩),
        ("'x<'", .named ⟨"c", by decide, .text "x<"⟩), ("['d']", .ofClass (.several ["d"]))]
    ∃ text e',
      ((Dialect.page.forms {}).computed (xs.map fun x => x.2.asRead x.1)).run.run {} =
          (.ok (), e') ∧
      e'.glyphs = glyphsOf text ∧
      writeAttributes (.list ((pairs (xs.map Prod.snd)).map .pair)) = .ok text ∧
      text = " a=\"3\" c=\"x&lt;\" class=\"d\"" := by
  intro xs
  have hthree : (Emit.valueOf "7-4").run.run {} = (.ok (.int 3), {}) := rfl
  have hnone : (Emit.valueOf "None").run.run {} = (.ok .none, {}) := rfl
  have htext : (Emit.valueOf "'x<'").run.run {} = (.ok (.text "x<"), {}) := rfl
  have hfirst : ((Emit.valueOf "['d']").run.run ({} : Emitter)).1 = .ok (.list [.text "d"]) := rfl
  obtain ⟨e₁, hlist⟩ : ∃ e₁, (Emit.valueOf "['d']").run.run {} = (.ok (.list [.text "d"]), e₁) :=
    ⟨((Emit.valueOf "['d']").run.run ({} : Emitter)).2, Prod.ext hfirst rfl⟩
  have hvalues : ((xs.map Prod.fst).mapM Emit.valueOf).run.run {} =
      (.ok (xs.map (·.2.value)), e₁) := by
    simp only [xs, List.map_cons, List.map_nil, List.mapM_cons, List.mapM_nil, Reader.run_bind,
      hthree, hnone, htext, hlist]
    rfl
  obtain ⟨text, text', e', hrun, -, hglyphs, hwrite, hsame, -⟩ :=
    Forms.pageAttributes_agree_iff {} xs {} e₁ hvalues
  obtain rfl : text = text' := by
    refine hsame ⟨fun a ha => ?_, .inr (by decide +kernel)⟩
    simp only [others, xs, List.map_cons, List.map_nil, List.filterMap_cons, List.filterMap_nil,
      List.mem_cons, List.not_mem_nil, or_false] at ha
    rcases ha with rfl | rfl | rfl
    · exact ⟨by decide, fun h => absurd h Bool.false_ne_true⟩
    · trivial
    · exact fun h => absurd h Bool.false_ne_true
  refine ⟨text, e', hrun, hglyphs, hwrite, ?_⟩
  have hvalue : (writeAttributes (.list ((pairs (xs.map Prod.snd)).map .pair))).toOption =
      some " a=\"3\" c=\"x&lt;\" class=\"d\"" := by
    decide +kernel
  have htext : (writeAttributes (.list ((pairs (xs.map Prod.snd)).map .pair))).toOption =
      some text := congrArg Except.toOption hwrite
  exact Option.some.inj (htext.symm.trans hvalue)

/-- A page leaves zero out, writes a true value as a text and does not escape a class. -/
theorem Forms.pageAttributes_disagree :
    (({} : Session).process .page {} (.ofText "p(a=1-1, b=not 0, class='<'+'b')") none).1.toOption =
        some "<p b=\"True\" class=\"<b\"></p>" ∧
      (writeAttributes (.list [.pair (.text "a", .int 0), .pair (.text "b", .bool true),
        .pair (.text "class", .list [.text "<b"])])).toOption =
        some " a=\"0\" b=\"b\" class=\"&lt;b\"" := by
  decide +kernel

end Jade

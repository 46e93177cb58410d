import Jade.Proofs.Reader.Blocks

/-!
# Reading a template by its forms

What tags and all other forms lead to, and from this what a template leads to that is read by its
forms, however deep these are. A tree that is read is derived by the grammar from all that happened
while it was read, and checking the mode makes no difference to reading it.

## Main results

* `Jade.Reader.matches_tag`, `Jade.Reader.matches_form` : a tag, and any form
* `Jade.Reader.descends_within` : forms inside of forms
* `Jade.Reader.matches_guardedTemplate` : a whole template
-/

namespace Jade

namespace Reader

open Event (token mode putOff opening)

variable {s₀ : Source} {g : Guards} {stop : Fault} {es fs ks : List Event} {r r₀ : Reader}
  {t : Token}
  {text self' self : Parse Node} {name : String} {hs : List Token.Body} {line : Nat}

/-! ## Tags -/

theorem leads_tagHead {n : Nat} (name : String) (hs : List Token.Body)
    (hr : Ready s₀ (es ++ hs.map token) r) (hhead : ∀ b ∈ hs, b.isHead = true) :
    Leads (Foreseen s₀) (tagHead n (Tag.ofHead name hs))
      (fun tag r' => ∃ hs', (∀ b ∈ hs', b.isHead = true) ∧ tag = Tag.ofHead name hs' ∧
        Ready s₀ (es ++ hs'.map token) r') r := by
  induction n generalizing r hs with
  | zero => exact .throw trivial
  | succ n ih =>
    refine (leads_peek hr).bind fun t r₁ ⟨hr₁, ht, _⟩ => ?_
    -- what remains after a token of the head was taken
    have hmore : t.body.isHead = true →
        Leads (Foreseen s₀) (do let _ ← advance; tagHead n (Tag.ofHead name (hs ++ [t.body])))
          (fun tag r' => ∃ hs', (∀ b ∈ hs', b.isHead = true) ∧ tag = Tag.ofHead name hs' ∧
            Ready s₀ (es ++ hs'.map token) r') r₁ := by
      intro hb
      refine (leads_advance_seen hr₁ ht).bind ?_
      rintro u r₂ ⟨rfl, hr₂, -, -⟩
      refine ih (hs ++ [u.body]) ?_ ?_
      · simpa using hr₂
      · intro b hmem
        rcases List.mem_append.mp hmem with hmem | hmem
        · exact hhead b hmem
        · rwa [List.mem_singleton.mp hmem]
    have hdone : Leads (Foreseen s₀) (pure (Tag.ofHead name hs))
        (fun tag r' => ∃ hs', (∀ b ∈ hs', b.isHead = true) ∧ tag = Tag.ofHead name hs' ∧
          Ready s₀ (es ++ hs'.map token) r') r₁ :=
      .pure ⟨hs, hhead, rfl, hr₁⟩
    have hread : Tag.ofHead name (hs ++ [t.body]) = (Tag.ofHead name hs).read t.body := by
      rw [Tag.ofHead, List.foldl_append]
      rfl
    rw [hread] at hmore
    obtain ⟨body, line⟩ := t
    cases body with
    | id s => exact hmore rfl
    | className s => exact hmore rfl
    | attrs table fixed => exact hmore rfl
    | _ => exact hdone

theorem matches_onLine (hself : Descends s₀ self' self) (hr : Ready s₀ es r) :
    Matches (Foreseen s₀) (onLine self') (onLine self)
      (fun rest r' => ∃ bs, Ready s₀ (es ++ bs) r' ∧
        ((∃ ks, Derives bs (.beside rest) ks ∧ (s₀.Level [] → Beside rest r')) ∨ Waits r')) r := by
  refine (leads_peekKind hr).then fun kind r₁ ⟨hr₁, _, t, ht, hkind⟩ => ?_
  have hlexed := hr₁.isLexed ht
  subst hkind
  obtain ⟨body, l⟩ := t
  cases body with
  | string =>
    refine (leads_stringNode hr₁).then ?_
    rintro _ r₂ ⟨s, line, rfl, -, fs, ks, hr₂, hd, hends⟩
    exact (Leads.pure ⟨fs, hr₂, .inl ⟨ks, hd.besideString, fun h₀ =>
      ⟨List.forall_mem_singleton.mpr (hends h₀).1, .inl rfl⟩⟩⟩).matches
  | text =>
    refine (leads_textNode hr₁).then ?_
    rintro _ r₂ ⟨s, line, rfl, -, fs, ks, hr₂, hd, hends⟩
    exact (Leads.pure ⟨fs, hr₂, .inl ⟨ks, hd.besideText, fun h₀ =>
      ⟨List.forall_mem_singleton.mpr (hends h₀).1, .inl rfl⟩⟩⟩).matches
  | code =>
    refine (matches_code hself hr₁).bind ?_
    rintro _ r₂ ⟨source, buffer, escape, c, line, rfl, -, fs, ks, hr₂, hd, hends⟩
    exact (Leads.pure ⟨fs, hr₂, .inl ⟨ks, hd.besideCode, fun h₀ =>
      ⟨List.forall_mem_singleton.mpr (hends h₀).1, .inl rfl⟩⟩⟩).matches
  | colon =>
    refine (leads_advance_seen hr₁ ht).then ?_
    rintro _ r₂ ⟨rfl, hr₂, -, -⟩
    refine (hself.ready hr₂).bind ?_
    rintro n r₃ ⟨fs, hr₃, ⟨ks, hd, hends⟩ | hw⟩
    · exact (Leads.pure ⟨_, hr₃.assoc, .inl ⟨ks, hd.besideColon, fun h₀ =>
        ⟨nofun, .inr ⟨n, rfl, (hends h₀).2⟩⟩⟩⟩).matches
    · exact (Leads.pure ⟨_, hr₃.assoc, .inr hw⟩).matches
  | custom => exact hlexed.elim
  | _ =>
    exact (Leads.pure ⟨[], by simpa using hr₁, .inl ⟨[], .nothing, fun _ =>
      ⟨nofun, .inl rfl⟩⟩⟩).matches

theorem matches_tagBlock {mark : Option Token.Body} {bs : List Event} {k : Nat} {rest : OnLine}
    (htext : ReadsBlock s₀ text) (hself : Descends s₀ self' self)
    (hr : Ready s₀ (es ++ opening name hs mark bs k) r) (hhead : ∀ b ∈ hs, b.isHead = true)
    (hmark : ∀ b ∈ mark, b.text? = some "." ∨ b.text? = some "<")
    (hb : Derives bs (.beside rest) ks) (hbeside : s₀.Level [] → Beside rest r) :
    Matches (Foreseen s₀)
      (tagBlock text self' line (.finish name hs mark) rest)
      (tagBlock textBlock self line (.finish name hs mark) rest) (YieldsForm s₀ es) r := by
  refine (leads_peekKind hr).then fun kind r₁ ⟨hr₁, hsame, t, ht, hkind⟩ => ?_
  have hbeside₁ := fun h₀ => (hbeside h₀).congr hsame
  refine .ite (fun hindent => ?_) fun _ => ?_
  · refine .ite (fun hraw => ?_) fun hraw => ?_
    · refine htext.matches hr₁ fun ps w fs ls l r₂ hr₂ hd => ?_
      refine (Leads.pure
        (yields_form (.tagRaw hhead hmark hraw hb hd) hr₂.assoc rfl trivial fun h₀ => ?_)).matches
      exact (hbeside₁ h₀).children_tag (isGreedy_leaf trivial rfl)
    · obtain ⟨w, hw⟩ := Token.Body.eq_indent (hr₁.isLexed ht) (hkind.trans (eq_of_beq hindent))
      have hbreak : t.body.isBreak = true := by rw [hw]; rfl
      refine (matches_indented hself hr₁).bind ?_
      rintro ⟨nodes, l⟩ r₂ ⟨fs, ls, hr₂, hd, hends⟩
      have hraw : (Tag.finish name hs mark).textOnly = false := by simpa using hraw
      refine (Leads.pure
        (yields_form (.tagNested hhead hmark hraw hb hd) hr₂.assoc rfl trivial
          fun h₀ => ?_)).matches
      exact (hbeside₁ h₀).children_tag ((hbeside₁ h₀).isGreedy_seq_append ht hbreak (hends h₀).1)
  · refine (Leads.pure (yields_form (.tag hhead hmark hb) hr₁ rfl trivial fun h₀ => ?_)).matches
    exact (hbeside₁ h₀).children_tag (hbeside₁ h₀).isGreedy_seq

theorem Waits.matches_tagBlock {tag : Tag} {rest : OnLine} {text' text : Parse Node} (h : Waits r) :
    Matches (Foreseen s₀) (tagBlock text' self' line tag rest) (tagBlock text self line tag rest)
      (fun _ r' => r' = r) r := by
  refine h.leads_peekKind.then ?_
  rintro kind r₁ ⟨rfl, rfl⟩
  rw [if_neg (by decide), if_neg (by decide)]
  exact Leads.matches (.pure rfl)

theorem leads_scriptIsText {dot : Bool} (hscript : (name == "script" && !dot) = true)
    (hbare : (Tag.ofHead name hs).getAttribute "type" = some (.bool true) →
      BareType s₀ r.source) :
    Leads (Foreseen s₀) (scriptIsText (.ofHead name hs))
      (fun textOnly r' => textOnly = (Tag.ofHead name hs).holdsText dot ∧ r' = r) r := by
  rw [Tag.holdsText, Tag.name_ofHead, if_pos hscript, scriptIsText]
  cases htype : (Tag.ofHead name hs).getAttribute "type" with
  | none => exact .pure ⟨rfl, rfl⟩
  | some v =>
    cases v with
    | bool b =>
      cases b with
      | true => exact .throw (hbare htype)
      | false => exact .pure ⟨rfl, rfl⟩
    | _ => exact .pure ⟨rfl, rfl⟩

/-- Whether the content of a tag is plain text, and what is read after that. -/
theorem matches_holdsText {β : Type} {dot : Bool} {f' f : Bool → Parse β} {post : β → Reader → Prop}
    (hbare : name = "script" → (Tag.ofHead name hs).getAttribute "type" = some (.bool true) →
      BareType s₀ r.source)
    (hf : Matches (Foreseen s₀) (f' ((Tag.ofHead name hs).holdsText dot))
      (f ((Tag.ofHead name hs).holdsText dot)) post r) :
    Matches (Foreseen s₀)
      (if name == "script" && !dot then scriptIsText (.ofHead name hs) >>= f'
        else pure (dot || name == "script" || name == "style") >>= f')
      (if name == "script" && !dot then scriptIsText (.ofHead name hs) >>= f
        else pure (dot || name == "script" || name == "style") >>= f) post r := by
  refine .ite (fun hscript => ?_) fun hscript => ?_
  · have hname : name = "script" := eq_of_beq (Bool.and_eq_true_iff.mp hscript).1
    refine (leads_scriptIsText hscript (hbare hname)).then ?_
    rintro _ _ ⟨rfl, rfl⟩
    exact hf
  · rw [Tag.holdsText, Tag.name_ofHead, if_neg hscript] at hf
    exact hf

/-- The events of a tag up to its mark. -/
def marked (name : String) (hs : List Token.Body) (mark : Option Token.Body) : List Event :=
  token (.tag name) :: (hs.map token ++ mark.toList.map .mark)

theorem marked_append (name : String) (hs : List Token.Body) (mark : Option Token.Body)
    (bs : List Event) (k : Nat) :
    marked name hs mark ++ (bs ++ List.replicate k (token .newline)) =
      opening name hs mark bs k := by
  simp [marked, opening]

theorem matches_tagRest (mark : Option Token.Body) (htext : ReadsBlock s₀ text)
    (hself : Descends s₀ self' self) (hr : Ready s₀ (es ++ marked name hs mark) r)
    (hhead : ∀ b ∈ hs, b.isHead = true)
    (hmark : ∀ b ∈ mark, b.text? = some "." ∨ b.text? = some "<") :
    Matches (Foreseen s₀)
      (tagRest text self' name line (.ofHead name hs)
        (mark.bind Token.Body.text? == some ".") (mark.bind Token.Body.text? == some "<"))
      (tagRest textBlock self name line (.ofHead name hs)
        (mark.bind Token.Body.text? == some ".") (mark.bind Token.Body.text? == some "<"))
      (Got s₀ es r₀) r := by
  have hbare {later : List Event} {r' : Reader}
      (hr' : Ready s₀ (es ++ marked name hs mark ++ later) r') (hname : name = "script")
      (htype : (Tag.ofHead name hs).getAttribute "type" = some (.bool true)) :
      BareType s₀ r'.source := by
    subst hname
    have hhistory := hr'.history
    rw [marked, List.append_assoc, List.cons_append, List.append_assoc] at hhistory
    exact ⟨es, hs, _, hhistory, hhead, htype⟩
  refine (matches_onLine hself hr).bind ?_
  rintro rest r₁ ⟨bs, hr₁, ⟨ks, hb, hbeside⟩ | hw⟩
  · refine matches_budget ((leads_skipNewlines _ hr₁ hbeside).then ?_)
    rintro _ r₂ ⟨k, hr₂, hbeside₂⟩
    have hr₂ := hr₂.assoc
    refine matches_holdsText (hbare hr₂) ?_
    have hr₂ := hr₂.assoc
    rw [marked_append] at hr₂
    exact (matches_tagBlock htext hself hr₂ hhead hmark hb hbeside₂).mono fun n r' h => h.got
  · -- a tag waits: nothing more is taken
    refine matches_budget ((hw.leads_skipNewlines _).then ?_)
    rintro _ _ rfl
    refine matches_holdsText (hbare hr₁) ?_
    refine hw.matches_tagBlock.mono ?_
    rintro n _ rfl
    exact ⟨_, hr₁.assoc, .inr hw⟩

/-- A tag after its head. A token whose text is a dot or a `<` is taken as its mark. -/
theorem matches_tagAfterHead (htext : ReadsBlock s₀ text) (hself : Descends s₀ self' self)
    (hr : Ready s₀ (es ++ token (.tag name) :: hs.map token) r)
    (hhead : ∀ b ∈ hs, b.isHead = true) :
    Matches (Foreseen s₀)
      (tagAfterHead text self' name line (.ofHead name hs))
      (tagAfterHead textBlock self name line (.ofHead name hs)) (Got s₀ es r₀) r := by
  refine (leads_peek hr).then fun t r₁ ⟨hr₁, ht, _⟩ => ?_
  dsimp only
  refine .ite (fun hmark => ?_) fun hmark => ?_
  · refine Leads.then (p := fun _ r₂ => Ready s₀ (es ++ marked name hs (some t.body)) r₂)
      (leads_onSource (fun u s ha => ?_) fun e s ha => ?_) fun _ r₂ hr₂ => ?_
    · obtain ⟨s', ha'⟩ := Source.exists_advance_of_stash ht
      obtain ⟨hu, rfl⟩ := Prod.mk.inj (ha.symm.trans ha')
      cases hu
      have hmarked := hr₁.mark ha
      simpa [marked] using hmarked
    · exact foreseen_of_lapse (hr₁.sound.lapse_of_advance ha)
    · refine matches_tagRest (some t.body) htext hself hr₂ hhead ?_
      rintro b hb
      obtain rfl : t.body = b := Option.some.inj hb
      rcases Bool.or_eq_true_iff.mp hmark with hdot | hless
      · exact .inl (eq_of_beq hdot)
      · exact .inr (eq_of_beq hless)
  · obtain ⟨hdot, hless⟩ : (t.text? == some ".") = false ∧ (t.text? == some "<") = false := by
      simpa using hmark
    rw [hdot, hless]
    refine matches_tagRest none htext hself ?_ hhead nofun
    simpa [marked] using hr₁

/-- **A tag.** -/
theorem matches_tag (htext : ReadsBlock s₀ text) (hself : Descends s₀ self' self)
    (hr : Ready s₀ es r) (ht : r.source.stash[0]? = some t) (hkind : t.kind = "tag") :
    Matches (Foreseen s₀) (tagBy text self') (tagBy textBlock self) (Got s₀ es r) r := by
  refine (looks_stage.isPending hr ht hkind).then fun pending r₁ ⟨hr₁, ht₁, hwaits⟩ => ?_
  cases pending with
  | true =>
    rw [if_pos rfl, if_pos rfl]
    exact Leads.matches (.pure ⟨[], by simpa using hr₁, .inr (hwaits rfl).1⟩)
  | false =>
    rw [if_neg Bool.false_ne_true, if_neg Bool.false_ne_true]
    refine (leads_advance_seen hr₁ ht₁).then ?_
    rintro u r₂ ⟨rfl, hr₂, hlexed, -⟩
    obtain ⟨name, hname⟩ : ∃ name, u.body = .tag name := by
      cases hb : u.body with
      | tag name => exact ⟨name, rfl⟩
      | custom => rw [hb] at hlexed; exact hlexed.elim
      | _ => rw [Token.kind, hb] at hkind; exact absurd hkind (by simp [Token.Body.kind])
    rw [hname] at hr₂
    rw [Token.text?, hname]
    refine matches_lineNow (matches_budget ?_)
    have hempty : Ready s₀ (es ++ [token (.tag name)] ++ [].map token) r₂ := by simpa using hr₂
    refine (leads_tagHead name [] hempty (by simp)).then ?_
    rintro _ r₃ ⟨hs, hhead, rfl, hr₃⟩
    exact matches_tagAfterHead htext hself hr₃.assoc hhead

/-! ## Any form -/

/-- An id or a class that was taken is put off, and the tag that it belongs to is next. -/
theorem Stage.putOff {r' : Reader} (hr : Ready s₀ es r) (ht : r.source.stash[0]? = some t)
    (hs : t.isShorthand = true) (ha : r.source.advance = (.ok t, r'.source))
    (hr' : Ready s₀ (es ++ [token t.body]) r') :
    Ready s₀ (es ++ [putOff]) { r' with source := r'.source.putOff t } ∧
      ∃ s, (r'.source.putOff t).advance = (.ok (r'.source.tok (.tag "div")), s) := by
  -- nothing is looked beyond an id or a class
  obtain ⟨hts, hd⟩ := hr.sound.tidy.of_shorthand ht hs
  have hsource : r'.source = { r.source with stash := [] } := by
    rw [Source.advance, hts] at ha
    exact (Prod.mk.inj ha).2.symm
  have hplain := hr.sound.tidy.plain ht
  constructor
  · exact
      { sound := hr'.sound.putOff (by rw [hsource]) (by rw [hsource]; exact hd) hs (hr.isLexed ht)
          hplain
        history := hr.history.putOff ha hs
        pipeless := hr'.pipeless
        spaces := hr'.spaces
        extending := hr'.extending }
  · refine ⟨{ r'.source with deferred := [t] }, ?_⟩
    rw [hsource, Source.advance, Source.putOff, Source.defer, Source.defer, hd]
    rfl

/-- An id or a class is put off, and the tag that it belongs to is read. -/
theorem matches_shorthand (hself : Descends s₀ self' self) (hr : Ready s₀ es r)
    (ht : r.source.stash[0]? = some t) (hs : t.isShorthand = true) :
    Matches (Foreseen s₀)
      (do
        let token ← advance
        changeSource fun s => (s.defer (s.tok (.tag "div"))).defer token
        self')
      (do
        let token ← advance
        changeSource fun s => (s.defer (s.tok (.tag "div"))).defer token
        self)
      (Got s₀ es r) r := by
  refine (leads_advance_seen hr ht).then ?_
  rintro u r₁ ⟨rfl, hr₁, -, ha⟩
  obtain ⟨hdiv, s, hnext⟩ := hr.putOff ht hs ha hr₁
  refine Leads.then (p := fun _ r₂ => r₂ = { r₁ with source := r₁.source.putOff u })
    (.modify rfl) ?_
  rintro _ _ rfl
  refine (hself.ready hdiv).mono ?_
  rintro n r₃ ⟨fs, hr₃, ⟨ks, hn, hends⟩ | hw⟩
  · refine ⟨_, hr₃.assoc, .inl ⟨ks, hn.implied, fun h₀ => ⟨?_, (hends h₀).2⟩⟩⟩
    -- a tag is next, and so the form is no conditional
    intro word hword
    obtain ⟨v, s', sentence, hv, hbody⟩ := (hends h₀).1 word hword
    rw [← Except.ok.inj (Prod.mk.inj (hnext.symm.trans hv)).1] at hbody
    exact absurd hbody (by simp [Source.tok])
  · exact ⟨_, hr₃.assoc, .inr hw⟩

theorem Got.of_peek {r₁ r' : Reader} {n : Node} (h : Got s₀ es r₁ n r')
    (hsame : r₁.source.advance = r₀.source.advance) : Got s₀ es r₀ n r' := by
  obtain ⟨fs, hr, ⟨ks, hd, hends⟩ | hw⟩ := h
  · refine ⟨fs, hr, .inl ⟨ks, hd, fun h₀ => ⟨fun word hword => ?_, (hends h₀).2⟩⟩⟩
    rw [← hsame]
    exact (hends h₀).1 word hword
  · exact ⟨fs, hr, .inr hw⟩

/-- **Any form.** -/
theorem matches_form (htext : ReadsBlock s₀ text) (hself : Descends s₀ self' self)
    (hr : Ready s₀ es r) :
    Matches (Foreseen s₀) (formBy text self') (formBy textBlock self) (Got s₀ es r) r := by
  refine (leads_peekKind hr).then fun kind r₁ ⟨hr₁, hsame, t, ht, hkind⟩ => ?_
  refine Matches.mono ?_ fun n r' (hn : Got s₀ es r₁ n r') => hn.of_peek hsame
  have hlexed := hr₁.isLexed ht
  subst hkind
  obtain ⟨body, l⟩ := t
  cases body with
  | yield =>
    refine (leads_advance_seen hr₁ ht).then ?_
    rintro _ r₂ ⟨rfl, hr₂, -⟩
    exact Leads.matches (.pure (yields_leaf .yield hr₂ rfl .nil rfl).got)
  | id => exact matches_shorthand hself hr₁ ht rfl
  | className => exact matches_shorthand hself hr₁ ht rfl
  | string =>
    refine ((leads_stringNode hr₁).mono ?_).matches
    rintro n r₂ ⟨s, line, -, hn⟩
    exact hn.got
  | text =>
    refine ((leads_textNode hr₁).mono ?_).matches
    rintro n r₂ ⟨s, line, -, hn⟩
    exact hn.got
  | code =>
    refine (matches_code hself hr₁).mono ?_
    rintro n r₂ ⟨source, buffer, escape, c, line, -, hn⟩
    exact hn.got
  | assignment => exact ((leads_assignment hr₁).mono fun _ _ h => h.got).matches
  | comment => exact (matches_comment hself hr₁).mono fun _ _ h => h.got
  | doctype => exact ((leads_doctype hr₁).mono fun _ _ h => h.got).matches
  | filter => exact (matches_filter htext hr₁).mono fun _ _ h => h.got
  | each => exact (matches_each hself hr₁).mono fun _ _ h => h.got
  | conditional => exact matches_conditional hself hr₁ ht rfl
  | parent => exact ((leads_parent hr₁).mono fun _ _ h => h.got).matches
  | call => exact (matches_call hself hr₁).mono fun _ _ h => h.got
  | mixin => exact (matches_mixin hself hr₁).mono fun _ _ h => h.got
  | block => exact (matches_namedBlock hself hr₁).mono fun _ _ h => h.got
  | inclusion => exact ((leads_inclusion hr₁).mono fun _ _ h => h.got).matches
  | tag => exact matches_tag htext hself hr₁ ht rfl
  | custom => exact hlexed.elim
  | _ => exact .get (matches_lineNow (Leads.matches (.throw trivial)))

theorem Waits.matches_form {text' text : Parse Node} (h : Waits r) :
    Matches (Foreseen s₀) (formBy text' self') (formBy text self) (fun _ r' => r' = r) r := by
  refine h.leads_peekKind.then ?_
  rintro kind r₁ ⟨rfl, rfl⟩
  show Matches _ (tagBy text' self') (tagBy text self) _ r₁
  refine Leads.then (p := fun pending r₂ => pending = true ∧ r₂ = r₁)
    (leads_of_run h.pending ⟨rfl, rfl⟩) ?_
  rintro _ r₂ ⟨rfl, rfl⟩
  rw [if_pos rfl, if_pos rfl]
  exact Leads.matches (.pure rfl)

/-- **Forms inside of forms.** Guards that let all stages through make no difference. -/
theorem descends_within (hg : g.Admits s₀) (depth : Nat) :
    Descends s₀ (within (guardedForm g stop) depth) (within form depth) := by
  induction depth with
  | zero =>
    exact ⟨fun _ _ _ => Leads.matches (.throw trivial),
      fun _ _ _ _ => Leads.matches (.throw trivial)⟩
  | succ depth ih =>
    exact ⟨fun es r hr => .guarded (hg.forms hr) (matches_form (readsBlock_guardedText hg) ih hr),
      fun es r hr hw => .guarded (hg.forms hr) hw.matches_form⟩

/-! ## Whole templates -/

/-- The tree of a template and the state after it: the grammar derives the tree from all events, and
its chains go on as far as they can. -/
def Whole (s₀ : Source) (n : Node) (r : Reader) : Prop :=
  ∃ nodes line es ks, n = .block nodes line false ∧ Ready s₀ es r ∧ Derives es (.forms nodes) ks ∧
    (∃ t, r.source.stash[0]? = some t ∧ t.kind = "eos") ∧ (s₀.Level [] → n.IsGreedy)

/-- **A whole template.** Guards that let all stages through make no difference. -/
theorem matches_guardedTemplate (hg : g.Admits s₀) (hr : Ready s₀ [] r) :
    Matches (Foreseen s₀) (guardedTemplate g stop) template (Whole s₀) r := by
  have hself : Descends s₀ (expressionBy (guardedForm g stop)) expression :=
    ⟨fun _ _ hr => matches_budget ((descends_within hg _).ready hr),
      fun _ _ hr hw => matches_budget ((descends_within hg _).waits hr hw)⟩
  have hr : Ready s₀ ([] ++ []) r := hr
  refine matches_lineNow (matches_budget ?_)
  refine (matches_many hself (by decide) hr .nil fun _ => lined_nil r).bind ?_
  rintro nodes r₁ ⟨⟨es, ks, hr₁, hd, hl⟩, hend⟩
  refine .get (Leads.matches ?_)
  rw [hr₁.extending, if_neg Bool.false_ne_true]
  refine .pure ⟨nodes, _, es, ks, rfl, hr₁, hd, hend, fun h₀ => ?_⟩
  exact Node.isGreedy_iff.mpr ⟨(hl h₀).apart, (hl h₀).greedy⟩

theorem leads_template (hr : Ready s₀ [] r) :
    Leads (Foreseen s₀) template (fun n r' => Whole s₀ n r') r := by
  have h : Matches _ (checkedTemplate s₀.rest .endless) _ _ _ :=
    matches_guardedTemplate (admits_modeGuards s₀) hr
  exact h.leads

end Reader

end Jade

import Jade.Proofs.Outline.Lines
import Jade.Proofs.Reader.Tokens

/-!
# Reading undoes writing

The tree that is read from the written form of a forest is the forest. The tokens to come are known
(`gives_print`), and none of the actions of the reader fails on them: each takes the tokens of its
own part and leaves the others. A tag takes its headline, the line ends after it and its block, so
that the next tag is what comes next. The bounds of the reader never run out, since there are at
least as many levels and rounds as there are tokens left (`Deep`, `Awaits.length_lt_budget`).

## Main results

* `Jade.Outline.returns_tag` : the tag of a line
* `Jade.Outline.returns_many` : the tags of a forest
* `Jade.Outline.parse_print` : reading undoes writing
-/

namespace Jade

namespace Outline

open Reader

variable {α : Type} {r r' : Reader} {bs after : List Token.Body} {kind : String} {n k m : Nat}
  {self : Parse Node} {f : Forest}

/-! ## Single tokens -/

/-- The action does not fail, and ends in a state as wanted. -/
abbrev Returns (act : Parse α) (post : α → Reader → Prop) (r : Reader) : Prop :=
  Leads (fun _ _ => False) act post r

/-- These are the bodies of the tokens to come, and no other template is to be read. -/
structure Awaits (r : Reader) (bs : List Token.Body) : Prop where
  gives : r.source.Gives bs
  ne_eos : ∀ b ∈ bs, b ≠ .eos
  extending : r.extending = false

theorem Awaits.length_lt_budget (h : Awaits r bs) : bs.length < r.source.size + 1 :=
  Nat.lt_of_le_of_lt (h.gives.length_le_left h.ne_eos) (left_lt_budget r)

theorem returns_advance (h : Awaits r bs) :
    Returns advance (fun t r' => t.body = bs.headD .eos ∧ Awaits r' bs.tail) r := by
  obtain ⟨t, s, hadvance, hbody, hgives⟩ := h.gives.exists_advance
  refine leads_onSource (fun u s' heq => ?_) fun e s' heq => ?_
  · rw [hadvance] at heq
    cases heq
    exact ⟨hbody, hgives, fun b hb => h.ne_eos b (List.mem_of_mem_tail hb), h.extending⟩
  · rw [hadvance] at heq
    cases heq

theorem returns_lookahead (h : Awaits r bs) (n : Nat) :
    Returns (lookahead (n + 1)) (fun t r' => t.body = bs.getD n .eos ∧ Awaits r' bs) r := by
  obtain ⟨t, s, hlook, hbody, hgives⟩ := h.gives.exists_lookahead n
  refine leads_onSource (fun u s' heq => ?_) fun e s' heq => ?_
  · rw [hlook] at heq
    cases heq
    exact ⟨hbody, hgives, h.ne_eos, h.extending⟩
  · rw [hlook] at heq
    cases heq

theorem returns_peek (h : Awaits r bs) :
    Returns peek (fun t r' => t.body = bs.headD .eos ∧ Awaits r' bs) r :=
  (returns_lookahead h 0).mono fun _ _ ⟨hbody, hawaits⟩ =>
    ⟨hbody.trans List.headD_eq_getD.symm, hawaits⟩

theorem returns_peekKind (h : Awaits r bs) :
    Returns peekKind (fun kind r' => kind = (bs.headD .eos).kind ∧ Awaits r' bs) r :=
  (returns_peek h).bind fun _ _ ⟨hbody, hawaits⟩ => .pure ⟨congrArg Token.Body.kind hbody, hawaits⟩

theorem returns_expect {b : Token.Body} (h : Awaits r (b :: bs)) (hkind : b.kind = kind) :
    Returns (expect kind) (fun t r' => t.body = b ∧ Awaits r' bs) r := by
  refine (returns_peekKind h).bind fun found r₁ ⟨hfound, hawaits⟩ => ?_
  rw [if_pos (beq_iff_eq.mpr (hfound.trans hkind))]
  exact returns_advance hawaits

theorem returns_expectBody {b : Token.Body} {f : Token.Body → Option α} {a : α}
    (h : Awaits r (b :: bs)) (hkind : b.kind = kind) (hf : f b = some a) :
    Returns (expectBody kind f) (fun x r' => x = a ∧ Awaits r' bs) r := by
  refine (returns_expect h hkind).bind fun t r₁ ⟨hbody, hawaits⟩ => ?_
  rw [hbody, hf]
  exact .pure ⟨rfl, hawaits⟩

theorem returns_textNode {s : String} (h : Awaits r (.text s :: bs)) :
    Returns textNode (fun n r' => n.withoutLines = .text [s] none ∧ Awaits r' bs) r := by
  refine Leads.bind (returns_expectBody h rfl (a := s) rfl) fun s' r₁ ⟨hs, hawaits⟩ => ?_
  subst hs
  refine leads_lineNow (.pure ?_)
  exact ⟨rfl, hawaits⟩

/-! ## A tag -/

theorem returns_skipNewlines (h : Awaits r (List.replicate k .newline ++ bs))
    (hbs : (bs.headD .eos).kind ≠ "newline") (hn : k < n) :
    Returns (skipNewlines n) (fun _ r' => Awaits r' bs) r := by
  induction n generalizing r k with
  | zero => cases hn
  | succ n ih =>
    refine (returns_peekKind h).bind fun kind r₁ ⟨hkind, hawaits⟩ => ?_
    cases k with
    | zero =>
      rw [if_neg fun heq => hbs (hkind.symm.trans (eq_of_beq heq))]
      exact .pure hawaits
    | succ k =>
      rw [if_pos (show (kind == "newline") = true from beq_iff_eq.mpr hkind)]
      exact (returns_advance hawaits).bind fun _ r₂ ⟨_, hrest⟩ => ih hrest (by omega)

/-- The line of a tag is over. -/
def Breaks (bs : List Token.Body) : Prop :=
  bs.headD .eos = .eos ∨ bs.headD .eos = .newline ∨ bs.headD .eos = .outdent ∨
    ∃ w, bs.headD .eos = .indent w

theorem returns_tagHead (ss : List Shorthand) {tag : Tag}
    (hr : Awaits r (ss.map Shorthand.body ++ bs)) (hbs : Breaks bs ∨ ∃ s, bs.headD .eos = .text s)
    (hn : ss.length < n) :
    Returns (tagHead n tag)
      (fun t r' => t = { tag with entries := tag.entries ++ ss.map Shorthand.entry } ∧
        Awaits r' bs) r := by
  induction n generalizing r ss tag with
  | zero => cases hn
  | succ n ih =>
    refine (returns_peek hr).bind fun t r₁ ⟨hbody, hawaits⟩ => ?_
    rw [hbody]
    cases ss with
    | nil =>
      have hdone : tag = { tag with entries := tag.entries ++ [] } := by rw [List.append_nil]
      rw [List.map_nil, List.nil_append] at hawaits ⊢
      rcases hbs with (heq | heq | heq | ⟨w, heq⟩) | ⟨s, heq⟩ <;> rw [heq] <;>
        exact .pure ⟨hdone, hawaits⟩
    | cons s ss =>
      have hmore : ∀ tag' : Tag, tag' = { tag with entries := tag.entries ++ [s.entry] } →
          Returns (do let _ ← advance; tagHead n tag')
            (fun t r' => t = { tag with entries := tag.entries ++ (s :: ss).map Shorthand.entry } ∧
              Awaits r' bs) r₁ := by
        rintro _ rfl
        refine (returns_advance hawaits).bind fun _ r₂ ⟨_, hrest⟩ => ?_
        refine (ih ss hrest (Nat.lt_of_succ_lt_succ hn)).mono
          fun t r₃ ⟨ht, hawaits⟩ => ⟨?_, hawaits⟩
        rw [ht, List.map_cons, List.append_assoc]
        rfl
      have hfirst : ((s :: ss).map Shorthand.body ++ bs).headD .eos = s.body := rfl
      rw [hfirst, Shorthand.body]
      cases hid : s.isId with
      | true => exact hmore _ (by rw [Shorthand.entry, hid]; rfl)
      | false => exact hmore _ (by rw [Shorthand.entry, hid]; rfl)

/-- What stands on the line of a tag after its head is the text of the tag. -/
structure OnlyText (h : Headline) (rest : OnLine) : Prop where
  code : rest.code = none
  text : Node.withoutLinesOpt rest.text = h.textNode
  content : rest.content = []

theorem returns_onLine (h : Headline) (hr : Awaits r (h.textBodies ++ bs)) (hbs : Breaks bs) :
    Returns (onLine self) (fun rest r' => OnlyText h rest ∧ Awaits r' bs) r := by
  cases ht : h.text with
  | some t =>
    have htext : h.textNode = some (.text [" " ++ t.text] none) := by
      rw [Headline.textNode, ht]
      rfl
    rw [Headline.textBodies, ht] at hr
    refine (returns_peekKind hr).bind fun kind r₁ hfirst => ?_
    obtain rfl : kind = "text" := hfirst.1
    refine (returns_textNode hfirst.2).bind fun node r₂ hnode =>
      .pure ⟨⟨rfl, ?_, rfl⟩, hnode.2⟩
    rw [Node.withoutLinesOpt, hnode.1, htext]
  | none =>
    have htext : h.textNode = none := by
      rw [Headline.textNode, ht]
      rfl
    rw [Headline.textBodies, ht, List.nil_append] at hr
    refine (returns_peekKind hr).bind fun kind r₁ hfirst => ?_
    obtain ⟨hkind, hawaits⟩ := hfirst
    rcases hbs with heq | heq | heq | ⟨w, heq⟩ <;> rw [heq] at hkind <;> subst hkind <;>
      exact .pure ⟨⟨rfl, htext.symm, rfl⟩, hawaits⟩

/-- A text starts with a blank, so it marks neither plain content nor an inline tag. -/
theorem text?_textBodies (h : Headline) (hbs : Breaks bs) {c : Char} (hc : c ≠ ' ') :
    ((h.textBodies ++ bs).headD .eos).text? ≠ some (String.singleton c) := by
  rw [Headline.textBodies]
  cases h.text with
  | some t =>
    intro heq
    have hchars := congrArg String.toList (Option.some.inj heq)
    rw [String.toList_append, String.toList_singleton] at hchars
    exact hc (List.cons.inj hchars).1.symm
  | none =>
    rcases hbs with heq | heq | heq | ⟨w, heq⟩ <;> rw [List.nil_append, heq] <;>
      exact Option.some_ne_none _ ∘ Eq.symm

theorem breaks_or_text (h : Headline) (hbs : Breaks bs) :
    Breaks (h.textBodies ++ bs) ∨ ∃ s, (h.textBodies ++ bs).headD .eos = .text s := by
  rw [Headline.textBodies]
  cases h.text with
  | some t => exact .inr ⟨_, rfl⟩
  | none => exact .inl hbs

theorem bodies_append (h : Headline) (cs : List Token.Body) :
    h.bodies ++ cs =
      .tag h.name.text :: (h.shorthands.map Shorthand.body ++ (h.textBodies ++ cs)) := by
  rw [Headline.bodies, List.cons_append, List.append_assoc]

/-- What follows the name of a tag is no list of attributes and no colon. -/
theorem kind_after_name (h : Headline) (hbs : Breaks bs) (hkind : kind = "attrs" ∨ kind = ":") :
    ((h.bodies ++ bs).getD 1 .eos).kind ≠ kind := by
  rw [bodies_append, List.getD_cons_succ]
  cases h.shorthands with
  | nil =>
    rw [List.map_nil, List.nil_append, ← List.headD_eq_getD]
    rcases breaks_or_text h hbs with (heq | heq | heq | ⟨w, heq⟩) | ⟨s, heq⟩ <;> rw [heq] <;>
      rcases hkind with rfl | rfl <;> exact of_decide_eq_true rfl
  | cons s ss =>
    rw [List.map_cons, List.cons_append, List.getD_cons_zero, Shorthand.body]
    cases s.isId <;> rcases hkind with rfl | rfl <;> exact of_decide_eq_true rfl

/-- A tag of an outline does not wait for the filter that it names. -/
theorem returns_isPending (h : Headline) (hr : Awaits r (h.bodies ++ bs)) (hbs : Breaks bs) :
    Returns isPending (fun p r' => p = false ∧ Awaits r' (h.bodies ++ bs)) r := by
  refine (returns_lookahead hr 1).bind fun t r₁ ⟨hbody, hawaits⟩ => ?_
  have hattrs : ¬ (t.kind == "attrs") = true := fun heq =>
    kind_after_name h hbs (.inl rfl) (hbody ▸ eq_of_beq heq)
  rw [if_neg hattrs]
  refine (returns_lookahead hawaits 1).bind fun t r₂ ⟨hbody, hawaits⟩ => ?_
  have hcolon : ¬ (t.kind == ":") = true := fun heq =>
    kind_after_name h hbs (.inr rfl) (hbody ▸ eq_of_beq heq)
  rw [if_neg hcolon]
  exact .pure ⟨rfl, hawaits⟩

/-- The rest of a tag: a text that is no mark, line ends, and the block. -/
theorem returns_tagAfterHead {post : Node → Reader → Prop} {line : Nat} (h : Headline)
    (hr : Awaits r (h.textBodies ++ (List.replicate k .newline ++ bs)))
    (hbreaks : Breaks (List.replicate k .newline ++ bs))
    (hnewline : (bs.headD .eos).kind ≠ "newline")
    (hblock : ∀ rest r₁, OnlyText h rest → Awaits r₁ bs →
      Returns (tagBlock textBlock self line h.tag rest) post r₁) :
    Returns (tagAfterHead textBlock self h.name.text line h.tag) post r := by
  have hscript : (h.name.text == "script") = false := beq_eq_false_iff_ne.mpr h.name.ne_script
  have hstyle : (h.name.text == "style") = false := beq_eq_false_iff_ne.mpr h.name.ne_style
  refine (returns_peek hr).bind fun t r₁ ⟨hbody, hawaits⟩ => ?_
  have hmark : ∀ c, c ≠ ' ' → (t.text? == some (String.singleton c)) = false := by
    intro c hc
    rw [beq_eq_false_iff_ne, Token.text?, hbody]
    exact text?_textBodies h hbreaks hc
  have hdot : (t.text? == some ".") = false := hmark '.' (by decide)
  have hinline : (t.text? == some "<") = false := hmark '<' (by decide)
  dsimp only
  rw [hdot, hinline]
  show Returns (tagRest textBlock self h.name.text line h.tag false false) post r₁
  refine (returns_onLine h hawaits hbreaks).bind fun rest r₂ ⟨hrest, hawaits⟩ => leads_budget ?_
  have hk : k < r₂.source.size + 1 := by
    have hlength := hawaits.length_lt_budget
    rw [List.length_append, List.length_replicate] at hlength
    omega
  refine (returns_skipNewlines hawaits hnewline hk).bind fun _ r₃ hawaits => ?_
  dsimp only
  rw [hscript, hstyle]
  exact hblock rest r₃ hrest hawaits

/-- **The tag of a line.** What it becomes depends on its block alone. -/
theorem returns_tag {post : Node → Reader → Prop} (h : Headline)
    (hr : Awaits r (h.bodies ++ (List.replicate k .newline ++ bs)))
    (hbreaks : Breaks (List.replicate k .newline ++ bs))
    (hnewline : (bs.headD .eos).kind ≠ "newline")
    (hblock : ∀ line rest r₁, OnlyText h rest → Awaits r₁ bs →
      Returns (tagBlock textBlock self line h.tag rest) post r₁) : Returns (tag self) post r := by
  rw [tag]
  refine (returns_isPending h hr hbreaks).bind fun p r₁ ⟨hp, hawaits⟩ => ?_
  subst hp
  rw [bodies_append] at hawaits
  refine (returns_advance hawaits).bind fun t r₂ ⟨hname, hawaits⟩ => ?_
  have hname : t.text?.getD "None" = h.name.text := by
    rw [Token.text?, hname]
    rfl
  rw [hname]
  refine leads_lineNow (leads_budget ?_)
  have hlength : h.shorthands.length < r₂.source.size + 1 := by
    have hlength := hawaits.length_lt_budget
    rw [List.tail_cons, List.length_append, List.length_map] at hlength
    omega
  refine (returns_tagHead h.shorthands hawaits (breaks_or_text h hbreaks) hlength).bind
    fun head r₃ ⟨hhead, hawaits⟩ => ?_
  rw [hhead]
  exact returns_tagAfterHead h hawaits hbreaks hnewline fun rest r₁ => hblock _ rest r₁

theorem withoutLines_tag {h : Headline} {rest : OnLine} (hrest : OnlyText h rest)
    (ns : List Node) (line : Option Nat) :
    (Node.tag h.tag rest.code rest.text (Node.seq (rest.content ++ ns)) line).withoutLines =
      h.node (ns.map Node.withoutLines) := by
  rw [Node.withoutLines, hrest.text, hrest.code, hrest.content, Node.seq, Node.withoutLines,
    Node.withoutLinesAll_eq_map]
  rfl

theorem returns_tag_leaf (h : Headline)
    (hr : Awaits r (h.bodies ++ (List.replicate k .newline ++ bs)))
    (hbreaks : Breaks (List.replicate k .newline ++ bs))
    (hnewline : (bs.headD .eos).kind ≠ "newline") (hindent : (bs.headD .eos).kind ≠ "indent") :
    Returns (tag self) (fun node r' => node.withoutLines = h.node [] ∧ Awaits r' bs) r := by
  refine returns_tag h hr hbreaks hnewline fun line rest r₁ hrest hawaits => ?_
  refine (returns_peekKind hawaits).bind fun kind r₂ ⟨hfound, hawaits⟩ => ?_
  rw [if_neg fun heq => hindent (hfound ▸ eq_of_beq heq)]
  have hnode := withoutLines_tag hrest [] line
  rw [List.append_nil] at hnode
  exact .pure ⟨hnode, hawaits⟩

theorem returns_indented {width : Nat} {ns : List Node} (hr : Awaits r (.indent width :: bs))
    (hmany : ∀ r₁ : Reader, Awaits r₁ bs → Returns (many "outdent" self (r₁.source.size + 1) [])
      (fun out r' => out.map Node.withoutLines = ns ∧ Awaits r' (.outdent :: after)) r₁) :
    Returns (indented self)
      (fun out r' => out.1.map Node.withoutLines = ns ∧ Awaits r' after) r := by
  refine leads_lineNow ?_
  refine (returns_expect hr rfl).bind fun _ r₁ ⟨_, hawaits⟩ => leads_budget ?_
  refine (hmany r₁ hawaits).bind fun out r₂ ⟨hout, hawaits⟩ => ?_
  exact (returns_expect hawaits rfl).bind fun _ r₃ ⟨_, hawaits⟩ => .pure ⟨hout, hawaits⟩

theorem returns_tag_inner (h : Headline) {width : Nat} {ns : List Node}
    (hr : Awaits r (h.bodies ++ .indent width :: bs))
    (hmany : ∀ r₁ : Reader, Awaits r₁ bs → Returns (many "outdent" self (r₁.source.size + 1) [])
      (fun out r' => out.map Node.withoutLines = ns ∧ Awaits r' (.outdent :: after)) r₁) :
    Returns (tag self) (fun node r' => node.withoutLines = h.node ns ∧ Awaits r' after) r := by
  have hbreaks : Breaks (.indent width :: bs) := .inr (.inr (.inr ⟨width, rfl⟩))
  have hnewline : (Token.Body.indent width).kind ≠ "newline" := of_decide_eq_true rfl
  refine returns_tag (k := 0) h hr hbreaks hnewline fun line rest r₁ hrest hawaits => ?_
  refine (returns_peekKind hawaits).bind fun kind r₂ ⟨hfound, hawaits⟩ => ?_
  obtain rfl : kind = "indent" := hfound
  refine (returns_indented hawaits hmany).bind fun out r₃ ⟨hout, hawaits⟩ => .pure ⟨?_, hawaits⟩
  rw [withoutLines_tag hrest, hout]

/-! ## The tags of a forest -/

/-- A form is read at least as deep as there are tokens left, as long as these are at most `m`. -/
def Deep (m : Nat) (self : Parse Node) : Prop :=
  ∀ r bs, Awaits r bs → bs.length ≤ m → ∃ d, bs.length ≤ d ∧
    ∀ post, Returns (form (within form d)) post r → Returns self post r

theorem deep_within {d : Nat} (h : m ≤ d) : Deep m (within form (d + 1)) :=
  fun _ _ _ hm => ⟨d, Nat.le_trans hm h, fun _ hform => hform⟩

theorem deep_expression (m : Nat) : Deep m expression := by
  intro r bs hr _
  have hlength := hr.length_lt_budget
  refine ⟨2 * r.source.size + 1, by omega, fun post hform => leads_budget ?_⟩
  rw [Nat.mul_succ]
  exact hform

/-- A tag at the head of a sequence is read by its own form, and then the rest of the sequence. -/
theorem returns_many_tag {stop : String} {nodes : List Node} {post : List Node → Reader → Prop}
    (h : Headline) (content : List Node) (cs : List Token.Body) (hself : Deep m self)
    (hr : Awaits r (h.bodies ++ bs)) (hm : (h.bodies ++ bs).length ≤ m) (hstop : stop ≠ "tag")
    (htag : ∀ inner r₁, Deep bs.length inner → Awaits r₁ (h.bodies ++ bs) → Returns (tag inner)
      (fun node r' => node.withoutLines = h.node content ∧ Awaits r' cs) r₁)
    (hmore : ∀ nodes' r₁,
      nodes'.map Node.withoutLines = nodes.map Node.withoutLines ++ [h.node content] →
      Awaits r₁ cs → Returns (many stop self n nodes') post r₁) :
    Returns (many stop self (n + 1) nodes) post r := by
  have hself : ∀ r₁, Awaits r₁ (h.bodies ++ bs) → Returns self
      (fun node r' => node.withoutLines = h.node content ∧ Awaits r' cs) r₁ := by
    intro r₁ hawaits
    obtain ⟨d, hd, hform⟩ := hself r₁ _ hawaits hm
    -- the forms inside are read one level less deep, and the tag itself is gone
    rw [bodies_append, List.length_cons, List.length_append, List.length_append] at hd
    obtain ⟨d, rfl⟩ : ∃ d', d = d' + 1 := ⟨d - 1, by omega⟩
    refine hform _ ((returns_peekKind hawaits).bind fun kind r₂ ⟨hkind, hawaits⟩ => ?_)
    obtain rfl : kind = "tag" := hkind
    exact htag _ r₂ (deep_within (by omega)) hawaits
  refine (returns_peekKind hr).bind fun kind r₁ ⟨hkind, hawaits⟩ => ?_
  obtain rfl : kind = "tag" := hkind
  rw [if_neg fun heq => hstop (eq_of_beq heq).symm, if_neg (by decide)]
  refine (hself r₁ hawaits).bind fun node r₂ ⟨hnode, hawaits⟩ => hmore _ r₂ ?_ hawaits
  rw [List.map_append, List.map_singleton, hnode]

/-- What ends the tags of a forest: the outdent after them, or the end. -/
def Closes (after : List Token.Body) : Prop :=
  after.headD .eos = .outdent ∨ after.headD .eos = .eos

theorem Closes.breaks (h : Closes after) (k : Nat) :
    Breaks (List.replicate k .newline ++ after) := by
  cases k with
  | zero => exact h.elim (fun heq => .inr (.inr (.inl heq))) .inl
  | succ k => exact .inr (.inl rfl)

theorem Closes.kind_ne (h : Closes after) (hkind : kind ≠ "outdent") (hkind' : kind ≠ "eos") :
    (after.headD .eos).kind ≠ kind := by
  rcases h with heq | heq <;> rw [heq]
  · exact hkind.symm
  · exact hkind'.symm

theorem returns_many_newlines {nodes : List Node}
    (hr : Awaits r (List.replicate k .newline ++ after)) (hafter : Closes after) (hn : k < n) :
    Returns (many (after.headD .eos).kind self n nodes)
      (fun out r' => out = nodes ∧ Awaits r' after) r := by
  induction n generalizing r k with
  | zero => cases hn
  | succ n ih =>
    refine (returns_peekKind hr).bind fun kind r₁ ⟨hkind, hawaits⟩ => ?_
    cases k with
    | zero =>
      have hkind : kind = (after.headD .eos).kind := hkind
      rw [if_pos (beq_iff_eq.mpr hkind)]
      exact .pure ⟨rfl, hawaits⟩
    | succ k =>
      obtain rfl : kind = "newline" := hkind
      have hstop : (after.headD .eos).kind ≠ "newline" :=
        hafter.kind_ne (by decide) (by decide)
      rw [if_neg fun heq => hstop (eq_of_beq heq).symm, if_pos (by decide)]
      exact (returns_advance hawaits).bind fun _ r₂ ⟨_, hrest⟩ => ih hrest (by omega)

theorem Spells.exists_tag (h : Spells f bs) (hf : f ≠ .nil) : ∃ name cs, bs = .tag name :: cs := by
  cases h with
  | nil k => exact absurd rfl hf
  | last head k => exact ⟨_, _, bodies_append head _⟩
  | leaf head hne h => exact ⟨_, _, bodies_append head _⟩
  | inner head width h h' => exact ⟨_, _, bodies_append head _⟩

/-- **The tags of a forest.** By induction on how the forest is spelled: a tag is read with the line
ends or the block after it, so that what is left starts with the next tag. -/
theorem returns_many (h : Spells f bs) (nodes : List Node) (hself : Deep m self)
    (hr : Awaits r (bs ++ after)) (hm : (bs ++ after).length ≤ m) (hn : bs.length < n)
    (hafter : Closes after) :
    Returns (many (after.headD .eos).kind self n nodes)
      (fun out r' => out.map Node.withoutLines = nodes.map Node.withoutLines ++ f.nodes ∧
        Awaits r' after) r := by
  have hstop : (after.headD .eos).kind ≠ "tag" := hafter.kind_ne (by decide) (by decide)
  induction h generalizing r m n self nodes after with
  | nil k =>
    rw [List.length_replicate] at hn
    refine (returns_many_newlines hr hafter hn).mono fun out r₁ ⟨hout, hawaits⟩ => ⟨?_, hawaits⟩
    rw [hout, Forest.nodes, List.append_nil]
  | last head k =>
    rw [bodies_append, List.length_cons] at hn
    obtain ⟨n, rfl⟩ : ∃ n', n = n' + 2 := ⟨n - 2, by omega⟩
    rw [List.append_assoc] at hr hm
    refine returns_many_tag head [] after hself hr hm hstop
      (fun inner r₁ _ hawaits => returns_tag_leaf head hawaits (hafter.breaks k)
        (hafter.kind_ne (by decide) (by decide)) (hafter.kind_ne (by decide) (by decide)))
      fun nodes' r₁ hnodes hawaits => ?_
    refine (returns_many_newlines (k := 0) hawaits hafter (Nat.succ_pos n)).mono
      fun out r₂ ⟨hout, hawaits⟩ => ⟨?_, hawaits⟩
    rw [hout, hnodes]
    rfl
  | @leaf head siblings bs hne h ih =>
    obtain ⟨n, rfl⟩ : ∃ n', n = n' + 1 := ⟨n - 1, by omega⟩
    rw [List.length_append, List.length_cons] at hn
    rw [List.append_assoc, List.cons_append] at hr hm
    have hkind : ∀ kind, "tag" ≠ kind → ((bs ++ after).headD .eos).kind ≠ kind := by
      obtain ⟨name, cs, rfl⟩ := h.exists_tag hne
      exact fun kind hne => hne
    refine returns_many_tag head [] (bs ++ after) hself hr hm hstop
      (fun inner r₁ _ hawaits => returns_tag_leaf (k := 1) head hawaits (.inr (.inl rfl))
        (hkind _ (by decide)) (hkind _ (by decide)))
      fun nodes' r₁ hnodes hawaits => ?_
    rw [List.length_append, List.length_cons] at hm
    refine (ih nodes' hself hawaits (by omega) (by omega) hafter hstop).mono
      fun out r₂ ⟨hout, hawaits⟩ => ⟨?_, hawaits⟩
    rw [hout, hnodes, List.append_assoc]
    rfl
  | @inner head children siblings bs bs' width h h' ih ih' =>
    obtain ⟨n, rfl⟩ : ∃ n', n = n' + 1 := ⟨n - 1, by omega⟩
    rw [List.length_append, List.length_cons, List.length_append, List.length_cons] at hn
    rw [List.append_assoc, List.cons_append, List.append_assoc, List.cons_append] at hr hm
    refine returns_many_tag head children.nodes (bs' ++ after) hself hr hm hstop
      (fun inner r₁ hinner hawaits => returns_tag_inner head hawaits fun r₂ hawaits => ?_)
      fun nodes' r₁ hnodes hawaits => ?_
    · have hbudget := hawaits.length_lt_budget
      rw [List.length_append] at hbudget
      exact ih [] hinner hawaits (Nat.le_succ _) (by omega) (.inl rfl) (of_decide_eq_true rfl)
    · rw [List.length_append, List.length_cons, List.length_append, List.length_cons] at hm
      refine (ih' nodes' hself hawaits (by omega) (by omega) hafter hstop).mono
        fun out r₂ ⟨hout, hawaits⟩ => ⟨?_, hawaits⟩
      rw [hout, hnodes, List.append_assoc]
      rfl

theorem bodies_ne_eos (h : Headline) : ∀ b ∈ h.bodies, b ≠ .eos := by
  intro b hb
  rw [Headline.bodies, List.mem_cons, List.mem_append, List.mem_map] at hb
  rcases hb with rfl | ⟨s, -, rfl⟩ | hb
  · exact Token.Body.noConfusion
  · rw [Shorthand.body]
    cases s.isId <;> exact Token.Body.noConfusion
  · rw [Headline.textBodies] at hb
    cases ht : h.text with
    | some t =>
      rw [ht, List.mem_singleton] at hb
      rw [hb]
      exact Token.Body.noConfusion
    | none =>
      rw [ht] at hb
      cases hb

theorem Spells.ne_eos (h : Spells f bs) : ∀ b ∈ bs, b ≠ .eos := by
  induction h with
  | nil k => exact fun b hb => (List.eq_of_mem_replicate hb) ▸ nofun
  | last head k =>
    rintro b hb
    rcases List.mem_append.mp hb with hb | hb
    · exact bodies_ne_eos head b hb
    · exact (List.eq_of_mem_replicate hb) ▸ nofun
  | leaf head hne h ih =>
    intro b hb
    rw [List.mem_append, List.mem_cons] at hb
    rcases hb with hb | rfl | hb
    · exact bodies_ne_eos head b hb
    · exact nofun
    · exact ih b hb
  | inner head width h h' ih ih' =>
    intro b hb
    rw [List.mem_append, List.mem_cons, List.mem_append, List.mem_cons] at hb
    rcases hb with hb | rfl | hb | rfl | hb
    · exact bodies_ne_eos head b hb
    · exact nofun
    · exact ih b hb
    · exact nofun
    · exact ih' b hb

/-- **Reading a written forest.** -/
theorem returns_template (h : Spells f bs) (hr : Awaits r bs) :
    Returns template (fun node _ => node.withoutLines = Node.seq f.nodes) r := by
  have hbudget := hr.length_lt_budget
  rw [← List.append_nil bs] at hr
  refine leads_lineNow (leads_budget ?_)
  have hmany := returns_many h [] (deep_expression (bs ++ []).length) hr (Nat.le_refl _) hbudget
    (.inr rfl)
  refine hmany.bind fun nodes r₁ ⟨hnodes, hawaits⟩ => .get ?_
  dsimp only
  rw [hawaits.extending, if_neg Bool.false_ne_true]
  refine .pure ?_
  rw [Node.withoutLines, Node.withoutLinesAll_eq_map, hnodes]
  rfl

/-- **Reading undoes writing.** The tree of a written forest is the forest itself, but for the
numbers of the lines. -/
theorem parse_print (f : Forest) (closed colons : Bool) (file : Option String) :
    (parse (.ofText (f.print closed) colons) file).map Node.withoutLines =
      .ok (Node.seq f.nodes) := by
  obtain ⟨bs, hspells, hgives⟩ := gives_print f closed colons
  have hreturns := returns_template hspells
    (r := ofSource (.ofText (f.print closed) colons) file) ⟨hgives, hspells.ne_eos, rfl⟩
  rw [Returns, Leads] at hreturns
  rw [parse]
  split at hreturns
  · next node r' hrun =>
    rw [hrun, Except.map, hreturns]
  · exact hreturns.elim

end Outline

end Jade

import Jade.Proofs.Reader.ChainEnds
import Jade.Proofs.Reader.RawText

/-!
# Blocks and control lines

What is read from a stage outside of text blocks leads to such a stage again, with a part of a
template that the grammar derives from the events in between; or it fails with a fault that is
foreseen. And it does the same whether the mode is checked or not. If no line end follows an outdent
of the source, then each chain of conditionals goes on as far as it can. Here this is said of blocks
and of the forms that stand on lines of their own, for any way to read the forms inside of them.

The exception is a tag that waits for nodes to filter. It is left where it is, and everything that
is read after it leaves it there too. A block in which a form has come to such a tag never ends, so
a tag that waits is in no tree that is read to its end.

## Main results

* `Jade.Reader.Looks.isPending` : whether a tag waits
* `Jade.Reader.matches_many`, `matches_indented` : blocks
* `Jade.Reader.matches_code`, `readsConditional_chain`, `matches_filter` : control lines
-/

namespace Jade

theorem Token.Body.eq_newline {b : Token.Body} (h : b.IsLexed) (hk : b.kind = "newline") :
    b = .newline := by
  cases b with
  | newline => rfl
  | custom => exact h.elim
  | _ => exact absurd hk (by simp [kind])

theorem Token.Body.eq_indent {b : Token.Body} (h : b.IsLexed) (hk : b.kind = "indent") :
    ∃ w, b = .indent w := by
  cases b with
  | indent w => exact ⟨w, rfl⟩
  | custom => exact h.elim
  | _ => exact absurd hk (by simp [kind])

namespace Reader

open Event (token mode putOff opening)

variable {s₀ : Source} {es fs ks : List Event} {r : Reader} {t : Token} {self' self : Parse Node}
  {n : Nat} {fault : Fault → Reader → Prop}

theorem Stage.assoc {raw : Bool} {spaces : Option Nat} {gs : List Event}
    (h : Stage s₀ raw spaces (es ++ fs ++ gs) r) : Stage s₀ raw spaces (es ++ (fs ++ gs)) r := by
  rwa [List.append_assoc] at h

/-- The events since `es` derive a part of a template, which ends here. -/
def Yields (s₀ : Source) (es : List Event) (part : Part) (r : Reader) : Prop :=
  ∃ fs ks, Ready s₀ (es ++ fs) r ∧ Derives fs part ks ∧ (s₀.Level [] → part.Ends r)

/-- The events since `es` derive a form that is no conditional. -/
def YieldsForm (s₀ : Source) (es : List Event) (n : Node) (r : Reader) : Prop :=
  n.isConditional = false ∧ Yields s₀ es (.form n) r

theorem yields_form {n : Node} (hd : Derives fs (.form n) ks) (hr : Ready s₀ (es ++ fs) r)
    (hn : n.isConditional = false) (hat : n.IsGreedyAt)
    (hc : s₀.Level [] → ∀ m ∈ n.children, m.IsGreedy) : YieldsForm s₀ es n r :=
  ⟨hn, fs, ks, hr, hd, fun h₀ =>
    ⟨Node.isGreedy_iff.mpr ⟨hat, hc h₀⟩, stops_of_not_isConditional hn r⟩⟩

theorem yields_leaf {n : Node} (hd : Derives fs (.form n) ks) (hr : Ready s₀ (es ++ fs) r)
    (hn : n.isConditional = false) (hat : n.IsGreedyAt) (hc : n.children = []) :
    YieldsForm s₀ es n r := yields_form hd hr hn hat fun _ => by simp [hc]

/-! ## Single tokens -/

theorem leads_textNode (hr : Ready s₀ es r) :
    Leads (Foreseen s₀) textNode
      (fun n r' => ∃ s line, n = .text [s] line ∧ YieldsForm s₀ es n r') r := by
  refine (leads_expectBody Token.Body.text (by grind) hr).bind ?_
  rintro s r₁ ⟨hr₁, hlexed, -⟩
  exact leads_lineNow (.pure ⟨s, _, rfl, yields_leaf (.text hlexed) hr₁ rfl trivial rfl⟩)

theorem leads_stringNode (hr : Ready s₀ es r) :
    Leads (Foreseen s₀) stringNode
      (fun n r' => ∃ s line, n = .string [s] line ∧ YieldsForm s₀ es n r') r := by
  refine (leads_expectBody Token.Body.string (by grind) hr).bind ?_
  rintro s r₁ ⟨hr₁, -⟩
  exact leads_lineNow (.pure ⟨s, _, rfl, yields_leaf .string hr₁ rfl trivial rfl⟩)

theorem leads_assignment (hr : Ready s₀ es r) :
    Leads (Foreseen s₀) assignment (YieldsForm s₀ es) r := by
  refine (leads_expectBody (fun a : String × String => .assignment a.1 a.2) (by grind) hr).bind ?_
  rintro ⟨name, value⟩ r₁ ⟨hr₁, -⟩
  exact .pure (yields_leaf .assignment hr₁ rfl trivial rfl)

theorem leads_doctype (hr : Ready s₀ es r) :
    Leads (Foreseen s₀) doctype (YieldsForm s₀ es) r := by
  refine (leads_expectBody Token.Body.doctype (by grind) hr).bind ?_
  rintro name r₁ ⟨hr₁, -⟩
  exact leads_lineNow (.pure (yields_leaf .doctype hr₁ rfl trivial rfl))

theorem leads_parent (hr : Ready s₀ es r) :
    Leads (Foreseen s₀) parent (YieldsForm s₀ es) r := by
  refine (leads_expectBody Token.Body.parent (by grind) hr).bind ?_
  rintro path r₁ ⟨hr₁, -⟩
  exact .pure (yields_leaf .parent hr₁ rfl trivial rfl)

theorem leads_inclusion (hr : Ready s₀ es r) :
    Leads (Foreseen s₀) inclusion (YieldsForm s₀ es) r := by
  refine (leads_expectBody Token.Body.inclusion (by grind) hr).bind ?_
  rintro path r₁ ⟨hr₁, -⟩
  exact .pure (yields_leaf .inclusion hr₁ rfl trivial rfl)

theorem isBreak_newline {b : Token.Body} (h : b.IsLexed) (hk : b.kind = "newline") :
    b.isBreak = true := by
  rw [Token.Body.eq_newline h hk]
  rfl

/-- Line ends are passed over, unless a chain stands beside the tag. -/
theorem leads_skipNewlines {rest : OnLine} (n : Nat) (hr : Ready s₀ es r)
    (h : s₀.Level [] → Beside rest r) :
    Leads (Foreseen s₀) (skipNewlines n)
      (fun _ r' => ∃ k, Ready s₀ (es ++ List.replicate k (token .newline)) r' ∧
        (s₀.Level [] → Beside rest r')) r := by
  induction n generalizing es r with
  | zero => exact .throw trivial
  | succ n ih =>
    refine (leads_peekKind hr).bind fun kind r₁ ⟨hr₁, hsame, t, ht, hkind⟩ => ?_
    have h₁ := fun h₀ => (h h₀).congr hsame
    split
    · next heq =>
      have hnewline := hkind.trans (eq_of_beq heq)
      refine (leads_advance_seen hr₁ ht).bind ?_
      rintro u r₂ ⟨rfl, hr₂, hlexed, -⟩
      rw [Token.Body.eq_newline hlexed hnewline] at hr₂
      refine (ih hr₂ fun h₀ => (h₁ h₀).of_break ht (isBreak_newline hlexed hnewline) r₂).mono ?_
      rintro _ r₃ ⟨k, hr₃, h₃⟩
      refine ⟨k + 1, ?_, h₃⟩
      rw [List.replicate_succ]
      simpa using hr₃
    · exact .pure ⟨0, by simpa using hr₁, h₁⟩

/-! ## Tags that wait -/

/-- A tag is next that waits for nodes to filter. It stays next. -/
structure Waits (r : Reader) : Prop where
  tag : ∃ t, r.source.stash[0]? = some t ∧ t.kind = "tag"
  pending : isPending.run.run r = (.ok true, r)

theorem leads_of_run {α : Type} {act : Parse α} {a : α} {r' : Reader} {post : α → Reader → Prop}
    (h : act.run.run r = (.ok a, r')) (hpost : post a r') : Leads fault act post r := by
  rw [Leads, h]
  exact hpost

theorem leads_lookahead_of_stash (ht : r.source.stash[n]? = some t) :
    Leads fault (lookahead (n + 1)) (fun u r' => u = t ∧ r' = r) r :=
  leads_of_run (run_lookahead_of_stash ht) ⟨rfl, rfl⟩

theorem leads_peekKind_of_stash (ht : r.source.stash[0]? = some t) :
    Leads fault peekKind (fun kind r' => kind = t.kind ∧ r' = r) r := by
  refine Leads.bind (leads_lookahead_of_stash (n := 0) ht) ?_
  rintro u r' ⟨rfl, rfl⟩
  exact .pure ⟨rfl, rfl⟩

theorem Waits.leads_peekKind (h : Waits r) :
    Leads fault peekKind (fun kind r' => kind = "tag" ∧ r' = r) r := by
  obtain ⟨t, ht, hkind⟩ := h.tag
  exact hkind ▸ leads_peekKind_of_stash ht

theorem Waits.leads_skipNewlines (n : Nat) (h : Waits r) :
    Leads (Foreseen s₀) (skipNewlines n) (fun _ r' => r' = r) r := by
  cases n with
  | zero => exact .throw trivial
  | succ n =>
    refine h.leads_peekKind.bind ?_
    rintro kind r' ⟨rfl, rfl⟩
    exact .pure rfl

theorem waits_of_stash {u v w : Token} (ht : r.source.stash[0]? = some t) (hkind : t.kind = "tag")
    (hu : r.source.stash[1]? = some u) (hn : (if u.kind == "attrs" then 3 else 2 : Int) = n + 1)
    (hv : r.source.stash[n]? = some v) (hcolon : v.kind = ":")
    (hw : r.source.stash[n + 1]? = some w) (hindent : w.kind = "indent") : Waits r := by
  have hone : (lookahead 2).run.run r = (.ok u, r) := run_lookahead_of_stash (n := 1) hu
  have hlast : (lookahead (n + 1 + 1)).run.run r = (.ok w, r) := run_lookahead_of_stash hw
  refine ⟨⟨t, ht, hkind⟩, ?_⟩
  rw [isPending, run_bind, hone]
  dsimp only
  rw [hn, run_bind, run_lookahead_of_stash hv]
  simp only [hcolon]
  show (lookahead (n + 1 + 1) >>= _ : Parse Bool).run.run r = _
  rw [run_bind, hlast]
  simp only [hindent]
  rfl

/-- Whether a tag waits is found by looking ahead, one token after the other. If it does, it is
found so again. -/
theorem Looks.isPending {P : Reader → Prop} (h : Looks fault P) (hr : P r)
    (ht : r.source.stash[0]? = some t) (hkind : t.kind = "tag") :
    Leads fault isPending
      (fun pending r' => P r' ∧ r'.source.stash[0]? = some t ∧
        (pending = true → Waits r' ∧ r'.source.WaitingTag)) r := by
  refine (h.next (n := 0) hr ht (by rw [Token.isPassable, hkind]; decide)).bind ?_
  rintro u r₁ ⟨hr₁, hu, hpre₁⟩
  -- the colon stands at the place `n`, behind the attributes if there are any
  obtain ⟨n, hn, hplace, hlook⟩ : ∃ n : Nat, (if u.kind == "attrs" then 3 else 2 : Int) = n + 1 ∧
      (n = 1 ∨ n = 2 ∧ u.kind = "attrs") ∧ Leads fault (lookahead (n + 1)) (fun v r₂ =>
        P r₂ ∧ r₂.source.stash[n]? = some v ∧ r₁.source.stash <+: r₂.source.stash) r₁ := by
    split
    · next hattrs =>
      have hattrs := eq_of_beq hattrs
      exact ⟨2, rfl, .inr ⟨rfl, hattrs⟩,
        h.next (n := 1) hr₁ hu (by rw [Token.isPassable, hattrs]; decide)⟩
    · exact ⟨1, rfl, .inl rfl,
        leads_of_run (run_lookahead_of_stash hu) ⟨hr₁, hu, List.prefix_rfl⟩⟩
  dsimp only
  rw [hn]
  refine hlook.bind ?_
  rintro v r₂ ⟨hr₂, hv, hpre₂⟩
  split
  · next hcolon =>
    have hcolon := eq_of_beq hcolon
    refine (h.next hr₂ hv (by rw [Token.isPassable, hcolon]; decide)).bind ?_
    rintro w r₃ ⟨hr₃, hw, hpre₃⟩
    have ht₃ := stash_some (hpre₁.trans (hpre₂.trans hpre₃)) ht
    have hu₃ := stash_some (hpre₂.trans hpre₃) hu
    have hv₃ := stash_some hpre₃ hv
    refine .pure ⟨hr₃, ht₃, fun hindent => ?_⟩
    have hindent := eq_of_beq hindent
    refine ⟨waits_of_stash ht₃ hkind hu₃ hn hv₃ hcolon hw hindent,
      hkind ▸ Source.kindAt_of_stash ht₃, ?_⟩
    have hcolon := hcolon ▸ Source.kindAt_of_stash hv₃
    have hindent := hindent ▸ Source.kindAt_of_stash hw
    rcases hplace with rfl | ⟨rfl, hattrs⟩
    · exact .inl ⟨hcolon, hindent⟩
    · exact .inr ⟨hattrs ▸ Source.kindAt_of_stash hu₃, hcolon, hindent⟩
  · exact .pure ⟨hr₂, stash_some (hpre₁.trans hpre₂) ht, Bool.noConfusion⟩

/-! ## Blocks -/

/-- What reading a form from `r₀` leads to: a node that the grammar derives, or a tag that waits. -/
def Got (s₀ : Source) (es : List Event) (r₀ : Reader) (n : Node) (r : Reader) : Prop :=
  ∃ fs, Ready s₀ (es ++ fs) r ∧
    ((∃ ks, Derives fs (.form n) ks ∧ (s₀.Level [] → Begins r₀ n ∧ (Part.form n).Ends r)) ∨ Waits r)

theorem YieldsForm.got {n : Node} {r₀ : Reader} (h : YieldsForm s₀ es n r) : Got s₀ es r₀ n r := by
  obtain ⟨hn, fs, ks, hr, hd, hends⟩ := h
  exact ⟨fs, hr, .inl ⟨ks, hd, fun h₀ => ⟨begins_of_not_isConditional hn r₀, hends h₀⟩⟩⟩

/-- What reading any form leads to, whether the mode is checked or not. -/
structure Descends (s₀ : Source) (act' act : Parse Node) : Prop where
  ready : ∀ ⦃es r⦄, Ready s₀ es r → Matches (Foreseen s₀) act' act (Got s₀ es r) r
  waits : ∀ ⦃es r⦄, Ready s₀ es r → Waits r →
    Matches (Foreseen s₀) act' act (fun _ r' => r' = r) r

theorem matches_many_waits {kind : String} {nodes : List Node} (hself : Descends s₀ self' self)
    (hkind : kind ≠ "tag") (hr : Ready s₀ es r) (hw : Waits r) :
    Matches (Foreseen s₀) (many kind self' n nodes) (many kind self n nodes)
      (fun _ _ => False) r := by
  induction n generalizing nodes with
  | zero => exact (Leads.throw trivial).matches
  | succ n ih =>
    refine hw.leads_peekKind.then ?_
    rintro found r' ⟨rfl, rfl⟩
    have hne : ¬ ("tag" == kind) = true := fun heq => hkind (eq_of_beq heq).symm
    rw [if_neg hne, if_neg hne]
    refine (hself.waits hr hw).bind ?_
    rintro node _ rfl
    exact ih

/-- **Nodes up to a token of a kind.** -/
theorem matches_many {kind : String} {nodes : List Node} (hself : Descends s₀ self' self)
    (hkind : kind ≠ "tag") (hr : Ready s₀ (es ++ fs) r) (hd : Derives fs (.forms nodes) ks)
    (hl : s₀.Level [] → Lined nodes r) :
    Matches (Foreseen s₀) (many kind self' n nodes) (many kind self n nodes)
      (fun nodes' r' => Yields s₀ es (.forms nodes') r' ∧
        ∃ t, r'.source.stash[0]? = some t ∧ t.kind = kind) r := by
  induction n generalizing r fs ks nodes with
  | zero => exact (Leads.throw trivial).matches
  | succ n ih =>
    refine (leads_peekKind hr).then fun found r₁ ⟨hr₁, hsame, t, ht, hfound⟩ => ?_
    have hl₁ := fun h₀ => (hl h₀).congr hsame
    refine .ite (fun hend => ?_) fun _ => ?_
    · exact Leads.matches (.pure ⟨⟨fs, ks, hr₁, hd, hl₁⟩, t, ht, hfound.trans (eq_of_beq hend)⟩)
    · refine .ite (fun hline => ?_) fun _ => ?_
      · have hnewline := hfound.trans (eq_of_beq hline)
        refine (leads_advance_seen hr₁ ht).then ?_
        rintro u r₂ ⟨rfl, hr₂, hlexed, -⟩
        rw [Token.Body.eq_newline hlexed hnewline] at hr₂
        refine ih hr₂.assoc hd.newline fun h₀ => ?_
        exact (hl₁ h₀).of_break ht (isBreak_newline hlexed hnewline) r₂
      · refine (hself.ready hr₁).bind ?_
        rintro node r₂ ⟨gs, hr₂, ⟨ls, hnode, hends⟩ | hw⟩
        · refine ih hr₂.assoc (hd.snoc hnode) fun h₀ => ?_
          exact (hl₁ h₀).concat (hends h₀).1 (hends h₀).2.1 (hends h₀).2.2
        · exact (matches_many_waits hself hkind hr₂ hw).mono fun _ _ h => h.elim

section Forms

variable (hself : Descends s₀ self' self) (hr : Ready s₀ es r)

include hself hr

theorem matches_indented :
    Matches (Foreseen s₀) (indented self') (indented self)
      (fun x r' => Yields s₀ es (.nested x.1) r') r := by
  refine matches_lineNow ((leads_expect hr).then ?_)
  rintro t r₁ ⟨hopen, hr₁, hlexed, -⟩
  obtain ⟨w, hw⟩ := Token.Body.eq_indent hlexed hopen
  rw [hw] at hr₁
  refine matches_budget ?_
  have hr₁ : Ready s₀ (es ++ [token (.indent w)] ++ []) r₁ := by rwa [List.append_nil]
  refine (matches_many hself (by decide) hr₁ .nil fun _ => lined_nil r₁).bind ?_
  rintro nodes r₂ ⟨⟨fs, ks, hr₂, hd, hl⟩, -⟩
  refine Leads.matches ((leads_expect hr₂).bind ?_)
  rintro u r₃ ⟨hclose, hr₃, hlexed', -⟩
  rw [Token.Body.eq_outdent hlexed' hclose] at hr₃
  refine .pure ⟨_, ks, hr₃.assoc.assoc, hd.nested, fun h₀ => ⟨⟨(hl h₀).apart, (hl h₀).greedy⟩, ?_⟩⟩
  exact fun t s ha => hr₃.isBreak_of_outdent h₀ ha

theorem matches_block :
    Matches (Foreseen s₀) (block self') (block self)
      (fun n r' => Yields s₀ es (.content (some n)) r') r := by
  refine (matches_indented hself hr).bind ?_
  rintro ⟨nodes, line⟩ r₁ ⟨fs, ks, hr₁, hd, hends⟩
  refine (Leads.pure ⟨fs, ks, hr₁, hd.content, fun h₀ => ⟨?_, fun _ => (hends h₀).2⟩⟩).matches
  exact List.forall_mem_singleton.mpr (Node.isGreedy_iff.mpr (hends h₀).1)

theorem matches_blockIfAny :
    Matches (Foreseen s₀) (blockIfAny self') (blockIfAny self)
      (fun c r' => Yields s₀ es (.content c) r') r := by
  refine (leads_peekKind hr).then fun kind r₁ ⟨hr₁, _⟩ => ?_
  refine .ite (fun _ => ?_) fun _ => ?_
  · refine (matches_block hself hr₁).bind ?_
    intro n r₂ hn
    exact (Leads.pure (a := some n) hn).matches
  · refine (Leads.pure ⟨[], [], by simpa using hr₁, .noContent, fun _ => ⟨?_, ?_⟩⟩).matches
    · exact nofun
    · exact fun h => absurd h Bool.false_ne_true

/-! ## Control lines -/

omit hself hr in
theorem matches_block_newline (ht : r.source.stash[0]? = some t) (hkind : t.kind = "newline") :
    Matches (Foreseen s₀) (block self') (block self) (fun _ _ => False) r := by
  have hexpect : Leads (Foreseen s₀) (expect "indent") (fun _ _ => False) r := by
    refine (leads_peekKind_of_stash ht).bind ?_
    rintro kind r' ⟨rfl, rfl⟩
    rw [hkind]
    exact .get (leads_lineNow (.throw trivial))
  refine Matches.bind (p := fun _ _ => False) (matches_lineNow ?_) fun _ _ h => h.elim
  exact hexpect.then fun _ _ h => h.elim

omit hself in
theorem leads_skipTokens {m : Nat}
    (hseen : ∀ i < m + 1, ∃ t, r.source.stash[i]? = some t ∧ t.kind = "newline") :
    Leads (Foreseen s₀) (skipTokens m)
      (fun _ r' => ∃ t, r'.source.stash[0]? = some t ∧ t.kind = "newline") r := by
  induction m generalizing es r with
  | zero => exact .pure (hseen 0 (Nat.lt_succ_self 0))
  | succ m ih =>
    obtain ⟨t, ht, -⟩ := hseen 0 (Nat.succ_pos _)
    refine (leads_advance_seen hr ht).bind ?_
    rintro u r₁ ⟨rfl, hr₁, -, ha⟩
    refine ih hr₁ fun i hi => ?_
    obtain ⟨v, hv, hkind⟩ := hseen (i + 1) (Nat.succ_lt_succ hi)
    refine ⟨v, ?_, hkind⟩
    cases hs : r.source.stash with
    | nil => rw [hs] at hv; cases hv
    | cons w ws =>
      rw [Source.advance, hs] at ha
      rw [hs, List.getElem?_cons_succ] at hv
      rw [← (Prod.mk.inj ha).2]
      exact hv

/-- **Code.** A block belongs to it only if no line end comes before it. -/
theorem matches_code :
    Matches (Foreseen s₀) (code self') (code self)
      (fun n r' => ∃ source buffer escape c line, n = .code source buffer escape c line ∧
        YieldsForm s₀ es n r') r := by
  refine (leads_expectBody (fun a : String × Bool × Bool => .code a.1 a.2.1 a.2.2)
    (by grind) hr).then ?_
  rintro ⟨source, buffer, escape⟩ r₁ ⟨hr₁, -, -⟩
  refine matches_lineNow (matches_budget ?_)
  refine (looks_stage.afterNewlines (m := 0) (.inl fun _ => trivial) hr₁ fun i hi =>
    absurd hi (Nat.not_lt_zero i)).then ?_
  rintro _ r₂ ⟨hr₂, j, t, rfl, ht, hseen⟩
  refine (leads_lookahead_of_stash ht).then ?_
  rintro u r₃ ⟨rfl, rfl⟩
  refine .ite (fun _ => ?_) fun _ => ?_
  · cases j with
    | zero =>
      refine (matches_block hself hr₂).bind ?_
      rintro n r₄ ⟨fs, ks, hr₄, hd, hends⟩
      exact (Leads.pure ⟨_, _, _, _, _, rfl,
        yields_form hd.code hr₄.assoc rfl trivial fun h₀ => (hends h₀).1⟩).matches
    | succ j =>
      have hskip : skip (((j + 1 : Nat) : Int) + 1 - 1) = skipTokens j := by
        rw [skip]
        congr 1
        omega
      rw [hskip]
      refine (leads_skipTokens hr₂ hseen).then ?_
      rintro _ r₄ ⟨v, hv, hkind⟩
      exact (matches_block_newline hv hkind).bind fun _ _ h => h.elim
  · exact (Leads.pure ⟨_, _, _, _, _, rfl,
      yields_leaf Derives.noContent.code hr₂ rfl trivial rfl⟩).matches

theorem matches_comment :
    Matches (Foreseen s₀) (comment self') (comment self) (YieldsForm s₀ es) r := by
  refine (leads_expectBody (fun a : String × Bool => .comment a.1 a.2) (by grind) hr).then ?_
  rintro ⟨content, buffer⟩ r₁ ⟨hr₁, -⟩
  refine (matches_blockIfAny hself hr₁).bind ?_
  rintro (_ | n) r₂ ⟨fs, ks, hr₂, hd, hends⟩
  · cases hd with
    | noContent =>
      rw [List.append_nil] at hr₂
      exact matches_lineNow (Leads.pure (yields_leaf .comment hr₂ rfl trivial rfl)).matches
  · exact matches_lineNow (Leads.pure
      (yields_form hd.blockComment hr₂.assoc rfl trivial fun h₀ => (hends h₀).1)).matches

theorem matches_each :
    Matches (Foreseen s₀) (each self') (each self) (YieldsForm s₀ es) r := by
  refine (leads_expectBody (fun a : List String × String => .each a.1 a.2) (by grind) hr).then ?_
  rintro ⟨keys, subject⟩ r₁ ⟨hr₁, -⟩
  refine matches_lineNow ((matches_block hself hr₁).bind ?_)
  rintro n r₂ ⟨fs, ks, hr₂, hd, hends⟩
  exact (Leads.pure (yields_form hd.each hr₂.assoc rfl trivial fun h₀ => (hends h₀).1)).matches

theorem matches_call :
    Matches (Foreseen s₀) (call self') (call self) (YieldsForm s₀ es) r := by
  refine (leads_expectBody (fun a : String × Option String => .call a.1 a.2) (by grind) hr).then ?_
  rintro ⟨name, args⟩ r₁ ⟨hr₁, -⟩
  refine (matches_blockIfAny hself hr₁).bind ?_
  rintro c r₂ ⟨fs, ks, hr₂, hd, hends⟩
  exact (Leads.pure (yields_form hd.call hr₂.assoc rfl trivial fun h₀ => (hends h₀).1)).matches

theorem matches_mixin :
    Matches (Foreseen s₀) (mixin self') (mixin self) (YieldsForm s₀ es) r := by
  refine (leads_expectBody (fun a : String × Option String => .mixin a.1 a.2) (by grind) hr).then ?_
  rintro ⟨name, args⟩ r₁ ⟨hr₁, -⟩
  refine (matches_blockIfAny hself hr₁).bind ?_
  rintro c r₂ ⟨fs, ks, hr₂, hd, hends⟩
  exact (Leads.pure (yields_form hd.mixin hr₂.assoc rfl trivial fun h₀ => (hends h₀).1)).matches

theorem matches_namedBlock :
    Matches (Foreseen s₀) (namedBlock self') (namedBlock self) (YieldsForm s₀ es) r := by
  refine (leads_expectBody (fun a : String × String => .block a.1 a.2) (by grind) hr).then ?_
  rintro ⟨way, name⟩ r₁ ⟨hr₁, -⟩
  refine (leads_peekKind hr₁).then fun kind r₂ ⟨hr₂, _⟩ => ?_
  refine .ite (fun _ => ?_) fun _ => ?_
  · refine (matches_indented hself hr₂).bind ?_
    rintro ⟨nodes, line⟩ r₃ ⟨fs, ks, hr₃, hd, hends⟩
    exact (Leads.pure ⟨rfl, _, _, hr₃.assoc, hd.namedBlock, fun h₀ =>
      ⟨Node.isGreedy_iff.mpr (hends h₀).1, stops_of_not_isConditional rfl r₃⟩⟩).matches
  · refine (Leads.pure (yields_form .emptyBlock hr₂ rfl (.singleton _) fun _ => ?_)).matches
    exact List.forall_mem_singleton.mpr (isGreedy_leaf trivial rfl)

end Forms

/-- Both actions read a conditional, wherever one is next. -/
def ReadsConditional (s₀ : Source) (act' act : Parse Node) : Prop :=
  ∀ ⦃es r t word sentence⦄, Ready s₀ es r → r.source.stash[0]? = some t →
    t.body = .conditional word sentence →
    Matches (Foreseen s₀) act' act
      (fun n r' => ∃ c next line, n = .conditional word sentence c next line ∧
        Yields s₀ es (.form n) r') r

theorem matches_alternatives {one' one : Parse Node} {word : String} {next : List Node}
    (hone : ReadsConditional s₀ one' one) (hr : Ready s₀ (es ++ fs) r)
    (hd : Derives fs (.alternatives word next) ks) (hg : s₀.Level [] → Growing word next r) :
    Matches (Foreseen s₀) (alternatives one' word n next) (alternatives one word n next)
      (fun next' r' => Yields s₀ es (.alternatives word next') r' ∧ Ended word next' r') r := by
  induction n generalizing r fs ks next with
  | zero => exact (Leads.throw trivial).matches
  | succ n ih =>
    refine (leads_peek hr).then fun t r₁ ⟨hr₁, ht, hsame⟩ => ?_
    have hg₁ := fun h₀ => (hg h₀).congr hsame
    obtain ⟨s, ha⟩ := Source.exists_advance_of_stash ht
    -- the chain ends here if no alternative begins with the token
    have hdone (hnot : ∀ word' sentence, t.body = .conditional word' sentence →
        Node.mayFollow word next word' = false) :
        Matches (Foreseen s₀) (pure next) (pure next)
          (fun next' r' => Yields s₀ es (.alternatives word next') r' ∧ Ended word next' r')
          r₁ := by
      refine (Leads.pure ⟨⟨fs, ks, hr₁, hd, hg₁⟩, fun u s' word' sentence hu hbody => ?_⟩).matches
      rw [Except.ok.inj (Prod.mk.inj (hu.symm.trans ha)).1] at hbody
      exact hnot word' sentence hbody
    obtain ⟨body, line⟩ := t
    cases body with
    | conditional word' sentence =>
      by_cases hword : Node.mayFollow word next word' = true
      · show Matches _ (if Node.mayFollow word next word' = true then _ else _)
          (if Node.mayFollow word next word' = true then _ else _) _ r₁
        rw [if_pos hword, if_pos hword]
        refine (hone hr₁ ht rfl).bind ?_
        rintro _ r₂ ⟨c, next', l, rfl, gs, ls, hr₂, hnode, hends⟩
        refine ih hr₂.assoc (hd.alternative hword hnode) fun h₀ => ?_
        exact (hg₁ h₀).concat ha rfl hword (hends h₀).1 (hends h₀).2
      · show Matches _ (if Node.mayFollow word next word' = true then _ else _)
          (if Node.mayFollow word next word' = true then _ else _) _ r₁
        rw [if_neg hword, if_neg hword]
        refine hdone fun word'' sentence' hbody => ?_
        obtain ⟨rfl, -⟩ := Token.Body.conditional.inj hbody
        simpa using hword
    | _ => exact hdone nofun

/-- **A conditional** with its alternatives. -/
theorem readsConditional_chain (hself : Descends s₀ self' self) (fuel : Nat) :
    ReadsConditional s₀ (conditionalChain self' fuel) (conditionalChain self fuel) := by
  induction fuel with
  | zero => exact fun _ _ _ _ _ _ _ _ => (Leads.throw trivial).matches
  | succ fuel ih =>
    intro es r t word sentence hr ht hbody
    refine
      (leads_expectBody (fun a : String × String => .conditional a.1 a.2) (by grind) hr).then ?_
    rintro ⟨word', sentence'⟩ r₁ ⟨hr₁, hlexed, u, hu, ha⟩
    obtain ⟨s', ha'⟩ := Source.exists_advance_of_stash ht
    cases ha'.symm.trans ha
    obtain ⟨rfl, rfl⟩ := Token.Body.conditional.inj (hbody.symm.trans hu)
    refine matches_lineNow ((matches_block hself hr₁).bind ?_)
    rintro content r₂ ⟨fs, ks, hr₂, hd, hends⟩
    refine matches_budget ?_
    have hr₂ : Ready s₀ (es ++ [token (.conditional word sentence)] ++ fs ++ []) r₂ := by
      rwa [List.append_nil]
    have hstart := fun h₀ => growing_nil word ((hends h₀).2 rfl)
    refine (matches_alternatives ih hr₂ .noAlternatives hstart).bind ?_
    rintro next r₃ ⟨⟨gs, ls, hr₃, hnext, hgrowing⟩, hended⟩
    refine (Leads.pure ⟨_, _, _, rfl, _, _, ?_, hd.conditional hlexed hnext, fun h₀ => ?_⟩).matches
    · simpa using hr₃
    · exact (hgrowing h₀).ends_conditional hended hlexed ((hends h₀).1 content List.mem_cons_self)

theorem matches_conditional (hself : Descends s₀ self' self) (hr : Ready s₀ es r)
    (ht : r.source.stash[0]? = some t) (hkind : t.kind = "conditional") :
    Matches (Foreseen s₀) (conditional self') (conditional self) (Got s₀ es r) r := by
  have hlexed := hr.isLexed ht
  obtain ⟨word, sentence, hbody⟩ : ∃ word sentence, t.body = .conditional word sentence := by
    cases hb : t.body with
    | conditional word sentence => exact ⟨word, sentence, rfl⟩
    | custom => rw [hb] at hlexed; exact hlexed.elim
    | _ => rw [Token.kind, hb] at hkind; exact absurd hkind (by simp [Token.Body.kind])
  refine matches_budget ((readsConditional_chain hself _ hr ht hbody).mono ?_)
  rintro _ r' ⟨c, next, line, rfl, fs, ks, hr', hd, hends⟩
  refine ⟨fs, hr', .inl ⟨ks, hd, fun h₀ => ⟨fun word' hword => ?_, hends h₀⟩⟩⟩
  obtain ⟨s, ha⟩ := Source.exists_advance_of_stash ht
  exact ⟨t, s, sentence, ha, Option.some.inj hword ▸ hbody⟩

theorem leads_acceptFilterAttrs (hr : Ready s₀ es r) :
    Leads (Foreseen s₀) acceptFilterAttrs
      (fun result r' => ∃ attrs : Option (Table String AttrText × List String),
        result = attrs.map (fun a => filterAttrs a.1) ∧
        Ready s₀ (es ++ attrs.toList.map fun a => token (.attrs a.1 a.2)) r') r := by
  refine (leads_accept hr).bind ?_
  rintro (_ | ⟨body, line⟩) r₁ ⟨hr₁, hkind⟩
  · exact .pure ⟨none, rfl, hr₁⟩
  · obtain ⟨hkind, hlexed⟩ := hkind _ rfl
    cases body with
    | attrs table fixed => exact .pure ⟨some (table, fixed), rfl, hr₁⟩
    | custom => exact hlexed.elim
    | _ => exact absurd hkind (by simp [Token.kind, Token.Body.kind])

theorem matches_filter {text : Parse Node} (htext : ReadsBlock s₀ text) (hr : Ready s₀ es r) :
    Matches (Foreseen s₀) (filterBy text) (filterBy textBlock) (YieldsForm s₀ es) r := by
  refine (leads_expectBody Token.Body.filter (by grind) hr).then ?_
  rintro name r₁ ⟨hr₁, -⟩
  refine (leads_acceptFilterAttrs hr₁).then ?_
  rintro _ r₂ ⟨attrs, rfl, hr₂⟩
  refine htext.matches hr₂ fun ps w fs ks line r₃ hr₃ hd => ?_
  refine matches_lineNow (Leads.pure (yields_form hd.filter ?_ rfl trivial fun _ => ?_)).matches
  · simpa using hr₃
  · exact List.forall_mem_singleton.mpr (isGreedy_leaf trivial rfl)

end Reader

end Jade

import Jade.Proofs.Dialect.Alike
import Jade.Proofs.Emitter.Output
import Jade.Proofs.Reader.Outcome

/-!
# Depths

While a template is written, the emitter counts how many tags are open, and some dialects also count
the mixins. Both counts are those of the tree: they say how many tags and mixins there are around
the node that is visited, and every visit that ends well leaves them as they were.

The nodes that are visited are not seen in the output. So the tree is also written with a *watch*,
an action that stands before each node and, at the depth of a tag, at its start and at its end
(`Emit.Writing.step`). It is told of the node and of the nodes around it. A watch that does nothing
where the counts are right may do anything else where they are wrong, and yet the whole template is
written as it is without.

## Main results

* `Jade.Emit.follows_watching` : a watched node at any depth
* `Jade.depths_watched` : whole templates
-/

namespace Jade

/-- The depths of tags and of mixins. -/
def Emitter.depths (e : Emitter) : Int × Int := (e.indents, e.mixing)

/-- The depths among nodes that stand in others, where those outside have some depths. -/
def Dialect.depths (d : Dialect) (out : Int × Int) (up : List Node) : Int × Int :=
  (out.1 + up.countP Emit.isTag, if d.countsMixins then out.2 + up.countP Node.isMixin else out.2)

namespace Emit

/-! ## From one depth to another -/

variable {α β : Type} {p q r : Int × Int}

/-- Two actions do the same where the depths are `p`, and lead to where they are `q`. -/
def Leads (p q : Int × Int) : Judgement := fun _ act act' =>
  ∀ e, e.depths = p → act.run.run e = act'.run.run e ∧
    ∀ a e', act'.run.run e = (.ok a, e') → e'.depths = q

theorem leads_modify {g : Emitter → Emitter} (hg : ∀ e, e.depths = p → (g e).depths = q) :
    Leads p q Unit (modify g) (modify g) := by
  refine fun e he => ⟨rfl, ?_⟩
  rintro _ _ ⟨⟩
  exact hg e he

theorem Leads.bind {act act' : Emit α} {k k' : α → Emit β} (h : Leads p q α act act')
    (hk : ∀ a, Leads q r β (k a) (k' a)) : Leads p r β (act >>= k) (act' >>= k') := by
  intro e he
  obtain ⟨hrun, hend⟩ := h e he
  rw [Reader.run_bind, Reader.run_bind, hrun]
  rcases hact : act'.run.run e with ⟨f | a, e₁⟩
  · exact ⟨rfl, by rintro _ _ ⟨⟩⟩
  · exact hk a e₁ (hend a e₁ hact)

theorem noting_leads : IsNoting (Leads p p) fun _ => True where
  pure a := fun e he => ⟨rfl, by rintro _ _ ⟨⟩; exact he⟩
  fail _ := fun _ _ => ⟨rfl, by rintro _ _ ⟨⟩⟩
  bind := Leads.bind
  look h := fun e he => h e e e he
  put _ := leads_modify fun _ => id
  push _ := leads_modify fun _ => id
  note _ _ _ := leads_modify fun _ => id

theorem wide_leads : IsWide (Leads p p) fun _ => True :=
  { noting_leads with
    get := fun h e he => h e e.toBuffer e he
    count := fun _ => leads_modify fun _ => id }

theorem Leads.indented {act act' : Emit Unit}
    (h : Leads (p.1 + 1, p.2) (p.1 + 1, p.2) Unit act act') :
    Leads p p Unit (indented act) (indented act') := by
  refine (leads_modify ?_).bind fun _ => h.bind fun _ => leads_modify ?_
  · rintro e rfl
    rfl
  · intro e he
    rw [Emitter.depths, Prod.mk.injEq] at he
    exact Prod.ext (Int.sub_eq_iff_eq_add.mpr he.1) he.2

theorem nested_leads :
    IsNested (Leads p p) (Leads (p.1, p.2 + 1) (p.1, p.2 + 1)) fun _ => True :=
  { wide_leads with
    inner := wide_leads
    deeper := by
      intro act act' h
      refine (leads_modify ?_).bind fun _ => h.bind fun _ => leads_modify ?_
      · rintro e rfl
        rfl
      · intro e he
        rw [Emitter.depths, Prod.mk.injEq] at he
        exact Prod.ext he.1 (Int.sub_eq_iff_eq_add.mpr he.2) }

/-! ## The walk with a watch -/

/-- What is done at a node, which is told of the nodes around it, the innermost first. -/
abbrev Watch := List Node → Node → Emit Unit

/-- The walk with a watch for the outermost levels. -/
def watching (w : Watch) (s : Setup) (f : Forms) : Nat → List Node → Writing
  | 0, _ => .walk s f
  | levels + 1, up =>
    { node := fun n => (watching w s f levels (n :: up)).step s f (w up n) n
      inside := fun n => (watching w s f levels (n :: up)).within s f n }

/-- A template with a watch for the outermost levels. -/
def watchedTemplate (w : Watch) (s : Setup) (f : Forms) (levels : Nat) (root : Node) :
    Emit Unit := do
  push f.opening
  (watching w s f levels []).visit root

variable {d : Dialect} {s : Setup} {v : Writing} {w : Watch} {out : Int × Int} {up : List Node}
  {n : Node}

theorem depths_nil : d.depths out [] = out := by
  simp [Dialect.depths]

theorem depths_tag (h : isTag n = true) :
    d.depths out (n :: up) = ((d.depths out up).1 + 1, (d.depths out up).2) := by
  have hmixin : n.isMixin = false := by cases n <;> first | rfl | cases h
  simp [Dialect.depths, h, hmixin, Int.add_assoc]

theorem depths_mixin (h : n.isMixin = true) : d.depths out (n :: up) =
    ((d.depths out up).1, (d.depths out up).2 + if d.countsMixins then 1 else 0) := by
  have htag : isTag n = false := by cases n <;> first | rfl | cases h
  cases hd : d.countsMixins <;> simp [Dialect.depths, h, htag, hd, Int.add_assoc]

theorem depths_other (h : isTag n = false) (h' : n.isMixin = false) :
    d.depths out (n :: up) = d.depths out up := by
  simp [Dialect.depths, h, h']

/-- The nodes around what is written of a node: the node itself is among them if it is a tag. -/
def around (up : List Node) (n : Node) : List Node := if isTag n then n :: up else up

/-- **One node**, in which the nodes are led to where they stand. -/
theorem leads_step (hd : d ≠ .page) {act : Emit Unit}
    (hact : Leads (d.depths out (around up n)) (d.depths out (around up n)) Unit act (pure ()))
    (h : ∀ c ∈ n.children, Follows (Leads (d.depths out (n :: up)) (d.depths out (n :: up)))
      (fun _ => True) v (.walk s (d.forms s)) c) :
    Leads (d.depths out up) (d.depths out up) Unit (v.step s (d.forms s) act n)
      (node s (d.forms s) n) := by
  have hall : n.IsAllowed s.filters fun _ => True := .inl fun _ => trivial
  have hself := (Dialect.matches_forms (nested_leads (p := d.depths out (around up n)))
    (fun _ => trivial) s s.pretty hd).matchesAt hall
  have hnode : Leads (d.depths out (around up n)) (d.depths out (around up n)) Unit
      (v.construct s (d.forms s) n) ((Writing.walk s (d.forms s)).construct s (d.forms s) n) := by
    refine noting_leads.construct (noting_leads.lays s) (fun _ => leads_modify fun _ => id) hall
      hself (fun hmixin => ?_) fun hmixin => ?_
    · unfold around
      cases htag : isTag n with
      | true => exact h
      | false => rwa [depths_other htag hmixin] at h
    · rw [depths_mixin hmixin] at h
      have htag : isTag n = false := by cases n <;> first | rfl | cases hmixin
      rw [around, htag]
      cases hd : d.countsMixins <;> simpa [hd] using h
  rw [node_eq, Writing.step, Writing.step]
  unfold around at hact hnode
  cases htag : isTag n with
  | true =>
    simp only [htag, if_true, depths_tag] at hact hnode ⊢
    exact (hact.bind fun _ => hnode.bind fun _ => hact).indented
  | false =>
    simp only [htag, Bool.false_eq_true, if_false] at hact hnode ⊢
    exact hact.bind fun _ => hnode

/-- What is in a node, which is no deeper than the node, if anything is. -/
theorem leads_within
    (h : ∀ c ∈ n.children, Follows (Leads (d.depths out (n :: up)) (d.depths out (n :: up)))
      (fun _ => True) v (.walk s (d.forms s)) c) :
    Leads (d.depths out up) (d.depths out up) Unit (v.within s (d.forms s) n)
      (inside s (d.forms s) n) := by
  by_cases hn : isTag n = false ∧ n.isMixin = false
  · rw [depths_other hn.1 hn.2] at h
    rw [inside_eq]
    exact noting_leads.within h (.inl fun _ => trivial)
  · cases n with
    | tag | mixin => exact noting_leads.fail trivial
    | _ => exact absurd ⟨rfl, rfl⟩ hn

/-- **A watched node**, by induction on it. -/
theorem follows_watching (hd : d ≠ .page) (hw : ∀ up n,
      Leads (d.depths out (around up n)) (d.depths out (around up n)) Unit (w up n) (pure ()))
    (levels : Nat) (up : List Node) (n : Node) :
    Follows (Leads (d.depths out up) (d.depths out up)) (fun _ => True)
      (watching w s (d.forms s) levels up) (.walk s (d.forms s)) n := by
  induction n using Node.induction generalizing levels up with
  | h n ih =>
    cases levels with
    | zero =>
      have hparts := fun c hc => ih c hc 0 (n :: up)
      have hnode := leads_step hd (noting_leads.pure ()) hparts
      have hinside := leads_within hparts
      rw [watching, ← node_eq] at hnode
      rw [watching, ← inside_eq] at hinside
      exact ⟨hnode, fun _ => hinside⟩
    | succ levels =>
      have hparts := fun c hc => ih c hc levels (n :: up)
      exact ⟨leads_step hd (hw up n) hparts, fun _ => leads_within hparts⟩

theorem leads_node (hd : d ≠ .page) (n : Node) :
    Leads p p Unit (node s (d.forms s) n) (node s (d.forms s) n) := by
  have hnode : Leads (d.depths p []) (d.depths p []) Unit (node s (d.forms s) n)
      (node s (d.forms s) n) :=
    (follows_watching (w := fun _ _ => pure ()) hd (fun _ _ => noting_leads.pure ()) 0 [] n).1
  rwa [depths_nil] at hnode

end Emit

/-- The counts are right for a node with these nodes around it. A tag that is visited counts
itself. -/
def Emitter.IsAt (d : Dialect) (up : List Node) (n : Node) (e : Emitter) : Prop :=
  e.indents = (n :: up).countP Emit.isTag ∧
    (d.countsMixins = true → e.mixing = up.countP Node.isMixin)

instance (d : Dialect) (up : List Node) (n : Node) (e : Emitter) : Decidable (e.IsAt d up n) :=
  inferInstanceAs (Decidable (_ ∧ _))

theorem Emitter.isAt_of_depths {d : Dialect} {up : List Node} {n : Node} {e : Emitter}
    (h : e.depths = d.depths (0, 0) (Emit.around up n)) : e.IsAt d up n := by
  rw [depths, Dialect.depths, Prod.mk.injEq, Int.zero_add, Int.zero_add] at h
  obtain ⟨hindents, hmixing⟩ := h
  cases n <;> exact ⟨hindents, fun hd => by rw [hmixing, if_pos hd]; rfl⟩

theorem Session.depths_start (s : Session) (d : Dialect) (o : Options) :
    (s.start d o).1.emitter.depths = (0, 0) := by
  dsimp only [start]
  split
  · rfl
  · rfl

/-- **Depths are those of the tree.** Take any dialect of templates, and a watch that does nothing
where the counts are right: where as many tags are open as there are tags around the node, a tag
itself included, and where the mixins are those around it, if the dialect counts them. Whatever the
watch does elsewhere, a template is written with it just as without. And a visit to a node that ends
well leaves both counts as they were, in whatever state it began. -/
theorem depths_watched (s : Session) {d : Dialect} (hd : d ≠ .page) (o : Options) (root : Node)
    {w : Emit.Watch} (hw : ∀ up n e, e.IsAt d up n → (w up n).run.run e = (.ok (), e))
    (levels : Nat) :
    let c := (s.start d o).1
    (Emit.watchedTemplate w c.setup (d.forms c.setup) levels root).run.run c.emitter =
        (Emit.template c.setup (d.forms c.setup) root).run.run c.emitter ∧
      ∀ n e e', (Emit.node c.setup (d.forms c.setup) n).run.run e = (.ok (), e') ∨
          (Emit.visit c.setup (d.forms c.setup) n).run.run e = (.ok (), e') →
        e'.indents = e.indents ∧ e'.mixing = e.mixing := by
  intro c
  have hwatch : ∀ up n, Emit.Leads (d.depths (0, 0) (Emit.around up n))
      (d.depths (0, 0) (Emit.around up n)) Unit (w up n) (pure ()) := by
    intro up n e he
    rw [hw up n e (Emitter.isAt_of_depths he)]
    exact Emit.noting_leads.pure () e he
  have hroot := Emit.noting_leads.visit
    (Emit.follows_watching (s := c.setup) hd hwatch levels [] root)
  rw [Emit.depths_nil] at hroot
  refine ⟨?_, fun n e e' hrun => ?_⟩
  · exact ((Emit.noting_leads.push _).bind (fun _ => hroot) c.emitter (s.depths_start d o)).1
  · have hnode := Emit.leads_node (p := e.depths) (s := c.setup) hd n
    have hvisit := (Emit.noting_leads.before (Emit.isTag n)).bind fun _ => hnode
    have hdepths : e'.depths = e.depths :=
      hrun.elim ((hnode e rfl).2 () e') ((hvisit e rfl).2 () e')
    exact Prod.mk.inj hdepths

/-- A named block in a tag of a mixin is visited at these depths. -/
theorem depths_watched_card :
    let c := (({} : Session).start .jinja {}).1
    let f := Dialect.forms .jinja c.setup
    let guard : Emit.Watch := fun up n => do
      unless (← get).IsAt .jinja up n do throw .noSuchKey
    let stop : Emit.Watch := fun up _ => do
      if (← get).depths = (1, 1) ∧ up.length = 5 then throw .noSuchKey
    ∃ root, parse (.ofText "mixin a\n  p\n    block b") none = .ok root ∧
      ((Emit.watchedTemplate stop c.setup f 6 root).run.run c.emitter).1 = .error .noSuchKey ∧
      ((Emit.template c.setup f root).run.run c.emitter).1 = .ok () ∧
      (Emit.watchedTemplate guard c.setup f 6 root).run.run c.emitter =
        (Emit.template c.setup f root).run.run c.emitter := by
  intro c f guard stop
  have hguard : ∀ up n e, e.IsAt .jinja up n → (guard up n).run.run e = (.ok (), e) := by
    intro up n e he
    show (if e.IsAt .jinja up n then pure () else throw .noSuchKey : Emit Unit).run.run e = _
    rw [if_pos he]
    rfl
  have hpage : (parse (.ofText "mixin a\n  p\n    block b") none).toOption.map (fun root =>
      (((Emit.watchedTemplate stop c.setup f 6 root).run.run c.emitter).1,
        ((Emit.template c.setup f root).run.run c.emitter).1)) =
      some (.error .noSuchKey, .ok ()) := by
    decide +kernel
  obtain ⟨root, hparse, hroot⟩ := Reader.exists_ok_of_map hpage
  obtain ⟨hstop, hplain⟩ := Prod.mk.inj hroot
  have hd : Dialect.jinja ≠ .page := nofun
  exact ⟨root, hparse, hstop, hplain, (depths_watched {} hd {} root hguard 6).1⟩

end Jade

import Jade.Proofs.Dialect.Alike
import Jade.Proofs.Emitter.Output

/-!
# Block modes in plain and in Jinja templates

A named block may replace the block of the same name in the template that is extended, append to it
or prepend to it. In the last two cases the content of the parent is called up before or after the
content of the block. Jinja templates do so on the side that the mode asks for, plain templates on
the other one. Apart from loops and mixins, for which Jinja has constructs of its own, this is the
only difference between the two dialects: a plain template is the Jinja template for the tree in
which both modes are exchanged.

The exchange of modes is a map on trees. That it commutes with the walk is a matter of the tree
alone and holds for all forms; what is left is to compare the forms of the two dialects on states
outside of any mixin.

## Main results

* `Jade.Emit.commutes` : other modes in the tree or in the dialect
* `Jade.Session.write_plain_eq_jinja` : plain templates are Jinja templates
-/

namespace Jade

namespace Node

mutual

/-- A tree with other modes for its blocks. What filters and mixins are given stays as it is. -/
def withModes (g : String → String) : Node → Node
  | block ns line yields => block (withModesAll g ns) line yields
  | codeBlock name mode ns line => codeBlock name (g mode) (withModesAll g ns) line
  | tag head c t content line => tag head (withModesOpt g c) t (withModes g content) line
  | code source buffer escape content line =>
    code source buffer escape (withModesOpt g content) line
  | blockComment head buffer content line =>
    blockComment head buffer (withModesOpt g content) line
  | each subject keys content line => each subject keys (withModesOpt g content) line
  | conditional word sentence content next line =>
    conditional word sentence (withModesOpt g content) (withModesAll g next) line
  | n => n

/-- The same for nodes one after the other. -/
def withModesAll (g : String → String) : List Node → List Node
  | [] => []
  | n :: ns => withModes g n :: withModesAll g ns

/-- The same for a node that may be left out. -/
def withModesOpt (g : String → String) : Option Node → Option Node
  | none => none
  | some n => some (withModes g n)

end

variable (g : String → String)

theorem withModesAll_eq (ns : List Node) : withModesAll g ns = ns.map (withModes g) := by
  induction ns with
  | nil => rfl
  | cons n ns ih => rw [withModesAll, ih, List.map_cons]

theorem isTag_withModes (n : Node) : Emit.isTag (n.withModes g) = Emit.isTag n := by
  cases n <;> rfl

theorem isConditional_withModes (n : Node) : (n.withModes g).isConditional = n.isConditional := by
  cases n <;> rfl

theorem isCode_withModes (n : Node) : (n.withModes g).isCode = n.isCode := by
  cases n <;> rfl

theorem onlyText_withModes (head : Tag) (n : Node) :
    Emit.onlyText head (n.withModes g) = Emit.onlyText head n := by
  cases n <;> simp [Emit.onlyText, withModes, nodes?, withModesAll_eq]

/-- The mode of a named block. -/
def mode? : Node → Option String
  | codeBlock _ mode _ _ => some mode
  | _ => none

theorem withModes_eq_self {g : String → String} {n : Node}
    (h : ∀ m ∈ n.walk, ∀ mode ∈ m.mode?, g mode = mode) : n.withModes g = n := by
  induction n using Node.induction with
  | h n ih =>
    rw [walk_eq, List.forall_mem_cons] at h
    replace ih : ∀ c ∈ n.children, c.withModes g = c := fun c hc =>
      ih c hc fun m hm => h.2 m (List.mem_flatMap.mpr ⟨c, hc, hm⟩)
    have hall : ∀ ns : List Node, (∀ c ∈ ns, c.withModes g = c) → withModesAll g ns = ns := by
      intro ns hns
      rw [withModesAll_eq]
      exact (List.map_congr_left hns).trans (List.map_id' ns)
    have hopt : ∀ c : Option Node, (∀ n ∈ c.toList, n.withModes g = n) → withModesOpt g c = c := by
      intro c hc
      cases c with
      | none => rfl
      | some n => rw [withModesOpt, hc n (List.mem_singleton.mpr rfl)]
    cases n with
    | block ns => rw [withModes, hall ns ih]
    | codeBlock name mode ns => rw [withModes, hall ns ih, h.1 mode rfl]
    | tag head c t content =>
      rw [withModes, hopt c fun n hn => ih n (List.mem_append_left _ (List.mem_append_left _ hn)),
        ih content (by simp [children])]
    | code _ _ _ content => rw [withModes, hopt content ih]
    | blockComment _ _ content => rw [withModes, hopt content ih]
    | each _ _ content => rw [withModes, hopt content ih]
    | conditional word sentence content next =>
      rw [withModes, hopt content fun n hn => ih n (List.mem_append_left _ hn),
        hall next fun n hn => ih n (List.mem_append_right _ hn)]
    | _ => rfl

/-- Whether the node is a loop. -/
def isEach : Node → Bool
  | each .. => true
  | _ => false

end Node

/-- The same forms, where blocks have other modes. -/
def Forms.withModes (g : String → String) (f : Forms) : Forms :=
  { f with namedBlock := fun name mode => f.namedBlock name (g mode) }

namespace Emit

variable (s : Setup) (f : Forms) (g : String → String)

/-- Other modes in the tree make the same difference as other modes in the dialect. -/
def Commutes (n : Node) : Prop :=
  node s f (n.withModes g) = node s (f.withModes g) n ∧
    inside s f (n.withModes g) = inside s (f.withModes g) n

variable {s f g}

theorem nodes_withModes {ns : List Node} (h : ∀ n ∈ ns, Commutes s f g n) :
    nodes s f (Node.withModesAll g ns) = nodes s (f.withModes g) ns := by
  induction ns with
  | nil =>
    rw [Node.withModesAll, nodes, nodes]
  | cons n ns ih =>
    rw [List.forall_mem_cons] at h
    rw [Node.withModesAll, nodes, nodes, Node.isTag_withModes, h.1.1, ih h.2]

theorem optional_withModes {c : Option Node} (h : ∀ n ∈ c.toList, Commutes s f g n) :
    optional s f (Node.withModesOpt g c) = optional s (f.withModes g) c := by
  cases c with
  | none => rw [Node.withModesOpt, optional, optional]
  | some n =>
    rw [Node.withModesOpt, optional, optional, Node.isTag_withModes,
      (h n (List.mem_singleton.mpr rfl)).1]

theorem required_withModes {c : Option Node} (h : ∀ n ∈ c.toList, Commutes s f g n) :
    required s f (Node.withModesOpt g c) = required s (f.withModes g) c := by
  cases c with
  | none => rw [Node.withModesOpt, required, required]
  | some n =>
    rw [Node.withModesOpt, required, required, Node.isTag_withModes,
      (h n (List.mem_singleton.mpr rfl)).1]

theorem chain_withModes {ns : List Node} (h : ∀ n ∈ ns, Commutes s f g n) :
    chain s f (Node.withModesAll g ns) = chain s (f.withModes g) ns := by
  rw [chain_eq_map, chain_eq_map, Node.withModesAll_eq, List.map_map]
  refine List.map_congr_left fun n hn => ?_
  rw [Function.comp_apply, Node.isConditional_withModes, (h n hn).1]

theorem codeOf_withModes {c : Option Node} (h : ∀ n ∈ c.toList, Commutes s f g n) :
    codeOf s f (Node.withModesOpt g c) = codeOf s (f.withModes g) c := by
  cases c with
  | none => rw [Node.withModesOpt, codeOf, codeOf]
  | some n =>
    rw [Node.withModesOpt, codeOf_some, codeOf_some, Node.isCode_withModes,
      (h n (List.mem_singleton.mpr rfl)).1]

theorem tagInside_withModes {head : Tag} {c t : Option Node} {content : Node}
    (hc : ∀ n ∈ c.toList, Commutes s f g n) (hcontent : Commutes s f g content) :
    tagInside s f head (Node.withModesOpt g c) t (content.withModes g) =
      tagInside s (f.withModes g) head c t content := by
  simp only [tagInside_eq, Writing.tagEnd, Writing.visit, Writing.walk]
  rw [codeOf_withModes hc, Node.onlyText_withModes, Node.isTag_withModes, hcontent.1]
  rfl

/-- **Other modes in the tree or in the dialect**, by induction on the tree. -/
theorem commutes (s : Setup) (f : Forms) (g : String → String) {n : Node}
    (h : ∀ m ∈ n.walk, m.isMixin = false) : Commutes s f g n := by
  induction n using Node.induction with
  | h n ih =>
    rw [Node.walk_eq, List.forall_mem_cons] at h
    replace ih : ∀ c ∈ n.children, Commutes s f g c := fun c hc =>
      ih c hc fun m hm => h.2 m (List.mem_flatMap.mpr ⟨c, hc, hm⟩)
    constructor
    · cases n with
      | block ns =>
        have hns : ∀ n ∈ ns, Commutes s f g n := ih
        rw [Node.withModes, node, node, nodes_withModes hns]
      | codeBlock name mode ns =>
        have hns : ∀ n ∈ ns, Commutes s f g n := ih
        rw [Node.withModes, node, node, nodes_withModes hns]
        rfl
      | tag head c t content =>
        have hc : ∀ n ∈ c.toList, Commutes s f g n := fun n hn =>
          ih n (List.mem_append_left _ (List.mem_append_left _ hn))
        rw [Node.withModes, node_tag, node_tag,
          tagInside_withModes hc (ih content (by simp [Node.children]))]
        rfl
      | code source buffer escape content =>
        rw [Node.withModes, node, node, optional_withModes ih]
        rfl
      | blockComment head buffer content =>
        rw [Node.withModes, node, node, required_withModes ih]
      | each subject keys content =>
        rw [Node.withModes, node, node, required_withModes ih]
        rfl
      | conditional word sentence content next =>
        rw [Node.withModes, node, node,
          optional_withModes fun n hn => ih n (List.mem_append_left _ hn),
          chain_withModes fun n hn => ih n (List.mem_append_right _ hn)]
        rfl
      | mixin => exact absurd h.1 (by simp [Node.isMixin])
      | text | string | assignment | parent | inclusion | filter =>
        simp only [Node.withModes, node]
        rfl
      | _ => simp only [Node.withModes, node]
    · cases n with
      | block ns | codeBlock _ _ ns =>
        have hns : ∀ n ∈ ns, Commutes s f g n := ih
        rw [Node.withModes, inside, inside, nodes_withModes hns]
      | _ => simp only [Node.withModes, inside]

theorem template_withModes {s : Setup} {f : Forms} {g : String → String} {root : Node}
    (h : ∀ m ∈ root.walk, m.isMixin = false) :
    template s f (root.withModes g) = template s (f.withModes g) root := by
  unfold template visit
  rw [Node.isTag_withModes, (commutes s f g h).1]
  rfl

end Emit

/-! ## The two dialects -/

/-- The other one of the two modes that call up the content of the parent. -/
def exchangedMode (mode : String) : String :=
  if mode = "append" then "prepend" else if mode = "prepend" then "append" else mode

/-- One and the same state, outside of any mixin. -/
def Emitter.Outside (e e' : Emitter) : Prop := e = e' ∧ e.mixing = 0

theorem Emitter.isTie_outside : Emitter.IsTie Emitter.Outside where
  view h := by rw [h.1]
  put t h := by
    obtain ⟨rfl, hmixing⟩ := h
    exact ⟨rfl, hmixing⟩
  push p h := by
    obtain ⟨rfl, hmixing⟩ := h
    exact ⟨rfl, hmixing⟩
  withView v h := by
    obtain ⟨rfl, hmixing⟩ := h
    exact ⟨rfl, hmixing⟩

namespace Forms

open Emit (Agree)

/-- The parent's content goes to the other side in the other mode. -/
theorem blockForm_exchangedMode (start stop super mode : String) (body : Emit Unit) :
    blockForm start stop super "append" "prepend" (exchangedMode mode) body =
      blockForm start stop super "prepend" "append" mode body := by
  have hearly : (exchangedMode mode == "append") = (mode == "prepend") := by
    unfold exchangedMode
    by_cases happend : mode = "append"
    · simp [happend]
    · by_cases hprepend : mode = "prepend" <;> simp [happend, hprepend]
  have hlate : (exchangedMode mode == "prepend") = (mode == "append") := by
    unfold exchangedMode
    by_cases happend : mode = "append"
    · simp [happend]
    · by_cases hprepend : mode = "prepend" <;> simp [happend, hprepend]
  unfold blockForm
  rw [hearly, hlate]

/-- **Named blocks** outside of any mixin. -/
theorem agree_namedBlock (s : Setup) (name mode : String) {body body' : Emit Unit}
    (h : Agree Emitter.Outside body body') :
    Agree Emitter.Outside ((plain s).namedBlock name mode body)
      (((jinja s).withModes exchangedMode).namedBlock name mode body') := by
  intro e e' he
  have houtside : ¬ 0 < e'.mixing := by
    rw [← he.1, he.2]
    decide
  have hjinja : (((jinja s).withModes exchangedMode).namedBlock name mode body').run.run e' =
      ((plain s).namedBlock name mode body').run.run e' := by
    show (if 0 < e'.mixing then _ else blockForm _ _ _ "append" "prepend" (exchangedMode mode)
      body' : Emit Unit).run.run e' = _
    rw [if_neg houtside, blockForm_exchangedMode]
    rfl
  rw [hjinja]
  exact Emitter.isTie_outside.walked.blockForm _ _ _ _ _ _ h e e' he

theorem alikeAt_jinja (s : Setup) {n : Node} (hmixin : n.isMixin = false)
    (heach : n.isEach = false) :
    (plain s).AlikeAt Emitter.Outside ((jinja s).withModes exchangedMode) n := by
  have h := (alike_plain Emitter.isTie_outside s s.pretty).alikeAt n
  cases n with
  | codeBlock name mode => exact fun _ _ => agree_namedBlock s name mode
  | mixin => exact absurd hmixin (by simp [Node.isMixin])
  | each => exact absurd heach (by simp [Node.isEach])
  | _ => exact h

end Forms

namespace Session

theorem start_jinja (s : Session) (o : Options) : ∃ setup emitter session,
    s.start .plain o = (⟨.plain, setup, emitter⟩, session) ∧
      s.start .jinja o = (⟨.jinja, setup, emitter⟩, session) ∧ emitter.mixing = 0 := by
  refine ⟨(s.start .plain o).1.setup, (s.start .plain o).1.emitter, (s.start .plain o).2, rfl,
    ?_, ?_⟩
  · rfl
  · dsimp only [start]
    split
    · rfl
    · rfl

/-- **Plain templates are Jinja templates**, but for block modes. From every session and with all
options, a tree without mixins and loops is written in the plain dialect as the tree with both modes
exchanged is written for Jinja: the texts are the same, or else the faults, and so are the sessions
after that. If no block of the tree appends or prepends, it is written in the same way in both. -/
theorem write_plain_eq_jinja (s : Session) (o : Options) (root : Node)
    (hroot : ∀ m ∈ root.walk, m.isMixin = false ∧ m.isEach = false) :
    s.write .plain o root = s.write .jinja o (root.withModes exchangedMode) ∧
      ((∀ m ∈ root.walk, ∀ mode ∈ m.mode?, mode ≠ "append" ∧ mode ≠ "prepend") →
        s.write .plain o root = s.write .jinja o root) := by
  have hwrite : s.write .plain o root = s.write .jinja o (root.withModes exchangedMode) := by
    obtain ⟨setup, emitter, session, hplain, hjinja, hmixing⟩ := start_jinja s o
    have hagree : Emit.Agree Emitter.Outside (Emit.template setup (.plain setup) root)
        (Emit.template setup ((Forms.jinja setup).withModes exchangedMode) root) :=
      Emit.agree_template_of_alikeAt Emitter.isTie_outside (.inl rfl) rfl
        fun m hm => Forms.alikeAt_jinja setup (hroot m hm).1 (hroot m hm).2
    obtain ⟨hout, hstate, -⟩ := hagree emitter emitter ⟨rfl, hmixing⟩
    have hrun : (Emit.template setup (.plain setup) root).run.run emitter =
        (Emit.template setup (.jinja setup) (root.withModes exchangedMode)).run.run emitter := by
      rw [Emit.template_withModes fun m hm => (hroot m hm).1]
      exact Prod.ext hout hstate
    have hwritten : (Emit.written (Emit.template setup (.plain setup) root)).run.run emitter =
        (Emit.written (Emit.template setup (.jinja setup)
          (root.withModes exchangedMode))).run.run emitter := by
      rw [Emit.run_written, Emit.run_written, hrun]
    rw [write_eq s .plain o hplain, write_eq s .jinja o hjinja]
    exact congrArg (fun run : Except Fault String × Emitter =>
      (run.1, { session with page := run.2.page.leave })) hwritten
  refine ⟨hwrite, fun hmodes => ?_⟩
  have hself : root.withModes exchangedMode = root := by
    refine Node.withModes_eq_self fun m hm mode hmode => ?_
    obtain ⟨happend, hprepend⟩ := hmodes m hm mode hmode
    rw [exchangedMode, if_neg happend, if_neg hprepend]
  rw [hwrite, hself]

/-- A block that appends, with a block that prepends in it. -/
theorem write_plain_eq_jinja_nested :
    let root : Node := .seq [.codeBlock "a" "append"
      [.text ["x"] none, .codeBlock "b" "prepend" [.text ["y"] none] none] none]
    (∀ m ∈ root.walk, m.isMixin = false ∧ m.isEach = false) ∧
      (({} : Session).write .plain {} root).1.toOption =
        some ("\x7b% block a %\x7dx\n\x7b% block b %\x7d\x7b\x7bsuper()\x7d\x7dy\n" ++
          "\x7b% endblock %\x7d\x7b\x7bsuper()\x7d\x7d\x7b% endblock %\x7d") ∧
      ({} : Session).write .plain {} root =
        ({} : Session).write .jinja {} (root.withModes exchangedMode) := by
  intro root
  have hroot : ∀ m ∈ root.walk, m.isMixin = false ∧ m.isEach = false := by decide +kernel
  exact ⟨hroot, by decide +kernel, (write_plain_eq_jinja {} {} root hroot).1⟩

/-- A block that appends: the parent's content comes last in a plain template, and first in one for
Jinja. -/
theorem process_append_differs :
    (({} : Session).process .plain {} (.ofText "append a\n  p") none).1.toOption =
        some "\x7b% block a %\x7d\n<p></p>\x7b\x7bsuper()\x7d\x7d\x7b% endblock %\x7d" ∧
      (({} : Session).process .jinja {} (.ofText "append a\n  p") none).1.toOption =
        some "\x7b% block a %\x7d\x7b\x7bsuper()\x7d\x7d\n<p></p>\x7b% endblock %\x7d" := by
  decide +kernel

end Session

end Jade

import Jade.Proofs.Emitter.Relation

/-!
# The walk through a tree

The walk through a tree is the same in all dialects, and so is the argument by which something is
shown of it: of one run, or of two runs on the same tree. A *judgement* is what is to be shown of
two actions. If it goes over to actions one after the other and holds of all that the walk itself
reads, writes and notes, and if the forms of two dialects pass it on, then it holds of the walk with
these dialects. They need not pass it on for all constructs, but only for those that are in the tree
(`Forms.MatchesAt`).

Two runs may have setups that differ in their layout, if the judgement allows for that
(`Emit.Lays`). And it may not hold of all faults. Unless it does, the nodes have to have their
shapes, and the faults of single nodes have to be allowed: the attributes of a tag may not go
together, a conditional may have no head in the dialect, and a filter has to be there
(`Node.IsCovered`).

## Main results

* `Jade.Emit.node_eq` : the walk is what its own step makes of it
* `Jade.Emit.IsWalked.follows`, `Jade.Emit.IsWalked.template` : writing a tree
* `Jade.Emit.follows_of_alikeAt`, `Jade.Emit.agree_template` : two runs that agree
-/

namespace Jade

open Emitter (isLayout)

namespace Emit

/-! ## Judgements -/

/-- What is to be shown of two actions. -/
abbrev Judgement := (α : Type) → Emit α → Emit α → Prop

variable {α β : Type} {T : Judgement} {fault : Fault → Prop}

/-- A judgement that goes over to actions one after the other and holds of the faults that are
allowed and of texts that are written. What follows may depend on the view. -/
structure IsSteady (T : Judgement) (fault : Fault → Prop) : Prop where
  pure : ∀ {α : Type} (a : α), T α (Pure.pure a) (Pure.pure a)
  fail : ∀ {α : Type} {f : Fault}, fault f → T α (throw f) (throw f)
  bind : ∀ {α β : Type} {act act' : Emit α} {k k' : α → Emit β}, T α act act' →
    (∀ a, T β (k a) (k' a)) → T β (act >>= k) (act' >>= k')
  look : ∀ {β : Type} {k k' : Emitter → Emit β},
    (∀ e e' : Emitter, T β (k e) (k' (e'.withView e.view))) → T β (get >>= k) (get >>= k')
  put : ∀ t, T Unit (Emit.put t) (Emit.put t)
  push : ∀ t, T Unit (Emit.push t) (Emit.push t)

/-- There may also be notes on what has been written. -/
structure IsNoting (T : Judgement) (fault : Fault → Prop) : Prop extends IsSteady T fault where
  note : ∀ inString hasTag hasDoctype : Bool → Bool,
    let g (e : Emitter) : Emitter :=
      { e with
        inString := inString e.inString, hasTag := hasTag e.hasTag
        hasDoctype := hasDoctype e.hasDoctype }
    T Unit (modify g) (modify g)

/-- The depth of tags may also change. -/
structure IsStepwise (T : Judgement) (fault : Fault → Prop) : Prop extends IsNoting T fault where
  shift : ∀ g : Int → Int, T Unit (modify fun e => { e with indents := g e.indents })
    (modify fun e => { e with indents := g e.indents })

/-- A document type may also be chosen. -/
structure IsWalked (T : Judgement) (fault : Fault → Prop) : Prop extends IsStepwise T fault where
  setDoctype : ∀ s name,
    T Unit (modify (Emitter.setDoctype s name)) (modify (Emitter.setDoctype s name))

/-- What follows may also depend on all but the output, and loops may be counted. -/
structure IsWide (T : Judgement) (fault : Fault → Prop) : Prop extends IsSteady T fault where
  get : ∀ {β : Type} {k k' : Emitter → Emit β},
    (∀ e out, T β (k e) (k' (e.withOutput out))) →
    T β (MonadState.get >>= k) (MonadState.get >>= k')
  count : ∀ n : Option Int, T Unit (modify fun e => { e with counter := n })
    (modify fun e => { e with counter := n })

/-- One level of mixins deeper, where another judgement holds. -/
structure IsNested (T T' : Judgement) (fault : Fault → Prop) : Prop extends IsWide T fault where
  inner : IsWide T' fault
  deeper : ∀ {act act' : Emit Unit}, T' Unit act act' → T Unit (deeper act) (deeper act')

/-- What is laid out in one of the runs, in both or in none. -/
def Lays (T : Judgement) (s : Setup) (p : Bool) : Prop :=
  ∀ {text : String}, text.toList.all isLayout = true →
    T Unit (if s.pretty then put text else pure ()) (if p then put text else pure ())

namespace IsSteady

variable (hT : IsSteady T fault) {c : Prop}

include hT

omit hT in
theorem ite (_ : IsSteady T fault) [Decidable c] {act₁ act₂ act₁' act₂' : Emit α}
    (h₁ : T α act₁ act₁') (h₂ : T α act₂ act₂') :
    T α (if c then act₁ else act₂) (if c then act₁' else act₂') := by
  split
  · exact h₁
  · exact h₂

/-- An action on a condition that holds, unless all faults are allowed. -/
theorem orThrow [Decidable c] {act act' : Emit α} {f : Fault} (h : T α act act')
    (hc : (∀ e, fault e) ∨ c) : T α (if c then act else throw f) (if c then act' else throw f) := by
  split
  · exact h
  · next hno => exact hT.fail (hc.resolve_right hno f)

theorem when [Decidable c] {act act' : Emit Unit} {k k' : Unit → Emit β} (h : T Unit act act')
    (hk : ∀ a, T β (k a) (k' a)) :
    T β (if c then act >>= k else k ()) (if c then act' >>= k' else k' ()) :=
  hT.ite (hT.bind h hk) (hk ())

theorem whenNot [Decidable c] {act act' : Emit Unit} {k k' : Unit → Emit β} (h : T Unit act act')
    (hk : ∀ a, T β (k a) (k' a)) :
    T β (if c then k () else act >>= k) (if c then k' () else act' >>= k') :=
  hT.ite (hk ()) (hT.bind h hk)

theorem except {x : Except Fault α} (hx : ∀ f, x = .error f → fault f) :
    T α (liftM x) (liftM x) := by
  cases x with
  | error f => exact hT.fail (hx f rfl)
  | ok a => exact hT.pure a

theorem lift {x : Except Fault α} {k k' : α → Emit β} (hx : ∀ f, x = .error f → fault f)
    (h : ∀ a, x = .ok a → T β (k a) (k' a)) : T β (liftM x >>= k) (liftM x >>= k') := by
  cases x with
  | error f => exact hT.fail (hx f rfl)
  | ok a => exact h a rfl

theorem lays (s : Setup) : Lays T s s.pretty := fun _ => hT.ite (hT.put _) (hT.pure _)

end IsSteady

theorem IsNoting.before (hT : IsNoting T fault) (isTag : Bool) :
    T Unit (before isTag) (before isTag) := by
  refine hT.look fun e e' => hT.ite (hT.bind (hT.put _) fun _ => ?_) (hT.pure _)
  exact hT.note (fun _ => false) id id

/-! ## Layout

The two setups differ in `pretty` at most. -/

theorem ite_bind {c : Prop} [Decidable c] (act act' : Emit α) (k : α → Emit β) :
    ((if c then act else act') >>= k) = if c then act >>= k else act' >>= k := by
  split
  · rfl
  · rfl

/-- The document type before the first tag. -/
def firstTag (s : Setup) (head : Tag) : Emit Unit := do
  unless (← get).hasTag do
    if !(← get).hasDoctype && head.name == "html" then doctype s none
    modify fun e => { e with hasTag := true }

/-- The end of piped text before an inline tag. -/
def joinText (s : Setup) (head : Tag) : Emit Unit := do
  if s.inlineTags.contains head.name || head.inline then
    modify fun e => { e with inString := false }

/-- A new line at some depth less than that of the emitter, if the setup and a condition ask for
it. -/
def lineIf (s : Setup) (c : Bool) (back : Int) : Emit Unit := do
  if s.pretty && c then line ((← get).indents - back)

/-- The start of a tag between its depth and its name. -/
def tagLine (s : Setup) (head : Tag) : Emit Unit := do
  firstTag s head
  lineIf s (!s.inlineTags.contains head.name && !head.inline) 1
  joinText s head

/-- All of the start of a tag before its name. -/
def tagLead (s : Setup) (head : Tag) : Emit Unit := do
  modify fun e => { e with indents := e.indents + 1 }
  tagLine s head

theorem openTag_eq (s : Setup) (head : Tag) : openTag s head = (do
    tagLead s head
    put ("<" ++ head.name)) := by
  simp only [openTag, tagLead, tagLine, firstTag, lineIf, joinText, bind_assoc, ite_bind, pure_bind,
    Bool.and_assoc]

theorem closeTag_eq (s : Setup) (head : Tag) (textOnly : Bool) : closeTag s head textOnly = (do
    lineIf s (!s.inlineTags.contains head.name && !textOnly) 1
    put ("</" ++ head.name ++ ">")) := by
  simp only [closeTag, lineIf, bind_assoc, ite_bind, pure_bind, Bool.and_assoc]

theorem comment_eq (s : Setup) (content : String) : comment s content = (do
    lineIf s true 0
    put ("<!--" ++ content ++ "-->")) := by
  simp only [comment, lineIf, bind_assoc, ite_bind, pure_bind, Bool.and_true, Int.sub_zero]

theorem all_isLayout_line (depth : Int) :
    ("\n" ++ repeatText depth.toNat "  ").toList.all isLayout = true := by
  have hblanks : ∀ n, (repeatText n "  ").toList.all isLayout = true := by
    intro n
    induction n with
    | zero => rfl
    | succ n ih => simp [repeatText, List.replicate_succ, String.toList_join, isLayout]
  rw [String.toList_append, List.all_append, hblanks]
  rfl

theorem lineIf_eq (s : Setup) (back : Int) : lineIf s true back = (do
    let e ← get
    if s.pretty then put ("\n" ++ repeatText (e.indents - back).toNat "  ")) := by
  unfold lineIf
  cases s.pretty <;> rfl

namespace IsNoting

variable {s : Setup} {p : Bool} (hT : IsNoting T fault)

include hT

theorem lineIf (hl : Lays T s p) (c : Bool) (back : Int) :
    T Unit (lineIf s c back) (lineIf { s with pretty := p } c back) := by
  cases c with
  | false =>
    simp only [Emit.lineIf, Bool.and_false, Bool.false_eq_true, if_false]
    exact hT.pure _
  | true =>
    rw [lineIf_eq, lineIf_eq]
    exact hT.look fun e _ => hl (all_isLayout_line (e.indents - back))

theorem doctype_none (s : Setup) : T Unit (doctype s none) (doctype s none) := by
  have hmark : T Unit (modify fun e => { e with hasDoctype := true })
      (modify fun e => { e with hasDoctype := true }) := hT.note id id fun _ => true
  unfold doctype
  refine hT.look fun e e' => ?_
  dsimp only [Emitter.withView, Emitter.view]
  cases e.doctype with
  | none => exact hmark
  | some d => exact hT.whenNot (hT.put d) fun _ => hmark

theorem tagLine (hl : Lays T s p) (head : Tag) :
    T Unit (tagLine s head) (tagLine { s with pretty := p } head) := by
  have hfirst : T Unit (firstTag s head) (firstTag s head) := by
    refine hT.look fun e e' => hT.ite (hT.pure _) (hT.look fun e e' => ?_)
    exact hT.when (hT.doctype_none s) fun _ => hT.note id (fun _ => true) id
  refine hT.bind hfirst fun _ => hT.bind (hT.lineIf hl _ _) fun _ => hT.ite ?_ (hT.pure _)
  exact hT.note (fun _ => false) id id

end IsNoting

theorem IsStepwise.tagLead {s : Setup} {p : Bool} (hT : IsStepwise T fault) (hl : Lays T s p)
    (head : Tag) : T Unit (tagLead s head) (tagLead { s with pretty := p } head) :=
  hT.bind (hT.shift (· + 1)) fun _ => hT.tagLine hl head

theorem IsNoting.doctype (hT : IsNoting T fault) {s : Setup}
    (hset : ∀ name, T Unit (modify (Emitter.setDoctype s name))
      (modify (Emitter.setDoctype s name))) (name : Option (Option String)) :
    T Unit (doctype s name) (doctype s name) := by
  have hwrite := hT.doctype_none s
  cases name with
  | none => exact hwrite
  | some name => exact hT.look fun e e' => hT.when (hset _) fun _ => hwrite

end Emit

/-! ## Dialects -/

open Emit (Judgement)

/-- The content of a mixin is the same node, and the judgement holds of how it is written. -/
def Emit.SameInner (T : Judgement) (p p' : Node × Emit Unit) : Prop :=
  p.1 = p'.1 ∧ T Unit p.2 p'.2

/-- How two dialects write their constructs passes on a judgement, from another one in a mixin.
Unless all faults are allowed, a mixin is called or has content, and only `else if` may lack a head
among the words of conditionals. -/
structure Forms.Matches (T T' : Judgement) (fault : Fault → Prop) (f f' : Forms) : Prop where
  opening : f.opening = f'.opening
  interpolate : ∀ escape text, T _ (f.interpolate escape text) (f'.interpolate escape text)
  attributes : ∀ attrs, T _ (f.attributes attrs) (f'.attributes attrs)
  namedBlock : ∀ name mode {body body'}, T _ body body' →
    T _ (f.namedBlock name mode body) (f'.namedBlock name mode body')
  mixin : ∀ name args call {content content'},
    (∀ e, fault e) ∨ (call || content.isSome) = true →
    Option.Rel (Emit.SameInner T') content content' →
    T _ (f.mixin name args call content) (f'.mixin name args call content')
  assignment : ∀ name value, T _ (f.assignment name value) (f'.assignment name value)
  parent : ∀ path, T _ (f.parent path) (f'.parent path)
  inclusion : ∀ path, T _ (f.inclusion path) (f'.inclusion path)
  code : ∀ source buffer escape {body body'}, Option.Rel (T _) body body' →
    T _ (f.code source buffer escape body) (f'.code source buffer escape body')
  each : ∀ subject keys {body body'}, T _ body body' →
    T _ (f.each subject keys body) (f'.each subject keys body')
  conditional : ∀ word sentence {body body' next next'},
    (∀ e, fault e) ∨ word ∈ Rules.conditionalWords ∧ (word = "else if" → fault .noSuchKey) →
    Option.Rel (T _) body body' → List.Forall₂ (T _) next next' →
    T _ (f.conditional word sentence body next) (f'.conditional word sentence body' next')

/-- How two dialects write the construct of one node passes on a judgement, from another one in a
mixin. Of a tag these are its attributes and the text beside it. -/
def Forms.MatchesAt (T T' : Judgement) (f f' : Forms) : Node → Prop
  | .tag head _ text _ _ =>
    (∀ attrs, head.attributes = .ok attrs → T _ (f.attributes attrs) (f'.attributes attrs)) ∧
      ∀ n t, text = some n → Emit.tagText n = .ok t →
        T _ (f.interpolate true t) (f'.interpolate true t)
  | .text parts _ => T _ (f.interpolate false (String.join parts))
    (f'.interpolate false (String.join parts))
  | .string parts _ => T _ (f.interpolate true (String.join parts))
    (f'.interpolate true (String.join parts))
  | .filter _ _ content _ => ∀ t, Emit.blockText content = .ok t →
    T _ (f.interpolate true t) (f'.interpolate true t)
  | .codeBlock name mode _ _ => ∀ body body', T _ body body' →
    T _ (f.namedBlock name mode body) (f'.namedBlock name mode body')
  | .mixin name args content call => ∀ inner inner',
    Option.Rel (Emit.SameInner T') inner inner' → inner.map Prod.fst = content →
    T _ (f.mixin name args call inner) (f'.mixin name args call inner')
  | .assignment name value => T _ (f.assignment name value) (f'.assignment name value)
  | .parent path => T _ (f.parent path) (f'.parent path)
  | .inclusion path => T _ (f.inclusion path) (f'.inclusion path)
  | .code source buffer escape content _ => ∀ body body',
    Option.Rel (T _) body body' → body.isSome = content.isSome →
    T _ (f.code source buffer escape body) (f'.code source buffer escape body')
  | .each subject keys _ _ => ∀ body body', T _ body body' →
    T _ (f.each subject keys body) (f'.each subject keys body')
  | .conditional word sentence _ _ _ => ∀ body body' next next',
    Option.Rel (T _) body body' → List.Forall₂ (T _) next next' →
    T _ (f.conditional word sentence body next) (f'.conditional word sentence body' next')
  | _ => True

/-- The faults that a node may bring about are allowed, and its filter is there. -/
def Node.IsCovered (filters : Table String Filter) (fault : Fault → Prop) : Node → Prop
  | .tag head _ _ _ _ => ∀ e, head.attributes = .error e → fault e
  | .conditional word _ _ _ _ => word = "else if" → fault .noSuchKey
  | .filter name _ _ _ => ∃ g, filters.get? name = some (.ofText g)
  | _ => True

/-- All faults are allowed, or the node has its shape and those that it may bring about are. -/
def Node.IsAllowed (filters : Table String Filter) (fault : Fault → Prop) (n : Node) : Prop :=
  (∀ e, fault e) ∨ n.fits = true ∧ n.IsCovered filters fault

theorem Forms.Matches.matchesAt {T T' : Judgement} {fault : Fault → Prop} {f f' : Forms}
    (h : f.Matches T T' fault f') {filters : Table String Filter} {n : Node}
    (hn : n.IsAllowed filters fault) : f.MatchesAt T T' f' n := by
  cases n with
  | tag => exact ⟨fun attrs _ => h.attributes attrs, fun _ t _ _ => h.interpolate true t⟩
  | text | string => exact h.interpolate _ _
  | filter => exact fun t _ => h.interpolate true t
  | codeBlock name mode => exact fun _ _ => h.namedBlock name mode
  | mixin name args content call =>
    rintro inner inner' hinner rfl
    simp only [Node.IsAllowed, Node.fits, Bool.and_eq_true, Option.isSome_map] at hn
    exact h.mixin name args call (hn.imp_right fun hn => hn.1.2) hinner
  | assignment name value => exact h.assignment name value
  | parent path => exact h.parent path
  | inclusion path => exact h.inclusion path
  | code source buffer escape => exact fun _ _ hbody _ => h.code source buffer escape hbody
  | each subject keys => exact fun _ _ => h.each subject keys
  | conditional word sentence =>
    simp only [Node.IsAllowed, Node.fits, Bool.and_eq_true, List.contains_iff_mem] at hn
    exact fun _ _ _ _ => h.conditional word sentence (hn.imp_right fun hn => ⟨hn.1.1.1, hn.2⟩)
  | _ => trivial

namespace Emit

variable {T T' : Judgement} {fault : Fault → Prop} {s : Setup} {f f' : Forms}

/-! ## One node

How a node is written comes down to how the nodes in it are. -/

/-- How nodes are written, and how what is in them. -/
structure Writing where
  node : Node → Emit Unit
  inside : Node → Emit Unit

/-- The text beside a tag. -/
def textOf (f : Forms) : Option Node → Emit Unit
  | none => pure ()
  | some t => do put (← f.interpolate true (← (tagText t : Except Fault _)))

/-- One level of tags deeper and back. -/
def indented (act : Emit Unit) : Emit Unit := do
  modify fun e => { e with indents := e.indents + 1 }
  act
  modify fun e => { e with indents := e.indents - 1 }

namespace Writing

/-- The walk with a dialect. -/
def walk (s : Setup) (f : Forms) : Writing := ⟨Emit.node s f, Emit.inside s f⟩

variable (v : Writing)

def visit (n : Node) : Emit Unit := do
  before (isTag n)
  v.node n

def nodes (ns : List Node) : Emit Unit := ns.forM v.visit

def optional (c : Option Node) : Option (Emit Unit) := c.map v.visit

def required (c : Option Node) : Emit Unit :=
  (v.optional c).getD do
    before false
    throw .noSuchMember

def inner (c : Option Node) : Option (Node × Emit Unit) := c.map fun n => (n, v.inside n)

/-- Alternatives are written as other nodes are, if they are conditionals. -/
def chain (ns : List Node) : List (Emit Unit) :=
  ns.map fun n => if n.isConditional then v.node n else throw .noSuchMember

/-- The code beside a tag is written as other nodes are, if it is code. -/
def codeOf : Option Node → Emit Unit
  | none => pure ()
  | some n => if n.isCode then v.node n else throw .noSuchMember

/-- The content of a tag and its end. -/
def tagEnd (s : Setup) (head : Tag) (content : Node) : Emit Unit := do
  let textOnly ← (onlyText head content : Except Fault _)
  modify fun e => { e with inString := false }
  v.visit content
  closeTag s head textOnly

/-- What a tag that is not closed at once has after its attributes. -/
def tagInside (s : Setup) (f : Forms) (head : Tag) (code text : Option Node) (content : Node) :
    Emit Unit := do
  v.codeOf code
  textOf f text
  v.tagEnd s head content

/-- A node at its depth. -/
def construct (s : Setup) (f : Forms) : Node → Emit Unit
  | .block ns _ _ => v.nodes ns
  | .codeBlock name mode ns _ => f.namedBlock name mode (v.nodes ns)
  | .tag head code text content _ => do
    tagLine s head
    put ("<" ++ head.name)
    let closed := s.selfClosing.contains head.name && !(← get).xml
    f.attributes (← (head.attributes : Except Fault _))
    put (if !(← get).terse && closed then "/>" else ">")
    unless closed do v.tagInside s f head code text content
  | .code source buffer escape content _ => f.code source buffer escape (v.optional content)
  | .blockComment head buffer content _ => do
    if buffer then
      put (openComment head)
      v.required content
      put (closeComment head)
  | .each subject keys content _ => f.each subject keys (v.required content)
  | .mixin name args content call => f.mixin name args call (v.inner content)
  | .conditional word sentence content next _ =>
    f.conditional word sentence (v.optional content) (v.chain next)
  | n => Emit.node s f n

/-- A node, with an action before it. Of a tag the action stands at its depth, also at its end. -/
def step (s : Setup) (f : Forms) (w : Emit Unit) (n : Node) : Emit Unit :=
  if isTag n then
    indented do
      w
      v.construct s f n
      w
  else do
    w
    v.construct s f n

/-- What is in a node. -/
def within (s : Setup) (f : Forms) : Node → Emit Unit
  | .block ns _ _ => v.nodes ns
  | .codeBlock _ _ ns _ => v.nodes ns
  | n => Emit.inside s f n

end Writing

/-- The content of a tag and its end, in the walk. -/
abbrev tagEnd (s : Setup) (f : Forms) := (Writing.walk s f).tagEnd s

/-- What a tag has after its attributes, in the walk. -/
abbrev tagInside (s : Setup) (f : Forms) := (Writing.walk s f).tagInside s f

theorem nodes_eq (ns : List Node) : nodes s f ns = (Writing.walk s f).nodes ns := by
  induction ns with
  | nil =>
    rw [nodes]
    rfl
  | cons n ns ih =>
    rw [nodes, ih]
    exact (bind_assoc ..).symm

theorem optional_eq (c : Option Node) : optional s f c = (Writing.walk s f).optional c := by
  cases c <;> rw [optional] <;> rfl

theorem required_eq (c : Option Node) : required s f c = (Writing.walk s f).required c := by
  cases c <;> rw [required] <;> rfl

theorem inner_eq (c : Option Node) : inner s f c = (Writing.walk s f).inner c := by
  cases c <;> rw [inner] <;> rfl

theorem chain_eq_map (ns : List Node) :
    chain s f ns = ns.map fun n => if n.isConditional then node s f n else throw .noSuchMember := by
  induction ns with
  | nil => rw [chain, List.map_nil]
  | cons n ns ih =>
    rw [List.map_cons, ← ih]
    cases n with
    | _ =>
      rw [chain]
      · rfl
      all_goals simp

theorem codeOf_some (n : Node) :
    codeOf s f (some n) = if n.isCode then node s f n else throw .noSuchMember := by
  cases n with
  | _ =>
    rw [codeOf]
    · rfl
    all_goals simp

theorem codeOf_eq (c : Option Node) : codeOf s f c = (Writing.walk s f).codeOf c := by
  cases c with
  | none =>
    rw [codeOf]
    rfl
  | some n => exact codeOf_some n

theorem tagInside_eq (head : Tag) (code text : Option Node) (content : Node) :
    tagInside s f head code text content = (do
      codeOf s f code
      textOf f text
      tagEnd s f head content) := by
  rw [codeOf_eq]
  rfl

theorem node_tag (s : Setup) (f : Forms) (head : Tag) (code text : Option Node) (content : Node)
    (line : Option Nat) : node s f (.tag head code text content line) = (do
      openTag s head
      let closed := s.selfClosing.contains head.name && !(← get).xml
      f.attributes (← (head.attributes : Except Fault _))
      put (if !(← get).terse && closed then "/>" else ">")
      unless closed do tagInside s f head code text content
      modify fun e => { e with indents := e.indents - 1 }) := by
  simp only [tagInside_eq, tagEnd, Writing.tagEnd, Writing.visit, Writing.walk]
  cases text with
  | none => simp only [node, textOf, bind_assoc, pure_bind]
  | some t => simp only [node, textOf, bind_assoc]

/-- **The walk** goes from node to node. -/
theorem node_eq (n : Node) : node s f n = (Writing.walk s f).step s f (pure ()) n := by
  cases n with
  | tag =>
    rw [node_tag, openTag_eq]
    simp only [Writing.step, isTag, if_true, indented, tagLead, Writing.construct, bind_assoc,
      ite_bind, pure_bind]
  | block | codeBlock =>
    rw [node, nodes_eq]
    rfl
  | code =>
    rw [node, optional_eq]
    rfl
  | blockComment | each =>
    rw [node, required_eq]
    rfl
  | mixin =>
    rw [node, inner_eq]
    rfl
  | conditional =>
    rw [node, optional_eq, chain_eq_map]
    rfl
  | _ => rfl

theorem inside_eq (n : Node) : inside s f n = (Writing.walk s f).within s f n := by
  cases n with
  | block | codeBlock =>
    rw [inside, nodes_eq]
    rfl
  | _ => rfl

theorem tagText_ne_error {n : Node} (h : n.hasLine = true) (e : Fault) : tagText n ≠ .error e := by
  unfold Node.hasLine at h
  split at h
  · simp [tagText, Node.nodes?]
  · simp [tagText, Node.nodes?]
  · cases h

theorem onlyText_ne_error {head : Tag} {content : Node}
    (h : (content.isSeq || head.textOnly && content.isText) = true) (e : Fault) :
    onlyText head content ≠ .error e := by
  unfold onlyText
  split
  · simp
  · next htext =>
    rw [Bool.eq_false_iff.mpr htext, Bool.false_and, Bool.or_false] at h
    cases content with
    | block => simp [Node.nodes?]
    | _ => exact absurd h (by simp [Node.isSeq])

/-- The judgement holds of how a node is written, and of what is in it, if something may be. -/
def Follows (T : Judgement) (fault : Fault → Prop) (v v' : Writing) (n : Node) : Prop :=
  T Unit (v.node n) (v'.node n) ∧
    ((∀ e, fault e) ∨ n.isSeq = true → T Unit (v.inside n) (v'.inside n))

variable {v v' : Writing}

theorem follows_inner {c : Option Node} (h : ∀ n ∈ c.toList, Follows T fault v v' n)
    (hc : (∀ e, fault e) ∨ c.all Node.isSeq = true) :
    Option.Rel (SameInner T) (v.inner c) (v'.inner c) := by
  cases c with
  | none => exact .none
  | some n => exact .some ⟨rfl, (h n (List.mem_singleton.mpr rfl)).2 hc⟩

namespace IsNoting

variable (hT : IsNoting T fault) {c : Option Node} {n : Node}

include hT

theorem chain {ns : List Node} (h : ∀ n ∈ ns, Follows T fault v v' n)
    (hns : (∀ e, fault e) ∨ ns.all Node.isConditional = true) :
    List.Forall₂ (T Unit) (v.chain ns) (v'.chain ns) := by
  rw [Writing.chain, Writing.chain, List.forall₂_map_left_iff, List.forall₂_map_right_iff,
    List.forall₂_same]
  exact fun n hn => hT.orThrow (h n hn).1
    (hns.imp_right fun hall => List.all_eq_true.mp hall n hn)

theorem codeOf (h : ∀ n ∈ c.toList, Follows T fault v v' n)
    (hc : (∀ e, fault e) ∨ c.all Node.isCode = true) : T Unit (v.codeOf c) (v'.codeOf c) := by
  cases c with
  | none => exact hT.pure _
  | some n => exact hT.orThrow (h n (List.mem_singleton.mpr rfl)).1 hc

theorem visit (h : Follows T fault v v' n) : T Unit (v.visit n) (v'.visit n) :=
  hT.bind (hT.before _) fun _ => h.1

theorem nodes {ns : List Node} (h : ∀ n ∈ ns, Follows T fault v v' n) :
    T Unit (v.nodes ns) (v'.nodes ns) := by
  induction ns with
  | nil => exact hT.pure _
  | cons n ns ih =>
    refine hT.bind (hT.visit (h n (List.mem_cons_self ..))) fun _ => ?_
    exact ih fun m hm => h m (List.mem_cons_of_mem _ hm)

theorem optional (h : ∀ n ∈ c.toList, Follows T fault v v' n) :
    Option.Rel (T Unit) (v.optional c) (v'.optional c) := by
  cases c with
  | none => exact .none
  | some n => exact .some (hT.visit (h n (List.mem_singleton.mpr rfl)))

theorem required (h : ∀ n ∈ c.toList, Follows T fault v v' n)
    (hc : (∀ e, fault e) ∨ c.any Node.isSeq = true) : T Unit (v.required c) (v'.required c) := by
  cases c with
  | none => exact hT.bind (hT.before _) fun _ => hT.fail (hc.resolve_right Bool.false_ne_true _)
  | some n => exact hT.visit (h n (List.mem_singleton.mpr rfl))

theorem filter {p : Bool} (name : String) (attrs : Option FilterAttrs) {content : Option Node}
    (hc : (∀ e, fault e) ∨
      content.any Node.isText = true ∧ ∃ g, s.filters.get? name = some (.ofText g))
    (h : ∀ t, blockText content = .ok t → T _ (f.interpolate true t) (f'.interpolate true t)) :
    T Unit (filter s f name attrs content)
      (filter { s with pretty := p } f' name attrs content) := by
  unfold Emit.filter
  dsimp only
  rcases hc with hall | ⟨htext, g, hg⟩
  · split
    · exact hT.fail (hall _)
    · exact hT.fail (hall _)
    · exact hT.push _
    · exact hT.fail (hall _)
    · refine hT.lift (fun _ _ => hall _) fun text htext => hT.bind (h text htext) fun text => ?_
      split
      · exact hT.put _
      · exact hT.fail (hall _)
  · cases content with
    | none => cases htext
    | some n =>
      cases n with
      | text parts line =>
        rw [hg]
        exact hT.lift nofun fun t ht => hT.bind (h t ht) fun _ => hT.put _
      | _ => cases htext

theorem textOf {text : Option Node} (hc : (∀ e, fault e) ∨ text.all Node.hasLine = true)
    (h : ∀ n t, text = some n → tagText n = .ok t →
      T _ (f.interpolate true t) (f'.interpolate true t)) :
    T Unit (textOf f text) (textOf f' text) := by
  cases text with
  | none => exact hT.pure _
  | some n =>
    refine hT.lift (fun e he => ?_) fun t ht => hT.bind (h n t rfl ht) fun t => hT.put t
    exact hc.elim (· e) fun hline => absurd he (tagText_ne_error hline e)

theorem within {p : Bool} (h : ∀ c ∈ n.children, Follows T fault v v' c)
    (hin : (∀ e, fault e) ∨ n.isSeq = true) :
    T Unit (v.within s f n) (v'.within { s with pretty := p } f' n) := by
  cases n with
  | block | codeBlock => exact hT.nodes h
  | text parts | string parts =>
    have hall := hin.resolve_right Bool.false_ne_true
    show T Unit (inside s f _) (inside _ f' _)
    rw [inside, inside]
    exact hT.ite (hT.pure _) (hT.bind (hT.before _) fun _ => hT.fail (hall _))
  | _ =>
    have hall := hin.resolve_right Bool.false_ne_true
    exact hT.fail (hall _)

variable {p : Bool} (hl : Lays T s p)

include hl

theorem tagEnd {head : Tag} {content : Node}
    (hc : (∀ e, fault e) ∨ (content.isSeq || head.textOnly && content.isText) = true)
    (h : Follows T fault v v' content) :
    T Unit (v.tagEnd s head content) (v'.tagEnd { s with pretty := p } head content) := by
  refine hT.lift (fun e he => ?_) fun textOnly _ => ?_
  · exact hc.elim (· e) fun hkind => absurd he (onlyText_ne_error hkind e)
  refine hT.bind (hT.note (fun _ => false) id id) fun _ => hT.bind (hT.visit h) fun _ => ?_
  rw [closeTag_eq, closeTag_eq]
  exact hT.bind (hT.lineIf hl _ _) fun _ => hT.put _

theorem tag {head : Tag} {code text : Option Node} {content : Node} {line : Option Nat}
    (hn : (Node.tag head code text content line).IsAllowed s.filters fault)
    (hself : f.MatchesAt T T' f' (.tag head code text content line))
    (hcode : ∀ n ∈ code.toList, Follows T fault v v' n) (hcontent : Follows T fault v v' content) :
    T Unit (v.construct s f (.tag head code text content line))
      (v'.construct { s with pretty := p } f' (.tag head code text content line)) := by
  simp only [Node.IsAllowed, Node.fits, Bool.and_eq_true] at hn
  have hinside : T Unit (v.tagInside s f head code text content)
      (v'.tagInside { s with pretty := p } f' head code text content) := by
    refine hT.bind (hT.codeOf hcode (hn.imp_right fun hn => hn.1.1.1)) fun _ => ?_
    refine hT.bind (hT.textOf (hn.imp_right fun hn => hn.1.1.2) hself.2) fun _ => ?_
    exact hT.tagEnd hl (hn.imp_right fun hn => hn.1.2) hcontent
  refine hT.bind (hT.tagLine hl head) fun _ => hT.bind (hT.put _) fun _ => hT.look fun e e' => ?_
  refine hT.lift (fun e he => hn.elim (· e) fun hn => hn.2 e he) fun attrs hattrs => ?_
  refine hT.bind (hself.1 attrs hattrs) fun _ => hT.look fun e e' => hT.bind (hT.put _) fun _ => ?_
  exact hT.ite (hT.pure _) hinside

/-- **One node**, if the judgement holds of those in it. -/
theorem construct
    (hset : ∀ name, T Unit (modify (Emitter.setDoctype s name))
      (modify (Emitter.setDoctype s name))) (hn : n.IsAllowed s.filters fault)
    (hself : f.MatchesAt T T' f' n)
    (h : n.isMixin = false → ∀ c ∈ n.children, Follows T fault v v' c)
    (hmixin : n.isMixin = true → ∀ c ∈ n.children, Follows T' fault v v' c) :
    T Unit (v.construct s f n) (v'.construct { s with pretty := p } f' n) := by
  have hfits := hn.imp_right And.left
  cases n with
  | block ns => exact hT.nodes (h rfl)
  | codeBlock name mode ns => exact hself _ _ (hT.nodes (h rfl))
  | tag head code text content =>
    refine hT.tag hl hn hself (fun n hn => h rfl n ?_) (h rfl content ?_)
    · exact List.mem_append_left _ (List.mem_append_left _ hn)
    · simp [Node.children]
  | text parts =>
    show T Unit (node s f _) (node _ f' _)
    rw [node, node]
    exact hT.bind hself fun text => hT.bind (hT.put text) fun _ => hl (by decide)
  | string parts =>
    show T Unit (node s f _) (node _ f' _)
    rw [node, node]
    refine hT.bind hself fun text => hT.bind (hT.put text) fun _ => ?_
    exact hT.note (fun _ => true) id id
  | code source buffer escape content =>
    exact hself _ _ (hT.optional (h rfl)) Option.isSome_map
  | comment content buffer =>
    show T Unit (node s f _) (node _ f' _)
    rw [node, node, comment_eq, comment_eq]
    exact hT.ite (hT.bind (hT.lineIf hl _ _) fun _ => hT.put _) (hT.pure _)
  | blockComment head buffer content =>
    refine hT.ite (hT.bind (hT.put _) fun _ => ?_) (hT.pure _)
    exact hT.bind (hT.required (h rfl) hfits) fun _ => hT.put _
  | doctype name => exact hT.doctype hset (some name)
  | each subject keys content => exact hself _ _ (hT.required (h rfl) hfits)
  | mixin name args content call =>
    simp only [Node.fits, Bool.and_eq_true] at hfits
    refine hself _ _ (follows_inner (hmixin rfl) (hfits.imp_right And.left)) ?_
    cases content <;> rfl
  | conditional word sentence content next =>
    simp only [Node.fits, Bool.and_eq_true] at hfits
    refine hself _ _ _ _ (hT.optional fun n hn => h rfl n ?_)
      (hT.chain (fun n hn => h rfl n ?_) (hfits.imp_right And.right))
    · exact List.mem_append_left _ hn
    · exact List.mem_append_right _ hn
  | filter name attrs content => exact hT.filter name attrs hn hself
  | literal content => exact hT.put _
  | bare | pending => exact hT.fail (hfits.resolve_right Bool.false_ne_true _)
  | assignment | parent | inclusion => exact hself

end IsNoting

namespace IsWalked

variable {p : Bool} (hT : IsWalked T fault) (hl : Lays T s p)

include hT hl

/-- **The walk through a tree**, by induction on it. -/
theorem follows {n : Node}
    (h : ∀ m ∈ n.walk, m.IsAllowed s.filters fault ∧ f.MatchesAt T T f' m) :
    Follows T fault (.walk s f) (.walk { s with pretty := p } f') n := by
  induction n using Node.induction with
  | h n ih =>
    rw [Node.walk_eq, List.forall_mem_cons, List.forall_mem_flatMap] at h
    obtain ⟨⟨hn, hself⟩, hinner⟩ := h
    replace ih := fun c hc => ih c hc (hinner c hc)
    have hnode := hT.construct hl (hT.setDoctype s) hn hself (fun _ => ih) fun _ => ih
    refine ⟨?_, fun hin => ?_⟩
    · simp only [Writing.walk, node_eq n, Writing.step, pure_bind]
      refine hT.ite (hT.bind (hT.shift (· + 1)) fun _ => ?_) hnode
      exact hT.bind (hT.bind hnode fun _ => hT.pure _) fun _ => hT.shift (· - 1)
    · simp only [Writing.walk, inside_eq n]
      exact hT.within ih hin

/-- **Templates.** -/
theorem template {root : Node} (hopening : f.opening = f'.opening)
    (h : ∀ m ∈ root.walk, m.IsAllowed s.filters fault ∧ f.MatchesAt T T f' m) :
    T Unit (template s f root) (template { s with pretty := p } f' root) := by
  unfold Emit.template
  rw [hopening]
  exact hT.bind (hT.push _) fun _ => hT.visit (hT.follows hl h)

end IsWalked

end Emit

/-! ## Two runs that agree -/

open Emit (Agree)

namespace Emitter

variable {R : Emitter → Emitter → Prop} {s : Setup} {p : Bool}

theorem IsTie.walked (hR : IsTie R) : Emit.IsWalked (fun _ => Agree R) fun _ => True where
  pure := Emit.agree_pure
  fail _ := Emit.agree_throw _
  bind h hk := h.bind hk
  look h := Emit.agree_look hR h
  put := Emit.agree_write hR
  push := Emit.agree_append hR
  note _ _ _ := Emit.agree_change hR fun _ => rfl
  shift _ := Emit.agree_change hR fun _ => rfl
  setDoctype _ _ := Emit.agree_change hR fun _ => rfl

theorem IsBond.wide (hR : IsBond R) : Emit.IsWide (fun _ => Agree R) fun _ => True :=
  { hR.isTie.walked with
    get := fun h => Emit.agree_get hR h
    count := fun _ => Emit.agree_modify hR fun _ _ => rfl }

theorem IsBond.nested (hR : IsBond R) :
    Emit.IsNested (fun _ => Agree R) (fun _ => Agree R) fun _ => True :=
  { hR.wide with
    inner := hR.wide
    deeper := fun h => Emit.agree_deeper hR h }

theorem IsTie.lays (hR : IsTie R) (hp : Spares R s p) : Emit.Lays (fun _ => Agree R) s p := by
  intro text htext
  rcases hp with rfl | ⟨hpretty, hblind⟩
  · exact hR.walked.lays s htext
  · rw [hpretty]
    intro e e' he
    cases p with
    | false => exact ⟨rfl, hblind text htext he⟩
    | true => exact ⟨rfl, hR.put text he⟩

end Emitter

open Emitter (IsBond IsTie Spares)

/-- Two dialects write their constructs alike if what they are given is. -/
abbrev Forms.Alike (R : Emitter → Emitter → Prop) (f f' : Forms) : Prop :=
  f.Matches (fun _ => Agree R) (fun _ => Agree R) (fun _ => True) f'

/-- Two dialects write the construct of one node alike if what they are given is. -/
abbrev Forms.AlikeAt (R : Emitter → Emitter → Prop) (f f' : Forms) (n : Node) : Prop :=
  f.MatchesAt (fun _ => Agree R) (fun _ => Agree R) f' n

theorem Forms.Alike.alikeAt {R : Emitter → Emitter → Prop} {f f' : Forms} (h : f.Alike R f')
    (n : Node) : f.AlikeAt R f' n :=
  have hn : n.IsAllowed .empty fun _ => True := .inl fun _ => trivial
  h.matchesAt hn

namespace Emit

variable {R : Emitter → Emitter → Prop} {s : Setup} {p : Bool} {f f' : Forms}

section Tie

variable (hR : IsTie R) (hp : Spares R s p)

include hR hp

/-- **Two runs on one tree**, whose constructs are written alike. -/
theorem follows_of_alikeAt {n : Node} (h : ∀ m ∈ n.walk, f.AlikeAt R f' m) :
    Agree R (node s f n) (node { s with pretty := p } f' n) ∧
      Agree R (inside s f n) (inside { s with pretty := p } f' n) :=
  have hall : ∀ _ : Fault, True := fun _ => trivial
  have hfollows := hR.walked.follows (hR.lays hp) fun m hm => ⟨.inl hall, h m hm⟩
  ⟨hfollows.1, hfollows.2 (.inl hall)⟩

/-- **Two runs on one template**, whose constructs are written alike. -/
theorem agree_template_of_alikeAt {root : Node} (hopening : f.opening = f'.opening)
    (h : ∀ m ∈ root.walk, f.AlikeAt R f' m) :
    Agree R (template s f root) (template { s with pretty := p } f' root) :=
  hR.walked.template (hR.lays hp) hopening fun m hm => ⟨.inl fun _ => trivial, h m hm⟩

end Tie

section Alike

variable (hR : IsBond R) (hp : Spares R s p) (hf : f.Alike R f')

include hR hp hf

theorem follows_node (n : Node) :
    Agree R (node s f n) (node { s with pretty := p } f' n) ∧
      Agree R (inside s f n) (inside { s with pretty := p } f' n) :=
  follows_of_alikeAt hR.isTie hp fun m _ => hf.alikeAt m

theorem agree_template (root : Node) :
    Agree R (template s f root) (template { s with pretty := p } f' root) :=
  agree_template_of_alikeAt hR.isTie hp hf.opening fun m _ => hf.alikeAt m

end Alike

end Emit

end Jade

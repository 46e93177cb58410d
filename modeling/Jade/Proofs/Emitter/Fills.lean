import Jade.Proofs.Emitter.Depth
import Jade.Proofs.Emitter.Output
import Jade.Proofs.Node.Frames

/-!
# Writing a text in its surroundings

Take a template with a slot, and put one text after the other into it. All runs do the same until
they come to the slot; there they write different texts, and from then on they differ in nothing but
that, since no run reads what was written. So the output is the same before the text and after it,
whatever the text is. `Emit.Fills` says this of a family of actions.

A run may also fail, or leave out the nodes around the slot. Then all runs end in the same state.
Whether nodes may be left out can be seen from the frames around the slot (`Frames.mayHide`):
comments that are not written, tags that are closed at once, alternatives of a conditional without
content, and in some dialects a named block within a mixin, which stands for the block of the
caller.

## Main results

* `Jade.Emit.Fills.after`, `Jade.Emit.Fills.followed` : one action after the other
* `Jade.Emit.carries_frames` : a slot within frames
* `Jade.Emit.Fills.outcome` : what comes of the runs
-/

namespace Jade

/-! ## What may be left out -/

/-- Whether the frame is a mixin. -/
def Frame.isMixin : Frame → Bool
  | mixin _ _ _ => true
  | _ => false

/-- Whether what is in the frame may be left out, where `covered` says that named blocks are. -/
def Frame.mayHide (s : Setup) (covered : Bool) : Frame → Bool
  | named _ _ _ _ _ => covered
  | element head _ _ _ | beside head _ _ _ => s.selfClosing.contains head.name
  | comment _ buffer _ => !buffer
  | alternative _ _ content _ _ _ => content.isNone
  | block _ _ _ _ | code _ _ _ _ | each _ _ _ | mixin _ _ _ | branch _ _ _ _ => false

/-- Whether the text in the slot may be left out. -/
def Slot.mayHide (s : Setup) : Slot → Bool
  | beside head _ _ _ _ _ => s.selfClosing.contains head.name
  | string _ | text _ | filter _ _ _ _ => false

/-- Whether a text in a slot within the frames may be left out, where `covers` says that named
blocks are within mixins. -/
def Frames.mayHide (s : Setup) (covers : Bool) (inMixin : Bool) (x : Slot) : Frames → Bool
  | [] => x.mayHide s
  | frame :: c =>
    frame.mayHide s (covers && inMixin) || mayHide s covers (inMixin || frame.isMixin) x c

/-- Whether expressions in the text are escaped. -/
def Slot.escapes : Slot → Bool
  | text _ => false
  | string _ | filter _ _ _ _ | beside _ _ _ _ _ _ => true

/-- What is written for a text in the slot: a filter is applied to it, if it is there. -/
def Slot.written (s : Setup) (t : String) : Slot → String
  | filter name attrs _ _ =>
    match s.filters.get? name with
    | some (.ofText g) =>
      g t (Table.storeIn "filename" s.filename ((attrs.map FilterAttrs.pairs).getD []))
    | _ => t
  | string _ | text _ | beside _ _ _ _ _ _ => t

namespace Emit

/-- The outputs are the same before and after a text. -/
def Around (before : List Glyph) (t t' : String) (gs gs' : List Glyph) : Prop :=
  ∃ after, gs = before ++ glyphsOf t ++ after ∧ gs' = before ++ glyphsOf t' ++ after

theorem isBond_around (before : List Glyph) (t t' : String) :
    Emitter.IsBond (Emitter.Paired (Around before t t')) := by
  refine Emitter.isBond_paired fun new h => ?_
  obtain ⟨after, rfl, rfl⟩ := h
  exact ⟨after ++ glyphsOf new, List.append_assoc .., List.append_assoc ..⟩

variable {α ι : Type} {inMixin hidden : Bool} {text : ι → String} {acts : ι → Emit Unit}

/-- From every state, all actions lead to the same end, or to ends that differ in the text only.
They may succeed with the same state only if `hidden` allows it. Outside of mixins the depth of
mixins is zero. -/
def Fills (inMixin hidden : Bool) (text : ι → String) (acts : ι → Emit Unit) : Prop :=
  ∀ e, (inMixin = false → e.mixing = 0) →
    (∃ r, (∀ i, (acts i).run.run e = r) ∧ (r.1 = .ok () → hidden = true)) ∨
    ∃ before, ∀ i j, ((acts i).run.run e).1 = ((acts j).run.run e).1 ∧
      Emitter.Paired (Around before (text i) (text j)) ((acts i).run.run e).2
        ((acts j).run.run e).2

/-! ## Rules -/

theorem fills_put : Fills inMixin hidden text fun i => put (text i) := by
  intro e _
  refine .inr ⟨e.glyphs, fun i j => ⟨rfl, ⟨_, rfl⟩, [], ?_, ?_⟩⟩
  · exact (Emitter.glyphs_put e (text i)).trans (List.append_nil _).symm
  · exact (Emitter.glyphs_put e (text j)).trans (List.append_nil _).symm

theorem fills_throw (f : Fault) : Fills inMixin hidden text fun _ => throw f := by
  intro e _
  refine .inl ⟨(.error f, e), fun _ => rfl, fun h => ?_⟩
  cases h

theorem fills_hidden (h : hidden = true) (act : Emit Unit) :
    Fills inMixin hidden text fun _ => act :=
  fun e _ => .inl ⟨act.run.run e, fun _ => rfl, fun _ => h⟩

theorem Fills.mono {hidden' : Bool} (h : Fills inMixin hidden text acts)
    (himp : hidden = true → hidden' = true) : Fills inMixin hidden' text acts := by
  intro e he
  rcases h e he with ⟨r, hr, hhidden⟩ | hpair
  · exact .inl ⟨r, hr, fun hok => himp (hhidden hok)⟩
  · exact .inr hpair

theorem Fills.anywhere (h : Fills true hidden text acts) : Fills inMixin hidden text acts := by
  intro e _
  exact h e nofun

theorem Fills.ite {c : Prop} [Decidable c] {acts' : ι → Emit Unit}
    (h : c → Fills inMixin hidden text acts) (h' : ¬c → Fills inMixin hidden text acts') :
    Fills inMixin hidden text fun i => if c then acts i else acts' i := by
  split
  · next hc => exact h hc
  · next hc => exact h' hc

/-- **Before the text**, all runs do the same. -/
theorem Fills.after {act : Emit α} {acts : α → ι → Emit Unit} (hact : Level act)
    (h : ∀ a, Fills inMixin hidden text (acts a)) :
    Fills inMixin hidden text fun i => act >>= fun a => acts a i := by
  intro e he
  rcases hrun : act.run.run e with ⟨f | a, e₁⟩
  · refine .inl ⟨(.error f, e₁), fun i => ?_, fun h => by cases h⟩
    rw [Reader.run_bind, hrun]
  · have hdepth : inMixin = false → e₁.mixing = 0 := by
      intro hm
      rw [hact e a e₁ hrun]
      exact he hm
    have hrest := h a e₁ hdepth
    simp only [Reader.run_bind, hrun]
    exact hrest

theorem fills_get {acts : Emitter → ι → Emit Unit}
    (h : ∀ e, (inMixin = false → e.mixing = 0) → Fills inMixin hidden text (acts e)) :
    Fills inMixin hidden text fun i => get >>= fun e => acts e i :=
  fun e he => h e he e he

/-- **After the text**, no run reads it. -/
theorem Fills.followed (h : Fills inMixin hidden text acts) {act : Emit Unit} (hact : Unread act) :
    Fills inMixin hidden text (fun i => do acts i; act) := by
  intro e he
  rcases h e he with ⟨⟨f | a, e₁⟩, hr, hhidden⟩ | ⟨before, hpair⟩
  · refine .inl ⟨(.error f, e₁), fun i => ?_, fun h => by cases h⟩
    rw [Reader.run_bind, hr i]
  · refine .inl ⟨act.run.run e₁, fun i => ?_, fun _ => hhidden rfl⟩
    rw [Reader.run_bind, hr i]
  · refine .inr ⟨before, fun i j => ?_⟩
    obtain ⟨hout, hstate⟩ := hpair i j
    rw [Reader.run_bind, Reader.run_bind]
    rcases hi : (acts i).run.run e with ⟨r, e₁⟩
    rcases hj : (acts j).run.run e with ⟨r', e₁'⟩
    rw [hi, hj] at hout hstate
    obtain rfl : r = r' := hout
    cases r with
    | error f => exact ⟨rfl, hstate⟩
    | ok a => exact hact _ (isBond_around _ _ _) e₁ e₁' hstate

theorem fills_deeper (h : Fills true hidden text acts) :
    Fills inMixin hidden text fun i => deeper (acts i) := by
  have hback : Fills true hidden text (fun i => do
      acts i
      modify fun e => { e with mixing := e.mixing - 1 }) :=
    h.followed (unread_modify fun _ _ => rfl)
  intro e _
  exact hback { e with mixing := e.mixing + 1 } nofun

end Emit

open Emit (Fills Level Unread)

/-- Dialects that write the content of their constructs once. Named blocks within mixins may be left
out, if `covers` says so, and alternatives of a conditional without content. -/
structure Forms.Hosts {ι : Type} (text : ι → String) (covers : Bool) (f : Forms) : Prop where
  namedBlock : ∀ name mode {inMixin hidden} {body : ι → Emit Unit},
    Fills inMixin hidden text body →
    Fills inMixin (covers && inMixin || hidden) text fun i => f.namedBlock name mode (body i)
  mixin : ∀ name args call {inMixin hidden} (ns : ι → Node) {body : ι → Emit Unit},
    Fills true hidden text body →
    Fills inMixin hidden text fun i => f.mixin name args call (some (ns i, body i))
  code : ∀ source buffer escape {inMixin hidden} {body : ι → Emit Unit},
    Fills inMixin hidden text body →
    Fills inMixin hidden text fun i => f.code source buffer escape (some (body i))
  each : ∀ subject keys {inMixin hidden} {body : ι → Emit Unit}, Fills inMixin hidden text body →
    Fills inMixin hidden text fun i => f.each subject keys (body i)
  branch : ∀ word sentence {inMixin hidden} {body : ι → Emit Unit} {next : List (Emit Unit)},
    Fills inMixin hidden text body → (∀ act ∈ next, Unread act) →
    Fills inMixin hidden text fun i => f.conditional word sentence (some (body i)) next
  alternative : ∀ word sentence {inMixin hidden} {body : Option (Emit Unit)}
    {before after : List (Emit Unit)} {acts : ι → Emit Unit}, Fills inMixin hidden text acts →
    (∀ act ∈ body, Level act) → (∀ act ∈ before, Level act) → (∀ act ∈ after, Unread act) →
    Fills inMixin (body.isNone || hidden) text fun i =>
      f.conditional word sentence body (before ++ acts i :: after)

namespace Emit

/-! ## Nodes with a text in them -/

/-- What the nodes around a node read of it: what it is, and if it holds a sequence, whether that is
empty. -/
structure Kind where
  isTag : Bool
  isCode : Bool
  isConditional : Bool
  empty? : Option Bool

/-- The kind of a node. -/
def kind (n : Node) : Kind where
  isTag := isTag n
  isCode := n.isCode
  isConditional := n.isConditional
  empty? := n.nodes?.map List.isEmpty

section Walk

variable {ι : Type} {inMixin hidden covers : Bool} {text : ι → String}
  {s : Setup} {f : Forms} {ns : ι → Node}

/-- The nodes differ in a text only. -/
structure Carries (s : Setup) (f : Forms) (inMixin hidden : Bool) (text : ι → String)
    (ns : ι → Node) : Prop where
  node : Fills inMixin hidden text fun i => node s f (ns i)
  inside : Fills inMixin hidden text fun i => inside s f (ns i)
  kind : ∀ i j, kind (ns i) = kind (ns j)

theorem Carries.visit [Inhabited ι] (h : Carries s f inMixin hidden text ns) :
    Fills inMixin hidden text fun i => visit s f (ns i) := by
  have htag : ∀ i, isTag (ns i) = isTag (ns default) := fun i =>
    congrArg Kind.isTag (h.kind i default)
  unfold Emit.visit
  simp only [htag]
  exact .after (moves_before _) fun _ => h.node

theorem nodes_append (as bs : List Node) : nodes s f (as ++ bs) = (do
    nodes s f as
    nodes s f bs) := by
  induction as with
  | nil =>
    rw [List.nil_append, nodes, pure_bind]
  | cons a as ih =>
    rw [List.cons_append, nodes, ih, nodes]
    simp only [bind_assoc]

/-- What follows from the forms of a dialect: it neither reads the output nor changes the depth of
mixins, and writes the content of its constructs once. -/
structure Sound (text : ι → String) (covers : Bool) (f : Forms) : Prop where
  alike : ∀ {R}, Emitter.IsBond R → f.Alike R f
  level : f.IsLevel
  hosts : f.Hosts text covers

variable (hf : Sound text covers f)

include hf

theorem Sound.follows {R : Emitter → Emitter → Prop} (hR : Emitter.IsBond R) (n : Node) :
    Follows (fun _ => Agree R) (fun _ => True) (.walk s f) (.walk s f) n :=
  hR.isTie.walked.follows (hR.isTie.walked.lays s) fun m _ =>
    ⟨.inl fun _ => trivial, (hf.alike hR).alikeAt m⟩

theorem unread_node (n : Node) : Unread (node s f n) :=
  fun _ hR => (hf.follows hR n).1

theorem unread_nodes (ns : List Node) : Unread (nodes s f ns) := by
  rw [nodes_eq]
  exact fun _ hR => hR.isTie.walked.nodes fun n _ => hf.follows hR n

theorem unread_chain (ns : List Node) : ∀ act ∈ chain s f ns, Unread act := by
  rw [chain_eq_map, List.forall_mem_map]
  exact fun n _ => .ite (unread_node hf n) fun _ _ => agree_throw _

theorem unread_tagEnd (head : Tag) (content : Node) : Unread (tagEnd s f head content) :=
  fun _ hR => hR.isTie.walked.tagEnd (hR.isTie.walked.lays s) (.inl fun _ => trivial)
    (hf.follows hR content)

theorem Carries.nodes [Inhabited ι] (h : Carries s f inMixin hidden text ns)
    (before after : List Node) :
    Fills inMixin hidden text fun i => Emit.nodes s f (before ++ ns i :: after) := by
  have hbefore : Level (Emit.nodes s f before) := by
    rw [nodes_eq]
    exact stepwise_movement.nodes fun n _ => moves_node hf.level n
  simp only [nodes_append, Emit.nodes]
  refine .after hbefore fun _ => ?_
  simp only [← bind_assoc]
  exact h.visit.followed (unread_nodes hf after)

theorem fills_tag {head : Tag} {code txt : ι → Option Node} {content : ι → Node}
    {line : Option Nat} (h : Fills inMixin hidden text fun i =>
      tagInside s f head (code i) (txt i) (content i)) :
    Fills inMixin (s.selfClosing.contains head.name || hidden) text fun i =>
      node s f (.tag head (code i) (txt i) (content i) line) := by
  have hend : Unread (modify fun e => { e with indents := e.indents - 1 }) :=
    unread_modify fun _ _ => rfl
  simp only [node_tag, openTag_eq]
  refine .after ((moves_tagLead s head).bind fun _ => moves_put _) fun _ => ?_
  refine .after moves_get fun e => .after (moves_lift _) fun attrs => ?_
  refine .after (hf.level.attributes attrs) fun _ => .after moves_get fun e' => ?_
  refine .after (moves_put _) fun _ => .ite (fun hclosed => fills_hidden ?_ _) fun _ => ?_
  · rw [Bool.and_eq_true] at hclosed
    rw [hclosed.1, Bool.true_or]
  · exact (h.followed hend).mono fun hhidden => by rw [hhidden, Bool.or_true]

theorem Carries.content [Inhabited ι] (h : Carries s f inMixin hidden text ns) (head : Tag)
    (code txt : Option Node) :
    Fills inMixin hidden text fun i => tagInside s f head code txt (ns i) := by
  have honly : ∀ i, onlyText head (ns i) = onlyText head (ns default) := by
    intro i
    have hempty := congrArg Kind.empty? (h.kind i default)
    unfold onlyText
    cases hi : (ns i).nodes? <;> cases hd : (ns default).nodes? <;> simp_all [Emit.kind]
  unfold tagInside Writing.tagInside Writing.tagEnd
  simp only [honly]
  refine .after
    (stepwise_movement.codeOf (fun n _ => moves_node hf.level n) (.inl fun _ => trivial))
    fun _ => ?_
  refine .after (stepwise_movement.textOf (.inl fun _ => trivial)
    fun _ t _ _ => hf.level.interpolate true t) fun _ => .after (moves_lift _) fun textOnly => ?_
  refine .after (moves_inString false) fun _ => ?_
  refine h.visit.followed fun R hR => ?_
  rw [closeTag_eq]
  have hT := hR.isTie.walked
  exact hT.bind (hT.lineIf (hT.lays s) _ _) fun _ => hT.put _

theorem Carries.code [Inhabited ι] (h : Carries s f inMixin hidden text ns) (head : Tag)
    (txt : Option Node) (content : Node) :
    Fills inMixin hidden text fun i => tagInside s f head (some (ns i)) txt content := by
  have hcode : ∀ i, (ns i).isCode = (ns default).isCode := fun i =>
    congrArg Kind.isCode (h.kind i default)
  unfold tagInside Writing.tagInside
  simp only [Writing.codeOf, hcode]
  have hcodeOf : Fills inMixin hidden text fun i =>
      if (ns default).isCode then Emit.node s f (ns i) else throw .noSuchMember :=
    .ite (fun _ => h.node) fun _ => fills_throw _
  refine hcodeOf.followed fun R hR => ?_
  refine Agree.bind (hR.isTie.walked.textOf (.inl fun _ => trivial) fun _ t _ _ => ?_)
    fun _ => unread_tagEnd hf head content R hR
  exact (hf.alike hR).interpolate true t

/-- **One frame more.** -/
theorem Carries.plug [Inhabited ι] (frame : Frame)
    (h : Carries s f (inMixin || frame.isMixin) hidden text ns) :
    Carries s f inMixin (frame.mayHide s (covers && inMixin) || hidden) text
      fun i => frame.plug (ns i) := by
  have hout : frame.isMixin = false → Carries s f inMixin hidden text ns := by
    intro hmixin
    rwa [hmixin, Bool.or_false] at h
  constructor
  · cases frame with
    | block before after line yields =>
      simp only [Frame.plug, Emit.node]
      exact (hout rfl).nodes hf before after
    | named name mode before after line =>
      simp only [Frame.plug, Emit.node]
      exact hf.hosts.namedBlock name mode ((hout rfl).nodes hf before after)
    | element head code txt line =>
      exact fills_tag hf ((hout rfl).content hf head code txt)
    | beside head txt content line =>
      show Fills _ _ text fun i => Emit.node s f (.tag head (some (ns i)) txt content line)
      exact fills_tag hf ((hout rfl).code hf head txt content)
    | code source buffer escape line =>
      simp only [Frame.plug, Emit.node, optional]
      exact hf.hosts.code source buffer escape (hout rfl).visit
    | comment head buffer line =>
      simp only [Frame.plug, Emit.node, required]
      cases buffer with
      | false => exact fills_hidden rfl _
      | true => exact .after (moves_put _) fun _ => (hout rfl).visit.followed (unread_put _)
    | each subject keys line =>
      simp only [Frame.plug, Emit.node, required]
      exact hf.hosts.each subject keys (hout rfl).visit
    | mixin name args call =>
      rw [Frame.isMixin, Bool.or_true] at h
      simp only [Frame.plug, Emit.node, inner]
      exact hf.hosts.mixin name args call ns h.inside
    | branch word sentence next line =>
      simp only [Frame.plug, Emit.node, optional]
      exact hf.hosts.branch word sentence (hout rfl).visit (unread_chain hf next)
    | alternative word sentence content before after line =>
      have hnone : (optional s f content).isNone = content.isNone := by
        cases content <;> rw [optional] <;> rfl
      have hconditional : ∀ i, (ns i).isConditional = (ns default).isConditional := fun i =>
        congrArg Kind.isConditional (h.kind i default)
      have hacts : Fills inMixin hidden text fun i =>
          if (ns default).isConditional then Emit.node s f (ns i) else throw .noSuchMember :=
        .ite (fun _ => (hout rfl).node) fun _ => fills_throw _
      simp only [Frame.plug, Emit.node, chain_eq_map, List.map_append, List.map_cons, hconditional]
      rw [Frame.mayHide, ← hnone, ← chain_eq_map, ← chain_eq_map]
      rw [optional_eq, chain_eq_map before]
      exact hf.hosts.alternative word sentence hacts
        (moves_of_rel (stepwise_movement.optional fun n _ => moves_node hf.level n))
        (moves_of_forall₂ (stepwise_movement.chain (fun n _ => moves_node hf.level n)
          (.inl fun _ => trivial)))
        (unread_chain hf after)
  · cases frame with
    | block before after | named _ _ before after =>
      simp only [Frame.plug, Emit.inside]
      refine ((hout rfl).nodes hf before after).mono fun hhidden => ?_
      rw [hhidden, Bool.or_true]
    | _ =>
      simp only [Frame.plug, Emit.inside]
      exact fills_throw _
  · intro i j
    have hcons : ∀ (before after : List Node) n, (before ++ n :: after).isEmpty = false := by simp
    cases frame <;> simp [Frame.plug, Emit.kind, isTag, Node.isCode, Node.isConditional,
      Node.nodes?, hcons]

end Walk

/-! ## Texts within frames -/

section Slots

variable {inMixin covers : Bool} {s : Setup} {f : Forms} {shown : Bool → String → String}
  (hshown : ∀ escape t, f.interpolate escape t = pure (shown escape t)) {x : Slot}
  (hf : Sound (fun l => x.written s (shown x.escapes (x.carried l))) covers f)

include hshown

theorem fills_filter (name : String) (attrs : Option FilterAttrs) (textLine line : Option Nat) :
    Fills inMixin false
      (fun l => (Slot.filter name attrs textLine line).written s (shown true (String.join l.all)))
      fun l : Lines => filter s f name attrs (some (.text l.all textLine)) := by
  cases hget : s.filters.get? name with
  | none =>
    simp only [filter, hget, Node.isBlock, Bool.false_eq_true, if_false]
    exact fills_throw _
  | some chosen =>
    cases chosen with
    | ofText g =>
      simp only [filter, hget, Node.isBlock, Bool.false_eq_true, if_false, blockText, hshown,
        Slot.written]
      exact fills_put
    | ofNodes g =>
      simp only [filter, hget, Node.isBlock, Bool.false_eq_true, if_false, blockText, hshown]
      exact fills_throw _

include hf

/-- **A text in its slot.** -/
theorem carries_slot : Carries s f inMixin (x.mayHide s)
    (fun l => x.written s (shown x.escapes (x.carried l))) fun l => x.plug l := by
  cases x with
  | string line =>
    refine ⟨?_, ?_, fun _ _ => rfl⟩
    · simp only [Slot.plug, node, hshown, pure_bind]
      exact fills_put.followed (unread_modify fun _ _ => rfl)
    · simp only [Slot.plug, inside]
      exact .after (moves_before _) fun _ => fills_throw _
  | text line =>
    refine ⟨?_, ?_, fun _ _ => rfl⟩
    · simp only [Slot.plug, node, hshown, pure_bind]
      exact fills_put.followed ((unread_put _).ite unread_pure)
    · simp only [Slot.plug, inside]
      exact .after (moves_before _) fun _ => fills_throw _
  | filter name attrs textLine line =>
    refine ⟨?_, fills_throw _, fun _ _ => rfl⟩
    simp only [Slot.plug, node]
    exact fills_filter hshown name attrs textLine line
  | beside head code bar content textLine line =>
    have htext : ∀ l : Lines,
        textOf f (some (if bar then .string l.all textLine else .text l.all textLine)) =
          put (shown true (stripStart l.first)) := by
      intro l
      cases bar <;> simp only [textOf, tagText, Node.nodes?, Lines.all, List.map_cons, hshown,
        if_true, if_false, Bool.false_eq_true] <;> rfl
    have hinside : Fills inMixin false
        (fun l => shown true (stripStart l.first)) fun l : Lines => tagInside s f head code
          (some (if bar then .string l.all textLine else .text l.all textLine)) content := by
      unfold tagInside Writing.tagInside
      simp only [htext]
      refine .after
        (stepwise_movement.codeOf (fun n _ => moves_node hf.level n) (.inl fun _ => trivial))
        fun _ => ?_
      exact fills_put.followed (unread_tagEnd hf head content)
    refine ⟨?_, fills_throw _, fun _ _ => rfl⟩
    -- nothing hides the text but the tag itself
    rw [Slot.mayHide, ← Bool.or_false (s.selfClosing.contains head.name)]
    exact fills_tag hf hinside

/-- **A text within frames**, by induction on them. -/
theorem carries_frames (c : Frames) : Carries s f inMixin (c.mayHide s covers inMixin x)
    (fun l => x.written s (shown x.escapes (x.carried l))) fun l => c.plug (x.plug l) := by
  induction c generalizing inMixin with
  | nil => exact carries_slot hshown hf
  | cons frame c ih => exact ih.plug hf frame

theorem fills_template (c : Frames) : Fills false (c.mayHide s covers false x)
    (fun l => x.written s (shown x.escapes (x.carried l)))
    fun l => template s f (c.plug (x.plug l)) :=
  .after (moves_push _) fun _ => (carries_frames hshown hf c).visit

end Slots

/-! ## What comes of the runs -/

/-- What was written is a text, or a value that is none is in it. -/
theorem glyphs_cases (gs : List Glyph) : (∃ s, gs = glyphsOf s) ∨ ∃ v, .value v ∈ gs := by
  induction gs with
  | nil => exact .inl ⟨"", rfl⟩
  | cons g gs ih =>
    cases g with
    | value v => exact .inr ⟨v, List.mem_cons_self ..⟩
    | char c =>
      rcases ih with ⟨s, rfl⟩ | ⟨v, hv⟩
      · exact .inl ⟨c.toString ++ s, by simp [glyphsOf]⟩
      · exact .inr ⟨v, List.mem_cons_of_mem _ hv⟩

/-- The result if a text stands between two parts of the output. -/
theorem result_around (before after : List Glyph) :
    (∃ b a, ∀ (e : Emitter) t, e.glyphs = before ++ glyphsOf t ++ after →
        e.result = .ok (b ++ t ++ a)) ∨
      ∀ (e : Emitter) t, e.glyphs = before ++ glyphsOf t ++ after →
        e.result = .error .wrongType := by
  rcases glyphs_cases before with ⟨b, rfl⟩ | ⟨v, hv⟩
  · rcases glyphs_cases after with ⟨a, rfl⟩ | ⟨v, hv⟩
    · refine .inl ⟨b, a, fun e t he => Emitter.result_eq_ok_iff.mpr ?_⟩
      rw [he, glyphsOf_append, glyphsOf_append]
    · refine .inr fun e t he => Emitter.result_eq_error_of_mem (v := v) ?_
      rw [he]
      exact List.mem_append_right _ hv
  · refine .inr fun e t he => Emitter.result_eq_error_of_mem (v := v) ?_
    rw [he]
    exact List.mem_append_left _ (List.mem_append_left _ hv)

/-- **What comes of the runs**: they all fail in the same way, they all leave the text out, or they
all write it between the same texts. -/
theorem Fills.outcome {ι : Type} [Inhabited ι] {hidden : Bool} {text : ι → String}
    {acts : ι → Emit Unit} (h : Fills false hidden text acts) {e : Emitter} (he : e.mixing = 0) :
    (∃ f, ∀ i, ((Emit.written (acts i)).run.run e).1 = .error f) ∨
      (hidden = true ∧ ∃ out, ∀ i, ((Emit.written (acts i)).run.run e).1 = .ok out) ∨
      ∃ before after, ∀ i,
        ((Emit.written (acts i)).run.run e).1 = .ok (before ++ text i ++ after) := by
  simp only [run_written]
  rcases h e fun _ => he with ⟨⟨f | a, e₁⟩, hr, hhidden⟩ | ⟨before, hpair⟩
  · exact .inl ⟨f, fun i => by rw [hr i]⟩
  · rcases Emitter.result_cases e₁ with ⟨out, hout, -⟩ | ⟨herror, -⟩
    · exact .inr (.inl ⟨hhidden rfl, out, fun i => by rw [hr i]; exact hout⟩)
    · exact .inl ⟨.wrongType, fun i => by rw [hr i]; exact herror⟩
  · rcases hrun : (acts default).run.run e with ⟨r, e₁⟩
    obtain ⟨after, hafter, -⟩ := (hpair default default).2.glyphs
    rw [hrun] at hafter
    -- what follows the text is the same in all runs, since the first run fixes it
    have hend : ∀ i, ∃ e', (acts i).run.run e = (r, e') ∧
        e'.glyphs = before ++ glyphsOf (text i) ++ after := by
      intro i
      obtain ⟨hout, hstate⟩ := hpair i default
      obtain ⟨after', hleft, hright⟩ := hstate.glyphs
      rw [hrun] at hout hright
      rw [hafter, List.append_cancel_left_eq] at hright
      subst hright
      exact ⟨((acts i).run.run e).2, Prod.ext hout rfl, hleft⟩
    cases r with
    | error f =>
      refine .inl ⟨f, fun i => ?_⟩
      obtain ⟨e', hi, -⟩ := hend i
      rw [hi]
    | ok a =>
      rcases result_around before after with ⟨b, a, hresult⟩ | hresult
      · refine .inr (.inr ⟨b, a, fun i => ?_⟩)
        obtain ⟨e', hi, hglyphs⟩ := hend i
        rw [hi]
        exact hresult e' (text i) hglyphs
      · refine .inl ⟨.wrongType, fun i => ?_⟩
        obtain ⟨e', hi, hglyphs⟩ := hend i
        rw [hi]
        exact hresult e' (text i) hglyphs

end Emit

end Jade

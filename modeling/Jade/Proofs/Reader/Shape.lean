import Jade.Proofs.Reader.Grammar

/-!
# The shapes of trees

A tree that is read has only nodes of certain shapes: beside a tag there is code or a line of text,
what follows a control line is a block, the alternatives of a conditional are conditionals, and a
filter has a text. No tag waits in it. `Node.fits` says this about one node and what is right inside
of it, and `Derives.fits` about all nodes of a tree that the grammar derives.

## Main results

* `Jade.Node.fold_eq` : what becomes of a tree, from its leaves up
* `Jade.Node.induction` : induction on the nodes right inside of a node
* `Jade.Derives.fits` : the shapes of trees that are read
-/

namespace Jade

/-! ## All nodes -/

namespace Node

section Fold

variable {α : Type} (f : Node → List α → α)

mutual

/-- What becomes of the nodes right inside of a node, if `f` tells what becomes of a node from what
becomes of those right inside of it. -/
def folds : Node → List α
  | block nodes _ _ | codeBlock _ _ nodes _ => foldsAll nodes
  | tag _ c t content _ => foldsOpt c ++ foldsOpt t ++ [f content (folds content)]
  | code _ _ _ content _ | blockComment _ _ content _ | each _ _ content _ | mixin _ _ content _
  | filter _ _ content _ => foldsOpt content
  | conditional _ _ content next _ => foldsOpt content ++ foldsAll next
  | text _ _ | string _ _ | comment _ _ _ | doctype _ _ | assignment _ _ | parent _ | inclusion _
  | literal _ | bare _ | pending => []

/-- What becomes of the nodes of a list. -/
def foldsAll : List Node → List α
  | [] => []
  | n :: ns => f n (folds n) :: foldsAll ns

/-- What becomes of a node that may be there. -/
def foldsOpt : Option Node → List α
  | none => []
  | some n => [f n (folds n)]

end

/-- What becomes of a node. -/
def fold (n : Node) : α := f n (folds f n)

end Fold

/-- A node and all nodes inside of it, in the order of the source. -/
def walk : Node → List Node := fold fun n below => n :: below.flatten

/-- The nodes right inside of a node. -/
def children : Node → List Node
  | block nodes _ _ | codeBlock _ _ nodes _ => nodes
  | tag _ c t content _ => c.toList ++ t.toList ++ [content]
  | code _ _ _ content _ | blockComment _ _ content _ | each _ _ content _ | mixin _ _ content _
  | filter _ _ content _ => content.toList
  | conditional _ _ content next _ => content.toList ++ next
  | text _ _ | string _ _ | comment _ _ _ | doctype _ _ | assignment _ _ | parent _ | inclusion _
  | literal _ | bare _ | pending => []

section Fold

variable {α : Type} {f : Node → List α → α}

theorem foldsAll_eq (ns : List Node) : foldsAll f ns = ns.map (fold f) := by
  induction ns with
  | nil => rfl
  | cons n ns ih => rw [foldsAll, ih, List.map_cons, fold]

theorem foldsOpt_eq (c : Option Node) : foldsOpt f c = c.toList.map (fold f) := by
  cases c with
  | none => rfl
  | some n => rw [foldsOpt, Option.toList_some, List.map_singleton, fold]

/-- **A fold** asks for nothing but the children. -/
theorem fold_eq (n : Node) : fold f n = f n (n.children.map (fold f)) := by
  rw [fold]
  congr 1
  cases n with
  | tag => simp only [folds, children, foldsOpt_eq, List.map_append, List.map_singleton, fold]
  | conditional => simp only [folds, children, foldsOpt_eq, foldsAll_eq, List.map_append]
  | _ => simp only [folds, children, foldsOpt_eq, foldsAll_eq, List.map_nil]

end Fold

/-- **The walk** through a node goes through its children one after the other. -/
theorem walk_eq (n : Node) : n.walk = n :: n.children.flatMap walk := by
  rw [walk, fold_eq, List.flatMap_def]

theorem sizeOf_lt_of_mem_children {n c : Node} (h : c ∈ n.children) : sizeOf c < sizeOf n := by
  have hlist : ∀ {ns : List Node}, c ∈ ns → sizeOf c < sizeOf ns := List.sizeOf_lt_of_mem
  have hopt : ∀ {o : Option Node}, c ∈ o.toList → sizeOf c < sizeOf o := by
    intro o ho
    cases o with
    | none => cases ho
    | some m =>
      rw [Option.toList_some, List.mem_singleton] at ho
      simp [ho]
  cases n with
  | block | codeBlock =>
    rw [children] at h
    have := hlist h
    simp only [block.sizeOf_spec, codeBlock.sizeOf_spec]
    omega
  | tag =>
    rw [children, List.mem_append, List.mem_append, List.mem_singleton] at h
    simp only [tag.sizeOf_spec]
    rcases h with (h | h) | rfl
    · have := hopt h
      omega
    · have := hopt h
      omega
    · omega
  | conditional =>
    rw [children, List.mem_append] at h
    simp only [conditional.sizeOf_spec]
    rcases h with h | h
    · have := hopt h
      omega
    · have := hlist h
      omega
  | code | blockComment | each | mixin | filter =>
    have := hopt h
    simp only [code.sizeOf_spec, blockComment.sizeOf_spec, each.sizeOf_spec, mixin.sizeOf_spec,
      filter.sizeOf_spec]
    omega
  | _ => exact absurd h (by simp [children])

/-- **Induction** on the nodes right inside of a node. -/
@[elab_as_elim]
theorem induction {p : Node → Prop} (h : ∀ n : Node, (∀ c ∈ n.children, p c) → p n) (n : Node) :
    p n :=
  h n fun c _hc => induction h c
termination_by sizeOf n
decreasing_by exact sizeOf_lt_of_mem_children _hc

/-! ## Shapes -/

/-- Whether the node is a mixin, in its definition or in a call. -/
def isMixin : Node → Bool
  | mixin .. => true
  | _ => false

/-- Whether the node is a block without a name. -/
def isSeq : Node → Bool
  | block _ _ _ => true
  | _ => false

/-- Whether the node is code. -/
def isCode : Node → Bool
  | code _ _ _ _ _ => true
  | _ => false

/-- Whether the node is a text with a first line. -/
def hasLine : Node → Bool
  | text (_ :: _) _ | string (_ :: _) _ => true
  | _ => false

/-- Whether the node is a text. -/
def isText : Node → Bool
  | text _ _ => true
  | _ => false

/-- Whether the node is a conditional. -/
def isConditional : Node → Bool
  | conditional _ _ _ _ _ => true
  | _ => false

/-- The shape of a node: what may be right inside of it. -/
def fits : Node → Bool
  | tag head c t content _ =>
    c.all isCode && t.all hasLine && (content.isSeq || head.textOnly && content.isText)
  | code _ _ _ content _ => content.all isSeq
  | each _ _ content _ | blockComment _ _ content _ => content.any isSeq
  | mixin _ _ content call => content.all isSeq && (call || content.isSome)
  | conditional word _ content next _ =>
    Rules.conditionalWords.contains word && content.any isSeq && next.all isConditional
  | filter _ _ content _ => content.any isText
  | block _ _ _ | codeBlock _ _ _ _ | text _ _ | string _ _ | comment _ _ _ | doctype _ _
  | assignment _ _ | parent _ | inclusion _ | literal _ => true
  | bare _ | pending => false

/-- All nodes of a list, and all those inside of them, have their shapes. -/
def AllFit (ns : List Node) : Prop := ∀ n ∈ ns, ∀ m ∈ n.walk, m.fits = true

theorem AllFit.append {ns ms : List Node} (h : AllFit ns) (h' : AllFit ms) : AllFit (ns ++ ms) :=
  List.forall_mem_append.mpr ⟨h, h'⟩

theorem AllFit.singleton {n : Node} (h : n.fits = true) (hc : AllFit n.children) : AllFit [n] := by
  rw [AllFit, List.forall_mem_singleton, walk_eq, List.forall_mem_cons, List.forall_mem_flatMap]
  exact ⟨h, hc⟩

end Node

namespace Part

/-- The nodes of a part of a template. -/
def nodes : Part → List Node
  | form n => [n]
  | forms ns | nested ns | alternatives _ ns => ns
  | content c => c.toList
  | beside rest => rest.code.toList ++ rest.text.toList ++ rest.content
  | lines _ _ _ | raw _ _ => []

/-- The shape of a part of a template. -/
def fits : Part → Bool
  | content c => c.all Node.isSeq
  | alternatives _ ns => ns.all Node.isConditional
  | beside rest => rest.code.all Node.isCode && rest.text.all Node.hasLine
  | form _ | forms _ | nested _ | lines _ _ _ | raw _ _ => true

end Part

variable {es ks : List Event}

theorem Derives.part_fits {p : Part} (h : Derives es p ks) : p.fits = true := by
  induction h with
  | alternative _ _ _ ih => simpa [Part.fits, Node.isConditional] using ih
  | _ => rfl

theorem Derives.tag_fits {rest : Reader.OnLine} {head : Tag} {content : Node} {line : Option Nat}
    (h : Derives es (.beside rest) ks) (hrest : Node.AllFit (Part.beside rest).nodes)
    (hcontent : Node.AllFit [content])
    (hkind : (content.isSeq || head.textOnly && content.isText) = true) :
    Node.AllFit [.tag head rest.code rest.text content line] := by
  have hbeside := h.part_fits
  rw [Part.fits, Bool.and_eq_true] at hbeside
  have hline : Node.AllFit (rest.code.toList ++ rest.text.toList) :=
    fun n hn => hrest n (List.mem_append_left _ hn)
  refine .singleton ?_ (hline.append hcontent)
  rw [Node.fits, hbeside.1, hbeside.2, hkind]
  rfl

/-- **The shapes of trees that are read.** -/
theorem Derives.fits {p : Part} (h : Derives es p ks) : Node.AllFit p.nodes := by
  have hnone : Node.AllFit [] := nofun
  induction h with
  | nil | noContent | noLines | noAlternatives | nothing => exact hnone
  | newline _ ih | nested _ ih | lineEnd _ ih | line _ _ ih | deeper _ _ ih | raw _ ih
  | implied _ ih | besideText _ ih | besideString _ ih | besideCode _ ih | besideColon _ ih =>
    exact ih
  | snoc _ _ ih ih' | alternative _ _ _ ih ih' => exact ih.append ih'
  | content _ ih | namedBlock _ ih => exact .singleton rfl ih
  | yield | text | string | assignment | doctype | parent | inclusion | comment =>
    exact .singleton rfl hnone
  | emptyBlock => exact .singleton rfl (.singleton rfl hnone)
  | code h ih | blockComment h ih | each h ih => exact .singleton h.part_fits ih
  | call h ih =>
    have hblock := h.part_fits
    rw [Part.fits] at hblock
    exact .singleton (by simp [Node.fits, hblock]) ih
  | @mixin _ _ _ _ c h ih =>
    have hblock := h.part_fits
    rw [Part.fits] at hblock
    exact .singleton (by cases c <;> simp_all [Node.fits]) ih
  | conditional hw h hnext ih ih' =>
    have hblock := h.part_fits
    have hchain := hnext.part_fits
    rw [Part.fits] at hblock
    rw [Part.fits] at hchain
    exact .singleton (by simp_all [Node.fits]) (ih.append ih')
  | filter => exact .singleton rfl (.singleton rfl hnone)
  | @tag _ _ _ _ _ _ rest _ _ _ hb ih =>
    have hcontent : Node.AllFit rest.content := fun n hn => ih n (List.mem_append_right _ hn)
    exact hb.tag_fits ih (.singleton rfl hcontent) rfl
  | @tagNested _ _ _ _ _ _ _ _ rest _ _ _ _ _ hb _ ih ih' =>
    have hcontent : Node.AllFit rest.content := fun n hn => ih n (List.mem_append_right _ hn)
    exact hb.tag_fits ih (.singleton rfl (hcontent.append ih')) rfl
  | tagRaw _ _ htext hb _ ih =>
    exact hb.tag_fits ih (.singleton rfl hnone) (by rw [htext]; rfl)

end Jade

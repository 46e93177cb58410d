import Jade.Proofs.Reader.Outcome
import Jade.Proofs.Reader.Shape
import Mathlib.Data.List.Forall2

/-!
# The content of a template

The payload of a template is what its author has put into it: names of tags, attributes, lines of
text, code, comments, the heads of control lines. It can be read off the tokens and off the tree,
and reading should carry all of it over in the order of the source. Lines of a text block may get
blanks in front, and a filter does not know which of its attributes are fixed (`Payload.Echo`).

What is in the tree does come from the tokens, once and in order. But not all of what is in the
tokens comes into the tree (`Event.Loses`). A token that is no text is taken as the mark of a tag if
its main text is a dot or a `<`. And where the content of a tag is plain text, a text block under it
takes the place of the form after a colon.

## Main results

* `Jade.Derives.echoes` : the content of a tree is that of the tokens which are kept
* `Jade.Derives.complete` : all tokens are kept, unless content is lost
* `Jade.parse_content` : the content of a template that is read
-/

namespace Jade

/-! ## Pieces of content -/

/-- A piece of the content of a template. -/
inductive Payload where
  /-- The name of a tag. -/
  | tag (name : String)
  /-- An attribute of a tag, which may be fixed, or one of a filter. -/
  | attribute (name : String) (val : Value) (fixed : Option Bool)
  /-- A line of text. -/
  | text (line : String)
  /-- A line of text after a bar. -/
  | string (line : String)
  /-- Code, and how it is written. -/
  | code (source : String) (buffer escape : Bool)
  /-- A comment, which may be kept. -/
  | comment (content : String) (buffer : Bool)
  /-- A document type. -/
  | doctype (name : Option String)
  /-- The name of a filter. -/
  | filter (name : String)
  /-- An assignment. -/
  | assignment (name value : String)
  /-- The head of a conditional. -/
  | conditional (word sentence : String)
  /-- The head of a loop. -/
  | each (keys : List String) (subject : String)
  /-- The name of a mixin, with arguments. -/
  | mixin (name args : String)
  /-- The name of a block and how it joins others. -/
  | block (way name : String)
  /-- A template to include. -/
  | inclusion (path : String)
  /-- A template to extend. -/
  | parent (path : String)
  /-- The place for the content of an including template. -/
  | yield
  /-- Markup that no token stands for. -/
  | markup (content : String)

namespace Payload

/-- The first piece is the second one as the tree has it: a line may have blanks in front, and a
filter does not know which attributes are fixed. -/
inductive Echo : Payload → Payload → Prop
  | same (p : Payload) : Echo p p
  | padded {pad line : String} (h : ∀ c ∈ pad.toList, c = ' ') :
    Echo (.text (pad ++ line)) (.text line)
  | ofFilter {name : String} {val : Value} {fixed : Bool} :
    Echo (.attribute name val none) (.attribute name val (some fixed))

theorem echo_same (ps : List Payload) : List.Forall₂ Echo ps ps :=
  List.forall₂_same.mpr fun p _ => .same p

/-- The lines of a text that is given with its line ends. -/
def ofLines (parts : List String) : List Payload := (parts.filter (· != "\n")).map .text

end Payload

open Payload (Echo echo_same)

theorem Payload.echoes_append {ps qs ps' qs' : List Payload} (h : List.Forall₂ Echo ps qs)
    (h' : List.Forall₂ Echo ps' qs') : List.Forall₂ Echo (ps ++ ps') (qs ++ qs') :=
  List.rel_append h h'

/-- The value of an attribute in a tree. -/
def AttrText.value : AttrText → Value
  | .flag => .bool true
  | .expr s => .text s

/-- The content of a token. -/
def Token.Body.payloads : Token.Body → List Payload
  | .eos | .newline | .indent _ | .outdent | .colon => []
  | .yield => [.yield]
  | .tag name => [.tag name]
  | .id name => [.attribute "id" (.text ("\"" ++ name ++ "\"")) (some true)]
  | .className name => [.attribute "class" (.text ("\"" ++ name ++ "\"")) (some true)]
  | .attrs table fixed =>
    table.toList.map fun p => .attribute p.1 p.2.value (some (fixed.contains p.1))
  | .text line => [.text line]
  | .string line => [.string line]
  | .filter name => [.filter name]
  | .doctype name => [.doctype name]
  | .parent path => [.parent (stripQuotes path)]
  | .inclusion path => [.inclusion (strip path)]
  | .block way name => [.block way (strip name)]
  | .mixin name args | .call name args => [.mixin name (args.getD "")]
  | .conditional word sentence => [.conditional word sentence]
  | .each keys subject => [.each keys subject]
  | .assignment name value => [.assignment name value]
  | .code source buffer escape => [.code source buffer escape]
  | .comment content buffer => [.comment content buffer]
  | .custom _ val => [.markup (val.getD "")]

/-- The content of an event. A text that is the mark of a tag is none, but any other token has its
content, even if it is taken for a mark. -/
def Event.own : Event → List Payload
  | .token b => b.payloads
  | .mark (.text _) => []
  | .mark b => b.payloads
  | .mode _ | .putOff => []

/-- The content of events. -/
def Event.payloads (es : List Event) : List Payload := es.flatMap own

theorem Event.payloads_cons (e : Event) (es : List Event) :
    payloads (e :: es) = e.own ++ payloads es := List.flatMap_cons

theorem Event.payloads_append (es fs : List Event) :
    payloads (es ++ fs) = payloads es ++ payloads fs := List.flatMap_append

namespace Node

/-- The content of a node, without that of the nodes inside of it. -/
def own : Node → List Payload
  | block _ _ yields => if yields then [.yield] else []
  | codeBlock name mode _ _ => [.block mode name]
  | tag head _ _ _ _ =>
    .tag head.name :: head.entries.map fun a => .attribute a.name a.val (some a.fixed)
  | text parts _ => Payload.ofLines parts
  | string parts _ => parts.map .string
  | code source buffer escape _ _ => [.code source buffer escape]
  | comment content buffer _ | blockComment content buffer _ _ => [.comment content buffer]
  | doctype name _ => [.doctype name]
  | each subject keys _ _ => [.each keys subject]
  | assignment name value => [.assignment name value]
  | mixin name args _ _ => [.mixin name args]
  | parent path => [.parent path]
  | inclusion path => [.inclusion path]
  | conditional word sentence _ _ _ => [.conditional word sentence]
  | filter name attrs _ _ =>
    .filter name :: attrs.toList.flatMap fun a => a.pairs.map fun p => .attribute p.1 p.2 none
  | literal content => if content.isEmpty then [] else [.markup content]
  | bare content => [.markup content]
  | pending => [.markup ""]

/-- The content of a tree. -/
def payloads (n : Node) : List Payload := n.walk.flatMap own

theorem payloads_eq (n : Node) : n.payloads = n.own ++ n.children.flatMap payloads := by
  rw [payloads, walk_eq, List.flatMap_cons, List.flatMap_assoc]
  rfl

end Node

namespace Tag

theorem entries_read (tag : Tag) {b : Token.Body} (hb : b.isHead = true) :
    (tag.read b).entries.map (fun a => Payload.attribute a.name a.val (some a.fixed)) =
      tag.entries.map (fun a => .attribute a.name a.val (some a.fixed)) ++ b.payloads := by
  cases b with
  | id | className => simp [read, setAttribute, Token.Body.payloads]
  | attrs table fixed =>
    rw [read, Reader.addAttrs, Token.Body.payloads]
    generalize table.toList = pairs
    induction pairs generalizing tag with
    | nil => simp
    | cons p pairs ih =>
      rw [List.foldl_cons, ih, List.map_cons]
      cases hp : p.2 <;> simp [setAttribute, AttrText.value, hp]
  | _ => exact absurd hb (by simp [Token.Body.isHead])

theorem entries_foldl_read (hs : List Token.Body) (hhead : ∀ b ∈ hs, b.isHead = true) (tag : Tag) :
    (hs.foldl read tag).entries.map (fun a => Payload.attribute a.name a.val (some a.fixed)) =
      tag.entries.map (fun a => .attribute a.name a.val (some a.fixed)) ++
        hs.flatMap Token.Body.payloads := by
  induction hs generalizing tag with
  | nil => simp
  | cons b hs ih =>
    have hb := hhead b (List.mem_cons_self ..)
    have hhs : ∀ c ∈ hs, c.isHead = true := fun c hc => hhead c (List.mem_cons_of_mem b hc)
    rw [List.foldl_cons, ih hhs, entries_read tag hb, List.flatMap_cons, List.append_assoc]

end Tag

open Event (token mode putOff opening)

/-- The content of a part of a template. -/
def Part.payloads : Part → List Payload
  | .form n => n.payloads
  | .forms ns | .nested ns | .alternatives _ ns => ns.flatMap Node.payloads
  | .content c => c.toList.flatMap Node.payloads
  | .beside rest =>
    (rest.code.toList ++ rest.text.toList ++ rest.content).flatMap Node.payloads
  | .lines _ _ parts | .raw _ parts => Payload.ofLines parts

/-- The lines of the part are indented with blanks. -/
def Part.IsPadded : Part → Prop
  | .lines _ pad _ => ∀ c ∈ pad.toList, c = ' '
  | _ => True

theorem Event.sublist_opening {name : String} {hs : List Token.Body} {mark : Option Token.Body}
    {k : Nat} {bs ks : List Event} (h : ks.Sublist bs) :
    (token (.tag name) :: (hs.map token ++ ks)).Sublist (opening name hs mark bs k) := by
  refine List.Sublist.cons_cons _ (List.Sublist.append (.refl _) ?_)
  exact (h.trans (List.sublist_append_left ..)).trans (List.sublist_append_right ..)

namespace Payload

theorem ofLines_append (ps qs : List String) : ofLines (ps ++ qs) = ofLines ps ++ ofLines qs := by
  rw [ofLines, List.filter_append, List.map_append]
  rfl

theorem ofLines_lineEnd : ofLines ["\n"] = [] := rfl

theorem ofLines_singleton {pad line : String} (hpad : ∀ c ∈ pad.toList, c = ' ')
    (hline : '\n' ∉ line.toList) : ofLines [pad ++ line] = [.text (pad ++ line)] := by
  have hne : pad ++ line ≠ "\n" := by
    intro h
    have hmem : '\n' ∈ (pad ++ line).toList := by rw [h]; decide
    rcases List.mem_append.mp (String.toList_append ▸ hmem) with hp | hl
    · exact absurd (hpad _ hp) (by decide)
    · exact hline hl
  rw [ofLines, List.filter_cons_of_pos (by simpa using hne)]
  rfl

end Payload

theorem eq_of_mem_repeatText {n : Nat} {c : Char} (hc : c ∈ (repeatText n " ").toList) :
    c = ' ' := by
  rw [repeatText, String.toList_join] at hc
  obtain ⟨cs, hcs, hmem⟩ := List.mem_flatMap.mp hc
  rw [List.eq_of_mem_replicate hcs] at hmem
  exact List.mem_singleton.mp hmem

theorem echoes_filterAttrs (attrs : Option (Table String AttrText × List String)) :
    List.Forall₂ Echo
      ((attrs.map fun a => Reader.filterAttrs a.1).toList.flatMap fun a =>
        a.pairs.map fun p => .attribute p.1 p.2 none)
      (Event.payloads (attrs.toList.map fun a => token (.attrs a.1 a.2))) := by
  cases attrs with
  | none => exact .nil
  | some a =>
    show List.Forall₂ Echo ((Reader.filterAttrs a.1).pairs.map _ ++ []) (a.1.toList.map _ ++ [])
    rw [List.append_nil, List.append_nil, Reader.filterAttrs, List.map_map,
      List.forall₂_map_left_iff, List.forall₂_map_right_iff]
    refine List.forall₂_same.mpr fun p _ => ?_
    obtain ⟨name, val⟩ := p
    cases val with
    | flag => exact .ofFilter
    | expr => exact .ofFilter

theorem Node.payloads_tag {name : String} {hs : List Token.Body} {mark : Option Token.Body}
    (hhead : ∀ b ∈ hs, b.isHead = true) (c t : Option Node) (content : Node) (line : Option Nat) :
    (Node.tag (.finish name hs mark) c t content line).payloads =
      Event.payloads (token (.tag name) :: hs.map token) ++
        ((c.toList ++ t.toList).flatMap payloads ++ content.payloads) := by
  have hentries := Tag.entries_foldl_read hs hhead { name }
  have hevents : Event.payloads (hs.map token) = hs.flatMap Token.Body.payloads := by
    rw [Event.payloads, List.flatMap_map]
    rfl
  have hchildren : (c.toList ++ t.toList ++ [content]).flatMap payloads =
      (c.toList ++ t.toList).flatMap payloads ++ content.payloads := by
    rw [List.flatMap_append, List.flatMap_singleton]
  rw [payloads_eq, Event.payloads_cons, hevents, children, hchildren]
  show Payload.tag (Tag.ofHead name hs).name :: (hs.foldl Tag.read { name }).entries.map _ ++ _ = _
  rw [Tag.name_ofHead, hentries]
  rfl

theorem Node.payloads_seq (ns : List Node) : (seq ns).payloads = ns.flatMap payloads := by
  rw [payloads_eq]
  rfl

theorem Node.payloads_text (parts : List String) (line : Option Nat) :
    (text parts line).payloads = Payload.ofLines parts := by
  rw [payloads_eq]
  exact List.append_nil _

theorem Derives.eq_none_of_content {es ks : List Event} {rest : Reader.OnLine}
    (h : Derives es (.beside rest) ks) (hc : rest.content.isEmpty = false) :
    rest.code = none ∧ rest.text = none := by
  cases h with
  | besideColon => exact ⟨rfl, rfl⟩
  | nothing | besideText | besideString | besideCode => cases hc

/-- **The content of a tree** is that of the tokens which are kept. -/
theorem Derives.echoes {es ks : List Event} {p : Part} (h : Derives es p ks) (hp : p.IsPadded) :
    List.Forall₂ Echo p.payloads (Event.payloads ks) := by
  induction h with
  | nil | noContent | noLines | noAlternatives | nothing => exact .nil
  | newline _ ih | nested _ ih | besideText _ ih | besideString _ ih | besideCode _ ih
  | besideColon _ ih => simpa [Part.payloads] using ih trivial
  | implied _ ih => exact ih trivial
  | lineEnd _ ih =>
    rw [Part.payloads, Payload.ofLines_append, Payload.ofLines_lineEnd, List.append_nil]
    exact ih hp
  | line _ hs ih =>
    rw [Part.payloads, Payload.ofLines_append, Payload.ofLines_singleton hp hs,
      Event.payloads_append]
    exact Payload.echoes_append (ih hp) (.cons (.padded hp) .nil)
  | deeper _ _ ih ih' =>
    simp only [Part.payloads, Payload.ofLines_append, Payload.ofLines_lineEnd, List.append_nil,
      Event.payloads_append]
    exact Payload.echoes_append (ih hp) (ih' trivial)
  | raw _ ih => exact ih fun c hc => eq_of_mem_repeatText hc
  | snoc _ _ ih ih' | alternative _ _ _ ih ih' =>
    rw [Part.payloads, List.flatMap_append, List.flatMap_singleton, Event.payloads_append]
    exact Payload.echoes_append (ih trivial) (ih' trivial)
  | content _ ih =>
    rw [Part.payloads, Option.toList_some, List.flatMap_singleton, Node.payloads_eq]
    exact ih trivial
  | @text line _ hs =>
    have hline : Payload.ofLines ["" ++ line] = [.text ("" ++ line)] :=
      Payload.ofLines_singleton (by simp) hs
    rw [String.empty_append] at hline
    rw [Part.payloads, Node.payloads_text, hline]
    exact echo_same _
  | yield | string | assignment | doctype | parent | inclusion | comment | emptyBlock =>
    rw [Part.payloads, Node.payloads_eq]
    exact echo_same _
  | code _ ih | blockComment _ ih | each _ ih | call _ ih | mixin _ ih | namedBlock _ ih =>
    rw [Part.payloads, Node.payloads_eq, Event.payloads_cons]
    exact .cons (.same _) (ih trivial)
  | conditional _ _ _ ih ih' =>
    rw [Part.payloads, Node.payloads_eq, Event.payloads_cons, Event.payloads_append, Node.children,
      List.flatMap_append]
    exact Payload.echoes_append (echo_same _) (Payload.echoes_append (ih trivial) (ih' trivial))
  | filter _ ih =>
    rw [Part.payloads, Node.payloads_eq, Event.payloads_cons, Event.payloads_append, Node.children,
      Option.toList_some, List.flatMap_singleton, Node.payloads_text, ← List.append_assoc]
    exact Payload.echoes_append (.cons (.same _) (echoes_filterAttrs _)) (ih trivial)
  | tag hhead _ _ ih =>
    rw [Part.payloads, Node.payloads_tag hhead, Node.payloads_seq, ← List.flatMap_append,
      ← List.cons_append, Event.payloads_append]
    exact Payload.echoes_append (echo_same _) (ih trivial)
  | @tagNested _ _ _ _ _ _ _ _ rest ns _ hhead _ _ _ _ ih ih' =>
    have hcontent : (rest.code.toList ++ rest.text.toList).flatMap Node.payloads ++
        (rest.content ++ ns).flatMap Node.payloads =
          (Part.beside rest).payloads ++ (Part.nested ns).payloads := by
      simp only [Part.payloads, List.flatMap_append, List.append_assoc]
    rw [Part.payloads, Node.payloads_tag hhead, Node.payloads_seq, hcontent, ← List.cons_append,
      Event.payloads_append, Event.payloads_append]
    exact Payload.echoes_append (echo_same _) (Payload.echoes_append (ih trivial) (ih' trivial))
  | @tagRaw _ _ ks _ _ _ _ _ _ rest _ _ _ hhead _ _ hb _ ih ih' =>
    have hbeside : List.Forall₂ Echo ((rest.code.toList ++ rest.text.toList).flatMap Node.payloads)
        (Event.payloads (if rest.content.isEmpty then ks else [])) := by
      split
      · next hempty =>
        have hall := ih trivial
        rwa [Part.payloads, List.isEmpty_iff.mp hempty, List.append_nil] at hall
      · next hne =>
        obtain ⟨hcode, htext⟩ := hb.eq_none_of_content (Bool.eq_false_iff.mpr hne)
        rw [hcode, htext]
        exact .nil
    rw [Part.payloads, Node.payloads_tag hhead, Node.payloads_text, ← List.cons_append,
      Event.payloads_append, Event.payloads_append]
    exact Payload.echoes_append (echo_same _) (Payload.echoes_append hbeside (ih' trivial))

/-! ## What is lost -/

/-- Content is lost among events: a token that is no text is taken as the mark of a tag, or there is
a tag whose content is plain text, with a colon and a form on its line and a text block under it. -/
def Event.Loses (es : List Event) : Prop :=
  (∃ b, .mark b ∈ es ∧ Event.own (.mark b) ≠ []) ∨
    ∃ name hs mark bs n ls k, (Tag.finish name hs mark).textOnly = true ∧
      Derives bs (.form n) ls ∧
      (opening name hs mark (token .colon :: bs) k ++ [mode true]) <:+: es

theorem Event.Loses.of_infix {es fs : List Event} (h : Loses es) (hes : es <:+: fs) : Loses fs := by
  rcases h with ⟨b, hb, hown⟩ | ⟨name, hs, mark, bs, n, ls, k, htext, hform, hin⟩
  · exact .inl ⟨b, hes.subset hb, hown⟩
  · exact .inr ⟨name, hs, mark, bs, n, ls, k, htext, hform, hin.trans hes⟩

/-- The events `ks` are some of `es`, once and in order, and have all their content, unless content
is lost. -/
def Event.Keeps (ks es : List Event) : Prop :=
  ks.Sublist es ∧ (payloads ks = payloads es ∨ Loses es)

namespace Event.Keeps

variable {es fs ks ls : List Event}

theorem refl (es : List Event) : Keeps es es := ⟨.refl es, .inl rfl⟩

theorem silent (h : payloads es = []) : Keeps [] es := ⟨List.nil_sublist es, .inl h.symm⟩

theorem append (h : Keeps ks es) (h' : Keeps ls fs) : Keeps (ks ++ ls) (es ++ fs) := by
  refine ⟨h.1.append h'.1, ?_⟩
  rcases h.2 with h | h
  · rcases h'.2 with h' | h'
    · left
      rw [payloads_append, payloads_append, h, h']
    · exact .inr (h'.of_infix (List.suffix_append es fs).isInfix)
  · exact .inr (h.of_infix (List.prefix_append es fs).isInfix)

theorem cons (h : Keeps ks es) (e : Event) : Keeps (e :: ks) (e :: es) := (refl [e]).append h

theorem silent_cons {e : Event} (h : Keeps ks es) (he : e.own = []) : Keeps ks (e :: es) := by
  have hnone : payloads [e] = [] := by rw [payloads, List.flatMap_singleton, he]
  exact (silent hnone).append h

theorem append_silent (h : Keeps ks es) (hfs : payloads fs = []) : Keeps ks (es ++ fs) :=
  List.append_nil ks ▸ h.append (silent hfs)

theorem switched (h : Keeps ks es) : Keeps ks (mode true :: (es ++ [mode false])) :=
  (h.append_silent rfl).silent_cons rfl

theorem opening {name : String} {hs : List Token.Body} {mark : Option Token.Body} {k : Nat}
    (h : Keeps ks es) :
    Keeps (token (.tag name) :: (hs.map token ++ ks)) (Event.opening name hs mark es k) := by
  have hend : payloads (List.replicate k (token .newline)) = [] := by
    rw [payloads, List.flatMap_eq_nil_iff]
    intro e he
    rw [List.eq_of_mem_replicate he]
    rfl
  -- a mark that is a text has no content, any other token is lost as one
  by_cases hmark : payloads (mark.toList.map Event.mark) = []
  · exact (refl (token (.tag name) :: hs.map token)).append
      ((silent hmark).append (h.append_silent hend))
  · refine ⟨sublist_opening h.1, .inr ?_⟩
    cases mark with
    | none => exact absurd rfl hmark
    | some b =>
      refine .inl ⟨b, by simp [Event.opening], fun hown => hmark ?_⟩
      rw [Option.toList_some, List.map_singleton, payloads, List.flatMap_singleton, hown]

end Event.Keeps

/-- **What is kept** is kept once and in order, and that is all content, unless some of it is
lost. -/
theorem Derives.complete {es ks : List Event} {p : Part} (h : Derives es p ks) :
    Event.Keeps ks es := by
  induction h with
  | nil | noContent | noLines | noAlternatives | nothing => exact .refl []
  | newline _ ih | lineEnd _ ih => exact ih.append_silent rfl
  | implied _ ih | besideColon _ ih => exact ih.silent_cons rfl
  | nested _ ih | raw _ ih => exact (ih.append_silent rfl).silent_cons rfl
  | line _ _ ih => exact ih.append (.refl _)
  | snoc _ _ ih ih' | deeper _ _ ih ih' | alternative _ _ _ ih ih' => exact ih.append ih'
  | content _ ih | besideText _ ih | besideString _ ih | besideCode _ ih => exact ih
  | yield | text | string | assignment | doctype | parent | inclusion | comment | emptyBlock =>
    exact .refl _
  | code _ ih | blockComment _ ih | each _ ih | call _ ih | mixin _ ih | namedBlock _ ih =>
    exact ih.cons _
  | conditional _ _ _ ih ih' => exact (ih.append ih').cons _
  | filter _ ih =>
    exact (Event.Keeps.append (.refl _) ih.switched).cons _
  | tag _ _ _ ih => exact ih.opening
  | tagNested _ _ _ _ _ ih ih' =>
    rw [← List.append_assoc, ← List.cons_append]
    exact ih.opening.append ih'
  | @tagRaw bs cs ks ls name hs mark k w rest _ _ _ _ _ htext hb _ ih ih' =>
    rw [← List.append_assoc, ← List.cons_append]
    cases hempty : rest.content.isEmpty with
    | true => exact ih.opening.append ih'.switched
    | false =>
      -- the form after the colon is not kept, so that content is lost
      refine ⟨(Event.sublist_opening (List.nil_sublist bs)).append ih'.switched.1, .inr ?_⟩
      cases hb with
      | nothing | besideText | besideString | besideCode => cases hempty
      | besideColon hform =>
        exact .inr ⟨name, hs, mark, _, _, _, k, htext, hform,
          ⟨[], token (.indent w) :: (cs ++ [mode false]), by simp⟩⟩

/-! ## Whole templates -/

theorem Reader.Whole.content {s₀ : Source} {node : Node} {r : Reader} (h : Whole s₀ node r) :
    ∃ nodes line es ks, node = .block nodes line false ∧ s₀.History es r.source ∧
      r.source.stash.head?.map Token.kind = some "eos" ∧ Derives es (.forms nodes) ks ∧
      ks.Sublist es ∧ List.Forall₂ Echo node.payloads (Event.payloads ks) ∧
      (List.Forall₂ Echo node.payloads (Event.payloads es) ∨ Event.Loses es) := by
  obtain ⟨nodes, line, es, ks, rfl, hready, hd, ⟨t, ht, hkind⟩, -⟩ := h
  have hend : r.source.stash.head?.map Token.kind = some "eos" := by
    rw [List.head?_eq_getElem?, ht, Option.map_some, hkind]
  have hechoes : List.Forall₂ Echo (Node.block nodes line false).payloads (Event.payloads ks) := by
    rw [Node.payloads_eq]
    exact hd.echoes trivial
  refine ⟨nodes, line, es, ks, rfl, hready.history, hend, hd, hd.complete.1, hechoes, ?_⟩
  rcases hd.complete.2 with hall | hloses
  · exact .inl (hall ▸ hechoes)
  · exact .inr hloses

/-- **The content of a template that is read.** The events that lead to where reading has ended,
with the end of the source next, stand for the tree. Its content is that of some of them, once and
in order; and it is that of all, unless a token that is no text was taken as the mark of a tag, or a
text block took the place of a form after a colon. -/
theorem parse_content (src : String) (colons : Bool) (file : Option String) (node : Node)
    (h : parse (.ofText src colons) file = .ok node) :
    let s := Source.ofText src colons
    let s' := (Reader.template.run.run (.ofSource s file)).2.source
    ∃ nodes line es ks, node = .block nodes line false ∧ s.History es s' ∧
      s'.stash.head?.map Token.kind = some "eos" ∧ Derives es (.forms nodes) ks ∧ ks.Sublist es ∧
      List.Forall₂ Echo node.payloads (Event.payloads ks) ∧
      (List.Forall₂ Echo node.payloads (Event.payloads es) ∨ Event.Loses es) :=
  (Reader.whole_of_parse h).content

/-- A tag with a shorthand, text and a block, a filter and a script. -/
theorem parse_content_page :
    let src := "#a.b(c='d') e\n  :cdata\n    f\n      g\n  script.\n    h"
    ∃ node, parse (.ofText src) none = .ok node ∧
      let s := Source.ofText src
      let s' := (Reader.template.run.run (.ofSource s none)).2.source
      ∃ nodes line es ks, node = .block nodes line false ∧ s.History es s' ∧
        s'.stash.head?.map Token.kind = some "eos" ∧ Derives es (.forms nodes) ks ∧
        ks.Sublist es ∧ List.Forall₂ Echo node.payloads (Event.payloads ks) ∧
        (List.Forall₂ Echo node.payloads (Event.payloads es) ∨ Event.Loses es) := by
  intro src
  have hok : (parse (.ofText src) none).toOption.map Node.isBlock = some true := by decide +kernel
  obtain ⟨node, hparse, -⟩ := Reader.exists_ok_of_map hok
  exact ⟨node, hparse, parse_content src false none node hparse⟩

/-- A line after a bar is lost where a script has a block as well: of three pieces of content, two
are in the tree. -/
theorem parse_content_lost :
    let s := Source.ofText "script: | a\n  b"
    ∃ node es, parse s none = .ok node ∧
      s.History es (Reader.template.run.run (.ofSource s none)).2.source ∧
      Event.payloads es = [.tag "script", .string "a", .text "b"] ∧ node.payloads.length = 2 ∧
      ¬ List.Forall₂ Echo node.payloads (Event.payloads es) := by
  intro s
  let es := opening "script" [] none [token .colon, token (.string "a")] 0 ++
    [mode true, token (.indent 2), token (.text "b"), token .outdent, mode false]
  have hes : ((s.afterAll? es).map fun s₁ =>
      ((s₁.lookahead 1).1.toOption.isSome, (s₁.lookahead 1).2)) =
        some (true, (Reader.template.run.run (.ofSource s none)).2.source) := by decide +kernel
  have hnode : (parse s none).toOption.map (fun node => node.payloads.length) = some 2 := by
    decide +kernel
  generalize (Reader.template.run.run (.ofSource s none)).2.source = s' at hes ⊢
  obtain ⟨s₁, hs₁, hlook⟩ := Option.map_eq_some_iff.mp hes
  obtain ⟨hok, rfl⟩ := Prod.mk.inj hlook
  have hhistory : s.History es (s₁.lookahead 1).2 := by
    rcases hl : s₁.lookahead 1 with ⟨f | t, s₂⟩
    · rw [hl] at hok
      exact absurd hok Bool.false_ne_true
    · exact (Source.History.start.of_afterAll? hs₁).look hl
  obtain ⟨node, hparse, hlength⟩ := Reader.exists_ok_of_map hnode
  refine ⟨node, es, hparse, hhistory, rfl, hlength, fun h => ?_⟩
  exact absurd (hlength.symm.trans h.length_eq) (by decide)

end Jade

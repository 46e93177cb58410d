import Jade.Node.Attributes
import Jade.Token.Rules

/-!
# Outlines

The plainest templates: tags inside tags, one on a line, with ids, classes and a text on the line of
the tag. An outline is given as a forest whose parts carry what makes them plain, so that every
forest has a written form, the nodes that it stands for, and the tokens that it is made of.
-/

namespace Jade

/-! ## Nodes without lines -/

namespace Node

mutual

/-- The node without the numbers of its lines, also inside it. -/
def withoutLines : Node → Node
  | block nodes _ yields => block (withoutLinesAll nodes) none yields
  | codeBlock name mode nodes _ => codeBlock name mode (withoutLinesAll nodes) none
  | tag head code? text? content _ =>
    tag head (withoutLinesOpt code?) (withoutLinesOpt text?) content.withoutLines none
  | text parts _ => text parts none
  | string parts _ => string parts none
  | code source buffer escape content _ => code source buffer escape (withoutLinesOpt content) none
  | comment content buffer _ => comment content buffer none
  | blockComment head buffer content _ => blockComment head buffer (withoutLinesOpt content) none
  | doctype name _ => doctype name none
  | each subject keys content _ => each subject keys (withoutLinesOpt content) none
  | assignment name value => assignment name value
  | mixin name args content call => mixin name args (withoutLinesOpt content) call
  | parent path => parent path
  | inclusion path => inclusion path
  | conditional word sentence content next _ =>
    conditional word sentence (withoutLinesOpt content) (withoutLinesAll next) none
  | filter name attrs content _ => filter name attrs (withoutLinesOpt content) none
  | literal content => literal content
  | bare content => bare content
  | pending => pending

/-- The nodes without the numbers of their lines. -/
def withoutLinesAll : List Node → List Node
  | [] => []
  | n :: ns => n.withoutLines :: withoutLinesAll ns

/-- The node, if there is one, without the numbers of its lines. -/
def withoutLinesOpt : Option Node → Option Node
  | none => none
  | some n => some n.withoutLines

end

theorem withoutLinesAll_eq_map (ns : List Node) : withoutLinesAll ns = ns.map withoutLines := by
  induction ns with
  | nil => rfl
  | cons n ns ih => rw [withoutLinesAll, ih, List.map_cons]

end Node

namespace Outline

/-! ## What stands on a line -/

/-- Letters, digits, the underscore and the hyphen. -/
def isPlain (c : Char) : Bool := c.isAlphanum || c == '_' || c == '-'

/-- The words that open a control line, or the beginnings of such words. -/
def keywords : List String :=
  ["yield", "doctype", "extend", "append", "prepend", "block", "include", "mixin", "if", "unless",
   "else", "elif", "each", "for"]

/-- The name of a tag that is read as such and whose content is markup. -/
structure TagName where
  /-- The name. -/
  text : String
  /-- It is made of plain characters. -/
  plain : text.toList.all isPlain = true
  /-- It starts with a letter. -/
  letter : text.toList.head?.any Char.isAlpha = true
  /-- It does not start like a control line. -/
  not_keyword : ∀ word ∈ keywords, ¬ word.toList <+: text.toList
  /-- The content of a script is plain text. -/
  ne_script : text ≠ "script"
  /-- The content of a style sheet is plain text. -/
  ne_style : text ≠ "style"

/-- An `#id` or a `.class`. -/
structure Shorthand where
  isId : Bool
  value : String
  plain : value.toList.all isPlain = true
  nonempty : value.toList ≠ []

/-- A text on the line of a tag. -/
structure InlineText where
  text : String
  oneLine : '\n' ∉ text.toList ∧ '\r' ∉ text.toList
  not_comment : ¬ ['/', '/'] <+: text.toList.dropWhile Rules.isSpace
  not_assigned : ¬ ['='] <+: text.toList.dropWhile Rules.isSpace

/-- What stands on a line: a tag, its shorthands and a text. -/
structure Headline where
  name : TagName
  shorthands : List Shorthand
  text : Option InlineText

theorem TagName.isPlain_of_mem (n : TagName) {c : Char} (hc : c ∈ n.text.toList) :
    isPlain c = true := List.all_eq_true.mp n.plain c hc

namespace Shorthand

theorem isPlain_of_mem (s : Shorthand) {c : Char} (hc : c ∈ s.value.toList) : isPlain c = true :=
  List.all_eq_true.mp s.plain c hc

/-- The written form. -/
def chars (s : Shorthand) : List Char := (if s.isId then '#' else '.') :: s.value.toList

/-- The attribute of the tag. -/
def entry (s : Shorthand) : Attribute where
  name := if s.isId then "id" else "class"
  val := .text ("\"" ++ s.value ++ "\"")
  fixed := true

/-- The token. -/
def body (s : Shorthand) : Token.Body := if s.isId then .id s.value else .className s.value

end Shorthand

namespace Headline

/-- The text with the blank before it. -/
def textChars (h : Headline) : List Char :=
  match h.text with
  | some t => ' ' :: t.text.toList
  | none => []

/-- What comes after the name. -/
def tailChars (h : Headline) : List Char := h.shorthands.flatMap Shorthand.chars ++ h.textChars

/-- The written form. -/
def chars (h : Headline) : List Char := h.name.text.toList ++ h.tailChars

/-- The head of the tag. -/
def tag (h : Headline) : Tag where
  name := h.name.text
  entries := h.shorthands.map Shorthand.entry

/-- The text as a node. -/
def textNode (h : Headline) : Option Node := h.text.map fun t => .text [" " ++ t.text] none

/-- The tag as a node, with nodes inside it. -/
def node (h : Headline) (content : List Node) : Node :=
  .tag h.tag none h.textNode (Node.seq content) none

/-- The token of the text, if there is one. -/
def textBodies (h : Headline) : List Token.Body :=
  match h.text with
  | some t => [.text (" " ++ t.text)]
  | none => []

/-- The tokens. -/
def bodies (h : Headline) : List Token.Body :=
  .tag h.name.text :: (h.shorthands.map Shorthand.body ++ h.textBodies)

end Headline

/-! ## Forests -/

/-- Tags one after the other, each with tags inside it. -/
inductive Forest where
  /-- No tags. -/
  | nil
  /-- A tag, the tags inside it and those after it. -/
  | cons (head : Headline) (children siblings : Forest)

namespace Forest

/-- The lines, two blanks for each level. -/
def lines (depth : Nat) : Forest → List (List Char)
  | nil => []
  | cons head children siblings =>
    (List.replicate (2 * depth) ' ' ++ head.chars) ::
      (children.lines (depth + 1) ++ siblings.lines depth)

/-- The written form: the lines with line ends between them, and after the last one if wanted. -/
def print (f : Forest) (closed : Bool) : String :=
  String.ofList (List.intercalate ['\n'] (f.lines 0) ++ if closed then ['\n'] else [])

/-- The nodes. -/
def nodes : Forest → List Node
  | nil => []
  | cons head children siblings => head.node children.nodes :: siblings.nodes

-- a list with one entry
example :
    (Forest.cons ⟨⟨"ul", by decide, by decide, by decide, by decide, by decide⟩,
      [⟨true, "nav", by decide, by decide⟩, ⟨false, "wide", by decide, by decide⟩], none⟩
      (.cons ⟨⟨"li", by decide, by decide, by decide, by decide, by decide⟩, [],
        some ⟨"Home", by decide, by decide, by decide⟩⟩ .nil .nil) .nil).print true =
      "ul#nav.wide\n  li Home\n" := by
  decide +kernel

end Forest

/-- The tokens of a forest. Siblings are separated by a line end, or by the outdent after the
children of the first; line ends may follow the last tag. -/
inductive Spells : Forest → List Token.Body → Prop
  | nil (k : Nat) : Spells .nil (List.replicate k .newline)
  | last (head : Headline) (k : Nat) :
    Spells (.cons head .nil .nil) (head.bodies ++ List.replicate k .newline)
  | leaf (head : Headline) {siblings : Forest} {bs : List Token.Body} (hne : siblings ≠ .nil)
    (h : Spells siblings bs) : Spells (.cons head .nil siblings) (head.bodies ++ .newline :: bs)
  | inner (head : Headline) {children siblings : Forest} {bs bs' : List Token.Body} (width : Nat)
    (h : Spells children bs) (h' : Spells siblings bs') :
    Spells (.cons head children siblings)
      (head.bodies ++ .indent width :: (bs ++ .outdent :: bs'))

end Outline

end Jade

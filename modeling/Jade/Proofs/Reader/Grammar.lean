import Jade.Proofs.Reader.Stage

/-!
# What a template stands for

The grammar of templates, on the events of reading them. `Derives es part ks` says that the events
`es` stand for `part`: a node, the nodes of a block, what stands on the line of a tag, the lines of
a text block. There is one rule for each form, and the rules follow the tokens and not the way in
which they are read.

Of the events, `ks` are those whose content is in the tree. These are all tokens with content but
for two cases. A token after the head of a tag whose text is a dot or a `<` is taken as a mark. And
where the content of a tag is plain text, a text block under the tag takes the place of what stands
after a colon on its line.
-/

namespace Jade

namespace Tag

/-- Whether the content of a tag is plain text. A dot after its head says so; scripts and styles
need none, but a script may be of another type. -/
def holdsText (tag : Tag) (dot : Bool) : Bool :=
  if tag.name == "script" && !dot then
    match tag.getAttribute "type" with
    | some (.text s) => s.isEmpty || stripQuotes s == "text/javascript"
    | _ => true
  else dot || tag.name == "script" || tag.name == "style"

/-- The head of a tag with its mark. -/
def finish (name : String) (hs : List Token.Body) (mark : Option Token.Body) : Tag :=
  let text := mark.bind Token.Body.text?
  { ofHead name hs with
    textOnly := (ofHead name hs).holdsText (text == some ".")
    inline := text == some "<" }

theorem name_foldl {α : Type} {f : Tag → α → Tag} (hf : ∀ tag x, (f tag x).name = tag.name)
    (xs : List α) (tag : Tag) : (xs.foldl f tag).name = tag.name := by
  induction xs generalizing tag with
  | nil => rfl
  | cons x xs ih => rw [List.foldl_cons, ih, hf]

theorem name_read (tag : Tag) (b : Token.Body) : (tag.read b).name = tag.name := by
  cases b with
  | attrs table fixed =>
    rw [read, Reader.addAttrs]
    refine name_foldl ?_ table.toList tag
    exact fun _ _ => rfl
  | _ => rfl

theorem name_ofHead (name : String) (hs : List Token.Body) : (ofHead name hs).name = name :=
  name_foldl name_read hs _

end Tag

/-- A part of a template. -/
inductive Part where
  /-- A node. -/
  | form (n : Node)
  /-- Nodes, with line ends between them. -/
  | forms (ns : List Node)
  /-- The nodes of an indented block. -/
  | nested (ns : List Node)
  /-- A block that may be there. -/
  | content (c : Option Node)
  /-- The alternatives of a conditional with this word. -/
  | alternatives (word : String) (next : List Node)
  /-- What stands on the line of a tag after its head. -/
  | beside (rest : Reader.OnLine)
  /-- The lines of a text block, after `pad`; the outermost block is indented by `outer`. -/
  | lines (outer : Nat) (pad : String) (parts : List String)
  /-- A text block; the outermost one is indented by `outer`. -/
  | raw (outer : Nat) (parts : List String)

/-- The events that a tag begins with: its name, its head, its mark, what is beside it, and line
ends. -/
def Event.opening (name : String) (hs : List Token.Body) (mark : Option Token.Body)
    (bs : List Event) (k : Nat) : List Event :=
  .token (.tag name) :: (hs.map .token ++ (mark.toList.map .mark ++
    (bs ++ List.replicate k (.token .newline))))

open Event (token mode putOff opening)

/-- `Derives es part ks`: the events `es` stand for `part`, and the content of `ks` is in it. -/
inductive Derives : List Event → Part → List Event → Prop
  /-- No nodes. -/
  | nil : Derives [] (.forms []) []
  /-- A line end after nodes. -/
  | newline {es ks : List Event} {ns : List Node} (h : Derives es (.forms ns) ks) :
    Derives (es ++ [token .newline]) (.forms ns) ks
  /-- A node after nodes. -/
  | snoc {es fs ks ls : List Event} {ns : List Node} {n : Node} (h : Derives es (.forms ns) ks)
    (hn : Derives fs (.form n) ls) : Derives (es ++ fs) (.forms (ns ++ [n])) (ks ++ ls)
  /-- Nodes between an indentation and its end. -/
  | nested {es ks : List Event} {ns : List Node} {w : Nat} (h : Derives es (.forms ns) ks) :
    Derives (token (.indent w) :: (es ++ [token .outdent])) (.nested ns) ks
  /-- No block. -/
  | noContent : Derives [] (.content none) []
  /-- A block. -/
  | content {es ks : List Event} {ns : List Node} {line : Option Nat}
    (h : Derives es (.nested ns) ks) : Derives es (.content (some (.block ns line false))) ks
  /-- No lines. -/
  | noLines {outer : Nat} {pad : String} : Derives [] (.lines outer pad []) []
  /-- A line end. -/
  | lineEnd {es ks : List Event} {outer : Nat} {pad : String} {ps : List String}
    (h : Derives es (.lines outer pad ps) ks) :
    Derives (es ++ [token .newline]) (.lines outer pad (ps ++ ["\n"])) ks
  /-- A line. -/
  | line {es ks : List Event} {outer : Nat} {pad s : String} {ps : List String}
    (h : Derives es (.lines outer pad ps) ks) (hs : (Token.Body.text s).IsLexed) :
    Derives (es ++ [token (.text s)]) (.lines outer pad (ps ++ [pad ++ s]))
      (ks ++ [token (.text s)])
  /-- Deeper lines. -/
  | deeper {es fs ks ls : List Event} {outer : Nat} {pad : String} {ps qs : List String}
    (h : Derives es (.lines outer pad ps) ks) (hd : Derives fs (.raw outer qs) ls) :
    Derives (es ++ fs) (.lines outer pad (ps ++ ["\n"] ++ qs ++ ["\n"])) (ks ++ ls)
  /-- A text block. Its lines are indented by what it is deeper than the outermost one. -/
  | raw {es ks : List Event} {outer w : Nat} {ps : List String}
    (h : Derives es (.lines outer (repeatText (w - outer) " ") ps) ks) :
    Derives (token (.indent w) :: (es ++ [token .outdent])) (.raw outer ps) ks
  /-- The place for the content of an including template. -/
  | yield : Derives [token .yield] (.form (.block [] none true)) [token .yield]
  /-- A tag that is only implied by an id or a class. -/
  | implied {es ks : List Event} {n : Node} (h : Derives es (.form n) ks) :
    Derives (putOff :: es) (.form n) ks
  /-- Text. -/
  | text {s : String} {line : Option Nat} (hs : (Token.Body.text s).IsLexed) :
    Derives [token (.text s)] (.form (.text [s] line)) [token (.text s)]
  /-- Text after a bar. -/
  | string {s : String} {line : Option Nat} :
    Derives [token (.string s)] (.form (.string [s] line)) [token (.string s)]
  /-- An assignment. -/
  | assignment {name value : String} :
    Derives [token (.assignment name value)] (.form (.assignment name value))
      [token (.assignment name value)]
  /-- A document type. -/
  | doctype {name : Option String} {line : Option Nat} :
    Derives [token (.doctype name)] (.form (.doctype name line)) [token (.doctype name)]
  /-- The template that this one extends. -/
  | parent {path : String} :
    Derives [token (.parent path)] (.form (.parent (stripQuotes path))) [token (.parent path)]
  /-- A template to include. -/
  | inclusion {path : String} :
    Derives [token (.inclusion path)] (.form (.inclusion (strip path))) [token (.inclusion path)]
  /-- Code. -/
  | code {es ks : List Event} {source : String} {buffer escape : Bool} {c : Option Node}
    {line : Option Nat} (h : Derives es (.content c) ks) :
    Derives (token (.code source buffer escape) :: es) (.form (.code source buffer escape c line))
      (token (.code source buffer escape) :: ks)
  /-- A comment. -/
  | comment {content : String} {buffer : Bool} {line : Option Nat} :
    Derives [token (.comment content buffer)] (.form (.comment content buffer line))
      [token (.comment content buffer)]
  /-- A comment with a block. -/
  | blockComment {es ks : List Event} {content : String} {buffer : Bool} {n : Node}
    {line : Option Nat} (h : Derives es (.content (some n)) ks) :
    Derives (token (.comment content buffer) :: es)
      (.form (.blockComment content buffer (some n) line)) (token (.comment content buffer) :: ks)
  /-- A filter of a text block, perhaps with attributes. -/
  | filter {es ks : List Event} {name : String}
    {attrs : Option (Table String AttrText × List String)} {ps : List String} {w : Nat}
    {line textLine : Option Nat} (h : Derives (token (.indent w) :: es) (.raw w ps) ks) :
    Derives (token (.filter name) :: (attrs.toList.map (fun a => token (.attrs a.1 a.2)) ++
        mode true :: token (.indent w) :: (es ++ [mode false])))
      (.form (.filter name (attrs.map fun a => Reader.filterAttrs a.1) (some (.text ps textLine))
        line))
      (token (.filter name) :: (attrs.toList.map (fun a => token (.attrs a.1 a.2)) ++ ks))
  /-- A loop. -/
  | each {es ks : List Event} {keys : List String} {subject : String} {n : Node}
    {line : Option Nat} (h : Derives es (.content (some n)) ks) :
    Derives (token (.each keys subject) :: es) (.form (.each subject keys (some n) line))
      (token (.each keys subject) :: ks)
  /-- A conditional with its alternatives. -/
  | conditional {es fs ks ls : List Event} {word sentence : String} {n : Node} {next : List Node}
    {line : Option Nat} (hw : word ∈ Rules.conditionalWords)
    (h : Derives es (.content (some n)) ks) (hnext : Derives fs (.alternatives word next) ls) :
    Derives (token (.conditional word sentence) :: (es ++ fs))
      (.form (.conditional word sentence (some n) next line))
      (token (.conditional word sentence) :: (ks ++ ls))
  /-- No alternatives. -/
  | noAlternatives {word : String} : Derives [] (.alternatives word []) []
  /-- One more alternative. -/
  | alternative {es fs ks ls : List Event} {word word' sentence : String} {c : Option Node}
    {next next' : List Node} {line : Option Nat} (h : Derives es (.alternatives word next) ks)
    (hword : Node.mayFollow word next word' = true)
    (hone : Derives fs (.form (.conditional word' sentence c next' line)) ls) :
    Derives (es ++ fs)
      (.alternatives word (next ++ [.conditional word' sentence c next' line])) (ks ++ ls)
  /-- A call of a mixin. -/
  | call {es ks : List Event} {name : String} {args : Option String} {c : Option Node}
    (h : Derives es (.content c) ks) :
    Derives (token (.call name args) :: es) (.form (.mixin name (args.getD "") c true))
      (token (.call name args) :: ks)
  /-- A definition of a mixin, or a call of it if no block follows. -/
  | mixin {es ks : List Event} {name : String} {args : Option String} {c : Option Node}
    (h : Derives es (.content c) ks) :
    Derives (token (.mixin name args) :: es) (.form (.mixin name (args.getD "") c c.isNone))
      (token (.mixin name args) :: ks)
  /-- A named block. -/
  | namedBlock {es ks : List Event} {way name : String} {ns : List Node} {line : Option Nat}
    (h : Derives es (.nested ns) ks) :
    Derives (token (.block way name) :: es) (.form (.codeBlock (strip name) way ns line))
      (token (.block way name) :: ks)
  /-- A named block without content of its own. -/
  | emptyBlock {way name : String} :
    Derives [token (.block way name)]
      (.form (.codeBlock (strip name) way [Node.ofLiteral ""] none)) [token (.block way name)]
  /-- Nothing beside a tag. -/
  | nothing : Derives [] (.beside {}) []
  /-- Text beside a tag. -/
  | besideText {es ks : List Event} {s : String} {line : Option Nat}
    (h : Derives es (.form (.text [s] line)) ks) :
    Derives es (.beside { text := some (.text [s] line) }) ks
  /-- Text after a bar beside a tag. -/
  | besideString {es ks : List Event} {s : String} {line : Option Nat}
    (h : Derives es (.form (.string [s] line)) ks) :
    Derives es (.beside { text := some (.string [s] line) }) ks
  /-- Code beside a tag. -/
  | besideCode {es ks : List Event} {source : String} {buffer escape : Bool} {c : Option Node}
    {line : Option Nat} (h : Derives es (.form (.code source buffer escape c line)) ks) :
    Derives es (.beside { code := some (.code source buffer escape c line) }) ks
  /-- A node after a colon. -/
  | besideColon {es ks : List Event} {n : Node} (h : Derives es (.form n) ks) :
    Derives (token .colon :: es) (.beside { content := [n] }) ks
  /-- A tag without a block. -/
  | tag {bs ks : List Event} {name : String} {hs : List Token.Body} {mark : Option Token.Body}
    {k : Nat} {rest : Reader.OnLine} {line : Option Nat} (hhead : ∀ b ∈ hs, b.isHead = true)
    (hmark : ∀ b ∈ mark, b.text? = some "." ∨ b.text? = some "<")
    (hb : Derives bs (.beside rest) ks) :
    Derives (opening name hs mark bs k)
      (.form (.tag (.finish name hs mark) rest.code rest.text (Node.seq rest.content) line))
      (token (.tag name) :: (hs.map token ++ ks))
  /-- A tag with a block, which goes on with the content beside the tag. -/
  | tagNested {bs cs ks ls : List Event} {name : String} {hs : List Token.Body}
    {mark : Option Token.Body} {k : Nat} {rest : Reader.OnLine} {ns : List Node}
    {line : Option Nat} (hhead : ∀ b ∈ hs, b.isHead = true)
    (hmark : ∀ b ∈ mark, b.text? = some "." ∨ b.text? = some "<")
    (htext : (Tag.finish name hs mark).textOnly = false) (hb : Derives bs (.beside rest) ks)
    (hc : Derives cs (.nested ns) ls) :
    Derives (opening name hs mark bs k ++ cs)
      (.form (.tag (.finish name hs mark) rest.code rest.text
        (Node.seq (rest.content ++ ns)) line))
      (token (.tag name) :: (hs.map token ++ (ks ++ ls)))
  /-- A tag with a text block, which takes the place of the content beside the tag. -/
  | tagRaw {bs cs ks ls : List Event} {name : String} {hs : List Token.Body}
    {mark : Option Token.Body} {k w : Nat} {rest : Reader.OnLine} {ps : List String}
    {line textLine : Option Nat} (hhead : ∀ b ∈ hs, b.isHead = true)
    (hmark : ∀ b ∈ mark, b.text? = some "." ∨ b.text? = some "<")
    (htext : (Tag.finish name hs mark).textOnly = true) (hb : Derives bs (.beside rest) ks)
    (hc : Derives (token (.indent w) :: cs) (.raw w ps) ls) :
    Derives (opening name hs mark bs k ++ mode true :: token (.indent w) :: (cs ++ [mode false]))
      (.form (.tag (.finish name hs mark) rest.code rest.text (.text ps textLine) line))
      (token (.tag name) :: (hs.map token ++ ((if rest.content.isEmpty then ks else []) ++ ls)))

end Jade

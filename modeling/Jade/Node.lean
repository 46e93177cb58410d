import Jade.Value

/-!
# Nodes

The tree that a template stands for: tags with their attributes and content, text, comments, code,
control structures, mixins and named blocks. Nodes that are read from a source know their line.
-/

namespace Jade

/-- An attribute of a tag. -/
structure Attribute where
  /-- The name. -/
  name : String
  /-- The value: an expression or a fixed text, or a truth value. -/
  val : Value
  /-- Whether the value is fixed. -/
  fixed : Bool
  deriving Repr, Inhabited

/-- The head of a tag. -/
structure Tag where
  /-- The name. -/
  name : String
  /-- Whether the content is plain text. -/
  textOnly : Bool := false
  /-- Whether the tag stays on the line of what is before it. -/
  inline : Bool := false
  /-- The attributes in the order of the source, classes among them. -/
  entries : List Attribute := []
  deriving Repr, Inhabited

/-- The attributes of a filter. -/
structure FilterAttrs where
  /-- Whether the keys have an order of their own. -/
  ordered : Bool
  /-- The pairs. -/
  pairs : List (String × Value)
  deriving Repr, Inhabited

/-- A node of a template. -/
inductive Node where
  /-- Nodes one after the other; `yields` marks where an including template puts its content. -/
  | block (nodes : List Node) (line : Option Nat) (yields : Bool)
  /-- A block that templates which extend this one may replace, append to or prepend to. -/
  | codeBlock (name mode : String) (nodes : List Node) (line : Option Nat)
  /-- A tag with code or text on its line and a block of content. -/
  | tag (head : Tag) (code text : Option Node) (content : Node) (line : Option Nat)
  /-- Text, line by line. -/
  | text (parts : List String) (line : Option Nat)
  /-- Text after a bar. -/
  | string (parts : List String) (line : Option Nat)
  /-- Code, which may write its value, escaped or not, and may hold a block. -/
  | code (source : String) (buffer escape : Bool) (content : Option Node) (line : Option Nat)
  /-- A comment on one line. -/
  | comment (content : String) (buffer : Bool) (line : Option Nat)
  /-- A comment with a block. -/
  | blockComment (head : String) (buffer : Bool) (content : Option Node) (line : Option Nat)
  /-- A document type. -/
  | doctype (name : Option String) (line : Option Nat)
  /-- A loop. -/
  | each (subject : String) (keys : List String) (content : Option Node) (line : Option Nat)
  /-- An assignment. -/
  | assignment (name value : String)
  /-- A mixin: a definition, or a call with or without a block. -/
  | mixin (name args : String) (content : Option Node) (call : Bool)
  /-- The template that this one extends. -/
  | parent (path : String)
  /-- A template to include. -/
  | inclusion (path : String)
  /-- A conditional with the alternatives that follow it. -/
  | conditional (word sentence : String) (content : Option Node) (next : List Node)
      (line : Option Nat)
  /-- A filter for a block of text or of nodes. -/
  | filter (name : String) (attrs : Option FilterAttrs) (content : Option Node) (line : Option Nat)
  /-- Markup that stands for itself. -/
  | literal (content : String)
  /-- A text without a node around it. -/
  | bare (content : String)
  /-- A tag that waits for a block of nodes to filter. -/
  | pending
  deriving Repr, Inhabited

namespace Node

def seq (nodes : List Node) : Node := .block nodes none false

/-- Markup that stands for itself, with every backslash doubled. -/
def ofLiteral (s : String) : Node :=
  .literal (String.ofList (s.toList.flatMap fun c => if c == '\\' then ['\\', '\\'] else [c]))

/-- The nodes of a block, the parts of a text as bare nodes; none for other nodes. -/
def nodes? : Node → Option (List Node)
  | block nodes _ _ | codeBlock _ _ nodes _ => some nodes
  | text parts _ | string parts _ => some (parts.map .bare)
  | _ => none

def isBlock : Node → Bool
  | block _ _ _ | codeBlock _ _ _ _ => true
  | _ => false

def withNodes (nodes : List Node) : Node → Node
  | block _ line yields => block nodes line yields
  | codeBlock name mode _ line => codeBlock name mode nodes line
  | n => n

/-- Add to the end of a node that holds a sequence: a node to a block, a part to a text, an
alternative to a conditional. -/
def append? (n new : Node) : Option Node :=
  match n, new with
  | block nodes line yields, _ => some (block (nodes ++ [new]) line yields)
  | codeBlock name mode nodes line, _ => some (codeBlock name mode (nodes ++ [new]) line)
  | text parts line, bare s => some (text (parts ++ [s]) line)
  | string parts line, bare s => some (string (parts ++ [s]) line)
  | conditional word sentence content next line, _ =>
    some (conditional word sentence content (next ++ [new]) line)
  | _, _ => none

def prepend? (n new : Node) : Option Node :=
  match n with
  | block nodes line yields => some (block (new :: nodes) line yields)
  | codeBlock name mode nodes line => some (codeBlock name mode (new :: nodes) line)
  | _ => none

/-- The words that may follow a conditional in its chain. -/
def following : String → List String
  | "if" | "elif" | "unless" => ["elif", "else"]
  | "for" => ["else"]
  | _ => []

/-- The word that decides what may follow: that of the last alternative, or the conditional's
own. -/
def lastWord (word : String) (next : List Node) : String :=
  match next.getLast? with
  | some (conditional last _ _ _ _) => if last.isEmpty then word else last
  | _ => word

/-- Whether a conditional with these alternatives may be followed by `word'`. -/
def mayFollow (word : String) (next : List Node) (word' : String) : Bool :=
  (following (lastWord word next)).contains word'

end Node

end Jade

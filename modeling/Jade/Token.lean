import Jade.Table

/-!
# Tokens

What a line of a template is made of. A token is a piece of layout (indentation, line ends, the end
of the source), a piece of a tag (its name, `#id`, `.class`, attributes, text) or a whole control
line (conditionals, loops, blocks, mixins, assignments, code).
-/

namespace Jade

/-- The value of an attribute as written: an expression, or nothing but the name. -/
inductive AttrText where
  | flag
  | expr (source : String)
  deriving DecidableEq, Repr, Inhabited

/-- What was read. -/
inductive Token.Body where
  /-- The end of the source. -/
  | eos
  /-- The end of a line, with the next line no deeper and no shallower. -/
  | newline
  /-- The next line is deeper, by this many characters in all. -/
  | indent (width : Nat)
  /-- The next line leaves one level of indentation. -/
  | outdent
  /-- The place where an including template puts its content. -/
  | yield
  /-- A colon that puts a node inside the tag before it. -/
  | colon
  /-- The name of a tag. -/
  | tag (name : String)
  /-- An `#id` of a tag. -/
  | id (name : String)
  /-- A `.class` of a tag. -/
  | className (name : String)
  /-- The attributes of a tag and the names of those whose values are fixed texts. -/
  | attrs (table : Table String AttrText) (fixed : List String)
  /-- Text after a tag, or a line of a text block. -/
  | text (content : String)
  /-- A line of text marked by a bar. -/
  | string (content : String)
  /-- The name of a filter for a block of text. -/
  | filter (name : String)
  /-- A document type. -/
  | doctype (name : Option String)
  /-- The template that this one extends. -/
  | parent (path : String)
  /-- A template to include. -/
  | inclusion (path : String)
  /-- A named block and how it joins the block of the same name. -/
  | block (mode name : String)
  /-- The definition of a mixin, or a call without a plus. -/
  | mixin (name : String) (args : Option String)
  /-- A call of a mixin. -/
  | call (name : String) (args : Option String)
  /-- A conditional: its word and what follows. -/
  | conditional (word sentence : String)
  /-- A loop: its variables and what it runs over. -/
  | each (keys : List String) (code : String)
  /-- An assignment. -/
  | assignment (name value : String)
  /-- Code, which may write its value, escaped or not. -/
  | code (source : String) (buffer escape : Bool)
  /-- A comment, which may be kept in the output. -/
  | comment (content : String) (buffer : Bool)
  /-- A token of a kind given by name. -/
  | custom (kind : String) (val : Option String)
  deriving DecidableEq, Repr, Inhabited

/-- A token with the line on which it was read. -/
structure Token where
  body : Token.Body
  line : Nat
  deriving DecidableEq, Repr, Inhabited

namespace Token

/-- The name of a kind of token, as messages give it. -/
def Body.kind : Body → String
  | eos => "eos"
  | newline => "newline"
  | indent _ => "indent"
  | outdent => "outdent"
  | yield => "yield"
  | colon => ":"
  | tag _ => "tag"
  | id _ => "id"
  | className _ => "class"
  | attrs _ _ => "attrs"
  | text _ => "text"
  | string _ => "string"
  | filter _ => "filter"
  | doctype _ => "doctype"
  | parent _ => "extends"
  | inclusion _ => "include"
  | block _ _ => "block"
  | mixin _ _ => "mixin"
  | call _ _ => "call"
  | conditional _ _ => "conditional"
  | each _ _ => "each"
  | assignment _ _ => "assignment"
  | code _ _ _ => "code"
  | comment _ _ => "comment"
  | custom kind _ => kind

/-- The main text of a token, if its kind has one. -/
def Body.text? : Body → Option String
  | tag s | id s | className s | text s | string s | filter s | parent s | inclusion s => some s
  | block _ s | mixin s _ | call s _ | conditional s _ | assignment _ s => some s
  | code s _ _ | comment s _ => some s
  | doctype s | custom _ s => s
  | eos | newline | indent _ | outdent | yield | colon | attrs _ _ | each _ _ => none

def kind (t : Token) : String := t.body.kind

/-- The main text of a token, if its kind has one. -/
def text? (t : Token) : Option String := t.body.text?

end Token

end Jade

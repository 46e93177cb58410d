import Jade.Node.Attributes
import Jade.Token
import Jade.Value.Text

/-!
# Tokens and nodes as text

Tokens and nodes can be shown for inspection, as tables from the names of their fields to the
values. A node inside another one is shown by its kind only.
-/

namespace Jade

def fieldTable (fields : List (String × Value)) : Value :=
  .dict (fields.map fun (k, v) => (.text k, v))

def optText : Option String → Value
  | some s => .text s
  | none => .none

namespace Token

def attrValue : AttrText → Value
  | .flag => .bool true
  | .expr s => .text s

def nameSet (names : List String) : Value :=
  .thing "set" (if names.isEmpty then "set()"
    else "\x7b" ++ joinWith ", " (names.map quoted) ++ "\x7d")

/-- Whether the token writes output, where its kind says so. -/
def bufferField : Body → Value
  | .code _ b _ | .comment _ b => .bool b
  | _ => .none

def valField : Body → Value
  | .indent w => .int w
  | body => optText body.text?

def moreFields : Body → List (String × Value)
  | .attrs table fixed =>
    [("attrs", .ordered (table.toList.map fun (k, v) => (.text k, attrValue v))),
     ("static_attrs", nameSet fixed)]
  | .block mode _ => [("mode", .text mode)]
  | .mixin _ args | .call _ args => [("args", optText args)]
  | .conditional _ sentence => [("sentence", .text sentence)]
  | .each keys code => [("keys", .list (keys.map .text)), ("code", .text code)]
  | .assignment name _ => [("name", .text name)]
  | .code _ _ escape => [("escape", .bool escape)]
  | _ => []

def fields (t : Token) : List (String × Value) :=
  [("buffer", bufferField t.body), ("type", .text t.kind), ("line", .int t.line),
   ("val", valField t.body)] ++ moreFields t.body

def describe (t : Token) : String := (fieldTable t.fields).inside

end Token

namespace Node

def kind : Node → String
  | block _ _ _ => "Block"
  | codeBlock _ _ _ _ => "CodeBlock"
  | tag _ _ _ _ _ => "Tag"
  | text _ _ => "Text"
  | string _ _ => "String"
  | code _ _ _ _ _ => "Code"
  | comment _ _ _ => "Comment"
  | blockComment _ _ _ _ => "BlockComment"
  | doctype _ _ => "Doctype"
  | each _ _ _ _ => "Each"
  | assignment _ _ => "Assignment"
  | mixin _ _ _ _ => "Mixin"
  | parent _ => "Extends"
  | inclusion _ => "Include"
  | conditional _ _ _ _ _ => "Conditional"
  | filter _ _ _ _ => "Filter"
  | literal _ => "Literal"
  | bare _ => "str"
  | pending => "method"

/-- A field of a node. -/
inductive Field where
  /-- A value. -/
  | value (v : Value)
  /-- A node that may be absent. -/
  | child (n : Option Node)
  /-- Alternatives. -/
  | children (ns : List Node)
  /-- The nodes of a block, which can be added to at both ends. -/
  | queue (ns : List Node)
  /-- Attributes. -/
  | attributes (as : List Attribute)

def reference : Node → Value
  | bare s => .text s
  | n => .thing n.kind ("<" ++ n.kind ++ " object>")

def attributeField (a : Attribute) : Value :=
  fieldTable [("name", .text a.name), ("val", a.val), ("static", .bool a.fixed)]

def Field.shown : Field → Value
  | value v => v
  | child (some n) => reference n
  | child none => .none
  | children ns => .list (ns.map reference)
  | queue ns => .thing "deque" ("deque(" ++ (Value.list (ns.map reference)).inside ++ ")")
  | attributes as => .list (as.map attributeField)

def filterAttrsField : Option FilterAttrs → Value
  | none => .none
  | some a =>
    let pairs := a.pairs.map fun (k, v) => (Value.text k, v)
    if a.ordered then .ordered pairs else .dict pairs

def lineField : Option Nat → List (String × Field)
  | some n => [("line", .value (.int n))]
  | none => []

def textField (s : String) : Field := .value (.text s)

def flagField (b : Bool) : Field := .value (.bool b)

def textsField (xs : List String) : Field := .value (.list (xs.map .text))

def fields : Node → List (String × Field)
  | block nodes line yields =>
    [("nodes", .queue nodes), ("debug", flagField false)] ++
      (if yields then [("_yield", flagField true)] else []) ++ lineField line
  | codeBlock name mode nodes line =>
    [("nodes", .queue nodes), ("debug", flagField false)] ++ lineField line ++
      [("mode", textField mode), ("name", textField name)]
  | tag head codePart textPart content line =>
    [("name", textField head.name), ("textOnly", flagField head.textOnly),
     ("code", .child codePart), ("text", .child textPart),
     ("_attrs", .attributes head.entries), ("inline", flagField head.inline),
     ("block", .child content)] ++ lineField line
  | text parts line | string parts line => ("nodes", textsField parts) :: lineField line
  | code source buffer escape content line =>
    [("val", textField source), ("block", .child content), ("buffer", flagField buffer),
     ("escape", flagField escape)] ++ lineField line
  | comment content buffer line =>
    [("val", textField content), ("buffer", flagField buffer)] ++ lineField line
  | blockComment head buffer content line =>
    [("block", .child content), ("val", textField head), ("buffer", flagField buffer)] ++
      lineField line
  | doctype name line => ("val", .value (optText name)) :: lineField line
  | each subject keys content line =>
    [("obj", textField subject), ("keys", textsField keys), ("block", .child content)] ++
      lineField line
  | assignment name value => [("name", textField name), ("val", textField value)]
  | mixin name args content call =>
    [("name", textField name), ("args", textField args), ("block", .child content),
     ("call", flagField call)]
  | parent path => [("path", textField path)]
  | inclusion path => [("path", textField path), ("extra", .value .none)]
  | conditional word sentence content next line =>
    [("type", textField word), ("sentence", textField sentence), ("block", .child content),
     ("next", .children next)] ++ lineField line
  | filter name attrs content line =>
    [("name", textField name), ("block", .child content),
     ("attrs", .value (filterAttrsField attrs)),
     ("isASTFilter", flagField (content.any Node.isBlock))] ++ lineField line
  | literal content => [("str", textField content)]
  | bare _ | pending => []

def describe (n : Node) : String :=
  (fieldTable (n.fields.map fun (k, f) => (k, f.shown))).inside

end Node

end Jade

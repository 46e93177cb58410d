import Jade.Dialect
import Jade.Filter
import Jade.Script.Eval

/-!
# Sessions

What outlives the writing of one template: filters and document types by name, tags that are closed
at once or stay on their line, code that is closed by the writer, and, for pages, the names and
mixins that scripts have defined. Options given for one template add to the session for good.
-/

namespace Jade

/-- What may be asked for when a template is written. -/
structure Options where
  /-- Whether tags go on lines of their own. -/
  pretty : Option Bool := none
  /-- A document type to start with, perhaps the default one. -/
  doctype : Option (Option String) := none
  /-- Whether attributes are left to a function of the rendered page. -/
  useRuntime : Option Bool := none
  /-- The extension of paths that have none. -/
  extension : Option (Option String) := none
  /-- What opens a variable. -/
  variableStart : Option String := none
  /-- What closes a variable. -/
  variableEnd : Option String := none
  /-- Further tags that are closed at once. -/
  selfClosing : Option (List String) := none
  /-- Further tags that stay on their line. -/
  inlineTags : Option (List String) := none
  /-- Further code that is closed by the writer. -/
  autoclose : Option (List String) := none
  /-- Further document types. -/
  doctypes : Option (List (String × String)) := none
  /-- Further filters. -/
  filters : Option (List (String × Filter)) := none
  /-- The file that filters are told of. -/
  filename : Option Value := none

instance : Inhabited Options := ⟨{}⟩

/-- Options where those of `winning` win. -/
def Options.override (o winning : Options) : Options where
  pretty := winning.pretty.or o.pretty
  doctype := winning.doctype.or o.doctype
  useRuntime := winning.useRuntime.or o.useRuntime
  extension := winning.extension.or o.extension
  variableStart := winning.variableStart.or o.variableStart
  variableEnd := winning.variableEnd.or o.variableEnd
  selfClosing := winning.selfClosing.or o.selfClosing
  inlineTags := winning.inlineTags.or o.inlineTags
  autoclose := winning.autoclose.or o.autoclose
  doctypes := winning.doctypes.or o.doctypes
  filters := winning.filters.or o.filters
  filename := winning.filename.or o.filename

/-! ## Pages -/

/-- A mixin that a page has defined. -/
structure Mixin where
  params : List String
  content : Node
  deriving Repr, Inhabited

/-- What rendered pages have defined. -/
structure Page where
  /-- The store of scripts. -/
  store : Script.Store := {}
  /-- Global names. -/
  globals : Script.Frame := .own {}
  /-- Local names of the innermost scope. -/
  locals : Script.Frame := .own {}
  /-- Local names of the scopes around it, the innermost first. -/
  outer : List Script.Frame := []
  /-- Mixins by name. -/
  mixins : Table String Mixin := {}
  deriving Repr, Inhabited

def Page.scope (p : Page) : Script.Scope := { locals := p.locals, globals := p.globals }

/-- The page with the names that scripts see in the store. -/
def Page.share (p : Page) : Page :=
  let (globals, store) := p.globals.share p.store
  let (locals, store) := p.locals.share store
  { p with globals, locals, store }

/-- Whether a script may have got hold of a scope. It may then get hold of any later on. -/
def Page.held (p : Page) : Bool :=
  match p.globals with
  | .own _ => false
  | .shared _ => true

/-- The page on which a script is run: the names are in the store if it may get hold of a scope. -/
def Page.ready (p : Page) (source : String) : Page :=
  if p.held || Script.mayHold source then p.share else p

/-- The page with the outermost scope only, which is what is left when a template is done. -/
def Page.leave (p : Page) : Page :=
  { p with locals := p.outer.getLast?.getD p.locals, outer := [] }

/-! ## Sessions -/

def standardDoctypes : Table String String := .ofPairs
  [("default", "<!DOCTYPE html>"),
   ("xml", "<?xml version=\"1.0\" encoding=\"utf-8\" ?>"),
   ("transitional", "<!DOCTYPE html PUBLIC \"-//W3C//DTD XHTML 1.0 Transitional//EN\" " ++
     "\"http://www.w3.org/TR/xhtml1/DTD/xhtml1-transitional.dtd\">"),
   ("strict", "<!DOCTYPE html PUBLIC \"-//W3C//DTD XHTML 1.0 Strict//EN\" " ++
     "\"http://www.w3.org/TR/xhtml1/DTD/xhtml1-strict.dtd\">"),
   ("frameset", "<!DOCTYPE html PUBLIC \"-//W3C//DTD XHTML 1.0 Frameset//EN\" " ++
     "\"http://www.w3.org/TR/xhtml1/DTD/xhtml1-frameset.dtd\">"),
   ("1.1", "<!DOCTYPE html PUBLIC \"-//W3C//DTD XHTML 1.1//EN\" " ++
     "\"http://www.w3.org/TR/xhtml11/DTD/xhtml11.dtd\">"),
   ("basic", "<!DOCTYPE html PUBLIC \"-//W3C//DTD XHTML Basic 1.1//EN\" " ++
     "\"http://www.w3.org/TR/xhtml-basic/xhtml-basic11.dtd\">"),
   ("mobile", "<!DOCTYPE html PUBLIC \"-//WAPFORUM//DTD XHTML Mobile 1.2//EN\" " ++
     "\"http://www.openmobilealliance.org/tech/DTD/xhtml-mobile12.dtd\">")]

def standardInlineTags : List String :=
  ["a", "abbr", "acronym", "b", "br", "code", "em", "font", "i", "img", "ins", "kbd", "map", "samp",
   "small", "span", "strong", "sub", "sup"]

def standardSelfClosing : List String :=
  ["area", "base", "br", "col", "embed", "hr", "img", "input", "keygen", "link", "menuitem", "meta",
   "param", "source", "track", "wbr"]

/-- Code that is closed by the writer, in most dialects. -/
def standardAutoclose : List String :=
  ["if", "for", "block", "filter", "autoescape", "with", "trans", "spaceless", "comment", "cache",
   "macro", "localize", "compress"]

/-- Code that is closed by the writer in Django templates. -/
def djangoAutoclose : List String :=
  ["if", "ifchanged", "ifequal", "ifnotequal", "for", "block", "filter", "autoescape", "with",
   "trans", "blocktrans", "spaceless", "comment", "cache", "localize", "compress", "verbatim"]

/-- The state that outlives the writing of one template. -/
structure Session where
  /-- Filters by name. -/
  filters : Table String Filter := .ofPairs [("cdata", .cdata)]
  /-- Document types by name. -/
  doctypes : Table String String := standardDoctypes
  /-- Tags closed at once, beyond the standard ones. -/
  selfClosing : List String := []
  /-- Tags that stay on their line, beyond the standard ones. -/
  inlineTags : List String := []
  /-- Code closed by the writer, beyond the standard words. -/
  autoclose : List String := []
  /-- The same for Django templates. -/
  djangoAutoclose : List String := []
  /-- What pages have defined. -/
  page : Page := {}
  /-- Options that override those of every Django template. -/
  settings : Option Options := none
  /-- The delimiters that the last Jinja environment has set. -/
  delimiters : Option (String × String) := none

instance : Inhabited Session := ⟨{}⟩

/-- All that is fixed while one template is written. -/
structure Setup where
  /-- Whether tags go on lines of their own. -/
  pretty : Bool := true
  /-- Whether attributes are left to a function of the rendered page. -/
  useRuntime : Bool := true
  /-- The extension of paths that have none. -/
  extension : String := ".jade"
  /-- What opens a variable. -/
  variableStart : String := "\x7b\x7b"
  /-- What closes a variable. -/
  variableEnd : String := "\x7d\x7d"
  /-- Tags that are closed at once. -/
  selfClosing : List String := standardSelfClosing
  /-- Tags that stay on their line. -/
  inlineTags : List String := standardInlineTags
  /-- Code that is closed by the writer. -/
  autoclose : List String := standardAutoclose
  /-- Document types by name. -/
  doctypes : Table String String := standardDoctypes
  /-- Filters by name. -/
  filters : Table String Filter := {}
  /-- The file that filters are told of. -/
  filename : Value := .none

instance : Inhabited Setup := ⟨{}⟩

namespace Session

def registerFilter (s : Session) (name : String) (f : Filter) : Session :=
  { s with filters := s.filters.set name f }

def registerAutoclose (s : Session) (d : Dialect) (words : List String) : Session :=
  match d with
  | .django => { s with djangoAutoclose := s.djangoAutoclose ++ words }
  | _ => { s with autoclose := s.autoclose ++ words }

/-- The options for a template; the settings of Django win over them. -/
def effective (s : Session) (d : Dialect) (o : Options) : Options :=
  match d, s.settings with
  | .django, some winning => o.override winning
  | _, _ => o

/-- The session after the options of a template have been added. -/
def extend (s : Session) (d : Dialect) (o : Options) : Session :=
  let s := { s with
    filters := (o.filters.getD []).foldl (fun t (k, f) => t.set k f) s.filters
    doctypes := (o.doctypes.getD []).foldl (fun t (k, v) => t.set k v) s.doctypes
    selfClosing := s.selfClosing ++ o.selfClosing.getD []
    inlineTags := s.inlineTags ++ o.inlineTags.getD [] }
  s.registerAutoclose d (o.autoclose.getD [])

/-- All that is fixed while a template is written with these options. -/
def setup (s : Session) (d : Dialect) (o : Options) : Setup where
  pretty := o.pretty.getD true
  useRuntime := o.useRuntime.getD true
  extension := match o.extension.join with
    | some e => if e.isEmpty then ".jade" else e
    | none => ".jade"
  variableStart := o.variableStart.getD "\x7b\x7b"
  variableEnd := o.variableEnd.getD "\x7d\x7d"
  selfClosing := standardSelfClosing ++ s.selfClosing
  inlineTags := standardInlineTags ++ s.inlineTags
  autoclose := match d with
    | .django => Jade.djangoAutoclose ++ s.djangoAutoclose
    | _ => standardAutoclose ++ s.autoclose
  doctypes := s.doctypes
  filters := s.filters
  filename := o.filename.getD .none

end Session

end Jade

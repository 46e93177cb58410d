import Jade.Compile

/-!
# Template engines

How templates are hooked into the engines that render them. An engine asks by the name of a template
whether it is to be written first; other templates pass unchanged.
-/

namespace Jade

/-! ## Jinja -/

def isPart (part : List Char) : List Char → Bool
  | [] => part.isEmpty
  | c :: cs => (stripPrefix? part (c :: cs)).isSome || isPart part cs

/-- Whether a Jinja environment writes a template of this name: its extension has to be a part of
the one for templates. -/
def jinjaHandles (name : Option String) : Bool :=
  match name with
  | none => false
  | some n => !n.isEmpty && isPart (Path.extension n).toList ".jade".toList

namespace Session

/-- Set up a Jinja environment with delimiters of variables. -/
def environment (s : Session) (variableStart variableEnd : String) : Session :=
  { s with delimiters := some (variableStart, variableEnd) }

def preprocess (s : Session) (source : String) (name : Option String) :
    Except Fault String × Session :=
  if jinjaHandles name then
    let options : Options :=
      { variableStart := s.delimiters.map Prod.fst, variableEnd := s.delimiters.map Prod.snd }
    s.process .jinja options (.ofText source) name
  else (.ok source, s)

end Session

/-! ## Tornado -/

def singleBlanks : Bool → List Char → List Char
  | _, [] => []
  | after, c :: cs =>
    if c == ' ' || c == '\t' then
      if after then singleBlanks true cs else ' ' :: singleBlanks true cs
    else c :: singleBlanks false cs

/-- Every run of white space with a line break in it as one line break; `run` holds the current run,
reversed. -/
def singleBreaks : List Char → List Char → List Char
  | run, [] => flush run
  | run, c :: cs =>
    if isBlank c then singleBreaks (c :: run) cs else flush run ++ c :: singleBreaks [] cs
where
  /-- A run of white space as it is written. -/
  flush (run : List Char) : List Char := if run.contains '\n' then ['\n'] else run.reverse

/-- Text as it stands in a page of this name: in some, white space is collapsed, unless the text is
preformatted. -/
def pageText (name text : String) : String :=
  let collapse := name.endsWith ".html" || name.endsWith ".js"
  if collapse && !isPart "<pre>".toList text.toList then
    String.ofList (singleBreaks [] (singleBlanks false text.toList))
  else text

/-- The class that makes the templates of a Tornado application. -/
inductive TornadoClass where
  | standard
  | writing
  deriving DecidableEq, Repr

/-- The class that an application uses after it has been patched. -/
def patchTornado : TornadoClass → TornadoClass
  | .standard | .writing => .writing

/-- A template of a Tornado application. -/
structure TornadoTemplate where
  helpers : List String
  text : String
  deriving Repr, Inhabited, DecidableEq

/-- A template of a Tornado application, without expressions in it. Names with the extension for
templates are written first and may call helpers. -/
def Session.tornadoTemplate (s : Session) (source name : String) :
    Except Fault TornadoTemplate × Session :=
  if name.endsWith ".jade" then
    let (result, s) := s.process .tornado {} (.ofText source) (some name)
    let opening := (Dialect.tornado.forms {}).opening
    (result.map fun out =>
      { helpers := ["__pyjade_attrs", "__pyjade_escape", "__pyjade_iter"]
        text := pageText name
          (String.ofList ((stripPrefix? opening.toList out.toList).getD out.toList)) }, s)
  else (.ok { helpers := [], text := pageText name source }, s)

/-! ## Mako -/

/-- The attributes of a tag, as the module for Mako writes them while a page is rendered. It names
the class of unknown names by a name that is bound nowhere. -/
def makoAttributes (attrs : Value) (terse : Bool) : Except Fault String := do
  let _ ← Script.Scope.lookup {} {} "MakoUndefined"
  writeAttributes attrs terse true

/-! ## Pyramid -/

/-- The extension of the templates that a Pyramid application renders. -/
def pyramidExtensions : List String := [".jade"]

/-- The settings of a Pyramid application after the renderer has been set up. -/
def pyramidSettings (keys : List String) : List String :=
  if keys.contains "mako.preprocessor" then keys else keys ++ ["mako.preprocessor"]

/-- A source as the renderer of a Pyramid application gets it. -/
def Session.pyramidRender (s : Session) (source : Source) : Except Fault String × Session :=
  s.process .mako {} source none

end Jade

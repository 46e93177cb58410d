import Jade.Dialect.Django
import Jade.Dialect.Jinja
import Jade.Dialect.Mako
import Jade.Dialect.Page
import Jade.Reader

/-!
# Writing templates

A template is read into a tree, and the tree is written in a dialect. Options extend the session
before anything is written, and what a page has defined stays in the session even if rendering it
fails.
-/

namespace Jade

def Dialect.forms (d : Dialect) (s : Setup) : Forms :=
  match d with
  | .plain => .plain s
  | .jinja => .jinja s
  | .mako => .mako s
  | .tornado => .tornado s
  | .underscore => .underscore s
  | .django => .django s
  | .page => .page s Forms.callLimit

/-- A template that is being written. -/
structure Writer where
  dialect : Dialect
  setup : Setup
  emitter : Emitter

instance : Inhabited Writer := ⟨{ dialect := .plain, setup := {}, emitter := {} }⟩

def Writer.run {α : Type} (w : Writer) (act : Setup → Forms → Emit α) : Except Fault α × Writer :=
  let (result, emitter) := (act w.setup (w.dialect.forms w.setup)).run.run w.emitter
  (result, { w with emitter })

namespace Session

def start (s : Session) (d : Dialect) (o : Options) : Writer × Session :=
  let o := s.effective d o
  let s := s.extend d o
  let setup := s.setup d o
  let emitter : Emitter := { page := s.page }
  let emitter := match o.doctype with
    | some name => emitter.setDoctype setup name
    | none => emitter
  ({ dialect := d, setup, emitter }, s)

/-- The session after a template has been written. -/
def finish (s : Session) (w : Writer) : Session := { s with page := w.emitter.page.leave }

def write (s : Session) (d : Dialect) (o : Options) (root : Node) : Except Fault String × Session :=
  let (w, s) := s.start d o
  let (result, w) := w.run fun setup forms => do
    Emit.template setup forms root
    ((← get).result : Except Fault String)
  (result, s.finish w)

/-- A source written in a dialect, without blanks around it. -/
def process (s : Session) (d : Dialect) (o : Options) (source : Source) (file : Option String) :
    Except Fault String × Session :=
  match parse source file with
  | .error e => (.error e, s)
  | .ok root =>
    let (result, s) := s.write d o root
    (result.map strip, s)

/-- A source rendered as a page, with the blanks around it. -/
def render (s : Session) (source : Source) : Except Fault String × Session :=
  match parse source none with
  | .error e => (.error e, s)
  | .ok root => s.write .page { pretty := some true } root

end Session

end Jade

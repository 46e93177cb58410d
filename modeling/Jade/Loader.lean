import Jade.Compile

/-!
# Loading templates

A loader looks for templates on several shelves, writes those that are sources of this language, and
keeps what it has loaded. What is kept is given again until the loader is reset, unless it is being
debugged. A shelf may also hold something that cannot be rendered, such as bare text, which is given
back as it is and not kept.

Shelves and the making of templates are not the loader's own. It asks its surroundings, whose
answers may change over time and may be faults. The shelves here are lists of names.
-/

namespace Jade

/-- Questions to a world `σ` that may change with every answer. -/
abbrev Ask (σ α : Type) := ExceptT Fault (StateM σ) α

/-- A shelf with templates `τ` and their origins `ω`. -/
structure Shelf (σ τ ω : Type) where
  /-- What stands under a name, with its origin. -/
  find : String → Ask σ (τ × ω)
  /-- The source that stands under a name, with its place. -/
  source : String → Ask σ (String × String)

/-- What a loader asks for. -/
structure Surroundings (σ τ ω : Type) where
  /-- The shelves, in the order in which they are searched. -/
  shelves : Ask σ (List (Shelf σ τ ω))
  /-- A source, written for a template of a name. -/
  write : String → String → Ask σ String
  /-- The origin of the source at a place, for a name. -/
  origin : String → String → Ask σ ω
  /-- A template made of a text, with its origin and its name. -/
  make : String → ω → String → Ask σ τ
  /-- Whether something can be rendered. -/
  renders : τ → Bool

/-- What a loader has at hand. -/
structure Stock (σ τ ω : Type) where
  /-- The world around it. -/
  world : σ
  /-- The shelves, once they have been asked for. -/
  shelves : List (Shelf σ τ ω) := []
  /-- What is kept. -/
  kept : Table String τ := {}

abbrev Load (σ τ ω α : Type) := ExceptT Fault (StateM (Stock σ τ ω)) α

/-- Whether the fault says that a loader does not offer an operation. -/
def Fault.isNotOffered : Fault → Bool
  | .notOffered => true
  | _ => false

/-- Whether the fault says that there is no template of a name. -/
def Fault.isMissing : Fault → Bool
  | .templateMissing _ => true
  | _ => false

/-- Whether the loader writes templates of this name. -/
def handles (name : String) : Bool := Path.extension name == ".jade"

namespace Load

variable {σ τ ω α : Type}

def ask (question : Ask σ α) : Load σ τ ω α := do
  let s ← get
  let (result, world) := question.run.run s.world
  set { s with world }
  (result : Except Fault α)

/-- What the work gives, or nothing if it ends with such a fault. -/
def sparing (p : Fault → Bool) (act : Load σ τ ω α) : Load σ τ ω (Option α) :=
  tryCatch (some <$> act) fun e => if p e then pure none else throw e

/-- The answer of the first shelf that does not miss the name. -/
def first (name : String) (question : Shelf σ τ ω → Ask σ α) :
    List (Shelf σ τ ω) → Load σ τ ω α
  | [] => throw (.templateMissing name)
  | shelf :: rest => do
    match ← sparing Fault.isMissing (ask (question shelf)) with
    | some a => return a
    | none => first name question rest

def keep (name : String) (t : τ) : Load σ τ ω (τ × Option ω) := do
  modify fun s => { s with kept := s.kept.set name t }
  return (t, none)

end Load

namespace Surroundings

open Load

variable {σ τ ω α : Type} (w : Surroundings σ τ ω)

/-- Ask the shelves about a name; they are found when they are needed for the first time. -/
def search (name : String) (question : Shelf σ τ ω → Ask σ α) : Load σ τ ω α := do
  if (← get).shelves.isEmpty then
    let shelves ← ask w.shelves
    modify fun s => { s with shelves }
  first name question (← get).shelves

def find (name : String) : Load σ τ ω (τ × ω) := w.search name (·.find name)

/-- The source that a name stands for, with its place. -/
def source (name : String) : Load σ τ ω (String × String) := w.search name (·.source name)

/-- What is found for a name, with its origin and the text that it was to be made of, if there is
one: a source is written, and whatever is not offered is taken as it is found. -/
def fetch (name : String) : Load σ τ ω (Option String × τ × ω) := do
  unless handles name do return (none, ← w.find name)
  let some (text, place) ← sparing Fault.isNotOffered (w.source name)
    | return (none, ← w.find name)
  let some out ← sparing Fault.isNotOffered (ask (w.write text name))
    | return (some text, ← w.find name)
  let some (t, origin) ← sparing Fault.isNotOffered (do
      let origin ← ask (w.origin place name)
      return (← ask (w.make out origin name), origin))
    | return (some out, ← w.find name)
  return (some out, t, origin)

/-- A template from the text that something was to be made of, if there is one and it can be
written. -/
def retry (name : String) (text : Option String) (origin : ω) : Load σ τ ω (Option τ) :=
  match text with
  | none => pure none
  | some text => sparing Fault.isMissing do
    ask (w.make (← ask (w.write text name)) origin name)

/-- The template of a name, fetched and then kept. What cannot be rendered is tried once more, and
if that is in vain it is given with its origin and not kept. -/
def renew (name : String) : Load σ τ ω (τ × Option ω) := do
  let (text, t, origin) ← w.fetch name
  if w.renders t then keep name t
  else match ← w.retry name text origin with
    | none => return (t, some origin)
    | some t => keep name t

/-- The template of a name, which is kept unless templates are debugged. -/
def load (debug : Bool) (name : String) : Load σ τ ω (τ × Option ω) := do
  match debug, (← get).kept.get? name with
  | false, some t => return (t, none)
  | _, _ => w.renew name

end Surroundings

/-! ## Shelves that are lists -/

/-- What a shelf holds under a name. -/
inductive Stored where
  /-- A source, which can also be had as a template. -/
  | source (text : String)
  /-- A template. -/
  | compiled (text : String)
  /-- Bare text. -/
  | raw (text : String)
  deriving DecidableEq, Repr, Inhabited

/-- A template that can be rendered. -/
structure Template where
  /-- What it is made of. -/
  source : String
  /-- Where it was found, if the loader has made it. -/
  origin : Option String := none
  /-- Its name, if the loader has made it. -/
  name : Option String := none
  deriving DecidableEq, Repr, Inhabited

/-- What is found under a name. -/
inductive Found where
  | template (t : Template)
  | text (s : String)
  deriving DecidableEq, Repr, Inhabited

def Stored.found : Stored → Found
  | source s | compiled s => .template { source := s }
  | raw s => .text s

/-- The source as a shelf gives it; only sources are offered as such. -/
def Stored.source? : Stored → Except Fault String
  | source s => .ok s
  | _ => .error .notOffered

/-- What a loader of lists lives in. -/
structure Shop where
  /-- The session in which sources are written. -/
  session : Session
  /-- What stands on the shelves. -/
  shelves : List (List (String × Stored))

namespace Shop

def originOf (place : String) : String := "origin:" ++ place

/-- What a shelf holds under a name, and where that is. -/
def held (i : Nat) (name : String) : Ask Shop (Stored × String) := do
  match ((← get).shelves[i]?).bind (Table.lookupIn name) with
  | some s => return (s, "L" ++ toString i ++ "/" ++ name)
  | none => throw (.templateMissing name)

def shelf (i : Nat) : Shelf Shop Found String where
  find name := do
    let (s, place) ← held i name
    return (s.found, originOf place)
  source name := do
    let (s, place) ← held i name
    return (← s.source?, place)

def surroundings : Surroundings Shop Found String where
  shelves := return (List.range (← get).shelves.length).map shelf
  write text name := do
    let shop ← get
    let (result, session) := shop.session.process .django {} (.ofText text) (some name)
    set { shop with session }
    (result : Except Fault String)
  origin place _ := return originOf place
  make out origin name :=
    return .template { source := out, origin := some origin, name := some name }
  renders
    | .template _ => true
    | .text _ => false

end Shop

/-- A loader. -/
structure Loader where
  /-- What stands on the shelves, in the order in which they are searched. -/
  shelves : List (List (String × Stored))
  /-- The number of shelves that have been found. -/
  resolved : Nat := 0
  /-- What is kept. -/
  kept : Table String Found := {}
  /-- Whether templates are loaded anew every time. -/
  debug : Bool := false
  deriving Repr, Inhabited

namespace Loader

def cache (l : Loader) : Table String Template where
  keys := l.kept.keys
  entries := l.kept.entries.filterMap fun
    | (name, .template t) => some (name, t)
    | (_, .text _) => none

def run {α : Type} (l : Loader) (s : Session) (act : Load Shop Found String α) :
    Except Fault α × Loader × Session :=
  let (result, stock) := act.run.run
    { world := { session := s, shelves := l.shelves }
      shelves := (List.range l.resolved).map Shop.shelf
      kept := l.kept }
  (result, { l with resolved := stock.shelves.length, kept := stock.kept }, stock.world.session)

/-- What can be asked of a loader. -/
inductive Request where
  /-- A template by name; to search in given directories is not possible. -/
  | load (name : String) (directories : Bool)
  /-- What a name stands for. -/
  | find (name : String)
  /-- The source that a name stands for. -/
  | source (name : String)
  /-- Keep nothing any longer. -/
  | reset
  /-- Put something else on a shelf. -/
  | change (shelf : Nat) (name : String) (stored : Stored)
  deriving Repr, Inhabited

/-- The answer to a request, if it has one, and the loader after it. -/
def perform (l : Loader) (s : Session) :
    Request → Except Fault (Option (Found × Option String)) × Loader × Session
  | .load _ true => (.error .wrongType, l, s)
  | .load name false => l.run s (some <$> Shop.surroundings.load l.debug name)
  | .find name => l.run s do
    let (f, origin) ← Shop.surroundings.find name
    return some (f, some origin)
  | .source name => l.run s do
    let (text, place) ← Shop.surroundings.source name
    return some (.text text, some place)
  | .reset => (.ok none, { l with kept := {} }, s)
  | .change i name stored =>
    (.ok none, { l with shelves := l.shelves.modify i (Table.storeIn name stored) }, s)

end Loader

end Jade

import Jade.Compile

/-!
# The command line

Arguments are options, a template file and perhaps a file for the output. Long options may be
shortened as long as only one begins so, a value may follow in the same argument or in the next, and
options and files may be mixed; after two hyphens nothing is an option.
-/

namespace Jade.CommandLine

/-! ## Options -/

/-- An option. -/
inductive Flag where
  | help
  | output
  | compiler
  | extension
  deriving DecidableEq, Repr, Inhabited

def shortFlag? : Char → Option Flag
  | 'h' => some .help
  | 'o' => some .output
  | 'c' => some .compiler
  | 'e' => some .extension
  | _ => none

def longFlags : List (String × Flag) :=
  [("--compiler", .compiler), ("--ext", .extension), ("--help", .help), ("--output", .output)]

/-- Why arguments are refused. -/
inductive Refusal where
  /-- There is no such option. -/
  | unknown (option : String)
  /-- Several options begin so. -/
  | ambiguous (option : String) (candidates : List String)
  /-- The value of an option is missing. -/
  | valueMissing (option : String)
  /-- The option has no value. -/
  | valueUnwanted (option : String)
  /-- The value is none of those to choose from. -/
  | badChoice (option value : String) (choices : List String)
  deriving DecidableEq, Repr, Inhabited

def Refusal.message : Refusal → String
  | unknown option => "no such option: " ++ option
  | ambiguous option candidates =>
    "ambiguous option: " ++ option ++ " (" ++ joinWith ", " candidates ++ "?)"
  | valueMissing option => option ++ " option requires 1 argument"
  | valueUnwanted option => option ++ " option does not take a value"
  | badChoice option value choices =>
    "option " ++ option ++ ": invalid choice: " ++ quoted value ++ " (choose from " ++
      joinWith ", " (choices.map quoted) ++ ")"

/-- The options that a name may be short for; the name of an option stands for it alone. -/
def longFlag (name : String) : Except Refusal (String × Flag) :=
  match longFlags.find? (·.1 == name) with
  | some found => .ok found
  | none =>
    match longFlags.filter fun (full, _) => full.startsWith name with
    | [] => .error (.unknown name)
    | [found] => .ok found
    | several => .error (.ambiguous name (several.map Prod.fst))

/-! ## Requests -/

/-- What is asked for. -/
structure Request where
  output : Option String := none
  compiler : String
  extension : Option String := none
  files : List String := []
  deriving DecidableEq, Repr, Inhabited

/-- What arguments come to. -/
inductive Reading where
  | request (r : Request)
  | help
  | refused (why : Refusal)
  deriving DecidableEq, Repr, Inhabited

def Request.give (r : Request) (choices : List String) (name : String) (flag : Flag)
    (value : String) : Except Refusal Request :=
  match flag with
  | .help => .ok r
  | .output => .ok { r with output := some value }
  | .extension => .ok { r with extension := some value }
  | .compiler =>
    if choices.contains value then .ok { r with compiler := value }
    else .error (.badChoice name value choices)

/-- What a group of letters asks for: the value of an option is the rest of the group or, if that is
empty, the next argument. The outcome is none if help is asked for. -/
def readShort (choices : List String) (r : Request) (rest : List String) :
    List Char → Except Refusal (Option (Request × List String))
  | [] => .ok (some (r, rest))
  | c :: cs =>
    let name := "-" ++ String.singleton c
    match shortFlag? c with
    | none => .error (.unknown name)
    | some .help => .ok none
    | some flag =>
      match cs, rest with
      | [], [] => .error (.valueMissing name)
      | [], value :: rest => do return some (← r.give choices name flag value, rest)
      | cs, rest => do return some (← r.give choices name flag (String.ofList cs), rest)

def readLong (choices : List String) (r : Request) (rest : List String) (arg : String) :
    Except Refusal (Option (Request × List String)) := do
  let cs := arg.toList
  let start := cs.takeWhile (· ≠ '=')
  let (name, flag) ← longFlag (String.ofList start)
  let given : Option String := match cs.drop start.length with
    | _ :: value => some (String.ofList value)
    | [] => none
  match flag, given, rest with
  | .help, some _, _ => throw (.valueUnwanted name)
  | .help, none, _ => return none
  | flag, some value, rest => return some (← r.give choices name flag value, rest)
  | _, none, [] => throw (.valueMissing name)
  | flag, none, value :: rest => return some (← r.give choices name flag value, rest)

/-- Read arguments, at most `fuel` of them. -/
def readFrom (choices : List String) : Nat → Request → List String → Reading
  | 0, r, rest => .request { r with files := r.files ++ rest }
  | _ + 1, r, [] => .request r
  | fuel + 1, r, arg :: rest =>
    if arg == "--" then .request { r with files := r.files ++ rest }
    else if arg.startsWith "--" then follow fuel (readLong choices r rest arg)
    else if arg.startsWith "-" && arg ≠ "-" then
      follow fuel (readShort choices r rest (arg.toList.drop 1))
    else readFrom choices fuel { r with files := r.files ++ [arg] } rest
where
  /-- Go on after an option. -/
  follow (fuel : Nat) : Except Refusal (Option (Request × List String)) → Reading
    | .error why => .refused why
    | .ok none => .help
    | .ok (some (r, rest)) => readFrom choices fuel r rest

/-- A request from arguments, where `choices` are the dialects at hand and `default` is the one that
is written if none is named. -/
def readArgs (choices : List String) (default : String) (args : List String) : Reading :=
  readFrom choices (args.length + 1) { compiler := default } args

/-! ## Texts -/

def usage : String := "Usage: pyjade [options] file [output]\n"

def fileWanted : String := "Specify the input file as the first argument.\n"

/-- Words in lines of at most `width` characters; `line` is the current line. -/
def wrap (width : Nat) : String → List String → List String
  | line, [] => [line]
  | line, w :: ws =>
    if line.isEmpty then wrap width w ws
    else if line.length + 1 + w.length ≤ width then wrap width (line ++ " " ++ w) ws
    else line :: wrap width w ws

def helpText (choices : List String) (default : String) : String :=
  let margin := repeatText 24 " "
  let about := wrap 54 "" (words ("COMPILER must be one of " ++ joinWith "," choices ++
    ", default is " ++ default))
  usage ++ "\nOptions:\n" ++
    "  -h, --help            show this help message and exit\n" ++
    "  -o FILE, --output=FILE\n" ++ margin ++ "Write output to FILE\n" ++
    "  -c COMPILER, --compiler=COMPILER\n" ++
    String.join (about.map fun line => margin ++ line ++ "\n") ++
    "  -e FILE, --ext=FILE   Set import/extends default file extension\n"

/-! ## Runs -/

def offered : List String := ["django", "jinja", "underscore", "mako", "tornado"]

/-- A template to be written. -/
structure Job where
  input : String
  target : Option String
  dialect : Dialect
  extension : Option String
  deriving DecidableEq, Repr, Inhabited

/-- What is to be done. -/
inductive Plan where
  | job (j : Job)
  | say (text : String)
  | refuse (why : Refusal)
  deriving DecidableEq, Repr, Inhabited

def nonempty (s : Option String) : Option String := s.filter (!·.isEmpty)

/-- The job of a request for a file. The extension is the one asked for or else that of the output
file. -/
def Request.job (r : Request) (input : String) (more : List String) : Job where
  input
  target := (nonempty r.output).or (nonempty more.head?)
  dialect := (Dialect.ofName? r.compiler).getD .plain
  extension := match nonempty r.extension with
    | some e => some ("." ++ e)
    | none => (nonempty r.output).map Path.extension

/-- What is to be done for arguments when these dialects are at hand. Without any there is no
default to choose. -/
def plan (available : List String) (args : List String) : Except Fault Plan :=
  match available.mergeSort (fun a b => decide (a ≤ b)) with
  | [] => .error .noSuchPosition
  | default :: _ =>
    match readArgs available default args with
    | .refused why => .ok (.refuse why)
    | .help => .ok (.say (helpText available default))
    | .request r =>
      match r.files with
      | [] => .ok (.say fileWanted)
      | input :: more => .ok (.job (r.job input more))

/-- The output of a job for the bytes of its template. -/
def Job.output (j : Job) (s : Session) (bytes : ByteArray) : Except Fault String × Session :=
  match Source.ofBytes bytes with
  | .error e => (.error e, s)
  | .ok source => s.process j.dialect { extension := some j.extension } source none

/-! ## Directories in memory -/

/-- A directory with files by path. -/
structure Directory where
  files : List (String × ByteArray) := []

namespace Directory

/-- Whether a path is that of the directory itself or of one in it. -/
def isFolder (d : Directory) (path : String) : Bool :=
  path == "." || path == "./" || d.files.any fun (p, _) => p.startsWith (path ++ "/")

/-- A path without a dot for the directory itself. -/
def resolve (path : String) : String :=
  match path.toList with
  | '.' :: '/' :: rest => String.ofList rest
  | _ => path

def read (d : Directory) (path : String) : Except Fault ByteArray :=
  match d.files.find? (·.1 == resolve path) with
  | some (_, bytes) => .ok bytes
  | none => if d.isFolder path then .error (.isDirectory path) else .error (.fileMissing path)

def write (d : Directory) (path text : String) : Except Fault Directory :=
  let path := resolve path
  let folder := String.ofList ((path.toList.reverse.dropWhile (· ≠ '/')).reverse.dropLast)
  if d.isFolder path then .error (.isDirectory path)
  else if folder.isEmpty || d.isFolder folder then
    .ok { files := Table.storeIn path text.toUTF8 d.files }
  else .error (.fileMissing path)

end Directory

/-- What a run leaves behind. -/
structure Outcome where
  /-- What was written to standard output. -/
  stdout : String := ""
  /-- The status, if the run ended before its work was done. -/
  status : Option Nat := none
  /-- What went wrong. -/
  fault : Option Fault := none
  /-- The directory afterwards. -/
  directory : Directory

def runIn (s : Session) (available : List String) (args : List String) (d : Directory) :
    Outcome × Session :=
  match plan available args with
  | .error e => ({ fault := some e, directory := d }, s)
  | .ok (.refuse _) => ({ status := some 2, directory := d }, s)
  | .ok (.say text) => ({ stdout := text, status := some 0, directory := d }, s)
  | .ok (.job j) =>
    match d.read j.input with
    | .error e => ({ fault := some e, directory := d }, s)
    | .ok bytes =>
      match j.output s bytes with
      | (.error e, s) => ({ fault := some e, directory := d }, s)
      | (.ok text, s) =>
        match j.target with
        | none => ({ stdout := text ++ "\n", directory := d }, s)
        | some path =>
          match d.write path text with
          | .ok d => ({ directory := d }, s)
          | .error e => ({ fault := some e, directory := d }, s)

end Jade.CommandLine

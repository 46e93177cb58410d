/-!
# Faults

Everything that can go wrong while a template is read, written or rendered, by cause. A fault either
belongs to the template language and has a message of its own, or comes from an operation on values
that does not apply.
-/

namespace Jade

/-- Why an operation failed. -/
inductive Fault where
  /-- A line is indented with tabs and blanks at once. -/
  | mixedIndentation
  /-- Another kind of token was needed. -/
  | expected (wanted found : String) (file : Option String) (line : Nat)
  /-- No node starts with this kind of token. -/
  | unexpected (found : String) (file : Option String) (line : Nat)
  /-- No filter of this name takes text. -/
  | unknownFilter (name : String)
  /-- No filter of this name takes nodes. -/
  | unknownTreeFilter (name : String)
  /-- The dialect cannot express the construct. -/
  | notSupported (what : String)
  /-- A macro tag lacks the name of its macro. -/
  | macroNameMissing (tag : String)
  /-- A macro is used before it is defined. -/
  | macroUndefined (name : String)
  /-- No loader knows the template. -/
  | templateMissing (name : String)
  /-- A character was needed where the source has ended. -/
  | endOfSource
  /-- Reading goes on for ever. -/
  | endless
  /-- The bytes are no UTF-8 text. -/
  | undecodable
  /-- The file cannot be found. -/
  | fileMissing (name : String)
  /-- The path names a directory. -/
  | isDirectory (name : String)
  /-- A loader does not offer the operation. -/
  | notOffered
  /-- An expression or statement is malformed. -/
  | malformed
  /-- A name is bound to nothing. -/
  | unbound (name : String)
  /-- An operation does not apply to values of this type. -/
  | wrongType
  /-- A value of the right type is out of the operation's range. -/
  | badValue
  /-- A key is not in the table. -/
  | noSuchKey
  /-- A position is outside of the sequence. -/
  | noSuchPosition
  /-- A value has no member of this name. -/
  | noSuchMember
  /-- Division by zero. -/
  | divisionByZero
  /-- A number is too large for the result's type. -/
  | overflow
  /-- Calls are nested too deeply. -/
  | tooDeep
  /-- A table has got more pairs while a loop runs through it. -/
  | changed
  deriving DecidableEq, Repr, Inhabited

namespace Fault

def fileText : Option String → String
  | some name => name
  | none => "None"

/-- The wording of a fault of the template language; none for a fault of an operation on values. -/
def message? : Fault → Option String
  | mixedIndentation => some "Invalid indentation, you can use tabs or spaces but not both"
  | expected wanted found file line =>
    some ("expected \"" ++ wanted ++ "\" but got \"" ++ found ++ "\" in file " ++ fileText file ++
      " on line " ++ toString line)
  | unexpected found file line =>
    some ("unexpected token \"" ++ found ++ "\" in file " ++ fileText file ++ " on line " ++
      toString line)
  | unknownFilter name => some ("unknown filter \"" ++ name ++ "\"")
  | unknownTreeFilter name => some ("unknown ast filter \"" ++ name ++ "\"")
  | notSupported what => some what
  | macroNameMissing tag => some ("'" ++ tag ++ "' tag requires at least one argument (macro name)")
  | macroUndefined name => some ("Macro '" ++ name ++ "' is not defined")
  | templateMissing name => some name
  | _ => none

end Fault

end Jade

/-!
# Dialects

The languages that a template can be written in, and rendering as a page.
-/

namespace Jade

/-- What a template is written as. -/
inductive Dialect where
  /-- The dialect that all others vary. -/
  | plain
  /-- Jinja templates. -/
  | jinja
  /-- Mako templates. -/
  | mako
  /-- Tornado templates. -/
  | tornado
  /-- Underscore templates. -/
  | underscore
  /-- Django templates. -/
  | django
  /-- A page, for which scripts are run at once. -/
  | page
  deriving DecidableEq, Repr, Inhabited

def Dialect.ofName? : String → Option Dialect
  | "base" => some .plain
  | "jinja" => some .jinja
  | "mako" => some .mako
  | "tornado" => some .tornado
  | "underscore" => some .underscore
  | "django" => some .django
  | "html" => some .page
  | _ => none

end Jade

/-!
# Interpolation

A text may hold markers: a `#` or a `!` with an expression in braces on the same line. A backslash
before a marker belongs to it. The first closing brace ends a marker, and what only begins like one
is plain text.
-/

namespace Jade

/-- The characters up to the first closing brace on this line, and what follows the brace. -/
def upToBrace : List Char → Option (List Char × List Char)
  | [] => none
  | c :: cs =>
    if c = '\x7d' then some ([], cs)
    else if c = '\n' then none
    else (upToBrace cs).map fun (e, rest) => (c :: e, rest)

theorem length_lt_of_upToBrace {cs e rest : List Char} (h : upToBrace cs = some (e, rest)) :
    rest.length < cs.length := by
  induction cs generalizing e with
  | nil => simp [upToBrace] at h
  | cons c cs ih =>
    simp only [upToBrace] at h
    split at h
    · simp at h
      simp [h.2]
    · split at h
      · simp at h
      · obtain ⟨⟨e', rest'⟩, h', heq⟩ := Option.map_eq_some_iff.1 h
        have hrest : rest' = rest := (Prod.mk.inj heq).2
        have := ih (hrest ▸ h')
        simp only [List.length_cons]
        omega

def isMark (c : Char) : Bool := c == '#' || c == '!'

/-- The expression of a marker at the start, its mark, and what follows the marker. -/
def marker? : List Char → Option (Char × List Char × List Char)
  | '\\' :: m :: '\x7b' :: cs =>
    if isMark m then (upToBrace cs).map fun (e, rest) => (m, e, rest) else none
  | m :: '\x7b' :: cs =>
    if isMark m then (upToBrace cs).map fun (e, rest) => (m, e, rest) else none
  | _ => none

theorem length_lt_of_marker? {cs e rest : List Char} {m : Char}
    (h : marker? cs = some (m, e, rest)) : rest.length < cs.length := by
  unfold marker? at h
  split at h
  case h_3 => simp at h
  -- with a backslash before the mark or without
  all_goals
    split at h
    · obtain ⟨⟨e', rest'⟩, h', heq⟩ := Option.map_eq_some_iff.1 h
      have := length_lt_of_upToBrace h'
      simp only [Prod.mk.injEq] at heq
      simp only [← heq.2.2, List.length_cons]
      omega
    · simp at h

/-- A part of a text. -/
inductive Segment where
  /-- A character that stands for itself. -/
  | plain (c : Char)
  /-- A marker with its mark and its expression. -/
  | marker (mark : Char) (expr : List Char)
  deriving DecidableEq, Repr, Inhabited

/-- A text cut into plain characters and markers. -/
def segments (cs : List Char) : List Segment :=
  match _h : marker? cs with
  | some (m, e, rest) => .marker m e :: segments rest
  | none =>
    match cs with
    | [] => []
    | c :: cs' => .plain c :: segments cs'
termination_by cs.length
decreasing_by
  · exact length_lt_of_marker? _h
  · simp

/-- A text with every marker replaced by what `f` makes of its expression. -/
def fill (f : String → String) (s : String) : String :=
  String.join ((segments s.toList).map fun
    | .plain c => c.toString
    | .marker _ e => f (String.ofList e))

/-- A text with every marker replaced by what the action `f` makes of its expression, from left to
right. -/
def fillM {m : Type → Type} [Monad m] (f : String → m String) (s : String) : m String := do
  let parts ← (segments s.toList).mapM fun
    | .plain c => pure c.toString
    | .marker _ e => f (String.ofList e)
  return String.join parts

end Jade

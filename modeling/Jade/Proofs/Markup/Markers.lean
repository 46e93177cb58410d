import Jade.Dialect.Plain

/-!
# Markers in a text

A marker is a mark with an expression in braces, and maybe a backslash before it. `Cut` says how a
text falls into markers and characters that stand for themselves: from left to right, and a
character is plain only if no marker begins with it. This is said without a way to find markers, and
it is how `segments` cuts a text.

What templates make of a marker does not depend on its mark, and not on the backslash either: only
on where the text stands. What one would expect of it (`Span.promised`) is the same for texts whose
markers all fit the place.

## Main results

* `Jade.exists_cut`, `Jade.segments_of_cut` : every text is cut in one way
* `Jade.filled_of_cut` : what is written for a text
* `Jade.join_shown_eq_promised` : where that is what the marks ask for
-/

namespace Jade

/-- A marker. -/
structure Marker where
  quoted : Bool
  mark : Char
  expr : List Char
  isMark_mark : isMark mark = true
  expr_inline : ∀ c ∈ expr, c ≠ '\x7d' ∧ c ≠ '\n'

/-- A marker as it stands in a text. -/
def Marker.source (m : Marker) : List Char :=
  (if m.quoted then ['\\'] else []) ++ m.mark :: '\x7b' :: (m.expr ++ ['\x7d'])

/-- A part of a text. -/
inductive Span where
  | char (c : Char)
  | marker (m : Marker)

/-- How a text falls into parts. -/
inductive Cut : List Char → List Span → Prop
  | nil : Cut [] []
  | marker (m : Marker) {cs : List Char} {spans : List Span} (h : Cut cs spans) :
    Cut (m.source ++ cs) (.marker m :: spans)
  | char {c : Char} {cs : List Char} {spans : List Span}
    (hc : ∀ (m : Marker) rest, c :: cs ≠ m.source ++ rest) (h : Cut cs spans) :
    Cut (c :: cs) (.char c :: spans)

/-! ## Finding markers -/

theorem upToBrace_append {e : List Char} (he : ∀ c ∈ e, c ≠ '\x7d' ∧ c ≠ '\n') (rest : List Char) :
    upToBrace (e ++ '\x7d' :: rest) = some (e, rest) := by
  induction e with
  | nil => rfl
  | cons c e ih =>
    obtain ⟨⟨hbrace, hline⟩, he⟩ := List.forall_mem_cons.mp he
    rw [List.cons_append, upToBrace, if_neg hbrace, if_neg hline, ih he]
    rfl

theorem of_upToBrace {cs e rest : List Char} (h : upToBrace cs = some (e, rest)) :
    cs = e ++ '\x7d' :: rest ∧ ∀ c ∈ e, c ≠ '\x7d' ∧ c ≠ '\n' := by
  induction cs generalizing e with
  | nil => exact absurd h (by simp [upToBrace])
  | cons c cs ih =>
    rw [upToBrace] at h
    split at h
    · next hbrace =>
      cases h
      exact ⟨by rw [hbrace]; rfl, by simp⟩
    · next hbrace =>
      split at h
      · cases h
      · next hline =>
        obtain ⟨⟨e', rest'⟩, h', heq⟩ := Option.map_eq_some_iff.mp h
        cases heq
        obtain ⟨rfl, he⟩ := ih h'
        exact ⟨rfl, List.forall_mem_cons.mpr ⟨⟨hbrace, hline⟩, he⟩⟩

theorem Marker.mark_eq (m : Marker) : m.mark = '#' ∨ m.mark = '!' := by
  simpa [isMark] using m.isMark_mark

theorem marker?_source (m : Marker) (rest : List Char) :
    marker? (m.source ++ rest) = some (m.mark, m.expr, rest) := by
  have hexpr := upToBrace_append m.expr_inline rest
  obtain ⟨quoted, mark, expr, hmark, hinline⟩ := m
  rcases Marker.mark_eq ⟨quoted, mark, expr, hmark, hinline⟩ with rfl | rfl <;> cases quoted <;>
    simp [Marker.source, marker?, isMark, hexpr]

theorem exists_source {cs expr rest : List Char} {mark : Char}
    (h : marker? cs = some (mark, expr, rest)) :
    ∃ m : Marker, m.mark = mark ∧ m.expr = expr ∧ cs = m.source ++ rest := by
  have hbraces : ∀ {mark' : Char} {cs' : List Char} (quoted : Bool),
      (if isMark mark' then (upToBrace cs').map fun r => (mark', r.1, r.2) else none) =
        some (mark, expr, rest) → ∃ m : Marker, m.mark = mark ∧ m.expr = expr ∧
          (if quoted then ['\\'] else []) ++ mark' :: '\x7b' :: cs' = m.source ++ rest := by
    intro mark' cs' quoted h
    split at h
    · next hmark =>
      obtain ⟨⟨e, rest'⟩, h', heq⟩ := Option.map_eq_some_iff.mp h
      simp only [Prod.mk.injEq] at heq
      obtain ⟨rfl, rfl, rfl⟩ := heq
      obtain ⟨rfl, hinline⟩ := of_upToBrace h'
      exact ⟨⟨quoted, mark', e, hmark, hinline⟩, rfl, rfl, by simp [Marker.source]⟩
    · cases h
  unfold marker? at h
  split at h
  · exact hbraces true h
  · exact hbraces false h
  · cases h

/-- **Every text** falls into parts, by recursion on what is left of it. -/
theorem exists_cut (cs : List Char) : ∃ spans, Cut cs spans := by
  cases hmarker : marker? cs with
  | some found =>
    obtain ⟨mark, expr, rest⟩ := found
    have := length_lt_of_marker? hmarker
    obtain ⟨spans, hspans⟩ := exists_cut rest
    obtain ⟨m, -, -, rfl⟩ := exists_source hmarker
    exact ⟨.marker m :: spans, .marker m hspans⟩
  | none =>
    cases cs with
    | nil => exact ⟨[], .nil⟩
    | cons c cs =>
      obtain ⟨spans, hspans⟩ := exists_cut cs
      refine ⟨.char c :: spans, .char (fun m rest heq => ?_) hspans⟩
      rw [heq, marker?_source] at hmarker
      cases hmarker
termination_by cs.length

/-! ## What is written for a text -/

namespace Span

/-- The part as a segment. -/
def segment : Span → Segment
  | char c => .plain c
  | marker m => .marker m.mark m.expr

/-- What is written for a part. -/
def shown (s : Setup) (escape : Bool) : Span → String
  | char c => c.toString
  | marker m =>
    s.variableStart ++ String.ofList m.expr ++ (if escape then "|escape" else "") ++ s.variableEnd

/-- What a part asks for: a hash mark for escaping, an exclamation mark for none, and a backslash
for the marker itself. -/
def promised (s : Setup) : Span → String
  | char c => c.toString
  | marker m =>
    if m.quoted then String.ofList m.source
    else s.variableStart ++ String.ofList m.expr ++ (if m.mark = '#' then "|escape" else "") ++
      s.variableEnd

/-- A marker that asks for what is written in a place where expressions are escaped or not. -/
def Fits (escape : Bool) : Span → Prop
  | char _ => True
  | marker m => m.quoted = false ∧ (m.mark = '#' ↔ escape = true)

end Span

variable {cs : List Char} {spans : List Span}

theorem segments_of_marker? {expr rest : List Char} {mark : Char}
    (h : marker? cs = some (mark, expr, rest)) :
    segments cs = .marker mark expr :: segments rest := by
  rw [segments]
  split
  · next heq =>
    rw [h] at heq
    simp only [Option.some.injEq, Prod.mk.injEq] at heq
    obtain ⟨rfl, rfl, rfl⟩ := heq
    rfl
  · next heq =>
    rw [h] at heq
    cases heq

theorem segments_cons {c : Char} (h : marker? (c :: cs) = none) :
    segments (c :: cs) = .plain c :: segments cs := by
  rw [segments]
  split
  · next heq =>
    rw [h] at heq
    cases heq
  · rfl

/-- **Segments** are the parts of a text. -/
theorem segments_of_cut (h : Cut cs spans) : segments cs = spans.map Span.segment := by
  induction h with
  | nil =>
    rw [segments]
    rfl
  | @marker m cs spans h ih =>
    rw [segments_of_marker? (marker?_source m cs), ih]
    rfl
  | @char c cs spans hc h ih =>
    have hnone : marker? (c :: cs) = none := by
      cases hfound : marker? (c :: cs) with
      | none => rfl
      | some found =>
        obtain ⟨m, -, -, hsource⟩ := exists_source hfound
        exact absurd hsource (hc m _)
    rw [segments_cons hnone, ih]
    rfl

/-- A text with the expressions of its markers between the delimiters of variables. -/
def Setup.filled (s : Setup) (escape : Bool) (t : String) : String :=
  fill (fun e => s.variableStart ++ e ++ (if escape then "|escape" else "") ++ s.variableEnd) t

/-- **What is written for a text**, part by part. -/
theorem filled_of_cut {t : String} (h : Cut t.toList spans) (s : Setup) (escape : Bool) :
    s.filled escape t = String.join (spans.map (Span.shown s escape)) := by
  rw [Setup.filled, fill, segments_of_cut h, List.map_map]
  refine congrArg String.join (List.map_congr_left fun span _ => ?_)
  cases span with
  | char c => rfl
  | marker m => rfl

theorem join_shown_eq_promised {s : Setup} {escape : Bool} (h : ∀ span ∈ spans, span.Fits escape) :
    String.join (spans.map (Span.shown s escape)) = String.join (spans.map (Span.promised s)) := by
  refine congrArg String.join (List.map_congr_left fun span hspan => ?_)
  cases span with
  | char c => rfl
  | marker m =>
    obtain ⟨hquoted, hmark⟩ := h _ hspan
    simp only [Span.shown, Span.promised, hquoted, hmark, Bool.false_eq_true, if_false]

end Jade

import Jade.Markup
import Mathlib.Data.Bool.AllAny
import Mathlib.Data.List.Basic

/-!
# Escaping

A text is escaped by one replacement after the other, each made in the whole text that the ones
before it leave. This comes to the same as replacing every character of the text once, provided that
no replacement brings in a character that is replaced later. The table of markup meets this
condition because the ampersand is its first entry.

An escaped text is safe, as no ampersand stands in it but at the start of an escape, and the other
characters with a meaning in markup do not stand in it at all. It is read back by one pass from left
to right, also if the text had escapes in it from the beginning.

## Main results

* `Jade.toList_foldl_replaceChar` : when replacements can be made at once
* `Jade.decodeText_escapeText` : decoding undoes escaping
* `Jade.escape_text_invertible` : escaped texts are safe, and can be read back
-/

namespace Jade

/-! ## Replacements one after the other -/

/-- What a table has for a character: the character itself if there is nothing. -/
def replacement (table : List (Char × String)) (c : Char) : List Char :=
  (table.lookup c).elim [c] String.toList

theorem replacement_cons (c : Char) (text : String) (table : List (Char × String)) (d : Char) :
    replacement ((c, text) :: table) d = if d = c then text.toList else replacement table d := by
  by_cases h : d = c
  · simp [replacement, h]
  · have hbeq : (d == c) = false := beq_eq_false_iff_ne.2 h
    simp [replacement, List.lookup_cons, h, hbeq]

theorem replacement_of_not_mem {table : List (Char × String)} {c : Char}
    (h : ∀ entry ∈ table, entry.1 ≠ c) : replacement table c = [c] := by
  induction table with
  | nil => rfl
  | cons entry table ih =>
    rw [List.forall_mem_cons] at h
    rw [replacement_cons, if_neg (Ne.symm h.1), ih h.2]

/-- **Replacements can be made at once** if none of them brings in a character that is replaced
later. -/
theorem toList_foldl_replaceChar {table : List (Char × String)}
    (h : table.Pairwise fun entry later => later.1 ∉ entry.2.toList) (s : String) :
    (table.foldl (fun s entry => replaceChar entry.1 entry.2 s) s).toList =
      s.toList.flatMap (replacement table) := by
  induction table generalizing s with
  | nil => exact (List.flatMap_singleton' s.toList).symm
  | cons entry table ih =>
    obtain ⟨hentry, htable⟩ := List.pairwise_cons.1 h
    have hkept : entry.2.toList.flatMap (replacement table) = entry.2.toList := by
      refine (List.flatMap_congr fun c hc => ?_).trans (List.flatMap_singleton' _)
      refine replacement_of_not_mem fun later hlater heq => ?_
      exact hentry later hlater (heq ▸ hc)
    rw [List.foldl_cons, ih htable, replaceChar, String.toList_ofList, List.flatMap_assoc]
    refine List.flatMap_congr fun d _ => ?_
    rw [replacement_cons]
    split
    · exact hkept
    · exact List.flatMap_singleton _ _

/-! ## Characters with a meaning in markup -/

/-- The characters with a meaning in markup. -/
def markupChars : List Char := ['&', '<', '>', '"', '\'']

/-- Whether no character of a text has a meaning in markup. -/
def IsClean (s : String) : Prop := ∀ c ∈ s.toList, c ∉ markupChars

instance (s : String) : Decidable (IsClean s) :=
  List.decidableBAll (fun c => c ∉ markupChars) s.toList

/-- How a character stands in markup. -/
def escapeChar : Char → List Char := replacement entities

theorem toList_escapeText (s : String) : (escapeText s).toList = s.toList.flatMap escapeChar :=
  toList_foldl_replaceChar (by decide) s

theorem escapeChar_of_not_mem {c : Char} (h : c ∉ markupChars) : escapeChar c = [c] := by
  refine replacement_of_not_mem fun entry hentry heq => h ?_
  have hall : entities.map Prod.fst = markupChars := rfl
  rw [← hall, ← heq]
  exact List.mem_map_of_mem hentry

theorem one_lt_length_escapeChar : ∀ c ∈ markupChars, 1 < (escapeChar c).length :=
  List.all_iff_forall_prop.mp (by decide)

theorem length_escapeText (s : String) :
    s.length ≤ (escapeText s).length ∧ ((escapeText s).length = s.length → IsClean s) := by
  have hchars : ∀ cs : List Char, cs.length ≤ (cs.flatMap escapeChar).length ∧
      ((cs.flatMap escapeChar).length = cs.length → ∀ c ∈ cs, c ∉ markupChars) := by
    intro cs
    induction cs with
    | nil => simp
    | cons c cs ih =>
      rw [List.flatMap_cons, List.length_append, List.length_cons, List.forall_mem_cons]
      by_cases hc : c ∈ markupChars
      · have := one_lt_length_escapeChar c hc
        exact ⟨by omega, fun h => absurd h (by omega)⟩
      · rw [escapeChar_of_not_mem hc, List.length_singleton]
        exact ⟨by omega, fun h => ⟨hc, ih.2 (by omega)⟩⟩
  have hlength : (escapeText s).length = (s.toList.flatMap escapeChar).length := by
    rw [← String.length_toList, toList_escapeText]
  rw [hlength, ← String.length_toList]
  exact hchars s.toList

/-- **What escaping leaves as it is.** -/
theorem escapeText_of_isClean {s : String} (h : IsClean s) : escapeText s = s := by
  have hchars : s.toList.flatMap escapeChar = s.toList.flatMap (fun c => [c]) :=
    List.flatMap_congr fun c hc => escapeChar_of_not_mem (h c hc)
  rw [← String.toList_inj, toList_escapeText, hchars, List.flatMap_singleton']

/-- What escaping writes has no meaning in markup but for the ampersands. -/
theorem mem_escapeChar {c d : Char} (h : d ∈ escapeChar c) : d = '&' ∨ d ∉ markupChars := by
  by_cases hc : c ∈ markupChars
  · have hall : (markupChars.flatMap escapeChar).all
        (fun d => d == '&' || !markupChars.contains d) = true := by decide
    simpa using List.all_eq_true.mp hall d (List.mem_flatMap.mpr ⟨c, hc, h⟩)
  · rw [escapeChar_of_not_mem hc, List.mem_singleton] at h
    rw [h]
    exact .inr hc

theorem mem_escapeText {s : String} {d : Char} (h : d ∈ (escapeText s).toList) :
    d = '&' ∨ d ∉ markupChars := by
  rw [toList_escapeText, List.mem_flatMap] at h
  obtain ⟨c, -, hc⟩ := h
  exact mem_escapeChar hc

theorem quote_not_mem_escapeText (s : String) : '"' ∉ (escapeText s).toList := by
  intro hquote
  rcases mem_escapeText hquote with h | h
  · cases h
  · exact h (by decide)

/-! ## Decoding -/

/-- Characters with their escapes replaced by what they stand for. An ampersand that begins none of
them stands for itself. -/
def decodeChars : List Char → List Char
  | '&' :: 'a' :: 'm' :: 'p' :: ';' :: cs => '&' :: decodeChars cs
  | '&' :: 'l' :: 't' :: ';' :: cs => '<' :: decodeChars cs
  | '&' :: 'g' :: 't' :: ';' :: cs => '>' :: decodeChars cs
  | '&' :: 'q' :: 'u' :: 'o' :: 't' :: ';' :: cs => '"' :: decodeChars cs
  | '&' :: '#' :: '3' :: '9' :: ';' :: cs => '\'' :: decodeChars cs
  | c :: cs => c :: decodeChars cs
  | [] => []

/-- A text whose characters are no longer escaped. -/
def decodeText (s : String) : String := String.ofList (decodeChars s.toList)

theorem decodeChars_cons {c : Char} (h : c ≠ '&') (cs : List Char) :
    decodeChars (c :: cs) = c :: decodeChars cs := by
  rw [decodeChars.eq_def]
  split
  · next heq => exact absurd (List.cons.inj heq).1 h
  · next heq => exact absurd (List.cons.inj heq).1 h
  · next heq => exact absurd (List.cons.inj heq).1 h
  · next heq => exact absurd (List.cons.inj heq).1 h
  · next heq => exact absurd (List.cons.inj heq).1 h
  · next heq =>
    cases heq
    rfl
  · next heq => cases heq

/-- One character is decoded, and what follows it is not looked at. -/
theorem decodeChars_escapeChar (c : Char) (cs : List Char) :
    decodeChars (escapeChar c ++ cs) = c :: decodeChars cs := by
  by_cases hc : c ∈ markupChars
  · simp only [markupChars, List.mem_cons, List.not_mem_nil, or_false] at hc
    rcases hc with rfl | rfl | rfl | rfl | rfl
    all_goals rfl
  · rw [escapeChar_of_not_mem hc]
    refine decodeChars_cons ?_ cs
    rintro rfl
    exact hc (by decide)

/-- **Decoding undoes escaping.** -/
theorem decodeText_escapeText (s : String) : decodeText (escapeText s) = s := by
  have hchars : ∀ cs : List Char, decodeChars (cs.flatMap escapeChar) = cs := by
    intro cs
    induction cs with
    | nil => rfl
    | cons c cs ih => rw [List.flatMap_cons, decodeChars_escapeChar, ih]
  rw [decodeText, toList_escapeText, hchars]
  exact String.ofList_toList

/-! ## Where ampersands stand -/

/-- An ampersand is the first character of what is written for a character, and then this is an
entity. -/
theorem entity_of_escapeChar {c : Char} {before after : List Char}
    (h : escapeChar c = before ++ '&' :: after) :
    before = [] ∧ ∃ entity ∈ entities, entity.2.toList = '&' :: after := by
  by_cases hc : c ∈ markupChars
  · have htail : ∀ c ∈ markupChars, '&' ∉ (escapeChar c).tail :=
      List.all_iff_forall_prop.mp (by decide)
    have hentity : ∀ c ∈ markupChars, ∃ entity ∈ entities, entity.2.toList = escapeChar c :=
      List.all_iff_forall_prop.mp (by decide)
    replace htail := htail c hc
    replace hentity := hentity c hc
    cases before with
    | nil => exact ⟨rfl, by rwa [h] at hentity⟩
    | cons d before =>
      rw [h] at htail
      exact absurd (List.mem_append_right before List.mem_cons_self) htail
  · rw [escapeChar_of_not_mem hc] at h
    have hmem : '&' ∈ [c] := h ▸ List.mem_append_right before List.mem_cons_self
    rw [List.mem_singleton] at hmem
    exact absurd (hmem ▸ hc) (by decide)

/-- In an escaped text, an ampersand is the start of an entity. -/
theorem entity_of_flatMap {cs before after : List Char}
    (h : cs.flatMap escapeChar = before ++ '&' :: after) :
    ∃ entity ∈ entities, entity.2.toList <+: '&' :: after := by
  induction cs generalizing before with
  | nil => exact absurd h.symm (by simp)
  | cons c cs ih =>
    rw [List.flatMap_cons, List.append_eq_append_iff] at h
    -- The ampersand stands in what is written for the first character, or after it.
    obtain ⟨before', -, hrest⟩ | ⟨here, hchar, hhere⟩ := h
    · exact ih hrest
    · cases here with
      | nil => exact ih (show _ = [] ++ _ from hhere.symm)
      | cons d here =>
        obtain ⟨rfl, -⟩ := List.cons.inj hhere
        obtain ⟨-, entity, hmem, hentity⟩ := entity_of_escapeChar hchar
        exact ⟨entity, hmem, _, by rw [hentity, hhere]⟩

/-- **Escaped texts are safe, and can be read back.** Of the characters with a meaning in markup
only ampersands stand in an escaped text, each at the start of an entity; one pass over the entities
from left to right gives the text that was escaped, so no other text is escaped to the same. -/
theorem escape_text_invertible (s : String) :
    ∃ out, escape (.text s) = .ok out ∧ (∀ c ∈ ['<', '>', '"', '\''], c ∉ out.toList) ∧
      (∀ before after, out.toList = before ++ '&' :: after →
        ∃ entity ∈ entities, entity.2.toList <+: '&' :: after) ∧
      decodeText out = s ∧ ∀ t, escape (.text t) = .ok out → t = s := by
  refine ⟨escapeText s, rfl, fun c hc hmem => ?_, fun before after h => ?_,
    decodeText_escapeText s, fun t ht => ?_⟩
  · have hmarkup : ∀ c ∈ ['<', '>', '"', '\''], c ≠ '&' ∧ c ∈ markupChars :=
      List.all_iff_forall_prop.mp (by decide)
    exact (mem_escapeText hmem).elim (hmarkup c hc).1 fun h => h (hmarkup c hc).2
  · exact entity_of_flatMap ((toList_escapeText s).symm.trans h)
  · have hout : escapeText t = escapeText s := Except.ok.inj ht
    rw [← decodeText_escapeText t, hout, decodeText_escapeText]

example : escapeText "a<b && \"c&lt;\"" = "a&lt;b &amp;&amp; &quot;c&amp;lt;&quot;" := by
  decide +kernel

end Jade

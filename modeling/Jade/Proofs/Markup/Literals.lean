import Jade.Proofs.Dialect.Jinja
import Jade.Proofs.Emitter.Output
import Jade.Proofs.Markup.Escaping

/-!
# Attributes with literal values

An attribute may have a literal as its value: a text with or without quotes, a numeral, a word for a
truth value, or no value at all. A tag all of whose attributes are literals leaves nothing to be
computed. What is written for it is given here by a function that takes as a parameter how the name
of an attribute is written for the second time, which happens if the attribute is true.

## Main results

* `Jade.LiteralAttribute.attributes_eq` : the attributes of a tag once they are settled
* `Jade.LiteralAttribute.run_attributes` : literal attributes when a template is compiled
-/

namespace Jade

/-! ## Literals -/

/-- A text in which no character has a meaning in markup. -/
abbrev CleanText := { s : String // IsClean s }

/-- A text as the value of an attribute. -/
inductive TextLiteral where
  /-- A text between quotes, which are double or single ones. -/
  | quoted (double : Bool) (content : CleanText)
  /-- A text without quotes, as after a dot or a hash mark. -/
  | shorthand (content : CleanText) (ne_empty : content.1 ≠ "")

/-- A literal value of an attribute. -/
inductive Literal where
  | text (t : TextLiteral)
  | number (n : Nat)
  | unset
  | word (w : Option Bool)

/-- An attribute that is no class, with a literal value. -/
structure NamedLiteral where
  name : String
  ne_class : name ≠ "class"
  value : Literal

/-- An attribute with a literal value. Classes are texts. -/
inductive LiteralAttribute where
  | named (a : NamedLiteral)
  | ofClass (t : TextLiteral)

/-- The quote around a text. -/
def quoteMark (double : Bool) : String := if double then "\"" else "'"

/-- The text itself. -/
def TextLiteral.content : TextLiteral → String
  | quoted _ c | shorthand c _ => c.1

theorem TextLiteral.isClean_content (t : TextLiteral) : IsClean t.content := by
  cases t with
  | quoted _ c => exact c.2
  | shorthand c _ => exact c.2

/-- The text as it is given. -/
def TextLiteral.given : TextLiteral → String
  | quoted double c => quoteMark double ++ c.1 ++ quoteMark double
  | shorthand c _ => c.1

/-- How a word for a truth value is given. -/
def truthWord : Option Bool → String
  | some true => "True"
  | some false => "False"
  | none => "None"

/-- An attribute as it is read. Texts, numerals and attributes without a value are fixed. -/
def Literal.asRead (name : String) : Literal → Attribute
  | text t => { name, val := .text t.given, fixed := true }
  | number n => { name, val := .text (toString n), fixed := true }
  | unset => { name, val := .bool true, fixed := true }
  | word w => { name, val := .text (truthWord w), fixed := false }

/-- The value that a literal stands for. -/
def Literal.denoted : Literal → Value
  | text t => .text t.content
  | number n => .int n
  | unset => .bool true
  | word (some b) => .bool b
  | word none => .none

/-- Whether the literal stands for true. -/
def Literal.isTrue : Literal → Bool
  | unset | word (some true) => true
  | _ => false

namespace LiteralAttribute

/-- The attribute as it is read. -/
def asRead : LiteralAttribute → Attribute
  | named a => a.value.asRead a.name
  | ofClass t => (Literal.text t).asRead "class"

/-- The attributes that are no classes. -/
def others (ls : List LiteralAttribute) : List NamedLiteral :=
  ls.filterMap fun
    | named a => some a
    | ofClass _ => none

/-- The classes. -/
def classes (ls : List LiteralAttribute) : List TextLiteral :=
  ls.filterMap fun
    | named _ => none
    | ofClass t => some t

/-- The names and values: all but the classes in order, then the classes as one tuple, if there are
any. -/
def pairs (ls : List LiteralAttribute) : List (Value × Value) :=
  (others ls).map (fun a => (.text a.name, a.value.denoted)) ++
    if (classes ls).isEmpty then []
    else [(.text "class", .tuple ((classes ls).map fun t => .text t.content))]

end LiteralAttribute

/-! ## What is written -/

/-- One attribute, if it is shown at all. If it is true and not in the short form, its name is
written twice, where `again` says how it is written for the second time. -/
def NamedLiteral.shown (terse : Bool) (again : String → String) (a : NamedLiteral) :
    Option String :=
  match a.value with
  | .text t => some (a.name ++ "=\"" ++ t.content ++ "\"")
  | .number n => some (a.name ++ "=\"" ++ toString n ++ "\"")
  | .unset | .word (some true) =>
    some (if terse then a.name else a.name ++ "=\"" ++ again a.name ++ "\"")
  | .word _ => none

/-- All classes, if there are any. -/
def shownClasses (ts : List TextLiteral) : Option String :=
  if ts.isEmpty then none
  else some ("class=\"" ++ joinWith " " (ts.map TextLiteral.content) ++ "\"")

/-- What is shown stands after a blank. -/
def spaced (part : Option String) : String := part.elim "" (" " ++ ·)

/-- All attributes. -/
def LiteralAttribute.written (terse : Bool) (again : String → String) (ls : List LiteralAttribute) :
    String :=
  String.join ((others ls).map fun a => spaced (a.shown terse again)) ++
    spaced (shownClasses (classes ls))

/-! ## Compiled attributes -/

theorem unquote?_quoted (double : Bool) (cs : List Char) :
    unquote? ((quoteMark double).toList ++ cs ++ (quoteMark double).toList) = some cs := by
  have hlast : ∀ q : Char, (q :: (cs ++ [q])).getLast? = some q := by
    intro q
    rw [← List.cons_append, List.getLast?_concat]
  cases double with
  | false => simp [quoteMark, unquote?, hlast]
  | true => simp [quoteMark, unquote?, hlast]

theorem unquote?_of_isClean {s : String} (h : IsClean s) : unquote? s.toList = some s.toList := by
  unfold unquote?
  split
  · next hnil => rw [hnil]
  · next c rest hcons =>
    have hc : c ∉ markupChars := h c (by rw [hcons]; exact List.mem_cons_self ..)
    simp only [markupChars, List.mem_cons, List.not_mem_nil, or_false, not_or] at hc
    simp [hc, hcons]

theorem quoteFixed_of_unquote? {v : String} (cs : List Char) (hne : v ≠ "")
    (h : unquote? v.toList = some cs) :
    quoteFixed (.text v) = .text ("\"" ++ String.ofList cs ++ "\"") := by
  unfold quoteFixed
  simp [hne, h]

theorem quoteFixed_given (t : TextLiteral) :
    quoteFixed (.text t.given) = .text ("\"" ++ t.content ++ "\"") := by
  cases t with
  | quoted double c =>
    rw [quoteFixed_of_unquote? c.1.toList, String.ofList_toList]
    · rfl
    · cases double <;> simp [TextLiteral.given, quoteMark]
    · simpa [TextLiteral.given, String.toList_append] using unquote?_quoted double c.1.toList
  | shorthand c hne =>
    rw [TextLiteral.given, quoteFixed_of_unquote? _ hne (unquote?_of_isClean c.2),
      String.ofList_toList]
    rfl

theorem settle_of_quoteFixed {name v w : String} (h : quoteFixed (.text v) = .text w) :
    Attribute.settle { name, val := .text v, fixed := true } =
      { name, val := .text w, fixed := true } := by
  obtain ⟨w', hw', hmem⟩ := quoteFixed_text v
  obtain rfl : w' = w := Value.text.inj (hw'.symm.trans h)
  simp only [truthWords, List.mem_cons, List.not_mem_nil, or_false, not_or] at hmem
  rw [Attribute.settle]
  simp only [if_true, h]
  split <;> simp_all

theorem isClean_toString (n : Nat) : IsClean (toString n) := by
  intro c hc hmem
  rw [Nat.toString_eq_ofList_toDigits, String.toList_ofList] at hc
  have hdigit : c.isDigit = true := Nat.isDigit_of_mem_toDigits (by decide) (by decide) hc
  simp only [markupChars, List.mem_cons, List.not_mem_nil, or_false] at hmem
  rcases hmem with rfl | rfl | rfl | rfl | rfl <;> cases hdigit

/-- The value of a literal once it is settled. -/
def Literal.settled : Literal → Value
  | text t => .text ("\"" ++ t.content ++ "\"")
  | number n => .text ("\"" ++ toString n ++ "\"")
  | unset | word (some true) => .bool true
  | word _ => .bool false

/-- The attribute once it is settled. -/
def NamedLiteral.settled (a : NamedLiteral) : Attribute :=
  { name := a.name, val := a.value.settled, fixed := true }

/-- All classes as one attribute, if there are any. -/
def joinedClasses (ts : List TextLiteral) : List Attribute :=
  if ts.isEmpty then [] else
    [{ name := "class", val := .text ("\"" ++ joinWith " " (ts.map TextLiteral.content) ++ "\""),
       fixed := true }]

theorem Literal.settle_asRead (name : String) (v : Literal) :
    (v.asRead name).settle = { name, val := v.settled, fixed := true } := by
  cases v with
  | text t => exact settle_of_quoteFixed (quoteFixed_given t)
  | number n =>
    have hne : toString n ≠ "" := by
      rw [Nat.toString_eq_ofList_toDigits, Ne, String.ofList_eq_empty_iff]
      exact Nat.toDigits_ne_nil
    refine settle_of_quoteFixed ?_
    rw [quoteFixed_of_unquote? _ hne (unquote?_of_isClean (isClean_toString n)),
      String.ofList_toList]
  | unset => rfl
  | word w =>
    rcases w with _ | _ | _ <;> rfl

theorem joinClasses_settled (ts : List TextLiteral) :
    Tag.joinClasses (ts.map fun t => ((Literal.text t).asRead "class").settle) =
      .ok (joinedClasses ts) := by
  have htexts : (ts.map fun t => ((Literal.text t).asRead "class").settle).mapM Tag.classText =
      .ok (ts.map TextLiteral.content) := by
    induction ts with
    | nil => rfl
    | cons t ts ih =>
      have hclass : Tag.classText ((Literal.text t).asRead "class").settle = .ok t.content := by
        rw [Literal.settle_asRead]
        simp [Tag.classText, Literal.settled]
      rw [List.map_cons, List.mapM_cons, hclass, ih]
      rfl
  cases ts with
  | nil => rfl
  | cons t ts =>
    have hfixed : ((t :: ts).map fun t => ((Literal.text t).asRead "class").settle).all
        Attribute.fixed = true := by
      simp [List.all_eq_true, Literal.settle_asRead]
    rw [Tag.joinClasses, if_neg (by simp), if_pos hfixed, htexts]
    rfl

namespace LiteralAttribute

/-- Classes and other attributes are told apart by their names. -/
theorem filter_isClass (ls : List LiteralAttribute) :
    ((ls.map asRead).map Attribute.settle).filter Attribute.isClass =
        (classes ls).map (fun t => ((Literal.text t).asRead "class").settle) ∧
      ((ls.map asRead).map Attribute.settle).filter (fun a => !a.isClass) =
        (others ls).map NamedLiteral.settled := by
  induction ls with
  | nil => exact ⟨rfl, rfl⟩
  | cons l ls ih =>
    cases l with
    | named a =>
      have hclass : (named a).asRead.settle.isClass = false := by
        rw [asRead, Literal.settle_asRead, Attribute.isClass]
        exact beq_false_of_ne a.ne_class
      simp only [List.map_cons, List.filter_cons, hclass, ih]
      exact ⟨rfl, by rw [asRead, Literal.settle_asRead]; rfl⟩
    | ofClass t =>
      have hclass : (ofClass t).asRead.settle.isClass = true := by
        rw [asRead, Literal.settle_asRead]
        rfl
      simp only [List.map_cons, List.filter_cons, hclass, ih]
      exact ⟨rfl, rfl⟩

/-- **The attributes to write.** -/
theorem attributes_eq (head : Tag) (ls : List LiteralAttribute) :
    Tag.attributes { head with entries := ls.map asRead } =
      .ok ((others ls).map NamedLiteral.settled ++ joinedClasses (classes ls)) := by
  rw [Tag.attributes]
  dsimp only
  rw [(filter_isClass ls).1, (filter_isClass ls).2, joinClasses_settled]
  rfl

end LiteralAttribute

/-- What is written for an attribute with a fixed value. -/
def Attribute.fixedText (terse : Bool) (a : Attribute) : String :=
  match a.val with
  | .text v => " " ++ a.name ++ "=" ++ v
  | .bool true => if terse then " " ++ a.name else " " ++ a.name ++ "=\"" ++ a.name ++ "\""
  | _ => ""

namespace Forms

variable (s : Setup) (output : String → String) (computed : List Attribute → Emit Unit)

theorem run_givenAttribute {a : Attribute} (hfixed : a.fixed = true) (e : Emitter) :
    ∃ e', (givenAttribute s output a).run.run e = (.ok (), e') ∧ e'.terse = e.terse ∧
      e'.glyphs = e.glyphs ++ glyphsOf (a.fixedText e.terse) := by
  have hpush : ∀ text, ∃ e', (Emit.push text).run.run e = (.ok (), e') ∧ e'.terse = e.terse ∧
      e'.glyphs = e.glyphs ++ glyphsOf text :=
    fun text => ⟨e.push (.text text), rfl, rfl, Emitter.glyphs_push e (.text text)⟩
  rcases a with ⟨name, val, fixed⟩
  obtain rfl : fixed = true := hfixed
  cases val with
  | text v =>
    simp only [givenAttribute, Bool.or_true, if_true]
    exact hpush _
  | bool b =>
    cases b with
    | false => exact ⟨e, rfl, rfl, by simp [Attribute.fixedText, glyphsOf]⟩
    | true =>
      show ∃ e', (if e.terse then Emit.push (" " ++ name)
        else Emit.push (" " ++ name ++ "=\"" ++ name ++ "\"")).run.run e = (.ok (), e') ∧ _
      unfold Attribute.fixedText
      split
      · exact hpush _
      · exact hpush _
  | _ => exact ⟨e, rfl, rfl, by simp [Attribute.fixedText, glyphsOf]⟩

/-- **Fixed attributes** are written one after the other, and none is left to be computed. -/
theorem run_attributeList {attrs : List Attribute} (hfixed : ∀ a ∈ attrs, a.fixed = true)
    (e : Emitter) :
    ∃ e', (attributeList s output computed attrs).run.run e = (.ok (), e') ∧
      e'.glyphs = e.glyphs ++ glyphsOf (String.join (attrs.map (Attribute.fixedText e.terse))) := by
  unfold attributeList
  induction attrs generalizing e with
  | nil => exact ⟨e, rfl, by simp [glyphsOf]⟩
  | cons a attrs ih =>
    have ha := hfixed a (List.mem_cons_self ..)
    obtain ⟨e₁, hrun, hterse, hglyphs⟩ := run_givenAttribute s output ha e
    obtain ⟨e₂, hrun', hglyphs'⟩ := ih (fun b hb => hfixed b (List.mem_cons_of_mem _ hb)) e₁
    refine ⟨e₂, ?_, ?_⟩
    · rw [attributeRun, if_pos (by simp [ha])]
      show (do
        givenAttribute s output a
        attributeRun s output computed [] attrs).run.run e = _
      rw [Reader.run_bind, hrun]
      exact hrun'
    · rw [hglyphs', hglyphs, hterse, List.map_cons, String.join_cons, glyphsOf_append,
        List.append_assoc]

end Forms

namespace LiteralAttribute

theorem fixedText_settled (terse : Bool) (a : NamedLiteral) :
    a.settled.fixedText terse = spaced (a.shown terse id) := by
  rcases a with ⟨name, hname, v⟩
  have htrue : (if terse then " " ++ name else " " ++ name ++ "=\"" ++ name ++ "\"") =
      " " ++ if terse then name else name ++ "=\"" ++ name ++ "\"" := by
    cases terse with
    | true => rfl
    | false => simp [String.append_assoc]
  cases v with
  | text t =>
    simp [NamedLiteral.settled, Attribute.fixedText, Literal.settled, NamedLiteral.shown, spaced,
      ← String.toList_inj]
  | number n =>
    simp [NamedLiteral.settled, Attribute.fixedText, Literal.settled, NamedLiteral.shown, spaced,
      ← String.toList_inj]
  | unset => exact htrue
  | word w =>
    rcases w with _ | _ | _
    · rfl
    · rfl
    · exact htrue

theorem fixedText_joined (terse : Bool) (ls : List LiteralAttribute) :
    String.join (((others ls).map NamedLiteral.settled ++ joinedClasses (classes ls)).map
      (Attribute.fixedText terse)) = written terse id ls := by
  have hclasses : String.join ((joinedClasses (classes ls)).map (Attribute.fixedText terse)) =
      spaced (shownClasses (classes ls)) := by
    unfold joinedClasses shownClasses
    split
    · rfl
    · simp [Attribute.fixedText, spaced, ← String.toList_inj]
  rw [List.map_append, String.join_append, hclasses, List.map_map, written]
  refine congrArg (· ++ _) (congrArg _ (List.map_congr_left fun a _ => ?_))
  exact fixedText_settled terse a

/-- **Compiled attributes.** -/
theorem run_attributes (head : Tag) (ls : List LiteralAttribute) (s : Setup)
    (output : String → String) (computed : List Attribute → Emit Unit) (e : Emitter) :
    ∃ e', (do
        let attrs ← (Tag.attributes { head with entries := ls.map asRead } : Except Fault _)
        Forms.attributeList s output computed attrs : Emit Unit).run.run e = (.ok (), e') ∧
      e'.glyphs = e.glyphs ++ glyphsOf (written e.terse id ls) := by
  have hfixed : ∀ a ∈ (others ls).map NamedLiteral.settled ++ joinedClasses (classes ls),
      a.fixed = true := by
    intro a ha
    rcases List.mem_append.mp ha with ha | ha
    · obtain ⟨b, -, rfl⟩ := List.mem_map.mp ha
      rfl
    · rw [joinedClasses] at ha
      split at ha
      · cases ha
      · rw [List.mem_singleton.mp ha]
  obtain ⟨e', hrun, hglyphs⟩ := Forms.run_attributeList s output computed hfixed e
  rw [fixedText_joined] at hglyphs
  refine ⟨e', ?_, hglyphs⟩
  rw [attributes_eq]
  exact hrun

end LiteralAttribute

end Jade

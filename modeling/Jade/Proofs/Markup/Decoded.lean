import Jade.Proofs.Markup.ReadBack

/-!
# Attributes that are decoded

Whoever reads a rendered page looks for items: a name after a blank, alone or with a text between
quotes, in which the characters with a meaning in markup are decoded. What is written for attributes
can be read in this way, and in no other: the items are the attributes that are shown, in order and
with the texts of their values. So whatever the values are, none of them ends its quotes early and
none adds an attribute.

The names have to be such that they can be told from the rest. This is part of the type of the
attributes, and so is that only classes may be nested.

## Main results

* `Jade.ReadsAs.unique` : there are no two ways to read the same
* `Jade.writeAttributes_decodable` : attributes are read as they were given
-/

namespace Jade

/-! ## Reading items -/

/-- The characters that cannot stand in the name of an attribute, apart from blanks. -/
def keyStops : List Char := ['=', '<', '>', '"', '\'']

/-- A character that may stand in the name of an attribute. -/
def isKeyChar (c : Char) : Bool := !isBlank c && !keyStops.contains c

/-- A name that can be told from what stands around it. -/
structure AttributeKey where
  name : String
  ne_empty : name ≠ ""
  chars : name.toList.all isKeyChar = true

theorem AttributeKey.isName (key : AttributeKey) : IsName key.name := by
  intro c hc
  have hkey := List.all_eq_true.mp key.chars c hc
  constructor
  · rintro rfl
    cases hkey
  · rintro rfl
    cases hkey

/-- Characters are read as items: each is a name after a blank, and it may have a text between
quotes, which is decoded. -/
inductive ReadsAs : List Char → List (String × Option String) → Prop
  | done : ReadsAs [] []
  | item {rest : List Char} {items : List (String × Option String)} {written : Option String}
    (key : AttributeKey) (hquote : IsQuotable written) (h : ReadsAs rest items) :
    ReadsAs (entryChars (key.name, written) ++ rest) ((key.name, written.map decodeText) :: items)

theorem ReadsAs.beginsBlank {cs : List Char} {items : List (String × Option String)}
    (h : ReadsAs cs items) : BeginsBlank cs := by
  intro c hc
  cases h with
  | done => cases hc
  | item => exact (Option.some.inj hc).symm

/-- **There are no two ways to read the same.** -/
theorem ReadsAs.unique {cs cs' : List Char} {items items' : List (String × Option String)}
    (h : ReadsAs cs items) (h' : ReadsAs cs' items') (hcs : cs = cs') : items = items' := by
  induction h generalizing cs' items' with
  | done =>
    cases h' with
    | done => rfl
    | item => cases hcs
  | item key hquote hrest ih =>
    cases h' with
    | done => cases hcs
    | item key' hquote' hrest' =>
      rw [entryChars_append, entryChars_append] at hcs
      obtain ⟨hname, hafter⟩ := name_inj key.isName key'.isName hrest.beginsBlank
        hrest'.beginsBlank (List.cons.inj hcs).2
      obtain ⟨rfl, hmore⟩ := value_inj hquote hquote' hrest.beginsBlank hrest'.beginsBlank hafter
      rw [show key.name = key'.name from hname, ih hrest' hmore]

/-! ## Attributes with their values -/

/-- Classes as they may be given: a text, or lists and tuples of classes. -/
inductive ClassTree where
  | text (s : String)
  | list (trees : List ClassTree)
  | tuple (trees : List ClassTree)

namespace ClassTree

mutual

/-- The value itself. -/
def value : ClassTree → Value
  | text s => .text s
  | list trees => .list (values trees)
  | tuple trees => .tuple (values trees)

/-- The values themselves. -/
def values : List ClassTree → List Value
  | [] => []
  | tree :: trees => tree.value :: values trees

end

mutual

/-- All texts, from left to right. -/
def texts : ClassTree → List String
  | text s => [s]
  | list trees | tuple trees => textsAll trees

/-- All texts of several trees. -/
def textsAll : List ClassTree → List String
  | [] => []
  | tree :: trees => tree.texts ++ textsAll trees

end

mutual

theorem leaves_value : ∀ tree : ClassTree, (leaves tree.value).map Value.display = tree.texts
  | text s => rfl
  | list trees => by
    rw [value, leaves, texts]
    exact leavesAll_values trees
  | tuple trees => by
    rw [value, leaves, texts]
    exact leavesAll_values trees

theorem leavesAll_values : ∀ trees : List ClassTree,
    (leavesAll (values trees)).map Value.display = textsAll trees
  | [] => rfl
  | tree :: trees => by
    rw [values, leavesAll, textsAll, List.map_append, leaves_value tree, leavesAll_values trees]

end

end ClassTree

/-- An attribute with the value that it is given. Only classes may be nested. -/
inductive GivenAttribute where
  /-- A name with a value that is no container. -/
  | named (key : AttributeKey) (v : Scalar)
  /-- Classes. -/
  | ofClass (tree : ClassTree)

namespace GivenAttribute

/-- The name. -/
def name : GivenAttribute → String
  | named key _ => key.name
  | ofClass _ => "class"

/-- The value. -/
def value : GivenAttribute → Value
  | named _ v => v.value
  | ofClass tree => tree.value

/-- Whether an attribute is shown, and with which text. An absent value and a false one are not
shown; zero and an empty text are. A true value is shown by the name. -/
def shown (terse : Bool) : GivenAttribute → Option (Option String)
  | named _ .none | named _ (.bool false) => none
  | named key (.bool true) => some (if terse then none else some key.name)
  | named _ v => some (some v.value.display)
  | ofClass tree => some (some (joinWith " " tree.texts))

/-- The attributes that are shown, with the texts of their values. -/
def items (terse : Bool) (attrs : List GivenAttribute) : List (String × Option String) :=
  attrs.filterMap fun a => (a.shown terse).map (a.name, ·)

/-- The key of an attribute. -/
def key : GivenAttribute → AttributeKey
  | named key _ => key
  | ofClass _ => ⟨"class", by decide, by decide⟩

theorem name_key (a : GivenAttribute) : a.key.name = a.name := by
  cases a <;> rfl

/-- A value that is neither absent nor a truth value is written as a text, and classes are joined
before. -/
theorem writeAttribute_of_escape {terse skip : Bool} {name t : String} {v : Value}
    (hnone : v ≠ .none) (hbool : ∀ b, v ≠ .bool b) (hundefined : ∀ s, v ≠ .undefined s)
    (h : (if (Value.text name).same (.text "class") then classValue v else pure v) >>= escape =
      .ok t) :
    writeAttribute terse skip (.text name) v = .ok (some (assigned name (some t))) := by
  unfold writeAttribute
  split
  · exact absurd rfl hnone
  · exact absurd rfl (hbool false)
  · exact absurd rfl (hbool true)
  · exact absurd rfl (hundefined _)
  · rw [h, assigned, Option.elim_some, ← String.append_assoc, ← String.append_assoc]
    rfl

theorem writeAttribute_given (terse skip : Bool) (a : GivenAttribute) :
    writeAttribute terse skip (.text a.name) a.value =
      .ok ((a.shown terse).map fun v => assigned a.name (v.map escapeText)) := by
  cases a with
  | named key v =>
    cases v with
    | text s =>
      refine writeAttribute_of_escape Value.noConfusion (fun _ => Value.noConfusion)
        (fun _ => Value.noConfusion) ?_
      split <;> rfl
    | int n =>
      refine writeAttribute_of_escape Value.noConfusion (fun _ => Value.noConfusion)
        (fun _ => Value.noConfusion) ?_
      split <;> rfl
    | bool b =>
      cases b with
      | false => rfl
      | true =>
        cases terse with
        | true => exact congrArg (Except.ok ∘ some) (String.append_empty).symm
        | false =>
          refine congrArg (Except.ok ∘ some) ?_
          show key.name ++ "=\"" ++ escapeText key.name ++ "\"" = _
          rw [String.append_assoc, String.append_assoc]
          rfl
    | none => rfl
  | ofClass tree =>
    have hclass : (Value.text "class").same (.text "class") = true := by
      simp [Value.same, Value.sameLeaf, Value.number?]
    have hjoined : classValue tree.value = pure (.text (joinWith " " tree.texts)) := by
      rw [classValue_eq, ← tree.leaves_value]
      cases tree <;> rfl
    have hescape : (if (Value.text "class").same (.text "class") then classValue tree.value
        else pure tree.value) >>= escape = .ok (escapeText (joinWith " " tree.texts)) := by
      rw [if_pos hclass, hjoined]
      rfl
    refine writeAttribute_of_escape ?_ (fun _ => ?_) (fun _ => ?_) hescape
    all_goals
      cases tree <;> exact Value.noConfusion

theorem writeAttributes_given (terse skip : Bool) (attrs : List GivenAttribute) :
    ∃ out, writeAttributes (.list (attrs.map fun a => .pair (.text a.name, a.value))) terse skip =
        .ok out ∧
      out.toList = (items terse attrs).flatMap fun item =>
        entryChars (item.1, item.2.map escapeText) := by
  have hparts : List.Forall₂ (fun kv part => writeAttribute terse skip kv.1 kv.2 = .ok part)
      (attrs.map fun a => (.text a.name, a.value))
      (attrs.map fun a => (a.shown terse).map fun v => assigned a.name (v.map escapeText)) := by
    rw [List.forall₂_map_left_iff, List.forall₂_map_right_iff, List.forall₂_same]
    exact fun a _ => writeAttribute_given terse skip a
  have hout := LiteralAttribute.writeAttributes_list hparts
  simp only [List.map_map] at hout
  refine ⟨_, hout, ?_⟩
  have hjoin : String.join (attrs.map (spaced ∘ fun a => (a.shown terse).map fun v =>
      assigned a.name (v.map escapeText))) =
      shownText (attrs.map fun a => (a.name, (a.shown terse).map (Option.map escapeText))) := by
    rw [shownText, List.map_map]
    refine congrArg String.join (List.map_congr_left fun a _ => congrArg spaced ?_)
    dsimp only
    rw [Option.map_map]
    rfl
  have hitems : (items terse attrs).map (fun item => (item.1, item.2.map escapeText)) =
      (attrs.map fun a => (a.name, (a.shown terse).map (Option.map escapeText))).filterMap
        fun p => p.2.map (p.1, ·) := by
    rw [items, List.map_filterMap, List.filterMap_map]
    refine List.filterMap_congr fun a _ => ?_
    show ((a.shown terse).map _).map _ = ((a.shown terse).map _).map _
    rw [Option.map_map, Option.map_map]
    rfl
  rw [hjoin, toList_shownText, ← hitems, List.flatMap_map]

end GivenAttribute

/-! ## Attributes are decoded as they were given -/

theorem readsAs_items {items : List (String × Option String)}
    (h : ∀ item ∈ items, ∃ key : AttributeKey, key.name = item.1) :
    ReadsAs (items.flatMap fun item => entryChars (item.1, item.2.map escapeText)) items := by
  induction items with
  | nil => exact .done
  | cons item items ih =>
    obtain ⟨name, text⟩ := item
    rw [List.forall_mem_cons] at h
    obtain ⟨⟨key, rfl⟩, hitems⟩ := h
    have hquote : IsQuotable (text.map escapeText) := by
      intro t ht
      obtain ⟨s, -, rfl⟩ := Option.map_eq_some_iff.mp ht
      exact quote_not_mem_escapeText s
    have hdecoded : (text.map escapeText).map decodeText = text := by
      cases text with
      | none => rfl
      | some s => exact congrArg some (decodeText_escapeText s)
    have hread := (ih hitems).item key hquote
    rwa [hdecoded] at hread

/-- A character that no name has and that is escaped in texts is not written for items, unless it is
one that stands around them. -/
theorem not_mem_items {items : List (String × Option String)} {c : Char}
    (hkey : isKeyChar c = false) (hmarkup : c ∈ markupChars) (hother : c ∉ [' ', '=', '"', '&'])
    (h : ∀ item ∈ items, ∃ key : AttributeKey, key.name = item.1) :
    c ∉ items.flatMap fun item => entryChars (item.1, item.2.map escapeText) := by
  intro hmem
  obtain ⟨⟨name, text⟩, hitem, hentry⟩ := List.mem_flatMap.mp hmem
  obtain ⟨key, rfl⟩ := h _ hitem
  simp only [List.mem_cons, List.not_mem_nil, or_false, not_or] at hother
  obtain ⟨hblank, hequals, hquote, hamp⟩ := hother
  rw [entryChars, List.mem_cons, List.mem_append] at hentry
  rcases hentry with rfl | hname | hvalue
  · exact hblank rfl
  · have hchar := List.all_eq_true.mp key.chars c hname
    rw [hkey] at hchar
    cases hchar
  · cases text with
    | none => cases hvalue
    | some s =>
      simp only [valueChars, Option.map_some, Option.elim_some, List.mem_cons, List.mem_append,
        List.not_mem_nil, or_false] at hvalue
      rcases hvalue with rfl | rfl | htext | rfl
      · exact hequals rfl
      · exact hquote rfl
      · exact (mem_escapeText htext).elim hamp fun h => h hmarkup
      · exact hquote rfl

/-- **Attributes are decoded as they were given.** Whatever attributes there are, in the short form
or not, they are written without a fault. What is written can be read as items in one way only:
these are, in order, the attributes whose value is neither absent nor false, each with the text of
its value. So no value ends its quotes early, none adds an attribute, and none opens or closes a
tag. -/
theorem writeAttributes_decodable (attrs : List GivenAttribute) (terse skip : Bool) :
    ∃ out, writeAttributes (.list (attrs.map fun a => .pair (.text a.name, a.value))) terse skip =
        .ok out ∧
      (∀ items, ReadsAs out.toList items ↔ items = GivenAttribute.items terse attrs) ∧
      '<' ∉ out.toList ∧ '>' ∉ out.toList := by
  obtain ⟨out, hout, hchars⟩ := GivenAttribute.writeAttributes_given terse skip attrs
  have hkeys : ∀ item ∈ GivenAttribute.items terse attrs,
      ∃ key : AttributeKey, key.name = item.1 := by
    intro item hitem
    obtain ⟨a, -, ha⟩ := List.mem_filterMap.mp hitem
    obtain ⟨v, -, rfl⟩ := Option.map_eq_some_iff.mp ha
    exact ⟨a.key, a.name_key⟩
  have hread := readsAs_items hkeys
  rw [← hchars] at hread
  refine ⟨out, hout, fun items => ⟨fun h => h.unique hread rfl, ?_⟩, ?_, ?_⟩
  · rintro rfl
    exact hread
  · rw [hchars]
    exact not_mem_items (by decide) (by decide) (by decide) hkeys
  · rw [hchars]
    exact not_mem_items (by decide) (by decide) (by decide) hkeys

end Jade

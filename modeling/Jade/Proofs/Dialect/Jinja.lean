import Jade.Proofs.Dialect.Hosts
import Jade.Proofs.Emitter.Safety
import Jade.Proofs.Reader.Outcome

/-!
# Templates in the Jinja dialect

Whatever can be read can be written as a Jinja template, with two exceptions. The dialect has no
head for `else if`, although the reader takes it for a conditional. And if all classes of a tag are
fixed, they are joined as texts, although a class may have no value, or one of the words for truth
values.

## Main results

* `Jade.Tag.bareClass_of_attributes` : when the attributes of a tag do not go together
* `Jade.jinja_write_of_fits` : what comes of writing a tree whose nodes have their shapes
* `Jade.jinja_write_cases` : what comes of writing a template that was read
-/

namespace Jade

/-! ## Attributes -/

/-- The words for truth values. -/
def truthWords : List String := ["True", "False", "None"]

/-- Whether the value of an attribute is no text: none is given, or a word for a truth value is
left to be computed. -/
def Attribute.isBare (a : Attribute) : Bool :=
  match a.val with
  | .text v => !a.fixed && truthWords.contains v
  | _ => true

/-- A class of the tag is no text, and all other ones are fixed. -/
def Tag.BareClass (t : Tag) : Prop :=
  (∃ a ∈ t.entries, a.isClass = true ∧ a.isBare = true) ∧
    ∀ a ∈ t.entries, a.isClass = true → a.fixed = true ∨ a.isBare = true

instance (t : Tag) : Decidable t.BareClass := inferInstanceAs (Decidable (_ ∧ _))

/-- A fixed text is no word for a truth value once it is quoted. -/
theorem quoteFixed_text (v : String) : ∃ w, quoteFixed (.text v) = .text w ∧ w ∉ truthWords := by
  unfold quoteFixed
  dsimp only
  split
  · next hempty => exact ⟨v, rfl, by simp [String.isEmpty_iff.mp hempty, truthWords]⟩
  · split
    · next hquote =>
      -- a quotation that is not closed begins with a quote
      refine ⟨v, rfl, fun hmem => ?_⟩
      simp only [truthWords, List.mem_cons, List.not_mem_nil, or_false] at hmem
      rcases hmem with rfl | rfl | rfl <;> cases hquote
    · next cs _ =>
      refine ⟨"\"" ++ String.ofList cs ++ "\"", rfl, fun hmem => ?_⟩
      have hhead : ("\"" ++ String.ofList cs ++ "\"").toList.head? = some '"' := by simp
      simp only [truthWords, List.mem_cons, List.not_mem_nil, or_false] at hmem
      rcases hmem with h | h | h <;> exact absurd (h ▸ hhead) (by decide)

namespace Attribute

theorem isClass_settle (a : Attribute) : a.settle.isClass = a.isClass := by
  rw [settle]
  generalize (if a.fixed then quoteFixed a.val else a.val) = val
  split <;> rfl

theorem settle_of_isBare_eq_false {a : Attribute} (h : a.isBare = false) :
    ∃ w, a.settle = { a with val := .text w } := by
  rw [isBare] at h
  split at h
  · next v hv =>
    have hval : ∃ w, (if a.fixed then quoteFixed a.val else a.val) = .text w ∧ w ∉ truthWords := by
      split
      · exact hv ▸ quoteFixed_text v
      · next hfixed =>
        rw [Bool.eq_false_iff.mpr hfixed, Bool.not_false, Bool.true_and] at h
        exact ⟨v, hv, by simpa using h⟩
    obtain ⟨w, hw, hmem⟩ := hval
    simp only [truthWords, List.mem_cons, List.not_mem_nil, or_false, not_or] at hmem
    refine ⟨w, ?_⟩
    rw [settle, hw]
    split <;> simp_all
  · cases h

end Attribute

namespace Tag

/-- Classes that cannot be joined are all fixed, and one of them is no text. -/
theorem joinClasses_eq_error {as : List Attribute} {e : Fault} (h : joinClasses as = .error e) :
    (∀ a ∈ as, a.fixed = true) ∧ ∃ a ∈ as, classText a = .error e := by
  rw [joinClasses] at h
  split at h
  · cases h
  · split at h
    · next hfixed =>
      refine ⟨List.all_eq_true.mp hfixed, exists_of_mapM_eq_error ?_⟩
      rcases hmap : as.mapM classText with f | names
      · rw [hmap] at h
        exact congrArg _ (Except.error.inj h)
      · rw [hmap] at h
        exact absurd h (by simp [bind, Except.bind, pure, Except.pure])
    · cases h

theorem joinClasses_of_attributes {t : Tag} {e : Fault} (h : t.attributes = .error e) :
    joinClasses ((t.entries.map Attribute.settle).filter Attribute.isClass) = .error e := by
  rw [attributes] at h
  rcases hjoin : joinClasses ((t.entries.map Attribute.settle).filter Attribute.isClass) with f | as
  · rw [hjoin] at h
    exact h
  · rw [hjoin] at h
    exact absurd h (by simp [bind, Except.bind, pure, Except.pure])

/-- **Attributes that do not go together** have a class that is no text among fixed ones. -/
theorem bareClass_of_attributes {t : Tag} {e : Fault} (h : t.attributes = .error e) :
    e = .wrongType ∧ t.BareClass := by
  obtain ⟨hfixed, a', ha', hfault⟩ := joinClasses_eq_error (joinClasses_of_attributes h)
  obtain ⟨hmem, hclass⟩ := List.mem_filter.mp ha'
  obtain ⟨a, ha, rfl⟩ := List.mem_map.mp hmem
  rw [Attribute.isClass_settle] at hclass
  have hbare : a.isBare = true := by
    by_contra hnot
    obtain ⟨w, hw⟩ := Attribute.settle_of_isBare_eq_false (Bool.eq_false_iff.mpr hnot)
    rw [hw] at hfault
    exact absurd hfault (by simp [classText])
  refine ⟨?_, ⟨a, ha, hclass, hbare⟩, fun b hb hbclass => ?_⟩
  · rw [classText] at hfault
    split at hfault
    · cases hfault
    · exact (Except.error.inj hfault).symm
  · by_cases hbbare : b.isBare = true
    · exact .inr hbbare
    · left
      obtain ⟨w, hw⟩ := Attribute.settle_of_isBare_eq_false (Bool.eq_false_iff.mpr hbbare)
      have hsettled := hfixed b.settle (List.mem_filter.mpr
        ⟨List.mem_map_of_mem hb, by rw [Attribute.isClass_settle]; exact hbclass⟩)
      rwa [hw] at hsettled

end Tag

/-! ## Whole templates -/

/-- The names of the filters in a tree. -/
def Node.filterNames (root : Node) : List String :=
  root.walk.filterMap fun
    | .filter name _ _ _ => some name
    | _ => none

/-- The faults of writing a tree in the dialect: an `else if` has no head, and the classes of a tag
may not go together. -/
def Node.Hinders (root : Node) : Fault → Prop
  | .noSuchKey =>
    ∃ sentence content next line, .conditional "else if" sentence content next line ∈ root.walk
  | .wrongType =>
    ∃ head code text content line, .tag head code text content line ∈ root.walk ∧ head.BareClass
  | _ => False

theorem Node.isCovered_of_mem {filters : Table String Filter} {root n : Node}
    (hfilters : ∀ name ∈ root.filterNames, ∃ g, filters.get? name = some (.ofText g))
    (hn : n ∈ root.walk) : n.IsCovered filters root.Hinders := by
  cases n with
  | tag head code text content line =>
    intro e he
    obtain ⟨rfl, hbare⟩ := Tag.bareClass_of_attributes he
    exact ⟨head, code, text, content, line, hn, hbare⟩
  | conditional word sentence content next line =>
    rintro rfl
    exact ⟨sentence, content, next, line, hn⟩
  | filter name attrs content line => exact hfilters name (List.mem_filterMap.mpr ⟨_, hn, rfl⟩)
  | _ => trivial

/-- What comes of writing a tree whose nodes have their shapes and whose filters are there. -/
theorem jinja_write_of_fits (s : Session) {root : Node} (hfits : ∀ n ∈ root.walk, n.fits = true)
    (hfilters : ∀ name ∈ root.filterNames, ∃ g, s.filters.get? name = some (.ofText g)) :
    (∃ out, (s.write .jinja {} root).1 = .ok out) ∨
      ∃ e, root.Hinders e ∧ (s.write .jinja {} root).1 = .error e := by
  let setup := (s.extend .jinja {}).setup .jinja {}
  have hnode : Emit.MovesAt Emitter.StaysText setup (.jinja setup) root root.Hinders :=
    Emit.moves_nodeOf (Forms.matches_jinja (Emit.nested_movement Emit.staysText_deeper) setup
      setup.pretty) root fun n hn =>
      .inr ⟨hfits n hn, Node.isCovered_of_mem hfilters hn⟩
  have hsafe : Emit.Moves Emitter.StaysText (Emit.template setup (.jinja setup) root)
      root.Hinders := (Emit.moves_push _).bind fun _ => Emit.moves_visit hnode
  have hempty : Emitter.IsText { page := (s.extend .jinja {}).page } :=
    nofun
  exact hsafe.outcome hempty

/-- **What can be read can be written.** A template that was read, with filters that are there,
comes out as a Jinja template; or it has an `else if`, for which the dialect has no head, or a tag
whose classes are all fixed or no texts, and one is no text. -/
theorem jinja_write_cases (src : String) (colons : Bool) (file : Option String) (root : Node)
    (h : parse (.ofText src colons) file = .ok root) (s : Session)
    (hfilters : ∀ name ∈ root.filterNames, ∃ g, s.filters.get? name = some (.ofText g)) :
    (∃ out, (s.write .jinja {} root).1 = .ok out) ∨
      (s.write .jinja {} root).1 = .error .noSuchKey ∧
        (∃ sentence content next line,
          .conditional "else if" sentence content next line ∈ root.walk) ∨
      (s.write .jinja {} root).1 = .error .wrongType ∧
        ∃ head code text content line, .tag head code text content line ∈ root.walk ∧
          head.BareClass := by
  obtain ⟨nodes, line, es, ks, rfl, -, hd, -⟩ := Reader.whole_of_parse h
  have hfits : Node.AllFit [.block nodes line false] := .singleton rfl hd.fits
  rcases jinja_write_of_fits s (hfits _ (List.mem_singleton.mpr rfl)) hfilters with
    hok | ⟨e, hinders, herror⟩
  · exact .inl hok
  · cases e with
    | noSuchKey => exact .inr (.inl ⟨herror, hinders⟩)
    | wrongType => exact .inr (.inr ⟨herror, hinders⟩)
    | _ => exact absurd hinders (by simp [Node.Hinders])

/-- A conditional with an alternative, a class and a filter. -/
theorem jinja_write_cases_page :
    let src := "if a\n  p.b(c=d) e\nelse\n  :cdata\n    f"
    ∃ root, parse (.ofText src) none = .ok root ∧
      (∀ name ∈ root.filterNames, ∃ g, ({} : Session).filters.get? name = some (.ofText g)) ∧
      ((∃ out, (({} : Session).write .jinja {} root).1 = .ok out) ∨
        (({} : Session).write .jinja {} root).1 = .error .noSuchKey ∧
          (∃ sentence content next line,
            .conditional "else if" sentence content next line ∈ root.walk) ∨
        (({} : Session).write .jinja {} root).1 = .error .wrongType ∧
          ∃ head code text content line, .tag head code text content line ∈ root.walk ∧
            head.BareClass) := by
  intro src
  have hnames : (parse (.ofText src) none).toOption.map Node.filterNames = some ["cdata"] := by
    decide +kernel
  obtain ⟨root, hparse, hroot⟩ := Reader.exists_ok_of_map hnames
  have hfilters : ∀ name ∈ root.filterNames,
      ∃ g, ({} : Session).filters.get? name = some (.ofText g) := by
    intro name hname
    rw [hroot, List.mem_singleton] at hname
    subst hname
    exact ⟨_, rfl⟩
  exact ⟨root, hparse, hfilters, jinja_write_cases src false none root hparse {} hfilters⟩

/-- Templates without filters that are read but cannot be written: the dialect has no head for
`else if`, and a class without a value is no text. -/
theorem jinja_write_fails :
    (∃ root, parse (.ofText "if a\n  p\nelse if b\n  q") none = .ok root ∧
        root.filterNames = [] ∧ (({} : Session).write .jinja {} root).1 = .error .noSuchKey) ∧
      ∃ root, parse (.ofText "p(class)") none = .ok root ∧
        root.filterNames = [] ∧ (({} : Session).write .jinja {} root).1 = .error .wrongType := by
  have key : ∀ {src : String} {e : Fault}, (parse (.ofText src) none).toOption.map (fun root =>
      (root.filterNames, Reader.fault? (({} : Session).write .jinja {} root).1)) =
        some ([], some e) →
      ∃ root, parse (.ofText src) none = .ok root ∧ root.filterNames = [] ∧
        (({} : Session).write .jinja {} root).1 = .error e := by
    intro src e h
    obtain ⟨root, hparse, hroot⟩ := Reader.exists_ok_of_map h
    obtain ⟨hnames, hfault⟩ := Prod.mk.inj hroot
    exact ⟨root, hparse, hnames, Reader.eq_error_of_fault? hfault⟩
  exact ⟨key (by decide +kernel), key (by decide +kernel)⟩

end Jade

import Jade.Proofs.Reader.Checked
import Jade.Proofs.Reader.Grammar

/-!
# Blocks of plain text

In a block of plain text the source stands at the beginning of a line or at its end, and nothing is
at hand but outdents (`Source.Raw`). What can come next is then a line end or the whole rest of a
line (`Source.Raw.isRaw`), and taking it leaves the source in such a state again
(`Source.Raw.of_advance`). The end of the source is not among it as long as an indentation is open.

A text block is opened by an indentation. The outermost one is remembered, and since deeper ones are
strictly deeper, it is forgotten only when the outermost block ends.

## Main results

* `Jade.Source.Raw.of_advance`, `Jade.Source.Raw.isRaw` : one token of a block of plain text
* `Jade.Reader.matches_textParts`, `Jade.Reader.readsText_textBlockParts` : the parts of a text
  block
* `Jade.Reader.readsBlock_guardedText` : a whole text block, also if reading may stop
* `Jade.Reader.ReadsBlock.matches` : a text block between two switches of the mode
-/

namespace Jade

namespace Source

/-! ## One token -/

/-- A source within a block of plain text. The indentations `us` are open, innermost first; of
these, as many end next as there are outdents at hand. -/
structure Raw (s₀ : Source) (us : List Nat) (s : Source) : Prop where
  /-- Lines are plain text. -/
  pipeless : s.pipeless = true
  /-- Nothing is put off. -/
  deferred : s.deferred = []
  /-- Nothing but outdents is at hand. -/
  levels : ∃ k line, s.stash = List.replicate k ⟨.outdent, line⟩ ∧ k ≤ us.length ∧
    s.indents = us.drop k
  /-- What is left is an end of the text. -/
  suffix : s.rest <:+ s₀.rest
  /-- The source stands at the beginning of a line or at its end. -/
  place : s.rest = [] ∨ s.rest.head? = some '\n' ∨ BeginsLine s₀.rest s.rest

/-- What a token of a block of plain text between `s` and `s'` does to the open indentations. -/
inductive Moves (s₀ : Source) (us : List Nat) (s s' : Source) : Token.Body → List Nat → Prop
  | newline : Moves s₀ us s s' .newline us
  | text {line : String} (h : WholeLine s₀.rest s line s') : Moves s₀ us s s' (.text line) us
  | outdent : Moves s₀ us s s' .outdent us.tail
  | indent {v : Nat} (hv : ∀ w ∈ us.head?, w < v) : Moves s₀ us s s' (.indent v) (v :: us)

variable {s₀ s s' : Source} {us : List Nat} {t : Token}

/-- Nothing is at hand, so that all levels are open in the source. -/
theorem Raw.indents_eq (h : Raw s₀ us s) (hs : s.stash = []) : s.indents = us := by
  obtain ⟨k, line, hstash, -, hindents⟩ := h.levels
  have hk : k = 0 := by simpa using congrArg List.length (hstash.symm.trans hs)
  rw [hindents, hk, List.drop_zero]

theorem Raw.atEnd (h : Raw s₀ us s) (hs : s.stash = []) (hne : us ≠ []) (hr : s.rest = []) :
    ∃ us', Moves s₀ us s s.atEnd.2 s.atEnd.1.body us' ∧ Raw s₀ us' s.atEnd.2 := by
  have hindents := h.indents_eq hs
  rw [Source.atEnd, hindents]
  cases us with
  | nil => exact absurd rfl hne
  | cons u us =>
    exact ⟨us, .outdent, h.pipeless, h.deferred, ⟨0, 0, hs, Nat.zero_le _, rfl⟩, h.suffix, .inl hr⟩

/-- After a line end the source stands at the beginning of a line. -/
theorem Raw.lineEnd {cs : List Char} (h : Raw s₀ us s) (hs : s.stash = [])
    (hr : s.rest = '\n' :: cs) (hout : s.lineEnd cs = (.ok t, s')) :
    ∃ us', Moves s₀ us s s' t.body us' ∧ Raw s₀ us' s' := by
  have hindents := h.indents_eq hs
  have hbegins := (beginsLine_lineEnd hr).of_suffix h.suffix
  rw [hout] at hbegins
  have hplace : s'.rest = [] ∨ s'.rest.head? = some '\n' ∨ BeginsLine s₀.rest s'.rest :=
    .inr (.inr hbegins)
  cases enters_of_lineEnd hout with
  | blank | same =>
    exact ⟨us, .newline, h.pipeless, h.deferred, ⟨0, 0, hs, Nat.zero_le _, hindents⟩, hbegins.1,
      hplace⟩
  | deeper _ hk _ hne =>
    refine ⟨column cs :: us, .indent (hindents ▸ lt_of_deeper hk hne), h.pipeless, h.deferred,
      ⟨0, 0, hs, Nat.zero_le _, ?_⟩, hbegins.1, hplace⟩
    rw [hindents]
    rfl
  | @back _ j _ hj =>
    have hi := List.takeWhile_append_dropWhile (p := (column cs < ·)) (l := us)
    rw [hindents] at hj ⊢
    refine ⟨us.tail, .outdent, h.pipeless, h.deferred, ⟨j, _, by rw [hs]; rfl, ?_, ?_⟩, hbegins.1,
      hplace⟩
    · rw [List.length_tail, ← hi, List.length_append, hj]
      omega
    · rw [List.drop_tail, ← hj]
      nth_rewrite 3 [← hi]
      rw [List.drop_left]

theorem Raw.textLine (h : Raw s₀ us s) (hs : s.stash = []) (hne : s.rest ≠ [])
    (hnl : s.rest.head? ≠ some '\n') :
    ∃ us', Moves s₀ us s s.textLine.2 s.textLine.1.body us' ∧ Raw s₀ us' s.textLine.2 := by
  have hindents := h.indents_eq hs
  have hbegins := (h.place.resolve_left hne).resolve_left hnl
  rw [Source.textLine, Rules.restOfLine, List.span_eq_takeWhile_dropWhile]
  have hend : s.rest.dropWhile Rules.inLine = [] ∨
      (s.rest.dropWhile Rules.inLine).head? = some '\n' := by
    have hstop := List.head?_dropWhile_not Rules.inLine s.rest
    cases hrest : s.rest.dropWhile Rules.inLine with
    | nil => exact .inl rfl
    | cons c cs =>
      rw [hrest] at hstop
      simp [Rules.inLine] at hstop
      simp [hstop]
  have hfirst : s.rest.takeWhile Rules.inLine ≠ [] := by
    obtain ⟨c, cs, hcs⟩ := List.exists_cons_of_ne_nil hne
    have hc : Rules.inLine c = true := by
      rw [Rules.inLine, bne_iff_ne]
      rintro rfl
      exact hnl (by rw [hcs]; rfl)
    rw [hcs, List.takeWhile_cons_of_pos hc]
    simp
  refine ⟨us, .text ⟨?_, ?_, ?_, hend, hbegins⟩, h.pipeless, h.deferred,
    ⟨0, 0, hs, Nat.zero_le _, hindents⟩, (List.dropWhile_suffix _).trans h.suffix, ?_⟩
  · rwa [String.toList_ofList]
  · rw [String.toList_ofList]
    exact Rules.newline_not_mem_takeWhile s.rest
  · rw [String.toList_ofList, List.takeWhile_append_dropWhile]
  · exact hend.imp id .inl

/-- **One token of a block of plain text.** -/
theorem Raw.of_advance (h : Raw s₀ us s) (hne : us ≠ []) (ha : s.advance = (.ok t, s')) :
    ∃ us', Moves s₀ us s s' t.body us' ∧ Raw s₀ us' s' := by
  obtain ⟨k, line, hstash, hk, hindents⟩ := h.levels
  rw [advance] at ha
  cases k with
  | zero =>
    have hs : s.stash = [] := hstash
    rw [hs] at ha
    have hfresh : s.fresh = (.ok t, s') := by
      rwa [next, h.deferred, skipBlankLines, h.pipeless] at ha
    rcases s.rest_cases with hr | ⟨cs, hr⟩ | ⟨hnil, hnl⟩
    · rw [fresh_of_nil hr] at hfresh
      cases hfresh
      exact h.atEnd hs hne hr
    · rw [fresh_of_newline hr] at hfresh
      exact h.lineEnd hs hr hfresh
    · rw [fresh_of_inline hnil hnl, h.pipeless, if_pos rfl] at hfresh
      cases hfresh
      exact h.textLine hs hnil hnl
  | succ k =>
    rw [hstash, List.replicate_succ] at ha
    cases ha
    refine ⟨us.tail, .outdent, h.pipeless, h.deferred, ⟨k, line, rfl, ?_, ?_⟩, h.suffix, h.place⟩
    · rw [List.length_tail]
      omega
    · rw [List.drop_tail]
      exact hindents

theorem Raw.isRaw (h : Raw s₀ us s) (hne : us ≠ []) : s.isRaw s₀.rest = true := by
  rw [Source.isRaw]
  split
  · next line _ s' ha =>
    obtain ⟨us', hmoves, -⟩ := h.of_advance hne ha
    cases hmoves with
    | text hline => exact decide_eq_true hline
  · next t s' hno ha =>
    obtain ⟨us', hmoves, -⟩ := h.of_advance hne ha
    obtain ⟨body, l⟩ := t
    cases hmoves with
    | newline => rfl
    | outdent => rfl
    | indent => rfl
    | text hline => exact absurd rfl (hno _ _)
  · rfl

/-! ## Where a block of plain text begins -/

/-- If an indentation is next, a block of plain text begins with it, which is deeper than the
outermost one that is open. -/
def Opens (s₀ : Source) (spaces : Option Nat) (us : List Nat) (s : Source) : Prop :=
  ∀ t s' w, s.advance = (.ok t, s') → t.body = .indent w →
    Raw s₀ (w :: us) s' ∧ ∀ outer ∈ spaces, outer < w

/-- Where lines are plain text and no text block is open, one may begin. -/
theorem Sound.exists_opens (h : Sound s₀ s) (hraw : s.pipeless = true) :
    ∃ us, Opens s₀ none us s := by
  by_cases hindent : ∃ t s' w, s.advance = (.ok t, s') ∧ t.body = .indent w
  · obtain ⟨t, s', w, ha, hw⟩ := hindent
    obtain ⟨-, -, hopened⟩ := h.of_advance ha
    obtain ⟨hs, hd, hbegins, hhead⟩ := hopened w hw
    obtain ⟨us, hus⟩ := List.head?_eq_some_iff.mp hhead
    refine ⟨us, fun t₁ s₁ w₁ ha₁ hw₁ => ⟨?_, nofun⟩⟩
    obtain ⟨ht, rfl⟩ := Prod.mk.inj (ha.symm.trans ha₁)
    cases ht
    obtain rfl := Token.Body.indent.inj (hw.symm.trans hw₁)
    exact ⟨(pipeless_of_advance ha).trans hraw, hd, ⟨0, 0, hs, Nat.zero_le _, hus⟩, hbegins.1,
      .inr (.inr hbegins)⟩
  · exact ⟨[], fun t s' w ha hw => absurd ⟨t, s', w, ha, hw⟩ hindent⟩

end Source

namespace Reader

open Event (token mode)
open Source (Raw Moves Opens)

variable {s₀ : Source} {g : Guards} {stop : Fault} {spaces : Option Nat} {es fs ks : List Event}
  {r : Reader}

/-! ## The parts of a text block -/

/-- All states in which a form, a text block or a part of one may begin are let through. -/
structure Guards.Admits (g : Guards) (s₀ : Source) : Prop where
  forms : ∀ {es r}, Ready s₀ es r → g.forms r = true
  texts : ∀ {es r}, Stage s₀ true none (es ++ [mode true]) r → g.texts r = true
  parts : ∀ {us} {r : Reader}, us ≠ [] → Raw s₀ us r.source → g.parts r = true

theorem admits_modeGuards (s₀ : Source) : (modeGuards s₀.rest).Admits s₀ where
  forms {es r} hr := by
    show isPlain r = true
    rw [isPlain, hr.pipeless, hr.spaces]
    rfl
  texts _ := rfl
  parts hne hraw := hraw.isRaw hne

/-- Both actions read a text block, wherever one begins. -/
def ReadsText (s₀ : Source) (spaces : Option Nat) (act' act : Parse (List String)) : Prop :=
  ∀ ⦃us es r⦄, Stage s₀ true spaces es r → Opens s₀ spaces us r.source →
    Matches (Foreseen s₀) act' act
      (fun parts r' => ∃ w fs ks, Stage s₀ true spaces (es ++ token (.indent w) :: fs) r' ∧
        Raw s₀ us r'.source ∧
        Derives (token (.indent w) :: fs) (.raw (spaces.getD w) parts) ks) r

/-- **The parts of a text block** up to the outdent that ends it. -/
theorem matches_textParts {inner' inner : Parse (List String)} {pad : String} {n outer w : Nat}
    {us : List Nat} {parts : List String} (hg : g.Admits s₀)
    (hinner : ReadsText s₀ (some outer) inner' inner)
    (hr : Stage s₀ true (some outer) (es ++ fs) r) (hraw : Raw s₀ (w :: us) r.source)
    (hw : outer ≤ w) (hd : Derives fs (.lines outer pad parts) ks) :
    Matches (Foreseen s₀) (textParts (guarded g.parts stop peekKind) inner' pad n parts)
      (textParts peekKind inner pad n parts)
      (fun parts' r' => ∃ fs' ks', Stage s₀ true (some outer) (es ++ fs') r' ∧
        Derives fs' (.lines outer pad parts') ks' ∧
        ∀ t s', r'.source.advance = (.ok t, s') → t.body = .outdent → Raw s₀ us s') r := by
  induction n generalizing r fs ks parts with
  | zero => exact (Leads.throw trivial).matches
  | succ n ih =>
    refine ((leads_peekKind hr).matches.guarded (hg.parts (by simp) hraw)).bind
      fun kind r₁ ⟨hr₁, hsame, t, ht, hkind⟩ => ?_
    obtain ⟨s', ha⟩ := Source.exists_advance_of_stash ht
    obtain ⟨us', hmoves, hraw'⟩ := hraw.of_advance (by simp) (hsame ▸ ha)
    obtain ⟨body, l⟩ := t
    dsimp only at hmoves
    split
    · cases hmoves with
      | outdent =>
        refine (Leads.pure ⟨fs, ks, hr₁, hd, fun u s'' ha' _ => ?_⟩).matches
        cases ha.symm.trans ha'
        exact hraw'
      | _ => exact absurd hkind (by simp [Token.kind, Token.Body.kind])
    · cases hmoves with
      | newline =>
        refine (leads_advance_seen hr₁ ht).then ?_
        rintro u r₂ ⟨rfl, hr₂, -, ha₂⟩
        cases ha.symm.trans ha₂
        rw [List.append_assoc] at hr₂
        exact ih hr₂ hraw' hd.lineEnd
      | _ => exact absurd hkind (by simp [Token.kind, Token.Body.kind])
    · cases hmoves with
      | @indent v hv =>
        have hopens : Opens s₀ (some outer) (w :: us) r₁.source := by
          intro u s'' v' ha' hu
          obtain ⟨hut, rfl⟩ := Prod.mk.inj (ha.symm.trans ha')
          cases hut
          obtain rfl := Token.Body.indent.inj hu
          refine ⟨hraw', fun o ho => ?_⟩
          obtain rfl : outer = o := Option.some.inj ho
          exact Nat.lt_of_le_of_lt hw (hv w rfl)
        refine (hinner hr₁ hopens).bind ?_
        rintro deeper r₂ ⟨v', gs, ls, hr₂, hraw₂, hdeep⟩
        rw [List.append_assoc] at hr₂
        exact ih hr₂ hraw₂ (hd.deeper hdeep)
      | _ => exact absurd hkind (by simp [Token.kind, Token.Body.kind])
    · next hout hnew hin =>
      cases hmoves with
      | text hline =>
        subst hkind
        refine (leads_advance_seen hr₁ ht).then ?_
        rintro u r₂ ⟨rfl, hr₂, hlexed, ha₂⟩
        cases ha.symm.trans ha₂
        rw [List.append_assoc] at hr₂
        exact ih hr₂ hraw' (hd.line hlexed)
      | newline => exact absurd hkind.symm hnew
      | outdent => exact absurd hkind.symm hout
      | indent => exact absurd hkind.symm hin

/-- The outdent that ends a text block, with the text block around it open again. -/
theorem leads_closeBlock {w : Nat} {parts : List String} {post : List String → Reader → Prop}
    (hr : Stage s₀ true (some (spaces.getD w)) es r) (hdeep : ∀ outer ∈ spaces, outer < w)
    (hpost : ∀ t r', t.kind = "outdent" → t.body.IsLexed →
      Stage s₀ true spaces (es ++ [token t.body]) r' → r.source.advance = (.ok t, r'.source) →
      post parts r') :
    Leads (Foreseen s₀)
      (do
        if (← get).spaces == some w then modify fun r => { r with spaces := none }
        let _ ← expect "outdent"
        return parts) post r := by
  have hclose : ∀ r₁ : Reader, r₁.source = r.source → Stage s₀ true spaces es r₁ →
      Leads (Foreseen s₀) (do let _ ← expect "outdent"; pure parts) post r₁ := by
    intro r₁ hsource hr₁
    refine (leads_expect hr₁).bind ?_
    rintro t r₂ ⟨hkind, hr₂, hlexed, ha⟩
    exact .pure (hpost t r₂ hkind hlexed hr₂ (hsource ▸ ha))
  refine .get ?_
  split
  · next hsame =>
    refine Leads.bind (p := fun _ r₁ => r₁ = { r with spaces := none }) (.modify rfl) ?_
    rintro _ _ rfl
    refine hclose _ rfl ?_
    cases spaces with
    | none => exact hr.withSpaces none
    | some outer =>
      rw [hr.spaces] at hsame
      exact absurd (Option.some.inj (eq_of_beq hsame)) (Nat.ne_of_lt (hdeep outer rfl))
  · next hother =>
    refine hclose r rfl ?_
    cases spaces with
    | none =>
      rw [hr.spaces] at hother
      exact absurd (beq_self_eq_true _) hother
    | some outer => exact hr

/-- **A text block.** -/
theorem readsText_textBlockParts (hg : g.Admits s₀) (fuel : Nat) (spaces : Option Nat) :
    ReadsText s₀ spaces (textBlockParts (guarded g.parts stop peekKind) fuel)
      (textBlockParts peekKind fuel) := by
  induction fuel generalizing spaces with
  | zero => exact fun us es r _ _ => (Leads.throw trivial).matches
  | succ fuel ih =>
    intro us es r hr hopens
    refine (leads_expectBody Token.Body.indent (by grind) hr).then ?_
    rintro w r₁ ⟨hr₁, -, t, htw, ha⟩
    obtain ⟨hraw, hdeep⟩ := hopens t r₁.source w ha htw
    have houter : spaces.getD w ≤ w := by
      cases spaces with
      | none => exact Nat.le_refl w
      | some outer => exact Nat.le_of_lt (hdeep outer rfl)
    refine Leads.then (p := fun _ r₂ => Stage s₀ true (some (spaces.getD w))
      (es ++ [token (.indent w)] ++ []) r₂ ∧ Raw s₀ (w :: us) r₂.source) (.modify ?_) ?_
    · have hopen := hr₁.withSpaces (some (spaces.getD w))
      rw [hr₁.spaces, List.append_nil]
      exact ⟨hopen, hraw⟩
    · rintro _ r₂ ⟨hr₂, hraw₂⟩
      refine .get (matches_budget ?_)
      rw [hr₂.spaces, Option.getD_some]
      refine (matches_textParts hg (ih _) hr₂ hraw₂ houter .noLines).bind ?_
      rintro parts r₃ ⟨fs, ks, hr₃, hd, hend⟩
      refine Leads.matches (leads_closeBlock hr₃ hdeep ?_)
      intro t r₄ hkind hlexed hr₄ ha
      have hout : t.body = .outdent := Token.Body.eq_outdent hlexed hkind
      rw [hout, List.append_assoc, List.append_assoc] at hr₄
      exact ⟨w, fs ++ [token .outdent], ks, hr₄, hend t _ ha hout, hd.raw⟩

/-- The action reads a whole text block, once lines have become plain text. -/
def ReadsBlock (s₀ : Source) (text : Parse Node) : Prop :=
  ∀ ⦃es r⦄, Stage s₀ true none (es ++ [mode true]) r →
    Matches (Foreseen s₀) text textBlock
      (fun content r' => ∃ ps line w fs ks, content = .text ps line ∧
        Stage s₀ true none (es ++ [mode true] ++ token (.indent w) :: fs) r' ∧
        Derives (token (.indent w) :: fs) (.raw w ps) ks) r

theorem readsBlock_guardedText (hg : g.Admits s₀) : ReadsBlock s₀ (guardedText g stop) := by
  intro es r hr
  obtain ⟨us, hopens⟩ := hr.sound.exists_opens hr.pipeless
  refine .guarded (hg.texts hr) (matches_lineNow (matches_budget ?_))
  refine (readsText_textBlockParts hg _ none hr hopens).bind ?_
  rintro ps r' ⟨w, fs, ks, hr', -, hd⟩
  exact (Leads.pure ⟨ps, _, w, fs, ks, rfl, hr', hd⟩).matches

/-- **A text block between two switches of the mode.** -/
theorem ReadsBlock.matches {β : Type} {text : Parse Node} {f' f : Node → Parse β}
    {post : β → Reader → Prop} (htext : ReadsBlock s₀ text) (hr : Ready s₀ es r)
    (hf : ∀ ps w fs ks line r',
      Ready s₀ (es ++ mode true :: token (.indent w) :: (fs ++ [mode false])) r' →
      Derives (token (.indent w) :: fs) (.raw w ps) ks →
      Matches (Foreseen s₀) (f' (.text ps line)) (f (.text ps line)) post r') :
    Matches (Foreseen s₀)
      (do
        setPipeless true
        let content ← text
        setPipeless false
        f' content)
      (do
        setPipeless true
        let content ← textBlock
        setPipeless false
        f content) post r := by
  refine Leads.then (p := fun _ r₁ => Stage s₀ true none (es ++ [mode true]) r₁)
    (.modify (hr.mode true)) fun _ r₁ hr₁ => ?_
  refine (htext hr₁).bind ?_
  rintro content r₂ ⟨ps, line, w, fs, ks, rfl, hr₂, hd⟩
  refine Leads.then (p := fun _ r₃ =>
    Ready s₀ (es ++ mode true :: token (.indent w) :: (fs ++ [mode false])) r₃) (.modify ?_)
    fun _ r₃ hr₃ => hf ps w fs ks line r₃ hr₃ hd
  have hoff := hr₂.mode false
  simp only [List.append_assoc, List.cons_append, List.nil_append] at hoff
  exact hoff

end Reader

end Jade

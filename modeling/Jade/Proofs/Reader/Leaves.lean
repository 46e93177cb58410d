import Jade.Proofs.Reader.Checked
import Jade.Proofs.Reader.Tokens

/-!
# Forms without forms inside

Texts, doctypes, filters and all other forms that hold no forms end and take something, and so does
the head of a tag. A bound that runs out is the fault `Fault.endless`: loops are bounded by the
number of characters and tokens left, and this is always enough. What an action takes is said of two
ways to do it, so that the same can be said of forms that hold others.

An `#id` or a `.class` without a tag is put off together with a `div`, which adds to what is left.

## Main results

* `Jade.Reader.takes_textBlock`, `Jade.Reader.takes_filter` : blocks of text
* `Jade.Reader.takes_tagHead` : how a tag begins
* `Jade.Reader.run_shorthand` : an id or a class without a tag
-/

namespace Jade

namespace Reader

variable {α β : Type} {fault : Fault → Reader → Prop} {stop : Option Fault} {r : Reader} {i k : Nat}

/-! ## Faults -/

/-- All faults but `Fault.endless` are allowed. -/
class Tolerates (fault : Fault → Reader → Prop) : Prop where
  other : ∀ {f r}, f ≠ .endless → fault f r

instance tolerates_all : Tolerates fun _ _ => True := ⟨fun _ => trivial⟩

instance tolerates_ends : Tolerates fun e _ => e ≠ .endless := ⟨id⟩

variable [Tolerates fault]

theorem Ends.leads {act : Parse α} {post : α → Reader → Prop} (h : Ends act post r) :
    Leads fault act post r :=
  h.imp (fun _ _ ha => ha) fun _ _ => Tolerates.other

/-! ## Actions that take something -/

/-- From `r`, the action `act'` does what `act` does, and at least `k` less is left. -/
def Takes (fault : Fault → Reader → Prop) (stop : Option Fault) (k : Nat) (act' act : Parse α)
    (r : Reader) : Prop :=
  Matches fault act' act (fun _ r' => Shorter k r r') r stop

section

variable {act' act : Parse α} {f' f : α → Parse β}

omit [Tolerates fault] in
theorem Takes.pure {a : α} (hr : r.source.Tidy) :
    Takes fault stop 0 (Pure.pure a) (Pure.pure a) r :=
  Leads.matches (.pure (.refl hr))

theorem Takes.throw {e : Fault} (he : e ≠ .endless) :
    Takes fault stop k (MonadExcept.throw e : Parse α) (MonadExcept.throw e) r :=
  Leads.matches (.throw (Tolerates.other he))

theorem Ends.takes (h : Ends act (fun _ r' => Shorter k r r') r) : Takes fault stop k act act r :=
  h.leads.matches

omit [Tolerates fault] in
theorem Takes.le (h : Takes fault stop k act' act r) (hi : i ≤ k) : Takes fault stop i act' act r :=
  h.mono fun _ _ hshort => hshort.mono hi

omit [Tolerates fault] in
theorem Takes.any (h : Takes fault stop k act' act r) : Takes fault stop 0 act' act r :=
  h.le (Nat.zero_le k)

omit [Tolerates fault] in
/-- **One action after the other.** -/
theorem Takes.bind (h : Takes fault stop k act' act r)
    (hf : ∀ a r₁, r₁.source.Tidy → r₁.source.left + k ≤ r.source.left →
      Takes fault stop 0 (f' a) (f a) r₁) : Takes fault stop k (act' >>= f') (act >>= f) r :=
  Matches.bind h fun a r₁ hshort => (hf a r₁ hshort.tidy hshort.left_add_le).mono fun _ _ hrest =>
    hshort.trans hrest

omit [Tolerates fault] in
theorem Takes.map {g : α → β} (h : Takes fault stop k act' act r) :
    Takes fault stop k (act' >>= fun a => Pure.pure (g a)) (act >>= fun a => Pure.pure (g a)) r :=
  h.bind fun _ _ hr _ => .pure hr

theorem Ends.looking {P : α → Reader → Prop} (h : Ends act (fun a r' => Seen r r' ∧ P a r') r)
    (hf : ∀ a r₁, Seen r r₁ → P a r₁ → Takes fault stop k (f' a) (f a) r₁) :
    Takes fault stop k (act >>= f') (act >>= f) r :=
  h.leads.then fun a r₁ ⟨hseen, hp⟩ => (hf a r₁ hseen hp).mono fun _ _ => hseen.trans_shorter

theorem Ends.taking {weight : α → Nat} {P : α → Reader → Prop}
    (h : Ends act (fun a r' => Shorter (weight a) r r' ∧ P a r') r)
    (hf : ∀ a r₁, r₁.source.Tidy → r₁.source.left + weight a ≤ r.source.left →
      Takes fault stop 0 (f' a) (f a) r₁) : Takes fault stop 0 (act >>= f') (act >>= f) r :=
  h.leads.then fun a r₁ ⟨hshort, _⟩ => (hf a r₁ hshort.tidy hshort.left_add_le).mono
    fun _ _ hrest => (hshort.trans hrest).mono (Nat.zero_le _)

theorem takes_body {kind : String} {body : Token.Body → Option α} (hr : r.source.Tidy)
    (hkind : kind ≠ "eos")
    (hf : ∀ a r₁, r₁.source.Tidy → r₁.source.left < r.source.left →
      Takes fault stop 0 (f' a) (f a) r₁) :
    Takes fault stop 1 (expectBody kind body >>= f') (expectBody kind body >>= f) r :=
  (ends_expectBody hr hkind).takes.bind hf

end

section

omit [Tolerates fault]

theorem takes_lineNow {f' f : Nat → Parse β}
    (h : Takes fault stop k (f' r.source.line) (f r.source.line) r) :
    Takes fault stop k (lineNow >>= f') (lineNow >>= f) r :=
  h

theorem takes_budget {f' f : Nat → Parse β}
    (h : Takes fault stop k (f' (r.source.size + 1)) (f (r.source.size + 1)) r) :
    Takes fault stop k (budget >>= f') (budget >>= f) r :=
  h

theorem takes_modify {g : Reader → Reader} {f' f : Unit → Parse β}
    (hleft : (g r).source.left = r.source.left) (h : Takes fault stop k (f' ()) (f ()) (g r)) :
    Takes fault stop k (modify g >>= f') (modify g >>= f) r :=
  Matches.mono h fun _ _ hshort => ⟨hshort.tidy, hleft ▸ hshort.left_add_le⟩

end

/-! ## Text -/

section Forms

variable (hr : r.source.Tidy)

include hr

theorem takes_skipNewlines {n : Nat} (hn : r.source.left < n) :
    Takes fault stop 0 (skipNewlines n) (skipNewlines n) r := by
  induction n generalizing r with
  | zero => cases hn
  | succ n ih =>
    refine (ends_peekKind hr).looking fun kind r₁ hseen ⟨t, ht, hkind⟩ => ?_
    have hle := hseen.left_le
    split
    · next heq =>
      have hk : t.kind ≠ "eos" := by rw [hkind, eq_of_beq heq]; decide
      exact ((ends_advance_seen hseen.tidy ht hk).takes.bind fun _ _ hr₂ hlt =>
        ih hr₂ (by omega)).any
    · exact .pure hseen.tidy

/-- The parts of a text block end, if those of the deeper ones do. -/
theorem takes_textParts {inner : Parse (List String)} {indent : String} {fuel n : Nat}
    {parts : List String}
    (hinner : ∀ r : Reader, r.source.Tidy → r.source.left < fuel →
      Takes fault stop 1 inner inner r)
    (hfuel : r.source.left < fuel) (hn : r.source.left < n) :
    Takes fault stop 0 (textParts peekKind inner indent n parts)
      (textParts peekKind inner indent n parts) r := by
  induction n generalizing r parts with
  | zero => cases hn
  | succ n ih =>
    refine (ends_peekKind hr).looking fun kind r₁ hseen ⟨t, ht, hkind⟩ => ?_
    have hle := hseen.left_le
    -- what remains after a part that was taken
    have hmore (parts : List String) (r₂ : Reader) (hr₂ : r₂.source.Tidy)
        (hlt : r₂.source.left + 1 ≤ r₁.source.left) :
        Takes fault stop 0 (textParts peekKind inner indent n parts)
      (textParts peekKind inner indent n parts) r₂ :=
      ih hr₂ (by omega) (by omega)
    split
    · exact .pure hseen.tidy
    · have hnext := ends_advance_seen hseen.tidy ht (by rw [hkind]; decide)
      exact (hnext.takes.bind fun _ => hmore _).any
    · exact ((hinner r₁ hseen.tidy (by omega)).bind fun _ => hmore _).any
    · refine (ends_advance hseen.tidy).taking fun u r₂ hr₂ hlt => ?_
      split
      · next s hs =>
        -- the end has no text
        have hweight : u.weight = 1 := Token.weight_of_ne fun heq => by
          rw [Token.text?, heq] at hs
          exact nomatch hs
        exact hmore _ r₂ hr₂ (hweight ▸ hlt)
      · exact .throw Fault.noConfusion

theorem takes_textBlockParts {fuel : Nat} (hfuel : r.source.left < fuel) :
    Takes fault stop 1 (textBlockParts peekKind fuel) (textBlockParts peekKind fuel) r := by
  induction fuel generalizing r with
  | zero => cases hfuel
  | succ fuel ih =>
    refine takes_body hr (by decide) fun width r₁ hr₁ hlt => takes_modify rfl ?_
    have hless : r₁.source.left < fuel := by omega
    refine Matches.get <| takes_budget <| .bind
      (takes_textParts (by exact hr₁) (fun _ => ih) hless (left_lt_budget _))
      fun parts r₂ hr₂ _ => ?_
    have hend (r₃ : Reader) (hr₃ : r₃.source.Tidy) :
        Takes fault stop 0 (do let _ ← expect "outdent"; pure parts)
          (do let _ ← expect "outdent"; pure parts) r₃ :=
      (ends_expect hr₃ (by decide)).takes.map.any
    refine Matches.get ?_
    dsimp only
    split
    · exact takes_modify rfl (hend _ hr₂)
    · exact hend r₂ hr₂

theorem takes_textBlock : Takes fault stop 1 textBlock textBlock r :=
  takes_lineNow <| takes_budget (takes_textBlockParts hr (left_lt_budget r)).map

theorem takes_textNode : Takes fault stop 1 textNode textNode r :=
  takes_body hr (by decide) fun _ _ hr₁ _ => takes_lineNow (.pure hr₁)

theorem takes_stringNode : Takes fault stop 1 stringNode stringNode r :=
  takes_body hr (by decide) fun _ _ hr₁ _ => takes_lineNow (.pure hr₁)

theorem takes_assignment : Takes fault stop 1 assignment assignment r :=
  takes_body hr (by decide) fun _ _ hr₁ _ => .pure hr₁

theorem takes_doctype : Takes fault stop 1 doctype doctype r :=
  takes_body hr (by decide) fun _ _ hr₁ _ => takes_lineNow (.pure hr₁)

theorem takes_acceptFilterAttrs : Takes fault stop 0 acceptFilterAttrs acceptFilterAttrs r := by
  refine (ends_accept hr).takes.bind fun found r₁ hr₁ _ => ?_
  split
  · exact .pure hr₁
  · exact .pure hr₁

theorem takes_pipeless_textBlock {f : Node → Parse Node}
    (hf : ∀ content r₁, r₁.source.Tidy → Takes fault stop 0 (f content) (f content) r₁) :
    Takes fault stop 1 (do
        setPipeless true
        let content ← textBlock
        setPipeless false
        f content)
      (do
        setPipeless true
        let content ← textBlock
        setPipeless false
        f content) r :=
  takes_modify rfl <| .bind (takes_textBlock hr) fun content _ hr₁ _ =>
    takes_modify rfl (hf content _ hr₁)

theorem takes_filter : Takes fault stop 1 filter filter r := by
  refine takes_body hr (by decide) fun name r₁ hr₁ _ => ?_
  refine (takes_acceptFilterAttrs hr₁).bind fun attrs r₂ hr₂ _ => ?_
  exact (takes_pipeless_textBlock hr₂ fun _ _ hr₃ => takes_lineNow (.pure hr₃)).any

theorem takes_parent : Takes fault stop 1 parent parent r :=
  takes_body hr (by decide) fun _ _ hr₁ _ => .pure hr₁

theorem takes_inclusion : Takes fault stop 1 inclusion inclusion r :=
  takes_body hr (by decide) fun _ _ hr₁ _ => .pure hr₁

end Forms

/-! ## Line ends -/

theorem takes_skipTokens (n : Nat) (hr : r.source.Tidy) :
    Takes fault stop 0 (skipTokens n) (skipTokens n) r := by
  induction n generalizing r with
  | zero => exact .pure hr
  | succ n ih => exact (ends_advance hr).taking fun _ _ hr₁ _ => ih hr₁

/-! ## Tags -/

end Reader

namespace Source

variable {s s' : Source}

/-- Whether an id or a class stands at a place among the tokens to come, as a number. -/
def shorthandAt (n : Nat) (s : Source) : Nat :=
  match upcoming n s with
  | .ok t => if t.isShorthand then 1 else 0
  | .error _ => 0

theorem Agree.kindAt (h : Agree s s') (n : Nat) : s.kindAt n = s'.kindAt n := by
  rw [Source.kindAt, Source.kindAt, h n]

theorem Agree.shorthandAt (h : Agree s s') (n : Nat) : s.shorthandAt n = s'.shorthandAt n := by
  rw [Source.shorthandAt, Source.shorthandAt, h n]

theorem Agree.waitingTag (h : Agree s s') (hs : s.WaitingTag) : s'.WaitingTag := by
  rw [WaitingTag] at hs ⊢
  rwa [h.kindAt, h.kindAt, h.kindAt, h.kindAt] at hs

end Source

namespace Reader

variable {α : Type} {fault : Fault → Reader → Prop} [Tolerates fault] {stop : Option Fault}
  {r : Reader} {t : Token}

/-- The ids, classes and attributes of a tag end; if an id or a class is next, it is taken. -/
theorem takes_tagHead {n : Nat} {tag : Tag} (hr : r.source.Tidy) (hn : r.source.left < n) :
    Takes fault stop (r.source.shorthandAt 0) (tagHead n tag) (tagHead n tag) r := by
  induction n generalizing r tag with
  | zero => cases hn
  | succ n ih =>
    have hone : r.source.shorthandAt 0 ≤ 1 := by
      rw [Source.shorthandAt]
      split
      · split <;> decide
      · decide
    refine (ends_peek hr).looking fun t r₁ hseen ht => ?_
    have hle := hseen.left_le
    -- what remains after a token of the head was taken
    have hmore (tag : Tag) (hkind : t.kind ≠ "eos") :
        Takes fault stop (r.source.shorthandAt 0) (do let _ ← advance; tagHead n tag)
          (do let _ ← advance; tagHead n tag) r₁ :=
      ((ends_advance_seen hseen.tidy ht hkind).takes.bind fun _ _ hr₂ hlt =>
        (ih hr₂ (by omega)).any).le hone
    split
    · next heq => exact hmore _ (by simp [Token.kind, heq, Token.Body.kind])
    · next heq => exact hmore _ (by simp [Token.kind, heq, Token.Body.kind])
    · next heq => exact hmore _ (by simp [Token.kind, heq, Token.Body.kind])
    · next hid hclass _ =>
      have hno : t.isShorthand = false := by
        rw [Token.isShorthand]
        split
        · next heq => exact absurd heq (hid _)
        · next heq => exact absurd heq (hclass _)
        · rfl
      have hzero : r.source.shorthandAt 0 = 0 := by
        rw [← hseen.agree.shorthandAt, Source.shorthandAt, Source.upcoming_of_stash ht]
        exact if_neg (by rw [hno]; decide)
      rw [hzero]
      exact .pure hseen.tidy

theorem takes_scriptIsText {tag : Tag} (hr : r.source.Tidy) :
    Takes fault stop 0 (scriptIsText tag) (scriptIsText tag) r := by
  rw [scriptIsText]
  split
  · exact .pure hr
  · exact .throw Fault.noConfusion
  · exact .pure hr

/-! ## Ids and classes without a tag -/

/-- A tag and an id or a class of it are next, both put off. -/
structure DivNext (r : Reader) : Prop where
  stash : r.source.stash = []
  deferred : ∃ t u : Token, r.source.deferred = [t, u] ∧ t.kind = "tag" ∧ t.isCustom = false ∧
    u.isShorthand = true ∧ u.isCustom = false

theorem DivNext.tidy (h : DivNext r) : r.source.Tidy := by
  obtain ⟨t, u, hd, hkind, ht, -, hu⟩ := h.deferred
  have hs : t.isPassable = true := by rw [Token.isPassable, hkind]; decide
  rw [Source.Tidy, h.stash, hd]
  exact (Token.Orderly.singleton ht).append (Token.Orderly.singleton hu) (by simpa using hs)

theorem DivNext.kindAt_zero (h : DivNext r) : r.source.kindAt 0 = some "tag" := by
  obtain ⟨t, u, hd, hkind, -⟩ := h.deferred
  have hnext : r.source.advance = (.ok t, { r.source with deferred := [u] }) := by
    rw [Source.advance, h.stash, Source.next, hd]
  rw [Source.kindAt, Source.upcoming_zero_of_advance hnext, ← hkind]
  rfl

theorem DivNext.shorthandAt_one (h : DivNext r) : r.source.shorthandAt 1 = 1 := by
  obtain ⟨t, u, hd, -, -, hu, -⟩ := h.deferred
  have hnext : r.source.advance = (.ok t, { r.source with deferred := [u] }) := by
    rw [Source.advance, h.stash, Source.next, hd]
  have hthen : Source.advance { r.source with deferred := [u] }
      = (.ok u, { r.source with deferred := [] }) := by
    rw [Source.advance, h.stash]
    rfl
  rw [Source.shorthandAt, Source.upcoming_succ_of_advance hnext,
    Source.upcoming_zero_of_advance hthen]
  exact if_pos hu

theorem run_shorthand {self : Parse α} (hs : r.source.stash = [t]) :
    (do
      let token ← advance
      changeSource fun s => (s.defer (s.tok (.tag "div"))).defer token
      self : Parse α).run.run r =
      self.run.run { r with source := ({ r.source with stash := [] } : Source).putOff t } := by
  have hadvance : advance.run.run r =
      (.ok t, { r with source := { r.source with stash := [] } }) := by
    show (r.source.advance.1, { r with source := r.source.advance.2 }) = _
    rw [Source.advance, hs]
  rw [run_bind, hadvance]
  rfl

theorem divNext_putOff {r : Reader} {s : Source} (hd : s.deferred = []) (hs : t.isShorthand = true)
    (hplain : t.isCustom = false) :
    DivNext { r with source := ({ s with stash := [] } : Source).putOff t } :=
  ⟨rfl, s.tok (.tag "div"), t, by simp [Source.putOff, Source.defer, Source.tok, hd], rfl, rfl, hs,
    hplain⟩

theorem left_putOff {s : Source} (hs : s.stash = [t]) (ht : t.isShorthand = true) :
    (({ s with stash := [] } : Source).putOff t).left = s.left + 1 := by
  have hweight : t.weight = 1 := Token.weight_of_kind (by
    rcases Token.kind_of_isShorthand ht with hk | hk <;> rw [hk] <;> decide)
  simp only [Source.left, Source.putOff, Source.defer, hs, Token.weights, hweight,
    List.length_append, List.length_singleton]
  omega

end Reader

end Jade

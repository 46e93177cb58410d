import Jade.Proofs.Reader.Blocks
import Jade.Proofs.Reader.Leaves

/-!
# How deep forms may go

Forms are read within bounds: loops within the number of characters and tokens left, and forms
inside each other within twice that number. These bounds only have to be large enough. Beyond that
they make no difference, neither to what is read nor to what is left, also where reading fails or
never ends.

Every form takes something, so less is left for the forms inside it and after it. There are two
exceptions. An `#id` or a `.class` without a tag is put off together with a `div`, which adds to
what is left, and the form is read again. That is why two levels are allowed for each token; at the
second level the tag takes both (`steps_form_div`). And a tag that waits for nodes to filter is left
where it is. Then all that is read after it comes to that same tag, and a block that holds it never
ends.

All this is said of two ways to read the forms inside, for any faults that are allowed. If reading
may not be endless, then no tag may wait.

## Main results

* `Jade.Reader.steps_many` : forms up to a token of a kind, however many there may be
* `Jade.Reader.steps_form` : a form read in two ways, with its inner forms alike
* `Jade.Reader.steps_within` : however deep forms may go
-/

namespace Jade

namespace Source

variable {s : Source}

/-- An id or a class that comes second shows that no tag waits. -/
theorem not_waitingTag (h : s.shorthandAt 1 = 1) : ¬ s.WaitingTag := by
  intro hwait
  rw [shorthandAt] at h
  cases hu : s.upcoming 1 with
  | error e => rw [hu] at h; cases h
  | ok t =>
    have hkind : s.kindAt 1 = some t.kind := by rw [kindAt, hu]; rfl
    have hs : t.isShorthand = true := by
      by_contra hno
      rw [hu] at h
      simp [hno] at h
    rcases hwait.2 with ⟨hone, -⟩ | ⟨hone, -⟩ <;>
      rcases Token.kind_of_isShorthand hs with hk | hk <;>
      simp [hkind, hk] at hone

end Source

namespace Reader

variable {α : Type} {r : Reader} {t : Token} {K : Nat} {self' self : Parse Node}
  {fault : Fault → Reader → Prop} {stop : Option Fault}

/-! ## Tags that wait -/

theorem Waits.run_peekKind (h : Waits r) : peekKind.run.run r = (.ok "tag", r) := by
  obtain ⟨t, ht, hkind⟩ := h.tag
  have hpeek : r.source.lookahead 1 = (.ok t, r.source) := Source.lookahead_of_stash (n := 0) ht
  rw [Reader.run_peekKind hpeek, hkind]

theorem Waits.run_form (h : Waits r) : (form self).run.run r = (.ok .pending, r) := by
  rw [form, formBy, run_bind, h.run_peekKind]
  show (tagBy textBlock self).run.run r = _
  rw [tagBy, run_bind, h.pending]
  rfl

theorem Waits.run_many {stop : String} (h : Waits r) (hself : self.run.run r = (.ok .pending, r))
    (hstop : stop ≠ "tag") (n : Nat) (nodes : List Node) :
    (many stop self n nodes).run.run r = (.error .endless, r) := by
  induction n generalizing nodes with
  | zero => rfl
  | succ n ih =>
    have hne : ¬ ("tag" == stop) = true := fun heq => hstop (eq_of_beq heq).symm
    rw [many, run_bind, h.run_peekKind]
    dsimp only
    rw [if_neg hne, if_neg (by decide), run_bind, hself]
    exact ih _

/-! ## Blocks -/

/-- Something is taken between `r` and `r'`, or a tag waits, which is only so on a condition. -/
def Passes (cond : Prop) (r r' : Reader) : Prop :=
  Shorter 1 r r' ∨ Shorter 0 r r' ∧ Waits r' ∧ cond

/-- Two ways to read a form do the same wherever less than `K` is left. No tag may wait unless
reading may be endless. -/
structure Steps (fault : Fault → Reader → Prop) (K : Nat) (act' act : Parse Node)
    (stop : Option Fault := none) : Prop where
  passes : ∀ r : Reader, r.source.Tidy → r.source.left < K →
    Matches fault act' act (fun _ r' => Passes (∀ r, fault .endless r) r r') r stop
  waits : (∀ r, fault .endless r) → ∀ r : Reader, Waits r → r.source.left < K →
    act'.run.run r = (.ok .pending, r) ∧ act.run.run r = (.ok .pending, r)

variable [Tolerates fault]

theorem steps_alternatives {one' one : Parse Node} {word : String} {n : Nat} {next : List Node}
    (hone : ∀ r : Reader, r.source.Tidy → r.source.left < K → Takes fault stop 1 one' one r)
    (hr : r.source.Tidy) (hK : r.source.left < K) (hn : r.source.left < n) :
    Takes fault stop 0 (alternatives one' word n next) (alternatives one word n next) r := by
  induction n generalizing r next with
  | zero => cases hn
  | succ n ih =>
    refine (ends_peek hr).looking fun t r₁ hseen ht => ?_
    have hle := hseen.left_le
    obtain ⟨body, line⟩ := t
    cases body with
    | conditional word' sentence =>
      show Matches fault (if Node.mayFollow word next word' = true then _ else _)
        (if Node.mayFollow word next word' = true then _ else _) _ r₁ stop
      refine .ite (fun _ => ?_) fun _ => Takes.pure hseen.tidy
      exact ((hone r₁ hseen.tidy (by omega)).bind fun node r₂ hr₂ hlt =>
        ih hr₂ (by omega) (by omega)).any
    | _ => exact .pure hseen.tidy

section Walk

variable (hself : Steps fault K self' self stop) (hr : r.source.Tidy)

include hself hr

/-- Forms up to a token of a kind. Also the bound on their number makes no difference, once there is
one for each token. -/
theorem steps_many {kind : String} {n m : Nat} {nodes : List Node} (hkind : kind ≠ "tag")
    (hK : r.source.left < K) (hn : r.source.left < n) (hm : r.source.left < m) :
    Takes fault stop 0 (many kind self' n nodes) (many kind self m nodes) r := by
  induction n generalizing r m nodes with
  | zero => cases hn
  | succ n ih =>
    obtain ⟨m, rfl⟩ : ∃ k, m = k + 1 := ⟨m - 1, by omega⟩
    refine (ends_peekKind hr).looking fun found r₁ hseen ⟨t, ht, hfound⟩ => ?_
    have hle := hseen.left_le
    have hmore (nodes : List Node) (r₂ : Reader) (hr₂ : r₂.source.Tidy)
        (hlt : r₂.source.left + 1 ≤ r₁.source.left) :
        Takes fault stop 0 (many kind self' n nodes) (many kind self m nodes) r₂ :=
      ih hr₂ (by omega) (by omega) (by omega)
    refine .ite (fun _ => Takes.pure hseen.tidy) fun _ => .ite (fun hline => ?_) fun _ => ?_
    · have hk : t.kind ≠ "eos" := by rw [hfound, eq_of_beq hline]; decide
      exact ((ends_advance_seen hseen.tidy ht hk).takes.bind fun _ => hmore _).any
    · refine (hself.passes r₁ hseen.tidy (by omega)).bind fun node r₂ hpass => ?_
      rcases hpass with hshort | ⟨hshort, hw, hendless⟩
      · exact (hmore _ r₂ hshort.tidy hshort.left_add_le).mono fun _ _ hrest =>
          (hshort.trans hrest).mono (Nat.zero_le _)
      · -- nothing is taken any more, so neither of the two ends
        have hless := hshort.left_add_le
        obtain ⟨hself', hself⟩ := hself.waits hendless r₂ hw (by omega)
        have hrun := hw.run_many hself hkind m (nodes ++ [node])
        refine .inl ⟨(hw.run_many hself' hkind n _).trans hrun.symm, ?_⟩
        rw [Leads, hrun]
        exact hendless _

section

variable (hK : r.source.left ≤ K)

include hK

theorem steps_indented : Takes fault stop 1 (indented self') (indented self) r := by
  refine takes_lineNow ((ends_expect hr (by decide)).takes.bind fun _ r₁ hr₁ hlt =>
    takes_budget ?_)
  have hroom := left_lt_budget r₁
  refine (steps_many hself hr₁ (by decide) (by omega) hroom hroom).bind fun nodes r₂ hr₂ _ => ?_
  exact (ends_expect hr₂ (by decide)).takes.map.any

theorem steps_block : Takes fault stop 1 (block self') (block self) r :=
  (steps_indented hself hr hK).map

theorem steps_blockIfAny : Takes fault stop 0 (blockIfAny self') (blockIfAny self) r := by
  refine (ends_peekKind hr).looking fun kind r₁ hseen _ => ?_
  refine .ite (fun _ => ?_) fun _ => Takes.pure hseen.tidy
  exact (steps_block hself hseen.tidy (Nat.le_trans hseen.left_le hK)).map.any

/-! ## Control lines -/

theorem steps_code : Takes fault stop 1 (code self') (code self) r := by
  refine takes_body hr (by decide) fun x r₁ hr₁ hlt => ?_
  obtain ⟨source, buffer, escape⟩ := x
  refine takes_lineNow (takes_budget ?_)
  have hroom (r' : Reader) (hseen : Seen r₁ r') : r'.source.left < r₁.source.size + 1 :=
    Nat.lt_of_le_of_lt hseen.left_le (left_lt_budget r₁)
  have hafter : Ends (afterNewlines (r₁.source.size + 1) 1) _ r₁ :=
    looks_seen.afterNewlines (m := 0) (.inr hroom) (.refl hr₁) nofun
  refine hafter.looking fun i r₂ hseen ⟨j, t, hi, ht, _⟩ => ?_
  have hle := hseen.left_le
  subst hi
  refine Leads.then (p := fun _ r₃ => r₃ = r₂) (leads_of_run (run_lookahead_of_stash ht) rfl) ?_
  rintro u r₂ rfl
  refine .ite (fun _ => ?_) fun _ => Takes.pure hseen.tidy
  refine (takes_skipTokens _ hseen.tidy).bind fun _ r₃ hr₃ hskip => ?_
  exact (steps_block hself hr₃ (by omega)).map.any

theorem steps_comment : Takes fault stop 1 (comment self') (comment self) r := by
  refine takes_body hr (by decide) fun x r₁ hr₁ hlt => ?_
  refine (steps_blockIfAny hself hr₁ (by omega)).bind fun nodes r₂ hr₂ _ => ?_
  cases nodes with
  | some nodes => exact takes_lineNow (.pure hr₂)
  | none => exact takes_lineNow (.pure hr₂)

theorem steps_each : Takes fault stop 1 (each self') (each self) r :=
  takes_body hr (by decide) fun _ _ hr₁ hlt => takes_lineNow
    ((steps_block hself hr₁ (by omega)).map.any)

theorem steps_call : Takes fault stop 1 (call self') (call self) r :=
  takes_body hr (by decide) fun _ _ hr₁ hlt =>
    (steps_blockIfAny hself hr₁ (by omega)).map

theorem steps_mixin : Takes fault stop 1 (mixin self') (mixin self) r :=
  takes_body hr (by decide) fun _ _ hr₁ hlt =>
    (steps_blockIfAny hself hr₁ (by omega)).map

theorem steps_namedBlock : Takes fault stop 1 (namedBlock self') (namedBlock self) r := by
  refine takes_body hr (by decide) fun x r₁ hr₁ hlt => ?_
  refine (ends_peekKind hr₁).looking fun kind r₂ hseen _ => ?_
  have hle := hseen.left_le
  refine .ite (fun _ => ?_) fun _ => Takes.pure hseen.tidy
  exact (steps_indented hself hseen.tidy (by omega)).map.any

theorem steps_conditionalChain {fuel : Nat} (hfuel : r.source.left < fuel) :
    Takes fault stop 1 (conditionalChain self' fuel) (conditionalChain self fuel) r := by
  induction fuel generalizing r with
  | zero => cases hfuel
  | succ fuel ih =>
    refine takes_body hr (by decide) fun x r₁ hr₁ hlt => takes_lineNow ?_
    refine ((steps_block hself hr₁ (by omega)).bind fun content r₂ hr₂ hblock =>
      takes_budget ?_).any
    have hone (r : Reader) (hr : r.source.Tidy) (hlt : r.source.left < min fuel (K + 1)) :
        Takes fault stop 1 (conditionalChain self' fuel) (conditionalChain self fuel) r :=
      ih hr (by omega) (by omega)
    exact (steps_alternatives hone hr₂ (by omega) (left_lt_budget r₂)).map

theorem steps_conditional : Takes fault stop 1 (conditional self') (conditional self) r :=
  takes_budget (steps_conditionalChain hself hr hK (left_lt_budget r))

end

variable {line : Nat} {head : Tag} {name : String}

/-! ## Tags -/

theorem steps_onLine (hK : r.source.left < K) :
    Takes fault stop 0 (onLine self') (onLine self) r := by
  refine (ends_peekKind hr).looking fun kind r₁ hseen ⟨t, ht, hkind⟩ => ?_
  have hle := hseen.left_le
  split
  · exact (takes_stringNode hseen.tidy).map.any
  · exact (takes_textNode hseen.tidy).map.any
  · exact (steps_code hself hseen.tidy (by omega)).map.any
  · have hnext := ends_advance_seen hseen.tidy ht (by rw [hkind]; decide)
    refine (hnext.takes.bind fun _ r₂ hr₂ hlt => ?_).any
    refine (hself.passes r₂ hr₂ (by omega)).bind fun _ _ hpass => Leads.matches (.pure ?_)
    rcases hpass with hnode | ⟨hnode, -⟩
    · exact hnode.mono (Nat.zero_le _)
    · exact hnode
  · exact .pure hseen.tidy

theorem steps_tagBlock {rest : OnLine} (hK : r.source.left ≤ K) :
    Takes fault stop 0 (tagBlock textBlock self' line head rest)
      (tagBlock textBlock self line head rest) r := by
  refine (ends_peekKind hr).looking fun kind r₁ hseen _ => ?_
  have hle := hseen.left_le
  refine .ite (fun _ => .ite (fun _ => ?_) fun _ => ?_) fun _ => Takes.pure hseen.tidy
  · exact (takes_pipeless_textBlock hseen.tidy fun _ _ hr₂ => .pure hr₂).any
  · exact (steps_indented hself hseen.tidy (by omega)).map.any

theorem steps_tagRest {dot inline : Bool} (hK : r.source.left < K) :
    Takes fault stop 0 (tagRest textBlock self' name line head dot inline)
      (tagRest textBlock self name line head dot inline) r := by
  refine (steps_onLine hself hr hK).bind fun rest r₁ hr₁ hline => takes_budget ?_
  refine (takes_skipNewlines hr₁ (left_lt_budget r₁)).bind fun _ r₂ hr₂ hskip => ?_
  dsimp only
  refine .ite (fun _ => ?_) fun _ => ?_
  · exact (takes_scriptIsText hr₂).bind fun _ _ hr₃ _ => steps_tagBlock hself hr₃ (by omega)
  · exact steps_tagBlock hself hr₂ (by omega)

theorem steps_tagAfterHead (hK : r.source.left < K) :
    Takes fault stop 0 (tagAfterHead textBlock self' name line head)
      (tagAfterHead textBlock self name line head) r := by
  refine (ends_peek hr).looking fun t r₁ hseen _ => ?_
  have hle := hseen.left_le
  dsimp only
  refine .ite (fun _ => ?_) fun _ => steps_tagRest hself hseen.tidy (by omega)
  exact (ends_advance hseen.tidy).taking fun _ _ hr₂ _ => steps_tagRest hself hr₂ (by omega)

omit hself hr [Tolerates fault] in
/-- A tag after its name. -/
def tagNamed (text self : Parse Node) (name : String) : Parse Node := do
  let line ← lineNow
  let head ← tagHead (← budget) { name }
  tagAfterHead text self name line head

/-- An id or a class that comes next after the name of a tag is taken. -/
theorem steps_tagNamed (hK : r.source.left < K + r.source.shorthandAt 0) :
    Takes fault stop (r.source.shorthandAt 0) (tagNamed textBlock self' name)
      (tagNamed textBlock self name) r :=
  takes_lineNow <| takes_budget <| (takes_tagHead hr (left_lt_budget r)).bind fun _ _ hr₁ _ =>
    steps_tagAfterHead hself hr₁ (by omega)

/-- **A tag.** It takes its name and an id or a class that comes next, or it waits. -/
theorem steps_tag (ht : r.source.stash[0]? = some t) (hkind : t.kind = "tag")
    (hK : r.source.left < K + (1 + r.source.shorthandAt 1)) :
    Matches fault (tag self') (tag self)
      (fun _ r' => Shorter (1 + r.source.shorthandAt 1) r r' ∨
        Shorter 0 r r' ∧ Waits r' ∧ r.source.WaitingTag) r stop := by
  rw [tag, tag]
  refine (Ends.leads (looks_seen.isPending (.refl hr) ht hkind)).then ?_
  rintro pending r₁ ⟨hseen, -, hwaits⟩
  refine .ite (fun hwait => ?_) fun _ => ?_
  · obtain ⟨hw, htag⟩ := hwaits hwait
    exact Leads.matches (.pure (.inr ⟨hseen.shorter, hw, hseen.agree.waitingTag htag⟩))
  · refine (ends_advance hseen.tidy).leads.then ?_
    rintro u r₂ ⟨hshort, -, hfirst, hnext⟩
    obtain rfl : t = u := Except.ok.inj
      ((Source.upcoming_of_stash ht).symm.trans ((hseen.agree 0).symm.trans hfirst))
    rw [Token.weight_of_kind (by rw [hkind]; decide)] at hshort
    have hsecond : r₂.source.shorthandAt 0 = r.source.shorthandAt 1 := by
      rw [← hseen.agree.shorthandAt 1, Source.shorthandAt, Source.shorthandAt, hnext 0]
    have hshort := hseen.trans_shorter hshort
    have hless := hshort.left_add_le
    refine Matches.mono (steps_tagNamed hself hshort.tidy (by omega)) fun _ _ hrest => .inl ?_
    exact hsecond ▸ hshort.trans hrest

/-! ## Ids and classes without a tag -/

omit [Tolerates fault] hself in
theorem steps_shorthand
    (hdiv : ∀ r : Reader, DivNext r → r.source.left < K + 2 → Takes fault stop 2 self' self r)
    (hK : r.source.left ≤ K) (ht : r.source.stash[0]? = some t) (hs : t.isShorthand = true) :
    Takes fault stop 1
      (do
        let token ← advance
        changeSource fun s => (s.defer (s.tok (.tag "div"))).defer token
        self')
      (do
        let token ← advance
        changeSource fun s => (s.defer (s.tok (.tag "div"))).defer token
        self) r := by
  obtain ⟨hstash, hd⟩ := hr.of_shorthand ht hs
  have hleft := left_putOff hstash hs
  have hlt : (({ r.source with stash := [] } : Source).putOff t).left < K + 2 := by
    rw [hleft]
    omega
  have hnext := hdiv _ (divNext_putOff (r := r) hd hs (hr.plain ht)) hlt
  refine Matches.of_run (Matches.mono hnext fun _ r₁ hshort => ⟨hshort.tidy, ?_⟩)
    (run_shorthand hstash) (run_shorthand hstash)
  have hless := hshort.left_add_le
  dsimp only at hless
  omega

/-! ## Any form -/

/-- **Any form**, with its inner forms alike. -/
theorem steps_form
    (hdiv : ∀ r : Reader, DivNext r → r.source.left < K + 2 → Takes fault stop 2 self' self r)
    (hK : r.source.left ≤ K) :
    Matches fault (form self') (form self) (fun _ r' => Passes r.source.WaitingTag r r') r
      stop := by
  refine (ends_peekKind hr).leads.then fun kind r₁ ⟨hseen, t, ht, hkind⟩ => ?_
  have hr₁ := hseen.tidy
  have hK := Nat.le_trans hseen.left_le hK
  -- all forms but a tag take something
  have htakes {act' act : Parse Node} (h : Takes fault stop 1 act' act r₁) :
      Matches fault act' act (fun _ r' => Passes r.source.WaitingTag r r') r₁ stop :=
    h.mono fun _ _ hshort => .inl (hseen.trans_shorter hshort)
  split
  · exact htakes ((ends_advance_seen hr₁ ht (by rw [hkind]; decide)).takes.map)
  · exact htakes (steps_shorthand hr₁ hdiv hK ht
      (Token.isShorthand_of_kind (hr₁.plain ht) (.inl hkind)))
  · exact htakes (steps_shorthand hr₁ hdiv hK ht
      (Token.isShorthand_of_kind (hr₁.plain ht) (.inr hkind)))
  · exact htakes (takes_stringNode hr₁)
  · exact htakes (takes_textNode hr₁)
  · exact htakes (takes_assignment hr₁)
  · exact htakes (steps_code hself hr₁ hK)
  · exact htakes (steps_comment hself hr₁ hK)
  · exact htakes (takes_doctype hr₁)
  · exact htakes (takes_filter hr₁)
  · exact htakes (steps_each hself hr₁ hK)
  · exact htakes (steps_conditional hself hr₁ hK)
  · exact htakes (takes_parent hr₁)
  · exact htakes (steps_call hself hr₁ hK)
  · exact htakes (steps_mixin hself hr₁ hK)
  · exact htakes (steps_namedBlock hself hr₁ hK)
  · exact htakes (takes_inclusion hr₁)
  · refine (steps_tag hself hr₁ ht hkind (by omega)).mono fun _ r₂ htag => ?_
    rcases htag with hshort | ⟨hshort, hw, hwait⟩
    · exact .inl (hseen.trans_shorter (hshort.mono (Nat.le_add_right _ _)))
    · exact .inr ⟨hseen.trans_shorter hshort, hw, hseen.agree.waitingTag hwait⟩
  · exact .get (matches_lineNow (Leads.matches (.throw (Tolerates.other Fault.noConfusion))))

omit hr in
/-- A form that begins with a tag and an id or a class, both put off, takes the two of them. -/
theorem steps_form_div (h : DivNext r) (hK : r.source.left < K + 2) :
    Takes fault stop 2 (form self') (form self) r := by
  refine (ends_peekKind h.tidy).looking fun kind r₁ hseen ⟨t, ht, hkind⟩ => ?_
  have htag : kind = "tag" := by
    have hsame := (hseen.agree.kindAt 0).trans h.kindAt_zero
    rw [Source.kindAt_of_stash ht, hkind] at hsame
    exact Option.some.inj hsame
  have hsecond : r₁.source.shorthandAt 1 = 1 :=
    (hseen.agree.shorthandAt 1).trans h.shorthandAt_one
  have hle := hseen.left_le
  subst htag
  refine (steps_tag hself hseen.tidy ht hkind (by omega)).mono fun _ r₂ htag => ?_
  rcases htag with hshort | ⟨-, -, hwait⟩
  · rwa [hsecond] at hshort
  · exact absurd hwait (Source.not_waitingTag hsecond)

end Walk

/-- **How deep forms may go** makes no difference, once there are two levels for each token. -/
theorem steps_within {depth depth' : Nat} (h : 2 * K ≤ depth) (h' : 2 * K ≤ depth') :
    Steps (fun _ _ => True) K (within form depth) (within form depth') := by
  induction K generalizing depth depth' with
  | zero => exact ⟨fun r _ hlt => absurd hlt (Nat.not_lt_zero _),
      fun _ r _ hlt => absurd hlt (Nat.not_lt_zero _)⟩
  | succ K ih =>
    obtain ⟨e, rfl⟩ : ∃ e, depth = e + 2 := ⟨depth - 2, by omega⟩
    obtain ⟨e', rfl⟩ : ∃ e', depth' = e' + 2 := ⟨depth' - 2, by omega⟩
    constructor
    · intro r hr hlt
      refine (steps_form (ih (by omega) (by omega)) hr (fun r₁ hnext hK => ?_) (by omega)).mono
        fun _ r' hform => hform.imp_right fun ⟨hshort, hw, _⟩ => ⟨hshort, hw, fun _ => trivial⟩
      exact steps_form_div (ih (by omega) (by omega)) hnext hK
    · exact fun _ r hw _ => ⟨hw.run_form, hw.run_form⟩

theorem run_budget (f : Nat → Parse α) :
    (budget >>= f).run.run r = (f (r.source.size + 1)).run.run r := rfl

theorem run_expression (r : Reader) :
    expression.run.run r = (within form (2 * (r.source.size + 1))).run.run r :=
  run_budget fun n => within form (2 * n)

theorem steps_expression : Steps (fun _ _ => True) K expression expression where
  passes r hr _ := by
    have hsteps := steps_within (K := r.source.size + 1) (Nat.le_refl _) (Nat.le_refl _)
    exact matches_budget (hsteps.passes r hr (left_lt_budget r))
  waits _ r hw _ := by
    have hsteps := steps_within (K := r.source.size + 1) (Nat.le_refl _) (Nat.le_refl _)
    have hrun := (hsteps.waits (fun _ => trivial) r hw (left_lt_budget r)).1
    rw [run_expression]
    exact ⟨hrun, hrun⟩

end Reader

end Jade

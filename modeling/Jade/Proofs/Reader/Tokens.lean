import Mathlib.Data.List.Chain
import Jade.Proofs.Reader.Logic
import Jade.Proofs.Source.Upcoming

/-!
# Looking at tokens and taking them

What the actions on single tokens do to the source of a reader. Two things are followed. One is what
is left to read: looking ahead does not add to it, and taking a token lessens it, unless the token
is the end. The other is the order of the tokens at hand, those read ahead and those put off. The
reader looks beyond few kinds of tokens: those that a tag may begin with before a colon, line ends
and outdents. A source is tidy if no other token is followed by one at hand, and the reader keeps
its source tidy. So an `#id` or a `.class` without a tag, which is put off together with the tag it
belongs to, comes next after that tag; and nothing is at hand after an indentation, where the mode
of reading may change.

## Main results

* `Jade.Reader.ends_peek`, `Jade.Reader.ends_lookahead_succ` : looking at tokens one by one
* `Jade.Reader.ends_advance`, `Jade.Reader.ends_expect` : taking a token
-/

namespace Jade

namespace Token

variable {t : Token} {ts : List Token}

/-- Whether a token is an id or a class. -/
def isShorthand (t : Token) : Bool :=
  match t.body with
  | .id _ | .className _ => true
  | _ => false

/-- Whether the kind of a token is given by name. -/
def isCustom (t : Token) : Bool :=
  match t.body with
  | .custom _ _ => true
  | _ => false

theorem kind_of_isShorthand (h : t.isShorthand = true) : t.kind = "id" ∨ t.kind = "class" := by
  rw [isShorthand] at h
  rw [kind]
  split at h
  · next heq => exact .inl (by rw [heq]; rfl)
  · next heq => exact .inr (by rw [heq]; rfl)
  · cases h

theorem isShorthand_of_kind (h : t.isCustom = false) (hk : t.kind = "id" ∨ t.kind = "class") :
    t.isShorthand = true := by
  obtain ⟨body, line⟩ := t
  cases body with
  | id => rfl
  | className => rfl
  | custom => exact absurd h (by simp [isCustom])
  | _ => exact absurd hk (by simp [kind, Body.kind])

/-- Whether the reader may look beyond a token. -/
def isPassable (t : Token) : Bool :=
  ["tag", "attrs", ":", "newline", "outdent"].contains t.kind

theorem isPassable_of_isShorthand (h : t.isShorthand = true) : t.isPassable = false := by
  rcases kind_of_isShorthand h with hk | hk <;> rw [isPassable, hk] <;> decide

theorem isPassable_of_indent {w : Nat} (h : t.body = .indent w) : t.isPassable = false := by
  rw [isPassable, kind, h]
  rfl

theorem weight_of_kind (h : t.kind ≠ "eos") : t.weight = 1 :=
  weight_of_ne fun heq => h (by rw [kind, heq]; rfl)

theorem weights_le_length (ts : List Token) : weights ts ≤ ts.length := by
  induction ts with
  | nil => exact Nat.le_refl 0
  | cons t ts ih =>
    have hle := t.weight_le_one
    rw [weights, List.length_cons]
    omega

theorem le_weights {n : Nat} (h : ∀ i < n, ∃ t, ts[i]? = some t ∧ t.weight = 1) :
    n ≤ weights ts := by
  induction n generalizing ts with
  | zero => exact Nat.zero_le _
  | succ n ih =>
    obtain ⟨t, ht, hweight⟩ := h 0 (Nat.succ_pos n)
    cases ts with
    | nil => cases ht
    | cons u us =>
      obtain rfl : u = t := Option.some.inj ht
      have hmore := ih fun i hi => h (i + 1) (Nat.succ_lt_succ hi)
      rw [weights]
      omega

/-- Tokens of the source in which each but the last may be looked beyond. -/
structure Orderly (ts : List Token) : Prop where
  /-- They come from the source. -/
  plain : ∀ t ∈ ts, t.isCustom = false
  /-- A token that is not looked beyond is the last of them. -/
  chain : ts.IsChain fun t _ => t.isPassable = true

theorem Orderly.singleton (h : t.isCustom = false) : Orderly [t] where
  plain := by simpa using h
  chain := .singleton t

theorem Orderly.of_cons (h : Orderly (t :: ts)) : Orderly ts where
  plain := fun u hu => h.plain u (List.mem_cons_of_mem _ hu)
  chain := h.chain.tail

theorem Orderly.append {us : List Token} (hts : Orderly ts) (hus : Orderly us)
    (hlast : ∀ t ∈ ts.getLast?, t.isPassable = true) : Orderly (ts ++ us) where
  plain := fun t ht => (List.mem_append.mp ht).elim (hts.plain t) (hus.plain t)
  chain := List.isChain_append.mpr ⟨hts.chain, hus.chain, fun t ht _ _ => hlast t ht⟩

theorem Orderly.replicate (hplain : t.isCustom = false) (h : t.isPassable = true) (k : Nat) :
    Orderly (List.replicate k t) where
  plain := fun u hu => by rwa [List.eq_of_mem_replicate hu]
  chain := List.isChain_replicate_of_rel k h

theorem Orderly.isPassable_of_mem (h : Orderly ts)
    (hlast : ∀ t ∈ ts.getLast?, t.isPassable = true) :
    ∀ t ∈ ts, t.isPassable = true := by
  intro t ht
  obtain ⟨before, after, rfl⟩ := List.append_of_mem ht
  cases after with
  | nil => exact hlast t (by simp)
  | cons u us =>
    have hchain := (List.isChain_append.mp h.chain).2.1
    exact (List.isChain_cons_cons.mp hchain).1

theorem Orderly.eq_nil (h : Orderly (t :: ts)) (ht : t.isPassable = false) : ts = [] := by
  cases ts with
  | nil => rfl
  | cons u us =>
    have hpass := (List.isChain_cons_cons.mp h.chain).1
    exact nomatch ht.symm.trans hpass

end Token

namespace Source

variable {s s' : Source} {t : Token} {e : Fault} {n : Nat}

/-! ## Tidy sources -/

/-- No token at hand comes after one that is not looked beyond. -/
def Tidy (s : Source) : Prop := Token.Orderly (s.stash ++ s.deferred)

theorem tidy_ofText (src : String) (colons : Bool) : (ofText src colons).Tidy where
  plain := by simp [ofText]
  chain := .nil

/-- A token that is read was at hand, or nothing was put off and what comes to hand is orderly. -/
theorem Reads.hand (h : s.Reads t s') :
    (s.deferred = t :: s'.deferred ∧ s'.stash = s.stash) ∨
      (s.deferred = [] ∧ ∃ k, s'.stash = s.stash ++ List.replicate k t ∧
        Token.Orderly (List.replicate (k + 1) t ++ s'.deferred)) := by
  -- all but one of the cases bring one token to hand
  have hone : ∀ {u : Token}, u.isCustom = false → s.deferred = [] →
      ∃ k, s.stash = s.stash ++ List.replicate k u ∧
        Token.Orderly (List.replicate (k + 1) u ++ s.deferred) := fun hu hd =>
    ⟨0, (List.append_nil _).symm, hd ▸ Token.Orderly.singleton hu⟩
  cases h with
  | deferred hd => exact .inl ⟨hd, rfl⟩
  | eos hd hr hi => exact .inr ⟨hd, hone rfl hd⟩
  | close hd hr hi => exact .inr ⟨hd, hone rfl hd⟩
  | newline hd hr => exact .inr ⟨hd, hone rfl hd⟩
  | indent hd hr hw hi => exact .inr ⟨hd, hone rfl hd⟩
  | @outdent rest line k style gone kept hd hr hi hk =>
    refine .inr ⟨hd, k, rfl, ?_⟩
    show Token.Orderly (List.replicate (k + 1) ⟨.outdent, line⟩ ++ s.deferred)
    rw [hd, List.append_nil]
    exact Token.Orderly.replicate rfl rfl (k + 1)
  | @content body rest hd hr hb =>
    refine .inr ⟨hd, hone ?_ hd⟩
    rw [Token.isCustom]
    split
    · next heq => exact absurd hb (by rw [show body = _ from heq]; simp [Token.Body.isContent])
    · rfl
  | tagColon hd hr =>
    refine .inr ⟨hd, 0, (List.append_nil _).symm, ?_⟩
    exact (Token.Orderly.singleton rfl).append (Token.Orderly.singleton rfl)
      (by simp [Token.isPassable, tok, Token.kind, Token.Body.kind])

theorem Tidy.of_advance (h : s.Tidy) (ha : s.advance = (.ok t, s')) :
    s'.Tidy ∧ t.isCustom = false := by
  rw [Tidy] at h ⊢
  rw [advance] at ha
  split at ha
  · next hstash =>
    cases ha
    rw [hstash] at h
    exact ⟨h.of_cons, h.plain _ List.mem_cons_self⟩
  · next hstash =>
    rw [hstash, List.nil_append] at h
    rcases (reads_of_next ha).hand with ⟨hd, hs⟩ | ⟨-, k, hs, ho⟩
    · rw [hd] at h
      rw [hs, hstash]
      exact ⟨h.of_cons, h.plain _ List.mem_cons_self⟩
    · rw [hs, hstash]
      exact ⟨ho.of_cons, ho.plain _ List.mem_cons_self⟩

theorem Tidy.of_shorthand (h : s.Tidy) (ht : s.stash[0]? = some t) (hs : t.isShorthand = true) :
    s.stash = [t] ∧ s.deferred = [] := by
  obtain ⟨ts, hstash⟩ : ∃ ts, s.stash = t :: ts := by
    cases hts : s.stash with
    | nil => rw [hts] at ht; cases ht
    | cons u us => rw [hts] at ht; exact ⟨us, by rw [Option.some.inj ht]⟩
  rw [Tidy, hstash, List.cons_append] at h
  obtain ⟨rfl, hd⟩ := List.append_eq_nil_iff.mp (h.eq_nil (Token.isPassable_of_isShorthand hs))
  exact ⟨hstash, hd⟩

theorem Tidy.plain {i : Nat} (h : s.Tidy) (ht : s.stash[i]? = some t) : t.isCustom = false :=
  Token.Orderly.plain h t (List.mem_append_left _ (List.mem_of_getElem? ht))

/-- Put a token off, after a tag that it belongs to. -/
def putOff (t : Token) (s : Source) : Source := (s.defer (s.tok (.tag "div"))).defer t

/-- Reading beyond a token that may be looked beyond keeps a source tidy. -/
theorem Tidy.of_next (h : s.Tidy) (hn : s.next = (.ok t, s'))
    (hlast : ∀ u ∈ s.stash.getLast?, u.isPassable = true) :
    Tidy { s' with stash := s'.stash ++ [t] } := by
  rw [Tidy] at h
  show Token.Orderly (s'.stash ++ [t] ++ s'.deferred)
  rcases (reads_of_next hn).hand with ⟨hd, hs⟩ | ⟨hd, k, hs, ho⟩
  · rwa [hs, List.append_assoc, List.singleton_append, ← hd]
  · rw [hd, List.append_nil] at h
    rw [hs, List.append_assoc s.stash, ← List.replicate_succ', List.append_assoc]
    exact h.append ho hlast

theorem left_of_next_stash (h : s.next = (.ok t, s')) :
    left { s' with stash := s'.stash ++ [t] } ≤ s.left := by
  have hpaid := left_of_next h
  have hleft : left { s' with stash := s'.stash ++ [t] } = s'.left + t.weight := by
    simp only [left, Token.weights_append, Token.weights]
    omega
  omega

theorem Fails.ne_endless (h : s.Fails e s') : e ≠ .endless := by
  cases h with
  | mixed => exact Fault.noConfusion
  | tagColon => exact Fault.noConfusion

theorem ne_endless_of_fetch (h : s.fetch n = (.error e, s')) : e ≠ .endless := by
  induction n generalizing s with
  | zero => cases h
  | succ n ih =>
    rw [fetch] at h
    split at h
    · next hnext =>
      cases h
      exact (fails_of_next hnext).ne_endless
    · exact ih h

theorem ne_endless_of_lookahead {n : Int} (h : s.lookahead n = (.error e, s')) : e ≠ .endless := by
  rw [lookahead] at h
  split at h
  · next hfetch =>
    cases h
    exact ne_endless_of_fetch hfetch
  · next u _ =>
    have hat : u.stashedAt (n - 1) = .error e := (Prod.mk.inj h).1
    rw [stashedAt] at hat
    generalize (if n - 1 < 0 then n - 1 + (u.stash.length : Int) else n - 1) = j at hat
    split at hat
    · cases hat
      exact Fault.noConfusion
    · split at hat
      · cases hat
      · cases hat
        exact Fault.noConfusion

/-- Looking ahead by at most one token more than were read ahead, and only beyond tokens for which
this may be done, keeps a source tidy and adds nothing to what is left. -/
theorem Tidy.of_lookahead (h : s.Tidy) (hn : n ≤ s.stash.length)
    (hlast : n = s.stash.length → ∀ u ∈ s.stash.getLast?, u.isPassable = true)
    (ht : s.lookahead (n + 1) = (.ok t, s')) : s'.Tidy ∧ s'.left ≤ s.left := by
  rw [lookahead] at ht
  split at ht
  · cases ht
  · next u hfetch =>
    obtain ⟨-, rfl⟩ := Prod.mk.inj ht
    rcases Nat.lt_or_eq_of_le hn with hlt | heq
    · rw [show ((n : Int) + 1 - s.stash.length).toNat = 0 by omega] at hfetch
      cases hfetch
      exact ⟨h, Nat.le_refl _⟩
    · rw [show ((n : Int) + 1 - s.stash.length).toNat = 1 by omega, fetch] at hfetch
      split at hfetch
      · cases hfetch
      · next hnext =>
        cases hfetch
        exact ⟨h.of_next hnext (hlast heq), left_of_next_stash hnext⟩

/-- As many tokens at hand as are not the end, as much is left. -/
theorem le_left_of_stash (h : ∀ i < n, ∃ t, s.stash[i]? = some t ∧ t.weight = 1) : n ≤ s.left := by
  have hstash := Token.le_weights h
  rw [left]
  omega

end Source

/-! ## Actions on tokens -/

namespace Reader

variable {α : Type} {r r' r'' : Reader} {n k : Nat} {kind : String}

/-- The action comes to an end, in a state as wanted or with a fault. -/
abbrev Ends (act : Parse α) (post : α → Reader → Prop) (r : Reader) : Prop :=
  Leads (fun e _ => e ≠ .endless) act post r

/-- The state after looking ahead. -/
structure Seen (r r' : Reader) : Prop where
  tidy : r'.source.Tidy
  left_le : r'.source.left ≤ r.source.left
  stash : r.source.stash <+: r'.source.stash
  agree : Source.Agree r'.source r.source

theorem Seen.refl (h : r.source.Tidy) : Seen r r :=
  ⟨h, Nat.le_refl _, List.prefix_refl _, Source.Agree.refl _⟩

theorem Seen.trans (h : Seen r r') (h' : Seen r' r'') : Seen r r'' where
  tidy := h'.tidy
  left_le := Nat.le_trans h'.left_le h.left_le
  stash := h.stash.trans h'.stash
  agree := h'.agree.trans h.agree

theorem stash_some {s s' : Source} (h : s.stash <+: s'.stash) {t : Token}
    (ht : s.stash[n]? = some t) : s'.stash[n]? = some t := by
  obtain ⟨hn, rfl⟩ := List.getElem?_eq_some_iff.mp ht
  exact List.prefix_iff_getElem?.mp h n hn

/-- The state after taking tokens. At least `k` less is left. -/
structure Shorter (k : Nat) (r r' : Reader) : Prop where
  tidy : r'.source.Tidy
  left_add_le : r'.source.left + k ≤ r.source.left

theorem Shorter.refl (h : r.source.Tidy) : Shorter 0 r r := ⟨h, Nat.le_refl _⟩

theorem Seen.shorter (h : Seen r r') : Shorter 0 r r' := ⟨h.tidy, h.left_le⟩

theorem Shorter.trans {j : Nat} (h : Shorter j r r') (h' : Shorter k r' r'') :
    Shorter (j + k) r r'' where
  tidy := h'.tidy
  left_add_le := by
    have h₁ := h.left_add_le
    have h₂ := h'.left_add_le
    omega

theorem Seen.trans_shorter (h : Seen r r') (h' : Shorter k r' r'') : Shorter k r r'' where
  tidy := h'.tidy
  left_add_le := Nat.le_trans h'.left_add_le h.left_le

theorem Shorter.mono {j : Nat} (h : Shorter k r r') (hle : j ≤ k) : Shorter j r r' :=
  ⟨h.tidy, Nat.le_trans (Nat.add_le_add_left hle _) h.left_add_le⟩

theorem ends_lookahead (hr : r.source.Tidy) (hn : n ≤ r.source.stash.length)
    (hlast : n = r.source.stash.length → ∀ u ∈ r.source.stash.getLast?, u.isPassable = true) :
    Ends (lookahead (n + 1)) (fun t r' => Seen r r' ∧ r'.source.stash[n]? = some t) r := by
  refine leads_onSource (fun t s h => ?_) fun e s h => Source.ne_endless_of_lookahead h
  obtain ⟨hat, hpre, hagree⟩ := Source.lookahead_spec h
  obtain ⟨htidy, hleft⟩ := hr.of_lookahead hn hlast h
  exact ⟨⟨htidy, hleft, hpre, hagree⟩, hat⟩

/-- **The next token.** -/
theorem ends_peek (hr : r.source.Tidy) :
    Ends peek (fun t r' => Seen r r' ∧ r'.source.stash[0]? = some t) r :=
  ends_lookahead hr (Nat.zero_le _) fun hzero u hu => by
    rw [List.eq_nil_of_length_eq_zero hzero.symm] at hu
    cases hu

/-- **The token after one that may be looked beyond.** -/
theorem ends_lookahead_succ {u : Token} (hr : r.source.Tidy) (hu : r.source.stash[n]? = some u)
    (hs : u.isPassable = true) :
    Ends (lookahead (n + 2)) (fun t r' => Seen r r' ∧ r'.source.stash[n + 1]? = some t) r := by
  have hlt := (List.getElem?_eq_some_iff.mp hu).1
  refine ends_lookahead (n := n + 1) hr hlt fun heq v hv => ?_
  rw [List.getLast?_eq_getElem?, ← heq, Nat.add_sub_cancel, hu] at hv
  rwa [← Option.some.inj hv]

/-- What is kept as long as tokens are only looked at, one after the other. -/
structure Looks (fault : Fault → Reader → Prop) (P : Reader → Prop) : Prop where
  /-- At the next token. -/
  first : ∀ {r : Reader}, P r →
    Leads fault peek (fun t r' => P r' ∧ r'.source.stash[0]? = some t) r
  /-- At the token after one that may be looked beyond. -/
  next : ∀ {r : Reader} {n : Nat} {u : Token}, P r → r.source.stash[n]? = some u →
    u.isPassable = true → Leads fault (lookahead (n + 2)) (fun v r' =>
      P r' ∧ r'.source.stash[n + 1]? = some v ∧ r.source.stash <+: r'.source.stash) r

theorem looks_seen : Looks (fun e _ => e ≠ .endless) (Seen r) where
  first hseen := (ends_peek hseen.tidy).mono fun _ _ ⟨hmore, ht⟩ => ⟨hseen.trans hmore, ht⟩
  next hseen hu hs := (ends_lookahead_succ hseen.tidy hu hs).mono fun _ _ ⟨hmore, hv⟩ =>
    ⟨hseen.trans hmore, hv, hmore.stash⟩

/-- The first token that is no line end is found by looking ahead. The line ends before it are at
hand, so they are as many as are left at most. -/
theorem Looks.afterNewlines {fault : Fault → Reader → Prop} {P : Reader → Prop}
    (h : Looks fault P) {m : Nat}
    (hends : (∀ r, fault .endless r) ∨ ∀ r, P r → r.source.left < n + m) (hr : P r)
    (hseen : ∀ i < m, ∃ t, r.source.stash[i]? = some t ∧ t.kind = "newline") :
    Leads fault (afterNewlines n (m + 1))
      (fun i r' => P r' ∧ ∃ (j : Nat) (t : Token), i = j + 1 ∧ r'.source.stash[j]? = some t ∧
        ∀ k < j, ∃ u, r'.source.stash[k]? = some u ∧ u.kind = "newline") r := by
  induction n generalizing r m with
  | zero =>
    refine hends.elim (fun h => .throw (h r)) fun hleft => absurd (hleft r hr) (Nat.not_lt.mpr ?_)
    rw [Nat.zero_add]
    refine Source.le_left_of_stash fun i hi => ?_
    obtain ⟨t, ht, hk⟩ := hseen i hi
    exact ⟨t, ht, Token.weight_of_kind (by rw [hk]; decide)⟩
  | succ n ih =>
    have hlook : Leads fault (lookahead ((m : Int) + 1))
        (fun t r' => P r' ∧ r'.source.stash[m]? = some t ∧
          ∀ i < m, ∃ u, r'.source.stash[i]? = some u ∧ u.kind = "newline") r := by
      cases m with
      | zero =>
        exact (h.first hr).mono fun t r' ⟨hr', ht⟩ =>
          ⟨hr', ht, nofun⟩
      | succ m =>
        obtain ⟨t, ht, hkind⟩ := hseen m (Nat.lt_succ_self m)
        refine (h.next hr ht (by rw [Token.isPassable, hkind]; decide)).mono
          fun u r' ⟨hr', hu, hkept⟩ => ⟨hr', hu, ?_⟩
        intro i hi
        obtain ⟨v, hv, hnewline⟩ := hseen i hi
        exact ⟨v, stash_some hkept hv, hnewline⟩
    refine hlook.bind fun t r₁ ⟨hr₁, ht, hseen₁⟩ => ?_
    split
    · next heq =>
      refine ih (m := m + 1) (hends.imp_right fun hleft r hr => ?_) hr₁ fun i hi => ?_
      · have hlt := hleft r hr
        omega
      · rcases Nat.lt_succ_iff_lt_or_eq.mp hi with hlt | rfl
        · exact hseen₁ i hlt
        · exact ⟨t, ht, eq_of_beq heq⟩
    · exact .pure ⟨hr₁, m, t, rfl, ht, hseen₁⟩

theorem ends_peekKind (hr : r.source.Tidy) :
    Ends peekKind
      (fun kind r' => Seen r r' ∧ ∃ t, r'.source.stash[0]? = some t ∧ t.kind = kind) r :=
  (ends_peek hr).bind fun t _ ⟨hseen, ht⟩ => .pure ⟨hseen, t, ht, rfl⟩

/-- **Taking the next token.** -/
theorem ends_advance (hr : r.source.Tidy) :
    Ends advance
      (fun t r' => Shorter t.weight r r' ∧ t.isCustom = false ∧
        Source.upcoming 0 r.source = .ok t ∧
        ∀ n, Source.upcoming n r'.source = Source.upcoming (n + 1) r.source) r := by
  refine leads_onSource (fun t s h => ?_) fun e s h => ?_
  · obtain ⟨htidy, hplain⟩ := hr.of_advance h
    exact ⟨⟨htidy, Source.left_of_advance h⟩, hplain, Source.upcoming_zero_of_advance h,
      fun n => (Source.upcoming_succ_of_advance h n).symm⟩
  · rw [Source.advance] at h
    split at h
    · cases h
    · exact (Source.fails_of_next h).ne_endless

theorem ends_advance_seen {u : Token} (hr : r.source.Tidy) (hu : r.source.stash[0]? = some u)
    (hkind : u.kind ≠ "eos") :
    Ends advance (fun _ r' => Shorter 1 r r') r := by
  refine (ends_advance hr).mono fun t r' ⟨hshort, _, hfirst, _⟩ => ?_
  obtain rfl : t = u := Except.ok.inj (hfirst.symm.trans (Source.upcoming_of_stash hu))
  rwa [Token.weight_of_kind hkind] at hshort

/-- **Taking a token of a kind.** -/
theorem ends_expect (hr : r.source.Tidy) (hkind : kind ≠ "eos") :
    Ends (expect kind) (fun _ r' => Shorter 1 r r') r := by
  refine (ends_peekKind hr).bind fun found r₁ ⟨hseen, t, ht, hfound⟩ => ?_
  split
  · next heq =>
    have hk : t.kind = kind := hfound.trans (eq_of_beq heq)
    exact (ends_advance_seen hseen.tidy ht (hk ▸ hkind)).mono fun _ _ => hseen.trans_shorter
  · exact .get (leads_lineNow (.throw (by simp)))

theorem ends_accept (hr : r.source.Tidy) : Ends (accept kind) (fun _ r' => Shorter 0 r r') r := by
  refine (ends_peekKind hr).bind fun found r₁ ⟨hseen, _⟩ => ?_
  split
  · exact (ends_advance hseen.tidy).bind fun t r₂ ⟨hshort, _⟩ =>
      .pure (hseen.trans_shorter (hshort.mono (Nat.zero_le _)))
  · exact .pure hseen.shorter

theorem ends_expectBody {f : Token.Body → Option α} (hr : r.source.Tidy) (hkind : kind ≠ "eos") :
    Ends (expectBody kind f) (fun _ r' => Shorter 1 r r') r := by
  refine (ends_expect hr hkind).bind fun t r₁ hshort => ?_
  split
  · exact .pure hshort
  · exact .get (leads_lineNow (.throw (by simp)))

theorem left_lt_budget (r : Reader) : r.source.left < r.source.size + 1 := by
  have hstash := Token.weights_le_length r.source.stash
  rw [Source.left, Source.size]
  omega

end Reader

end Jade

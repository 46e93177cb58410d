import Jade.Proofs.Source.Progress

/-!
# The tokens to come

A source gives the same tokens in the same order, however far it is read ahead in between. The
tokens to come are those that `Source.advance` gives when it is called again and again; reading
ahead moves tokens from the characters to the stash and leaves the tokens to come as they are.

This is not plain from the definitions. Where several levels of indentation end at once, the
outdents that are left over go to the stash before the token that is read, and that one is put after
them. The order is kept because they are all alike (`Reads.stash`).

## Main results

* `Jade.Source.agree_of_next` : reading a token ahead changes nothing
* `Jade.Source.lookahead_spec` : looking ahead shows the token at its place and changes nothing
* `Jade.Source.exists_lookahead` : where no fault is to come, looking ahead does not fail
-/

namespace Jade

namespace Source

variable {s s' : Source} {t : Token} {n : Nat} {bs : List Token.Body}

/-- The token at a place among those to come, from zero; or the fault that comes before it. -/
def upcoming : Nat → Source → Except Fault Token
  | 0, s => s.advance.1
  | n + 1, s =>
    match s.advance with
    | (.ok _, s) => upcoming n s
    | (.error e, _) => .error e

theorem upcoming_zero_of_advance (h : s.advance = (.ok t, s')) : upcoming 0 s = .ok t := by
  rw [upcoming, h]

theorem upcoming_succ_of_advance (h : s.advance = (.ok t, s')) (n : Nat) :
    upcoming (n + 1) s = upcoming n s' := by
  rw [upcoming, h]

/-- The tokens to come are the same. -/
def Agree (s s' : Source) : Prop := ∀ n, upcoming n s = upcoming n s'

theorem Agree.refl (s : Source) : Agree s s := fun _ => rfl

theorem Agree.trans {s'' : Source} (h : Agree s s') (h' : Agree s' s'') : Agree s s'' :=
  fun n => (h n).trans (h' n)

theorem agree_of_advance {u : Source} (h : s.advance = (.ok t, u)) (h' : s'.advance = (.ok t, u)) :
    Agree s s' := by
  intro n
  cases n with
  | zero => rw [upcoming_zero_of_advance h, upcoming_zero_of_advance h']
  | succ n => rw [upcoming_succ_of_advance h, upcoming_succ_of_advance h']

/-! ## Tokens read ahead -/

theorem upcoming_of_stash (h : s.stash[n]? = some t) : upcoming n s = .ok t := by
  induction n generalizing s with
  | zero =>
    obtain ⟨ts, hts⟩ : ∃ ts, s.stash = t :: ts := by
      cases hs : s.stash with
      | nil => rw [hs] at h; cases h
      | cons u ts => rw [hs] at h; exact ⟨ts, by rw [Option.some.inj h]⟩
    have hadvance : s.advance = (.ok t, { s with stash := ts }) := by rw [advance, hts]
    exact upcoming_zero_of_advance hadvance
  | succ n ih =>
    obtain ⟨u, ts, hts⟩ : ∃ u ts, s.stash = u :: ts := by
      cases hs : s.stash with
      | nil => rw [hs] at h; cases h
      | cons u ts => exact ⟨u, ts, rfl⟩
    rw [hts, List.getElem?_cons_succ] at h
    have hadvance : s.advance = (.ok u, { s with stash := ts }) := by rw [advance, hts]
    rw [upcoming_succ_of_advance hadvance]
    exact ih h

theorem upcoming_behind_add (ts : List Token) (s : Source) (n : Nat) :
    upcoming (n + ts.length) (s.behind ts) = upcoming n s := by
  induction ts with
  | nil => rfl
  | cons t ts ih => exact (upcoming_succ_of_advance (t := t) rfl _).trans ih

theorem Agree.behind (h : Agree s s') (ts : List Token) : Agree (s.behind ts) (s'.behind ts) := by
  induction ts with
  | nil => exact h
  | cons t ts ih =>
    intro n
    cases n with
    | zero => rfl
    | succ n => exact ih n

theorem behind_stash (s : Source) : behind s.stash { s with stash := [] } = s := by
  rw [behind, List.append_nil]

/-- **Reading a token ahead** changes nothing about the tokens to come. -/
theorem agree_of_next (h : s.next = (.ok t, s')) :
    Agree { s' with stash := s'.stash ++ [t] } s := by
  -- the source without its stash gives the token and, in the stash, more like it
  have hempty := next_behind s.stash { s with stash := [] }
  rw [behind_stash, h] at hempty
  obtain ⟨hfirst, hsource⟩ := Prod.mk.inj hempty
  generalize hnext : next { s with stash := [] } = out at hfirst hsource
  obtain ⟨result, u⟩ := out
  obtain rfl : Except.ok t = result := hfirst
  obtain ⟨k, hk⟩ := (reads_of_next hnext).stash
  have hstash : u.stash ++ [t] = t :: u.stash := by
    rw [hk, List.nil_append, ← List.replicate_succ', List.replicate_succ]
  have hagree : Agree { u with stash := t :: u.stash } { s with stash := [] } :=
    agree_of_advance rfl hnext
  have hbehind := hagree.behind s.stash
  rw [behind_stash] at hbehind
  have hsame : { s' with stash := s'.stash ++ [t] }
      = behind s.stash { u with stash := t :: u.stash } := by
    rw [hsource, ← hstash]
    simp only [behind, List.append_assoc]
  rwa [hsame]

theorem prefix_stash_of_next (h : s.next = (.ok t, s')) : s.stash <+: s'.stash := by
  obtain ⟨k, hk⟩ := (reads_of_next h).stash
  exact hk ▸ List.prefix_append _ _

theorem fetch_spec (h : s.fetch n = (.ok (), s')) :
    s.stash <+: s'.stash ∧ s.stash.length + n ≤ s'.stash.length ∧ Agree s' s := by
  induction n generalizing s with
  | zero =>
    cases h
    exact ⟨List.prefix_refl _, Nat.le_refl _, Agree.refl _⟩
  | succ n ih =>
    rw [fetch] at h
    rcases hnext : s.next with ⟨e | t, u⟩
    · rw [hnext] at h
      cases h
    · rw [hnext] at h
      have hpre := prefix_stash_of_next hnext
      obtain ⟨hpre', hlen, hagree⟩ := ih h
      refine ⟨(hpre.trans (List.prefix_append _ _)).trans hpre', ?_,
        hagree.trans (agree_of_next hnext)⟩
      have hle := hpre.length_le
      rw [List.length_append, List.length_singleton] at hlen
      omega

theorem stashedAt_natCast (s : Source) (n : Nat) :
    s.stashedAt n = match s.stash[n]? with
      | some t => .ok t
      | none => .error .noSuchPosition := by
  have hneg : ¬ ((n : Int) < 0) := by omega
  rw [stashedAt, if_neg hneg, Int.toNat_natCast]
  refine (if_neg hneg).trans ?_
  cases s.stash[n]? <;> rfl

/-- **Looking ahead** shows the token at its place, and leaves the tokens to come as they are. -/
theorem lookahead_spec (h : s.lookahead (n + 1) = (.ok t, s')) :
    s'.stash[n]? = some t ∧ s.stash <+: s'.stash ∧ Agree s' s := by
  rw [lookahead] at h
  split at h
  · cases h
  · next u hfetch =>
    obtain ⟨hat, rfl⟩ := Prod.mk.inj h
    obtain ⟨hpre, -, hagree⟩ := fetch_spec hfetch
    refine ⟨?_, hpre, hagree⟩
    rw [Int.add_sub_cancel, stashedAt_natCast] at hat
    split at hat
    · next hsome => exact hsome.trans (congrArg some (Except.ok.inj hat))
    · exact nomatch hat

/-! ## Sources without faults -/

theorem upcoming_length_stash (s : Source) : upcoming s.stash.length s = s.next.1 := by
  have hempty := next_behind s.stash { s with stash := [] }
  have hskip := upcoming_behind_add s.stash { s with stash := [] } 0
  rw [behind_stash] at hempty hskip
  rw [Nat.zero_add] at hskip
  rw [hskip, hempty]
  rfl

theorem exists_fetch (h : ∀ n, ∃ t, upcoming n s = .ok t) (n : Nat) :
    ∃ s', s.fetch n = (.ok (), s') := by
  induction n generalizing s with
  | zero => exact ⟨s, rfl⟩
  | succ n ih =>
    rw [fetch]
    rcases hnext : s.next with ⟨e | t, u⟩
    · obtain ⟨t, ht⟩ := h s.stash.length
      rw [upcoming_length_stash, hnext] at ht
      exact nomatch ht
    · refine ih fun m => ?_
      rw [agree_of_next hnext m]
      exact h m

theorem exists_lookahead (h : ∀ n, ∃ t, upcoming n s = .ok t) (n : Nat) :
    ∃ t s', s.lookahead (n + 1) = (.ok t, s') := by
  obtain ⟨u, hfetch⟩ := exists_fetch h ((n : Int) + 1 - s.stash.length).toNat
  obtain ⟨-, hlen, -⟩ := fetch_spec hfetch
  have hn : n < u.stash.length := by omega
  refine ⟨u.stash[n], u, ?_⟩
  rw [lookahead, hfetch]
  dsimp only
  rw [Int.add_sub_cancel, stashedAt_natCast, List.getElem?_eq_getElem hn]

/-! ## Runs -/

/-- Taking tokens gives these bodies in order and leads to `s'`. -/
def Runs (s : Source) : List Token.Body → Source → Prop
  | [], s' => s' = s
  | b :: bs, s' => ∃ t u, s.advance = (.ok t, u) ∧ t.body = b ∧ u.Runs bs s'

theorem Runs.append {s'' : Source} {cs : List Token.Body} (h : s.Runs bs s') (h' : s'.Runs cs s'') :
    s.Runs (bs ++ cs) s'' := by
  induction bs generalizing s with
  | nil =>
    obtain rfl : s' = s := h
    exact h'
  | cons b bs ih =>
    obtain ⟨t, u, hadvance, hbody, hrest⟩ := h
    exact ⟨t, u, hadvance, hbody, ih hrest⟩

theorem runs_of_advance (h : s.advance = (.ok t, s')) : s.Runs [t.body] s' :=
  ⟨t, s', h, rfl, rfl⟩

/-- The tokens to come have these bodies, and then the source has ended. -/
def Gives (s : Source) (bs : List Token.Body) : Prop :=
  ∀ n, (upcoming n s).map Token.body = .ok (bs.getD n .eos)

theorem Gives.exists_upcoming (h : s.Gives bs) (n : Nat) :
    ∃ t, upcoming n s = .ok t ∧ t.body = bs.getD n .eos := by
  have hn := h n
  cases ht : upcoming n s with
  | error e => rw [ht] at hn; exact nomatch hn
  | ok t => rw [ht] at hn; exact ⟨t, rfl, Except.ok.inj hn⟩

theorem Runs.gives {cs : List Token.Body} (h : s.Runs bs s') (h' : s'.Gives cs) :
    s.Gives (bs ++ cs) := by
  induction bs generalizing s with
  | nil =>
    obtain rfl : s' = s := h
    exact h'
  | cons b bs ih =>
    obtain ⟨t, u, hadvance, rfl, hrest⟩ := h
    intro n
    cases n with
    | zero =>
      rw [upcoming_zero_of_advance hadvance]
      rfl
    | succ n =>
      rw [upcoming_succ_of_advance hadvance]
      exact ih hrest n

theorem Gives.of_agree (h : s.Gives bs) (hagree : Agree s' s) : s'.Gives bs := fun n => by
  rw [hagree n]
  exact h n

theorem Gives.exists_advance (h : s.Gives bs) :
    ∃ t s', s.advance = (.ok t, s') ∧ t.body = bs.headD .eos ∧ s'.Gives bs.tail := by
  obtain ⟨t, ht, hbody⟩ := h.exists_upcoming 0
  rcases hadvance : s.advance with ⟨e | u, s'⟩
  · rw [upcoming, hadvance] at ht
    exact nomatch ht
  · obtain rfl : u = t := by
      rw [upcoming_zero_of_advance hadvance] at ht
      exact Except.ok.inj ht
    refine ⟨u, s', rfl, ?_, fun n => ?_⟩
    · rw [hbody, List.headD_eq_getD]
    · rw [← upcoming_succ_of_advance hadvance, h (n + 1)]
      cases bs <;> rfl

theorem Gives.exists_lookahead (h : s.Gives bs) (n : Nat) :
    ∃ t s', s.lookahead (n + 1) = (.ok t, s') ∧ t.body = bs.getD n .eos ∧ s'.Gives bs := by
  obtain ⟨t, s', hlook⟩ := Source.exists_lookahead
    (fun m => (h.exists_upcoming m).imp fun _ ht => ht.1) n
  obtain ⟨hat, -, hagree⟩ := lookahead_spec hlook
  obtain ⟨u, hu, hbody⟩ := h.exists_upcoming n
  obtain rfl : t = u :=
    Except.ok.inj ((upcoming_of_stash hat).symm.trans ((hagree n).trans hu))
  exact ⟨t, s', hlook, hbody, h.of_agree hagree⟩

theorem Gives.length_le_left (h : s.Gives bs) (hbs : ∀ b ∈ bs, b ≠ .eos) : bs.length ≤ s.left := by
  induction bs generalizing s with
  | nil => exact Nat.zero_le _
  | cons b bs ih =>
    obtain ⟨t, s', hadvance, hbody, hrest⟩ := h.exists_advance
    have hpaid := left_of_advance hadvance
    rw [Token.weight_of_ne (hbody ▸ hbs b List.mem_cons_self)] at hpaid
    have hmore := ih hrest fun c hc => hbs c (List.mem_cons_of_mem _ hc)
    rw [List.length_cons]
    omega

end Source

end Jade

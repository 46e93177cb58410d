import Jade.Proofs.Token.Values
import Mathlib.Data.List.Flatten
import Mathlib.Data.List.Nodup
import Mathlib.Data.List.Perm.Subperm

/-!
# How much of a list is stored

Reading loses characters and never makes up any. To use that, texts are given a *weight*, in which
blanks, commas and equals signs count nothing, because reading drops these where all goes well, and
an opening brace counts threefold, because an interpolation that is written as a sum then loses
weight too. What a text stores weighs no more than the text.

So a text that stores all that is heavy in it has nothing to spare: if a table shows pairs that
weigh as much as the text, these pairs are all that was stored, and each of them once and in order.

## Main results

* `Jade.AttributeList.load_run` : what is stored weighs no more than what is read
* `Jade.AttributeList.load_tail_le` : what is stored after the first attribute was read after it
* `Jade.AttributeList.eq_of_items_of_load_le` : a table with nothing to spare
-/

namespace Jade.AttributeList

/-! ## Weights -/

/-- A character that counts. -/
def isHeavy (c : Char) : Bool := !(isBlank c || c == ',' || c == '=')

/-- The weight of a text: the characters that count, and two more for each opening brace. -/
def weight (cs : List Char) : Nat := cs.countP isHeavy + 2 * cs.count '\x7b'

@[simp] theorem weight_nil : weight [] = 0 := rfl

@[simp] theorem weight_append (a b : List Char) : weight (a ++ b) = weight a + weight b := by
  simp only [weight, List.countP_append, List.count_append]
  omega

theorem weight_cons (c : Char) (cs : List Char) : weight (c :: cs) = weight [c] + weight cs :=
  weight_append [c] cs

theorem weight_le_of_sublist {a b : List Char} (h : a.Sublist b) : weight a ≤ weight b := by
  have hheavy := h.countP_le (p := isHeavy)
  have hbrace := h.count_le '\x7b'
  simp only [weight]
  omega

theorem weight_perm {a b : List Char} (h : a.Perm b) : weight a = weight b := by
  rw [weight, weight, h.countP_eq, h.count_eq]

theorem weight_strip_le (t : String) : weight (strip t).toList ≤ weight t.toList :=
  weight_le_of_sublist (toList_strip_sublist t)

theorem weight_of_isBlank {gap : List Char} (h : ∀ c ∈ gap, isBlank c = true) : weight gap = 0 := by
  have hheavy : gap.countP isHeavy = 0 := by
    rw [List.countP_eq_zero]
    intro c hc
    simp [isHeavy, h c hc]
  have hbrace : gap.count '\x7b' = 0 := by
    rw [List.count_eq_zero]
    intro hmem
    exact absurd (h _ hmem) (by decide)
  rw [weight, hheavy, hbrace]

/-- A value with its interpolations written as sums weighs less if there are any. -/
theorem weight_interpolate {quote : String} (hquote : weight quote.toList ≤ 1) (val : List Char) :
    weight (interpolate quote (String.ofList val)).1.toList +
      (interpolate quote (String.ofList val)).2.toNat ≤ weight val := by
  induction val using brace_induction with
  | last val hno => simp [interpolate_of_not_mem hno]
  | cut piece rest hpiece ih =>
    have hclose : weight ['\x7d'] = 1 := by decide
    rw [weight_append, weight_cons, hclose]
    cases hsum : interpolatePiece? quote (String.ofList piece) with
    | some sum =>
      obtain ⟨before, inner, rfl, -, rfl⟩ := of_interpolatePiece? hsum
      have hopening : weight opening = 4 := by decide
      have hplus : weight "+".toList = 1 := by decide
      simp only [interpolate_append hpiece, hsum, String.toList_append, String.toList_ofList,
        weight_append, hopening, hplus, Bool.toNat_true]
      omega
    | none =>
      have hbrace : weight "\x7d".toList = 1 := by decide
      simp only [interpolate_append hpiece, hsum, String.toList_append, String.toList_ofList,
        weight_append, hbrace]
      omega

/-! ## Pairs -/

/-- The characters of a name and its value. -/
def spelled (p : String × AttrText) : List Char :=
  p.1.toList ++ match p.2 with
    | .flag => []
    | .expr v => v.toList

/-- The weight of pairs of a name and a value. -/
def load (pairs : List (String × AttrText)) : Nat := weight (pairs.flatMap spelled)

@[simp] theorem load_nil : load [] = 0 := rfl

theorem load_cons (p : String × AttrText) (pairs : List (String × AttrText)) :
    load (p :: pairs) = weight (spelled p) + load pairs := by
  rw [load, List.flatMap_cons, weight_append, load]

/-- The weight of what was read and not stored yet. -/
def State.load (s : State) : Nat := weight s.key.toList + weight s.val.toList

variable {colons : Bool} {s : State} {c : Char} {cs : List Char} {e : Entry} {es : List Entry}

theorem Idle.load (hs : Idle s) : s.load = 0 := by
  obtain ⟨gap, hkey, hgap⟩ := hs.key
  rw [State.load, hkey, String.toList_ofList, weight_of_isBlank hgap, hs.val]
  rfl

/-- An attribute is stored with less weight than was read for it if there is an interpolation in its
value, and with no more otherwise. -/
theorem weight_entry (hquote : weight s.quote.toList ≤ 1) :
    weight (spelled s.entry.pair) + (interpolate s.quote (strip s.val)).2.toNat ≤ s.load := by
  have hkey : weight s.entry.key.toList ≤ weight s.key.toList := by
    have hstrip := weight_strip_le s.key
    rw [State.entry, stripQuotes, stripBy, String.toList_ofList]
    apply Nat.le_trans (weight_le_of_sublist (trimBy_sublist _ _))
    split
    · rw [String.toList_ofList]
      exact Nat.le_trans (weight_le_of_sublist (List.dropLast_sublist _)) hstrip
    · exact hstrip
  have hval := weight_interpolate hquote (strip s.val).toList
  rw [String.ofList_toList] at hval
  have hstrip := weight_strip_le s.val
  rw [Entry.pair, spelled, weight_append, State.load]
  by_cases hempty : (strip s.val).isEmpty = true
  · rw [State.value_entry, if_pos hempty]
    simp only [weight_nil]
    omega
  · rw [State.value_entry, if_neg hempty]
    simp only
    omega

/-! ## One character -/

theorem weight_quote_step (hquote : weight s.quote.toList ≤ 1) (c : Char) :
    weight (step colons s c).quote.toList ≤ 1 := by
  obtain ⟨-, hstep⟩ | ⟨-, hstep⟩ | ⟨-, habsorbs⟩ := step_cases colons s c
  · rw [hstep]
    exact Nat.zero_le 1
  · rw [hstep]
    exact hquote
  · obtain heq | ⟨hc, heq⟩ := habsorbs.quote
    · rwa [heq]
    · rw [heq]
      simp only [isQuote, Bool.or_eq_true, beq_iff_eq] at hc
      rcases hc with rfl | rfl
      · decide
      · decide

theorem load_step_of_not_ends (h : s.ends c = false) :
    (step colons s c).load ≤ s.load + weight [c] := by
  obtain ⟨hends, -⟩ | ⟨-, hstep⟩ | ⟨-, habsorbs⟩ := step_cases colons s c
  · exact absurd h (by simp [hends])
  · have hkey := weight_strip_le s.key
    have hval := weight_strip_le s.val
    rw [hstep]
    simp only [State.load]
    omega
  · obtain ⟨hkey, hval⟩ | ⟨hkey, hval⟩ | ⟨hkey, hval⟩ := habsorbs.texts
    · rw [State.load, hkey, hval, State.load]
      omega
    · rw [State.load, hkey, hval, String.toList_push, weight_append, State.load]
      omega
    · rw [State.load, hkey, hval, String.toList_push, weight_append, State.load]
      omega

/-! ## A text -/

theorem weight_quote_run (hquote : weight s.quote.toList ≤ 1) (cs : List Char) :
    weight (cs.foldl (step colons) s).quote.toList ≤ 1 := by
  induction cs generalizing s with
  | nil => exact hquote
  | cons c cs ih => exact ih (weight_quote_step hquote c)

/-- **What is stored weighs no more than what is read.** -/
theorem load_run (hquote : weight s.quote.toList ≤ 1) (cs : List Char) :
    load ((stored colons s cs).map Entry.pair) + (cs.foldl (step colons) s).load ≤
      s.load + weight cs := by
  induction cs generalizing s with
  | nil => simp [stored]
  | cons c cs ih =>
    have hrest := @ih (step colons s c) (weight_quote_step hquote c)
    rw [stored, List.foldl_cons, weight_cons]
    by_cases hends : s.ends c = true
    · have hentry := weight_entry hquote
      have hzero : (step colons s c).load = 0 := by
        rw [step_ends hends]
        rfl
      rw [if_pos hends, List.map_cons, load_cons]
      omega
    · have hstep := @load_step_of_not_ends colons s c (by simpa using hends)
      rw [if_neg hends]
      omega

/-- What is stored after the first attribute was read after it. -/
theorem load_tail_le (hquote : weight s.quote.toList ≤ 1) (h : stored colons s cs = e :: es) :
    load (es.map Entry.pair) ≤ weight cs := by
  induction cs generalizing s with
  | nil => exact absurd h (by simp [stored])
  | cons c cs ih =>
    have hquote' := @weight_quote_step colons s hquote c
    rw [stored] at h
    rw [weight_cons]
    by_cases hends : s.ends c = true
    · rw [if_pos hends] at h
      cases h
      have hrun := @load_run colons _ hquote' cs
      have hzero : (step colons s c).load = 0 := by
        rw [step_ends hends]
        rfl
      omega
    · rw [if_neg hends] at h
      have := ih hquote' h
      omega

/-! ## Tables with nothing to spare -/

theorem load_perm {ps qs : List (String × AttrText)} (h : ps.Perm qs) : load ps = load qs :=
  weight_perm (h.flatMap_right spelled)

theorem eq_of_sublist_of_load_le {ps qs : List (String × AttrText)} (h : ps.Sublist qs)
    (hpos : ∀ q ∈ qs, 0 < weight (spelled q)) (hload : load qs ≤ load ps) : ps = qs := by
  induction h with
  | slnil => rfl
  | @cons ps qs q h ih =>
    have hle := weight_le_of_sublist (h.flatMap spelled)
    have hq := hpos q List.mem_cons_self
    rw [load_cons] at hload
    exact absurd hload (by simp only [load]; omega)
  | @cons_cons ps qs q h ih =>
    rw [load_cons, load_cons] at hload
    rw [ih (fun r hr => hpos r (List.mem_cons_of_mem _ hr)) (by omega)]

/-- If the pairs that a table shows weigh as much as those that were stored, they are those that
were stored. -/
theorem eq_of_items_of_load_le {pairs shown : List (String × AttrText)}
    (hitems : (({} : Table String AttrText).storeAll pairs).items =
      shown.map fun p => (p.1, some p.2))
    (hnodup : (shown.map Prod.fst).Nodup) (hpos : ∀ p ∈ shown, 0 < weight p.1.toList)
    (hload : load pairs ≤ load shown) : pairs = shown := by
  have hsubset : shown ⊆ pairs := fun p hp => Table.mem_of_items_storeAll hitems hp
  obtain ⟨part, hperm, hpart⟩ := List.subperm_of_subset (List.Nodup.of_map _ hnodup) hsubset
  have hheavy : ∀ q ∈ pairs, 0 < weight (spelled q) := by
    intro q hq
    obtain ⟨p, hp, hkey⟩ := Table.exists_of_items_storeAll hitems hq
    have := hpos p hp
    rw [spelled, weight_append, ← hkey]
    omega
  have hall : part = pairs :=
    eq_of_sublist_of_load_le hpart hheavy (by rw [load_perm hperm]; exact hload)
  subst hall
  have hkeys : (part.map Prod.fst).Nodup := (hperm.map Prod.fst).nodup_iff.mpr hnodup
  rw [Table.items_storeAll Table.consistent_empty hkeys (by simp)] at hitems
  have hinj : Function.Injective fun p : String × AttrText => (p.1, some p.2) := by
    rintro ⟨k, v⟩ ⟨k', v'⟩ h
    simpa using h
  exact List.map_injective_iff.mpr hinj hitems

end Jade.AttributeList

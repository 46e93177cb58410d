import Jade.Source

/-!
# Where an attribute list ends

The closing parenthesis of a list is found by counting alone: quotes do not hide a parenthesis. So a
list ends where it should exactly if the parentheses between its own are balanced, wherever they
stand.

## Main results

* `Jade.closingIndex_eq_iff`, `drop_closingIndex_eq_iff` : the end that is found, and balance
* `Jade.isBalanced_append` : balanced texts one after the other
* `Jade.Source.run_attrs_of_isBalanced` : a balanced list is read to its end
-/

namespace Jade

/-- Whether a text closes just the parentheses that it opens and `depth` others, and none before it
was opened. -/
def closes (depth : Nat) : List Char → Bool
  | [] => depth == 0
  | c :: cs =>
    if c = '(' then closes (depth + 1) cs
    else if c = ')' then depth != 0 && closes (depth - 1) cs
    else closes depth cs

/-- Whether a text closes just the parentheses that it opens, and none before it was opened. -/
def isBalanced (cs : List Char) : Bool := closes 0 cs

/-! ## Balance -/

theorem closes_append {d e : Nat} {a b : List Char} (ha : closes d a = true)
    (hb : closes e b = true) : closes (d + e) (a ++ b) = true := by
  induction a generalizing d with
  | nil =>
    have hd : d = 0 := by simpa [closes] using ha
    simpa [hd] using hb
  | cons c a ih =>
    rw [List.cons_append, closes]
    rw [closes] at ha
    split
    · next hc =>
      rw [if_pos hc] at ha
      rw [show d + e + 1 = d + 1 + e by omega]
      exact ih ha
    · next hc =>
      rw [if_neg hc] at ha
      split
      · next hc' =>
        rw [if_pos hc', Bool.and_eq_true, bne_iff_ne] at ha
        rw [Bool.and_eq_true, bne_iff_ne, show d + e - 1 = d - 1 + e by omega]
        exact ⟨by omega, ih ha.2⟩
      · next hc' =>
        rw [if_neg hc'] at ha
        exact ih ha

theorem isBalanced_append {a b : List Char} (ha : isBalanced a = true) (hb : isBalanced b = true) :
    isBalanced (a ++ b) = true :=
  closes_append ha hb

/-- A character other than a parenthesis. -/
def isOutside (c : Char) : Bool := c != '(' && c != ')'

theorem closes_filter (d : Nat) (cs : List Char) :
    closes d (cs.filter fun c => !isOutside c) = closes d cs := by
  induction cs generalizing d with
  | nil => rfl
  | cons c cs ih =>
    by_cases hopen : c = '('
    · subst hopen
      rw [List.filter_cons_of_pos (by decide)]
      simp only [closes, ih]
    · by_cases hclose : c = ')'
      · subst hclose
        rw [List.filter_cons_of_pos (by decide)]
        simp only [closes, ih]
      · rw [List.filter_cons_of_neg (by simp [isOutside, hopen, hclose]), ih, closes, if_neg hopen,
          if_neg hclose]

theorem isBalanced_of_isOutside {cs : List Char} (h : ∀ c ∈ cs, isOutside c = true) :
    isBalanced cs = true := by
  have hnone : (cs.filter fun c => !isOutside c) = [] :=
    List.filter_eq_nil_iff.mpr fun c hc => by simp [h c hc]
  rw [isBalanced, ← closes_filter, hnone]
  rfl

/-! ## The end that is found -/

theorem singleton_beq_iff (c d : Char) :
    (String.singleton c == String.singleton d) = true ↔ c = d := by
  rw [beq_iff_eq, ← String.toList_inj]
  simp

theorem closingIndexFrom_cases (opening closing : String) (index opened closed : Nat)
    (cs : List Char) :
    closingIndexFrom opening closing index opened closed cs = 0 ∨
      index ≤ closingIndexFrom opening closing index opened closed cs ∧
        closingIndexFrom opening closing index opened closed cs < index + cs.length := by
  induction cs generalizing index opened closed with
  | nil => exact Or.inl rfl
  | cons c cs ih =>
    have hlater (o k : Nat) : closingIndexFrom opening closing (index + 1) o k cs = 0 ∨
        index ≤ closingIndexFrom opening closing (index + 1) o k cs ∧
          closingIndexFrom opening closing (index + 1) o k cs < index + (cs.length + 1) :=
      (ih (index + 1) o k).imp_right fun h => by omega
    rw [closingIndexFrom, List.length_cons]
    split
    · exact hlater _ _
    · split
      · split
        · exact Or.inr (by omega)
        · exact hlater _ _
      · exact hlater _ _

/-- With `depth + 1` parentheses open, a closing one is the end exactly if the text before it closes
`depth` of them. -/
theorem closingIndexFrom_eq_iff {index : Nat} (hindex : 0 < index) (closed depth : Nat)
    (text rest : List Char) :
    closingIndexFrom "(" ")" index (closed + depth + 1) closed (text ++ ')' :: rest)
        = index + text.length ↔ closes depth text = true := by
  have hopen (c : Char) : (String.singleton c == "(") = true ↔ c = '(' := singleton_beq_iff c '('
  have hclose (c : Char) : (String.singleton c == ")") = true ↔ c = ')' := singleton_beq_iff c ')'
  induction text generalizing index closed depth with
  | nil =>
    rw [List.nil_append, closingIndexFrom, if_neg (by decide), if_pos (by decide)]
    by_cases hd : depth = 0
    · simp [hd, closes]
    · have hlater :=
        closingIndexFrom_cases "(" ")" (index + 1) (closed + depth + 1) (closed + 1) rest
      rw [if_neg (by omega)]
      simp only [List.length_nil, Nat.add_zero, closes, beq_iff_eq, hd, iff_false]
      omega
  | cons c text ih =>
    rw [List.cons_append, closingIndexFrom, closes, List.length_cons,
      show index + (text.length + 1) = index + 1 + text.length by omega]
    by_cases hc : c = '('
    · rw [if_pos ((hopen c).mpr hc), if_pos hc]
      exact ih (Nat.succ_pos index) closed (depth + 1)
    · rw [if_neg (fun h => hc ((hopen c).mp h)), if_neg hc]
      by_cases hc' : c = ')'
      · rw [if_pos ((hclose c).mpr hc'), if_pos hc']
        cases depth with
        | zero =>
          -- the list would end here already
          rw [if_pos rfl]
          simp only [bne_self_eq_false, Bool.false_and, Bool.false_eq_true, iff_false]
          omega
        | succ depth =>
          rw [if_neg (by omega), show closed + (depth + 1) + 1 = closed + 1 + depth + 1 by omega]
          simpa using ih (Nat.succ_pos index) (closed + 1) depth
      · rw [if_neg (fun h => hc' ((hclose c).mp h)), if_neg hc']
        exact ih (Nat.succ_pos index) closed depth

/-- A list ends at a parenthesis exactly if those inside of the list are balanced. -/
theorem closingIndex_eq_iff (text rest : List Char) :
    closingIndex "(" ")" ('(' :: (text ++ ')' :: rest)) = text.length + 1 ↔
      isBalanced text = true := by
  rw [closingIndex, closingIndexFrom, if_pos (by decide), Nat.add_comm text.length]
  exact closingIndexFrom_eq_iff Nat.one_pos 0 0 text rest

/-- What is left after the end that is found is what follows a parenthesis exactly if those inside
of the list are balanced. -/
theorem drop_closingIndex_eq_iff (text rest : List Char) :
    ('(' :: (text ++ ')' :: rest)).drop
        (closingIndex "(" ")" ('(' :: (text ++ ')' :: rest)) + 1) = rest ↔
      isBalanced text = true := by
  rw [← closingIndex_eq_iff text rest]
  constructor
  · intro h
    have hlt := closingIndexFrom_cases "(" ")" 0 0 0 ('(' :: (text ++ ')' :: rest))
    have hlength := congrArg List.length h
    rw [← closingIndex] at hlt
    simp only [List.length_drop, List.length_cons, List.length_append] at hlength hlt
    omega
  · intro h
    rw [h]
    simp

/-! ## Tokens -/

/-- The text between the parentheses of the list at the head of a text. -/
def AttributeList.inside (cs : List Char) : List Char :=
  (cs.take (closingIndex "(" ")" cs)).drop 1

theorem AttributeList.inside_of_isBalanced {text : List Char} (h : isBalanced text = true)
    (rest : List Char) : inside ('(' :: (text ++ ')' :: rest)) = text := by
  rw [inside, (closingIndex_eq_iff text rest).mpr h]
  simp

/-- Tried by itself, an attribute list gives a token, even if it never ends. -/
theorem Source.run_attrs (s : Source) (cs : List Char) :
    Scanner.attrs.run { s with rest := '(' :: cs } =
      (.ok (some ⟨.attrs (AttributeList.read s.colons (AttributeList.inside ('(' :: cs))).table
        (AttributeList.read s.colons (AttributeList.inside ('(' :: cs))).fixed, s.line⟩),
        { s with rest := ('(' :: cs).drop (closingIndex "(" ")" ('(' :: cs) + 1) }) := by
  simp only [Scanner.run, Source.scan, Rules.attrs?]
  rfl

theorem Source.run_attrs_of_isBalanced {text : List Char} (h : isBalanced text = true) (s : Source)
    (rest : List Char) :
    Scanner.attrs.run { s with rest := '(' :: (text ++ [')']) ++ rest } =
      (.ok (some ⟨.attrs (AttributeList.read s.colons text).table
        (AttributeList.read s.colons text).fixed, s.line⟩), { s with rest }) := by
  have htext : '(' :: (text ++ [')']) ++ rest = '(' :: (text ++ ')' :: rest) := by simp
  rw [htext, Source.run_attrs, AttributeList.inside_of_isBalanced h,
    (drop_closingIndex_eq_iff text rest).mpr h]

end Jade

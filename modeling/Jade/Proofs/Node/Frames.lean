import Jade.Proofs.Reader.Shape

/-!
# Places in a tree

A node of a tree is known by its place, not by what it looks like, since equal nodes may stand at
many places. Around a place there are frames, one for each node on the way to it. The texts of a
template stand in slots, which are the nodes that carry a text. Text beside a tag and the text of a
filter are not written as nodes on their own, so the tag and the filter are the slots there.

Every text of a tree whose nodes have their shapes is in a slot within frames (`exists_frames`).
Statements about frames and slots are therefore about all texts of a template.

## Main results

* `Jade.Frames.exists_frames` : every text is in a slot within frames
-/

namespace Jade

/-- A place in a tree: which child to take, again and again. -/
abbrev Place := List Nat

/-- The node at a place. -/
def Node.get? (n : Node) : Place → Option Node
  | [] => some n
  | i :: p => n.children[i]?.bind fun c => c.get? p

theorem Node.get?_append (n : Node) (p q : Place) :
    n.get? (p ++ q) = (n.get? p).bind fun c => c.get? q := by
  induction p generalizing n with
  | nil => rfl
  | cons i p ih =>
    rw [List.cons_append, get?, get?]
    cases n.children[i]? with
    | none => rfl
    | some c => exact ih c

theorem Node.get?_child {root n c : Node} {p : Place} {i : Nat} (hn : root.get? p = some n)
    (hc : n.children[i]? = some c) : root.get? (p ++ [i]) = some c := by
  rw [get?_append, hn, Option.bind_some, get?, hc]
  rfl

/-! ## Frames -/

/-- A node without one of the nodes in it. -/
inductive Frame where
  | block (before after : List Node) (line : Option Nat) (yields : Bool)
  | named (name mode : String) (before after : List Node) (line : Option Nat)
  | element (head : Tag) (code text : Option Node) (line : Option Nat)
  | beside (head : Tag) (text : Option Node) (content : Node) (line : Option Nat)
  | code (source : String) (buffer escape : Bool) (line : Option Nat)
  | comment (head : String) (buffer : Bool) (line : Option Nat)
  | each (subject : String) (keys : List String) (line : Option Nat)
  | mixin (name args : String) (call : Bool)
  | branch (word sentence : String) (next : List Node) (line : Option Nat)
  | alternative (word sentence : String) (content : Option Node) (before after : List Node)
      (line : Option Nat)

namespace Frame

/-- The frame with a node in its place. -/
def plug (n : Node) : Frame → Node
  | block before after line yields => .block (before ++ n :: after) line yields
  | named name mode before after line => .codeBlock name mode (before ++ n :: after) line
  | element head c text line => .tag head c text n line
  | beside head text content line => .tag head (some n) text content line
  | code source buffer escape line => .code source buffer escape (some n) line
  | comment head buffer line => .blockComment head buffer (some n) line
  | each subject keys line => .each subject keys (some n) line
  | mixin name args call => .mixin name args (some n) call
  | branch word sentence next line => .conditional word sentence (some n) next line
  | alternative word sentence content before after line =>
    .conditional word sentence content (before ++ n :: after) line

/-- Which child of the frame the node is. -/
def index : Frame → Nat
  | block before _ _ _ | named _ _ before _ _ => before.length
  | element _ c text _ => c.toList.length + text.toList.length
  | alternative _ _ content before _ _ => content.toList.length + before.length
  | beside _ _ _ _ | code _ _ _ _ | comment _ _ _ | each _ _ _ | mixin _ _ _ | branch _ _ _ _ => 0

end Frame

/-- What is around a place, from the outside in. -/
abbrev Frames := List Frame

/-- The frames with a node in their place. -/
def Frames.plug (c : Frames) (n : Node) : Node := c.foldr (fun frame n => frame.plug n) n

/-! ## Slots -/

/-- A text of at least one line. -/
structure Lines where
  first : String
  rest : List String
  deriving Inhabited

/-- All lines. -/
def Lines.all (l : Lines) : List String := l.first :: l.rest

/-- A node that carries a text. -/
inductive Slot where
  /-- Text after a bar. -/
  | string (line : Option Nat)
  /-- A line of text or a block of it. -/
  | text (line : Option Nat)
  /-- The text of a filter. -/
  | filter (name : String) (attrs : Option FilterAttrs) (textLine line : Option Nat)
  /-- Text beside a tag, with a bar before it or not. -/
  | beside (head : Tag) (code : Option Node) (bar : Bool) (content : Node)
      (textLine line : Option Nat)

namespace Slot

/-- The slot with a text in its place. -/
def plug (l : Lines) : Slot → Node
  | string line => .string l.all line
  | text line => .text l.all line
  | filter name attrs textLine line => .filter name attrs (some (.text l.all textLine)) line
  | beside head code bar content textLine line =>
    .tag head code (some (if bar then .string l.all textLine else .text l.all textLine)) content
      line

/-- The text that is written: beside a tag it is the first line, without blanks before it. -/
def carried (l : Lines) : Slot → String
  | beside _ _ _ _ _ _ => stripStart l.first
  | string _ | text _ | filter _ _ _ _ => String.join l.all

/-- The place of the text within the slot. -/
def place : Slot → Place
  | string _ | text _ => []
  | filter _ _ _ _ => [0]
  | beside _ code _ _ _ _ => [code.toList.length]

end Slot

namespace Frames

variable {i : Nat} {n : Node} {p : Place}

/-- The place of the text in a slot within the frames. -/
def place (c : Frames) (x : Slot) : Place := c.map Frame.index ++ x.place

/-! ## Every text is in a slot -/

theorem exists_split {ns : List Node} (h : ns[i]? = some n) :
    ∃ before after, ns = before ++ n :: after ∧ before.length = i := by
  obtain ⟨hi, rfl⟩ := List.getElem?_eq_some_iff.mp h
  refine ⟨ns.take i, ns.drop (i + 1), ?_, List.length_take_of_le hi.le⟩
  rw [← List.drop_eq_getElem_cons hi, List.take_append_drop]

theorem eq_some_of_toList {c : Option Node} (h : c.toList[i]? = some n) : i = 0 ∧ c = some n := by
  cases c with
  | none => simp at h
  | some m => cases i <;> simp_all

theorem lines_of_get? {m : Node} (hn : n.isText = true ∨ n.hasLine = true) (hm : n.get? p = some m)
    (hline : m.hasLine = true) :
    p = [] ∧ ∃ (l : Lines) (line : Option Nat), n = .text l.all line ∨ n = .string l.all line := by
  have hchildren : n.children = [] := by
    cases n with
    | text | string => rfl
    | _ => simp [Node.isText, Node.hasLine] at hn
  cases p with
  | cons i p => simp [Node.get?, hchildren] at hm
  | nil =>
    obtain rfl : n = m := Option.some.inj hm
    refine ⟨rfl, ?_⟩
    unfold Node.hasLine at hline
    split at hline
    · next l ls line => exact ⟨⟨l, ls⟩, line, .inl rfl⟩
    · next l ls line => exact ⟨⟨l, ls⟩, line, .inr rfl⟩
    · cases hline

/-- The place is that of a slot within frames, and all together are the tree. -/
def Hosts (root : Node) (p : Place) : Prop :=
  ∃ (c : Frames) (x : Slot) (l : Lines), c.place x = p ∧ c.plug (x.plug l) = root

theorem Hosts.plug (h : Hosts n p) (frame : Frame) : Hosts (frame.plug n) (frame.index :: p) := by
  obtain ⟨c, x, l, rfl, rfl⟩ := h
  exact ⟨frame :: c, x, l, rfl, rfl⟩

theorem hosts_slot (x : Slot) (l : Lines) : Hosts (x.plug l) x.place := ⟨[], x, l, rfl, rfl⟩

/-- The child of a tag that a text is in: its code, its text or its content. -/
theorem hosts_tag {head : Tag} {code text : Option Node} {content m : Node} {line : Option Nat}
    (hn : (Node.tag head code text content line).children[i]? = some n)
    (htext : text.all Node.hasLine = true) (hm : n.get? p = some m) (hline : m.hasLine = true)
    (h : Hosts n p) : Hosts (.tag head code text content line) (i :: p) := by
  rw [Node.children, List.append_assoc, List.getElem?_append] at hn
  split at hn
  · obtain ⟨rfl, rfl⟩ := eq_some_of_toList hn
    exact h.plug (.beside head text content line)
  · next hcode =>
    rw [List.getElem?_append] at hn
    split at hn
    · obtain ⟨hi, rfl⟩ := eq_some_of_toList hn
      obtain ⟨rfl, l, textLine, rfl | rfl⟩ := lines_of_get? (.inr htext) hm hline
      · obtain rfl : i = code.toList.length := by omega
        exact hosts_slot (.beside head code false content textLine line) l
      · obtain rfl : i = code.toList.length := by omega
        exact hosts_slot (.beside head code true content textLine line) l
    · next hrest =>
      obtain ⟨hi, -⟩ := List.getElem?_eq_some_iff.mp hn
      rw [List.length_singleton] at hi
      obtain rfl : i = code.toList.length + text.toList.length := by omega
      obtain rfl : content = n := by simpa using hn
      exact h.plug (.element head code text line)

/-- **Every text** of a tree is in a slot within frames, by induction on the way to it. -/
theorem exists_frames {root : Node} (hfits : ∀ m ∈ root.walk, m.fits = true)
    (hn : root.get? p = some n) (hline : n.hasLine = true) : Hosts root p := by
  induction p generalizing root with
  | nil =>
    have hroot : root.hasLine = true := Option.some.inj hn ▸ hline
    obtain ⟨-, l, line, rfl | rfl⟩ := lines_of_get? (.inr hroot) hn hline
    · exact hosts_slot (.text line) l
    · exact hosts_slot (.string line) l
  | cons i p ih =>
    rw [Node.walk_eq, List.forall_mem_cons, List.forall_mem_flatMap] at hfits
    obtain ⟨hroot, hinner⟩ := hfits
    rw [Node.get?] at hn
    obtain ⟨m, hm, hget⟩ := Option.bind_eq_some_iff.mp hn
    have hhosts : Hosts m p := ih (hinner m (List.mem_of_getElem? hm)) hget
    cases root with
    | block ns line yields =>
      obtain ⟨before, after, rfl, rfl⟩ := exists_split hm
      exact hhosts.plug (.block before after line yields)
    | codeBlock name mode ns line =>
      obtain ⟨before, after, rfl, rfl⟩ := exists_split hm
      exact hhosts.plug (.named name mode before after line)
    | tag head code text content line =>
      rw [Node.fits, Bool.and_eq_true, Bool.and_eq_true] at hroot
      exact hosts_tag hm hroot.1.2 hget hline hhosts
    | code source buffer escape content line =>
      obtain ⟨rfl, rfl⟩ := eq_some_of_toList hm
      exact hhosts.plug (.code source buffer escape line)
    | blockComment head buffer content line =>
      obtain ⟨rfl, rfl⟩ := eq_some_of_toList hm
      exact hhosts.plug (.comment head buffer line)
    | each subject keys content line =>
      obtain ⟨rfl, rfl⟩ := eq_some_of_toList hm
      exact hhosts.plug (.each subject keys line)
    | mixin name args content call =>
      obtain ⟨rfl, rfl⟩ := eq_some_of_toList hm
      exact hhosts.plug (.mixin name args call)
    | conditional word sentence content next line =>
      rw [Node.children, List.getElem?_append] at hm
      split at hm
      · obtain ⟨rfl, rfl⟩ := eq_some_of_toList hm
        exact hhosts.plug (.branch word sentence next line)
      · next hcontent =>
        obtain ⟨before, after, rfl, hlength⟩ := exists_split hm
        obtain rfl : i = content.toList.length + before.length := by omega
        exact hhosts.plug (.alternative word sentence content before after line)
    | filter name attrs content line =>
      -- nothing is below the text of a filter, so the filter is the slot
      obtain ⟨rfl, rfl⟩ := eq_some_of_toList hm
      obtain ⟨rfl, l, textLine, rfl | rfl⟩ := lines_of_get? (.inl hroot) hget hline
      · exact hosts_slot (.filter name attrs textLine line) l
      · exact absurd hroot (by simp [Node.fits, Node.isText])
    | _ => simp [Node.children] at hm

end Frames

end Jade

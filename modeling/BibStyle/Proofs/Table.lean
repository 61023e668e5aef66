import BibStyle.Proofs.Places

/-!
# A segment as a table

The nodes of a segment can be kept in a table in place of a tree: a cell for each node, with the
index of its parent and those of its children. The table is built from events, in one pass over the
nodes. A token is added under the innermost node that is open. A node is added when it is opened,
at the byte it is to start at; its own end, its fault and whether there is one below it are filled
in when it is closed.

What an index is makes no difference to how a table is built (`Index`). Where indices are numbers,
`foldl_events` says what comes out: the nodes in preorder, numbered from the index at which the
pass started (`Node.entries`), and with them what the innermost open node has gained.
-/

namespace BibStyle

/-! ## The events of a node -/

/-- What a builder is told. Offsets are those in the text. -/
inductive Event where
  | enter (kind : NodeKind) (field : Option Field) (start : Nat)
  | token (kind : TokenKind) (field : Option Field) (span : Span)
  | mark (fault : Fault)
  | close (fault : Option Fault)
deriving DecidableEq

/-- The token `t` at byte `pos`. -/
def Event.ofToken (field : Option Field) (pos : Nat) (t : Token) : Event :=
  .token t.kind field ⟨pos, pos + t.size⟩

namespace Node

mutual

/-- The events that make the node at byte `pos`. A marker comes as one. -/
def events (pos : Nat) : Node → List Event
  | .leaf k f t => [.token k f ⟨pos, pos + t.size⟩]
  | .branch .error none (some e) [] => [.mark e]
  | .branch k f e cs => .enter k f pos :: (eventsAll pos cs ++ [.close e])

/-- The events for nodes that follow one another from byte `pos` on. -/
def eventsAll (pos : Nat) : List Node → List Event
  | [] => []
  | n :: ns => n.events pos ++ eventsAll (pos + n.size) ns

end

variable (pos : Nat)

@[simp] theorem eventsAll_nil : eventsAll pos [] = [] := by simp [eventsAll]

@[simp] theorem eventsAll_cons (n : Node) (ns : List Node) :
    eventsAll pos (n :: ns) = n.events pos ++ eventsAll (pos + n.size) ns := by simp [eventsAll]

@[simp] theorem eventsAll_append (ns ms : List Node) :
    eventsAll pos (ns ++ ms) = eventsAll pos ns ++ eventsAll (pos + sizeAll ns) ms := by
  induction ns generalizing pos with
  | nil => simp
  | cons n ns ih => simp [ih, Nat.add_assoc]

@[simp] theorem events_ofToken (field : Option Field) (t : Token) :
    (ofToken field t).events pos = [.ofToken field pos t] := by
  simp [ofToken, events, Event.ofToken, Token.size]

@[simp] theorem events_marker (fault : Fault) : (marker fault).events pos = [.mark fault] := by
  simp [marker, events]

/-- A node with nodes inside is entered and closed; only a marker is not. -/
theorem events_branch_cases (k : NodeKind) (f : Option Field) (e : Option Fault) (cs : List Node) :
    (∃ fault, branch k f e cs = marker fault) ∨
      (branch k f e cs).events pos = .enter k f pos :: (eventsAll pos cs ++ [.close e]) := by
  by_cases hm : ∃ fault, branch k f e cs = marker fault
  · exact .inl hm
  · right
    rw [events]
    rintro fault rfl rfl rfl rfl
    exact hm ⟨fault, rfl⟩

theorem events_branch {cs : List Node} (k : NodeKind) (f : Option Field) (e : Option Fault)
    (h : cs ≠ []) :
    (branch k f e cs).events pos = .enter k f pos :: (eventsAll pos cs ++ [.close e]) := by
  refine (events_branch_cases pos k f e cs).resolve_left ?_
  rintro ⟨fault, hm⟩
  exact h (branch.inj hm).2.2.2

end Node

/-! ## Cells and builders -/

/-- Numbers are kept as indices of the type. -/
class Index (ι : Type) where
  ofNat : Nat → ι
  toNat : ι → Nat

instance : Index Nat := ⟨id, id⟩

@[simp] theorem Index.toNat_nat (n : Nat) : Index.toNat n = n := rfl

/-- A node of a segment, with offsets from the start of the segment. -/
structure Cell (ι : Type) where
  kind : Kind
  field : Option Field
  span : Span
  fault : Option Fault
  flawed : Bool
  parent : Option ι
  children : List ι
deriving DecidableEq

abbrev Entry := Cell Nat

/-- The nodes of a segment; an index stands for the node at that place. -/
abbrev Table := List Entry

variable {ι : Type}

namespace Cell

/-- The node with more children, one of them flawed or not. -/
def gain (is : List ι) (flawed : Bool) (c : Cell ι) : Cell ι :=
  { c with children := c.children ++ is, flawed := c.flawed || flawed }

/-- The node when it is closed. It does not end before its start. -/
def finish (stop : Nat) (fault : Option Fault) (c : Cell ι) : Cell ι :=
  { c with
    span := ⟨c.span.start, max stop c.span.start⟩
    fault
    flawed := c.flawed || fault.isSome }

/-- The cells with the one at the index changed, if an index is given. -/
def modifyAt [Index ι] (cells : List (Cell ι)) (p : Option ι) (f : Cell ι → Cell ι) :
    List (Cell ι) :=
  match p with
  | none => cells
  | some p => cells.modify (Index.toNat p) f

@[simp] theorem gain_nil_false (c : Cell ι) : c.gain [] false = c := by simp [gain]

theorem gain_gain (is js : List ι) (b d : Bool) (c : Cell ι) :
    (c.gain is b).gain js d = c.gain (is ++ js) (b || d) := by
  simp [gain, Bool.or_assoc]

@[simp] theorem length_modifyAt [Index ι] (cells : List (Cell ι)) (p : Option ι)
    (f : Cell ι → Cell ι) : (modifyAt cells p f).length = cells.length := by
  cases p <;> simp [modifyAt]

end Cell

/-- A table in the making. -/
structure Builder (ι : Type) where
  /-- Where the segment starts in the text. -/
  base : Nat
  cells : List (Cell ι)
  /-- The nodes that are open, innermost first. -/
  opened : List ι
  /-- The end of the last token. -/
  stop : Nat

namespace Builder

variable [Index ι]

def new (base : Nat) : Builder ι := ⟨base, [], [], 0⟩

/-- The index of the next node. -/
def next (b : Builder ι) : ι := Index.ofNat b.cells.length

/-- Add a node under the innermost one that is open. -/
def add (b : Builder ι) (c : Cell ι) : Builder ι :=
  { b with cells := Cell.modifyAt b.cells b.opened.head? (.gain [b.next] c.flawed) ++
      [{ c with parent := b.opened.head? }] }

def token (b : Builder ι) (kind : TokenKind) (field : Option Field) (span : Span) : Builder ι :=
  let fault := Fault.ofToken? kind
  let own : Span := ⟨span.start - b.base, span.stop - b.base⟩
  { b.add ⟨.token kind, field, own, fault, fault.isSome, none, []⟩ with stop := own.stop }

/-- Add an empty node that says what is wrong at the end of the last token. -/
def mark (b : Builder ι) (fault : Fault) : Builder ι :=
  b.add ⟨.node .error, none, ⟨b.stop, b.stop⟩, some fault, true, none, []⟩

/-- Open a node at byte `start` of the text. -/
def enter (b : Builder ι) (kind : NodeKind) (field : Option Field) (start : Nat) : Builder ι :=
  let own : Span := ⟨start - b.base, start - b.base⟩
  { b.add ⟨.node kind, field, own, none, false, none, []⟩ with opened := b.next :: b.opened }

/-- Close the innermost open node; if it is flawed, so is the one it names as its parent. -/
def close (b : Builder ι) (fault : Option Fault) : Builder ι :=
  match b.opened with
  | [] => b
  | i :: above =>
      let cells := b.cells.modify (Index.toNat i) (.finish b.stop fault)
      let closed := cells[Index.toNat i]?
      { b with
        cells := Cell.modifyAt cells (closed.bind Cell.parent) (.gain [] (closed.any (·.flawed)))
        opened := above }

def hear (b : Builder ι) : Event → Builder ι
  | .enter kind field start => b.enter kind field start
  | .token kind field span => b.token kind field span
  | .mark fault => b.mark fault
  | .close fault => b.close fault

/-- Close what is still open. -/
def finish (b : Builder ι) : Builder ι := b.opened.foldl (fun b _ => b.close none) b

/-- The nodes so far, where indices are numbers. -/
abbrev table (b : Builder Nat) : Table := b.cells

end Builder

/-- The nodes of the segment, numbered. -/
def Segment.table (g : Segment) : Table :=
  ((g.node.events 0).foldl Builder.hear (.new 0)).table

/-! ## Nodes numbered in preorder -/

namespace Node

mutual

/-- The number of nodes: the node itself and those below it. -/
def count : Node → Nat
  | .leaf _ _ _ => 1
  | .branch _ _ _ cs => 1 + countAll cs

def countAll : List Node → Nat
  | [] => 0
  | n :: ns => count n + countAll ns

end

/-- The indices of the nodes, the first being `i`, when those below each are numbered behind it. -/
def indices (i : Nat) : List Node → List Nat
  | [] => []
  | n :: ns => i :: indices (i + n.count) ns

/-- The entry of a node that is numbered `i` and stands at byte `pos`. -/
def entry (parent : Option Nat) (i pos : Nat) (n : Node) : Entry :=
  ⟨n.kind, n.field, ⟨pos, pos + n.size⟩, n.fault, n.flawed, parent, indices (i + 1) n.children⟩

mutual

/-- The entries of a node and of all nodes below it, numbered from `i` on. -/
def entries (parent : Option Nat) (i pos : Nat) : Node → Table
  | .leaf k f t => [entry parent i pos (.leaf k f t)]
  | .branch k f e cs => entry parent i pos (.branch k f e cs) :: entriesAll i (i + 1) pos cs

def entriesAll (parent i pos : Nat) : List Node → Table
  | [] => []
  | n :: ns => n.entries (some parent) i pos ++ entriesAll parent (i + n.count) (pos + n.size) ns

end

@[simp] theorem countAll_nil : countAll [] = 0 := by simp [countAll]

@[simp] theorem countAll_cons (n : Node) (ns : List Node) :
    countAll (n :: ns) = n.count + countAll ns := by simp [countAll]

theorem count_eq (n : Node) : n.count = 1 + countAll n.children := by
  cases n <;> simp [count, children]

theorem countAll_append (ns ms : List Node) : countAll (ns ++ ms) = countAll ns + countAll ms := by
  induction ns with
  | nil => simp
  | cons n ns ih => simp [ih, Nat.add_assoc]

@[simp] theorem indices_nil (i : Nat) : indices i [] = [] := rfl

@[simp] theorem indices_cons (i : Nat) (n : Node) (ns : List Node) :
    indices i (n :: ns) = i :: indices (i + n.count) ns := rfl

@[simp] theorem entriesAll_nil (p i pos : Nat) : entriesAll p i pos [] = [] := by simp [entriesAll]

@[simp] theorem entriesAll_cons (p i pos : Nat) (n : Node) (ns : List Node) :
    entriesAll p i pos (n :: ns) =
      n.entries (some p) i pos ++ entriesAll p (i + n.count) (pos + n.size) ns := by
  simp [entriesAll]

theorem entries_eq (parent : Option Nat) (i pos : Nat) (n : Node) :
    n.entries parent i pos = n.entry parent i pos :: entriesAll i (i + 1) pos n.children := by
  cases n <;> simp [entries, children]

mutual

@[simp] theorem length_entries (parent : Option Nat) (i pos : Nat) : (n : Node) →
    (n.entries parent i pos).length = n.count
  | .leaf k f t => by simp [entries, count]
  | .branch k f e cs => by simp [entries, count, length_entriesAll i (i + 1) pos cs, Nat.add_comm]

@[simp] theorem length_entriesAll (p i pos : Nat) : (ns : List Node) →
    (entriesAll p i pos ns).length = countAll ns
  | [] => by simp
  | n :: ns => by
      simp [length_entries (some p) i pos n,
        length_entriesAll p (i + n.count) (pos + n.size) ns]

end

end Node

/-! ## What a pass builds -/

theorem Cell.modify_append_of_lt {α : Type} {xs : List α} {i : Nat} (h : i < xs.length)
    (ys : List α) (f : α → α) : (xs ++ ys).modify i f = xs.modify i f ++ ys := by
  induction xs generalizing i with
  | nil => simp at h
  | cons x xs ih =>
      cases i with
      | zero => simp
      | succ i => simpa using ih (by simpa using h)

theorem Cell.modify_length_append {α : Type} (xs : List α) (y : α) (ys : List α) (f : α → α) :
    (xs ++ y :: ys).modify xs.length f = xs ++ f y :: ys := by
  induction xs with
  | nil => simp
  | cons x xs ih => simpa using ih

namespace Builder

open Cell

variable {b : Builder Nat}

@[simp] theorem next_eq (b : Builder Nat) : b.next = b.cells.length := rfl

theorem modifyAt_some (cells : Table) (i : Nat) (f : Entry → Entry) :
    modifyAt cells (some i) f = cells.modify i f := rfl

/-- The innermost open node is in the table. -/
def Valid (b : Builder Nat) : Prop := ∀ i ∈ b.opened.head?, i < b.cells.length

/-- What `b` becomes when nodes are added under the innermost open one: the indices `is` are its
new children, `es` the entries of these and of all below them. -/
def extend (b : Builder Nat) (is : List Nat) (flawed : Bool) (es : Table) (size : Nat) :
    Builder Nat :=
  ⟨b.base, modifyAt b.cells b.opened.head? (.gain is flawed) ++ es, b.opened, b.stop + size⟩

@[simp] theorem extend_nil (b : Builder Nat) : b.extend [] false [] 0 = b := by
  obtain ⟨base, cells, opened, stop⟩ := b
  cases opened with
  | nil => simp [extend, modifyAt]
  | cons i above =>
      have hid : (gain [] false) = (id : Entry → Entry) := funext gain_nil_false
      simp [extend, modifyAt, hid]

theorem Valid.enter (b : Builder Nat) (k : NodeKind) (f : Option Field) (start : Nat) :
    (b.enter k f start).Valid := by
  intro i hi
  obtain rfl : b.cells.length = i := by simpa [Builder.enter] using hi
  simp [Builder.enter, add]

theorem Valid.extend (h : b.Valid) (is : List Nat) (flawed : Bool) (es : Table) (size : Nat) :
    (b.extend is flawed es size).Valid := by
  intro i hi
  have := h i hi
  simp only [Builder.extend, List.length_append, length_modifyAt]
  omega

theorem extend_extend (h : b.Valid) (is js : List Nat) (f g : Bool) (es fs : Table) (m n : Nat) :
    (b.extend is f es m).extend js g fs n = b.extend (is ++ js) (f || g) (es ++ fs) (m + n) := by
  obtain ⟨base, cells, opened, stop⟩ := b
  cases opened with
  | nil => simp [extend, modifyAt, Nat.add_assoc]
  | cons i above =>
      have hi : i < cells.length := h i rfl
      have hgain : gain js g ∘ gain is f = (gain (is ++ js) (f || g) : Entry → Entry) :=
        funext (gain_gain is js f g)
      simp [extend, modifyAt_some, modify_append_of_lt, hi, List.modify_modify_eq, hgain,
        Nat.add_assoc]

theorem token_eq_extend (b : Builder Nat) (k : TokenKind) (f : Option Field) (t : Text) :
    b.token k f ⟨b.base + b.stop, b.base + b.stop + t.size⟩ =
      b.extend [b.cells.length] (Node.leaf k f t).flawed
        ((Node.leaf k f t).entries b.opened.head? b.cells.length b.stop) t.size := by
  have hstop : b.base + b.stop + t.size - b.base = b.stop + t.size := by omega
  simp [token, add, extend, hstop, Node.entries, Node.entry, Node.kind, Node.field, Node.fault,
    Node.flawed, Node.children]

theorem mark_eq_extend (b : Builder Nat) (fault : Fault) :
    b.mark fault = b.extend [b.cells.length] (Node.marker fault).flawed
      ((Node.marker fault).entries b.opened.head? b.cells.length b.stop) 0 := by
  simp [mark, add, extend, Node.marker, Node.entries, Node.entry, Node.kind, Node.field,
    Node.fault, Node.flawed, Node.children]

/-- Closing the node numbered `cells.length` fills it in and hands its flaw on to its parent. -/
theorem close_eq_extend {base : Nat} {cells es : Table} {e : Entry} {above : List Nat} {stop : Nat}
    (fault : Option Fault) (h : Valid ⟨base, cells, above, stop⟩) (hp : e.parent = above.head?) :
    Builder.close ⟨base, cells ++ e :: es, cells.length :: above, stop⟩ fault =
      Builder.extend ⟨base, cells, above, stop⟩ [] (e.flawed || fault.isSome)
        (e.finish stop fault :: es) 0 := by
  have hparent : (e.finish stop fault).parent = above.head? := hp
  have hflawed : (e.finish stop fault).flawed = (e.flawed || fault.isSome) := rfl
  cases above with
  | nil => simp [close, modifyAt, extend, modify_length_append, hparent]
  | cons i above =>
      have hi : i < cells.length := h i rfl
      simp [close, modifyAt_some, extend, modify_length_append, modify_append_of_lt, hi, hparent,
        hflawed]

/-- What comes of a node that is opened behind the last token, is given children and is closed. -/
theorem close_extend_enter (h : b.Valid) (kind : NodeKind) (field : Option Field)
    (fault : Option Fault) (is : List Nat) (flawed : Bool) (es : Table) (size : Nat) :
    ((b.enter kind field (b.base + b.stop)).extend is flawed es size).close fault =
      b.extend [b.cells.length] (flawed || fault.isSome)
        (⟨.node kind, field, ⟨b.stop, b.stop + size⟩, fault, flawed || fault.isSome,
          b.opened.head?, is⟩ :: es) size := by
  have hopened : (b.enter kind field (b.base + b.stop)).extend is flawed es size =
      ⟨b.base, modifyAt b.cells b.opened.head? (.gain [b.cells.length] false) ++
        ⟨.node kind, field, ⟨b.stop, b.stop⟩, none, flawed, b.opened.head?, is⟩ :: es,
        (modifyAt b.cells b.opened.head? (.gain [b.cells.length] false)).length :: b.opened,
        b.stop + size⟩ := by
    have hmodify := modify_length_append
      (modifyAt b.cells b.opened.head? (.gain [b.cells.length] false))
    simp only [length_modifyAt] at hmodify
    simp [enter, add, extend, modifyAt_some, hmodify, gain]
  have hadded : (⟨b.base, modifyAt b.cells b.opened.head? (.gain [b.cells.length] false), b.opened,
      b.stop + size⟩ : Builder Nat) = b.extend [b.cells.length] false [] size := by simp [extend]
  rw [hopened, close_eq_extend fault (hadded ▸ h.extend _ _ _ _) rfl, hadded, extend_extend h]
  simp [Cell.finish]

end Builder

open Builder

mutual

/-- The events of a node that stands behind the last token add its nodes in preorder. -/
theorem Node.foldl_events : (n : Node) → {b : Builder Nat} → {pos : Nat} → b.Valid →
    pos = b.base + b.stop → (n.events pos).foldl hear b =
      b.extend [b.cells.length] n.flawed
        (n.entries b.opened.head? b.cells.length b.stop) n.size
  | .leaf k f t, b, _, _, rfl => by
      rw [size_leaf, ← token_eq_extend, events]
      rfl
  | .branch k f e cs, b, _, h, rfl => by
      rcases events_branch_cases (b.base + b.stop) k f e cs with ⟨fault, hm⟩ | hevents
      · rw [hm, events_marker, size_marker, ← mark_eq_extend]
        rfl
      · have hcs := Node.foldl_eventsAll cs b.cells.length
          (Valid.enter b k f (b.base + b.stop)) rfl rfl
        rw [hevents, List.foldl_cons, List.foldl_append, hear]
        refine (congrArg (Builder.close · e) hcs).trans ?_
        rw [close_extend_enter h]
        simp [entries, entry, kind, field, fault, children, flawed, enter, add, Bool.or_comm]

/-- The events of nodes add them, one after the other, under the node `p` that is open. -/
theorem Node.foldl_eventsAll : (ns : List Node) → (p : Nat) → {b : Builder Nat} → {pos : Nat} →
    b.Valid → b.opened.head? = some p → pos = b.base + b.stop → (eventsAll pos ns).foldl hear b =
      b.extend (indices b.cells.length ns) (flawedAll ns)
        (entriesAll p b.cells.length b.stop ns) (sizeAll ns)
  | [], p, b, _, _, _, _ => by simp [flawedAll]
  | n :: ns, p, b, _, h, hp, hpos => by
      rw [eventsAll_cons, List.foldl_append, Node.foldl_events n h hpos,
        Node.foldl_eventsAll ns p (h.extend _ _ _ _) hp (by rw [hpos, Nat.add_assoc]; rfl),
        extend_extend h, hp]
      simp [extend, flawedAll]

end

theorem Builder.valid_new (pos : Nat) : (new pos : Builder Nat).Valid := by simp [Valid, new]

namespace Segment

theorem foldl_events_eq_extend (g : Segment) (pos : Nat) :
    (g.node.events pos).foldl hear (new pos : Builder Nat) =
      (new pos).extend [0] g.node.flawed (g.node.entries none 0 0) g.size :=
  g.node.foldl_events (valid_new pos) (Nat.add_zero pos).symm

/-- The table of a segment has its nodes in preorder, numbered from zero. -/
theorem table_eq (g : Segment) : g.table = g.node.entries none 0 0 := by
  rw [table, foldl_events_eq_extend]
  rfl

theorem length_table (g : Segment) : g.table.length = g.node.count := by
  rw [table_eq, Node.length_entries]

/-- The table is what comes of the events, wherever the segment stands in the text. -/
theorem foldl_events (g : Segment) (pos : Nat) :
    (g.node.events pos).foldl hear (.new pos) = ⟨pos, g.table, [], g.size⟩ := by
  rw [foldl_events_eq_extend, g.table_eq]
  simp [extend, new, Cell.modifyAt]

end Segment

example : (Segment.mk (.branch .ref (some .term) none
    [.leaf .quote none "\x27".toList, .leaf .identifier (some .symbol) "skip".toList]) true).table =
    [⟨.node .ref, some .term, ⟨0, 5⟩, none, false, none, [1, 2]⟩,
      ⟨.token .quote, none, ⟨0, 1⟩, none, false, some 0, []⟩,
      ⟨.token .identifier, some .symbol, ⟨1, 5⟩, none, false, some 0, []⟩] := by
  decide

end BibStyle

import BibStyle.Proofs.Numbering
import BibStyle.Proofs.Trimming

/-!
# How a tree is laid out

The nodes of a parse stand at their places in the text without a gap: the children of a node follow
one another from its first byte to its last (`Table.Abut`), and each node covers the bytes of its
own text. That a node starts and stops with tokens other than fillers is the invariant of the
machine (`Node.Trimmed`), read off the table. Only a marker may stand behind the last of them.

From every node the way up leads to the file, and goes through nodes that have the last one among
their children.
-/

namespace BibStyle

namespace Table

/-- The nodes stand one after the other, from byte `start` to byte `stop`. -/
inductive Abut (a : Table) : (start : Nat) → List Nat → (stop : Nat) → Prop where
  | nil {stop} : Abut a stop [] stop
  | cons {i e is stop} (here : a[i]? = some e) (rest : Abut a e.span.stop is stop) :
      Abut a e.span.start (i :: is) stop

/-- The tokens among the nodes. -/
def tokens (a : Table) (is : List Nat) : List Entry :=
  (is.filterMap (a[·]?)).filter (·.kind.isToken)

/-- The nodes without children among the nodes: tokens and markers. -/
def leaves (a : Table) (is : List Nat) : List Entry :=
  (is.filterMap (a[·]?)).filter (·.children.isEmpty)

/-- The node is a token, a marker, or filled by its children. Then its first leaf is a token that is
no filler, and so is its last token. -/
inductive Tight (a : Table) (i : Nat) (e : Entry) : Prop where
  | token (kind : e.kind.isToken = true) (children : e.children = [])
      (nonempty : e.span.start < e.span.stop)
  | marker (kind : e.kind = .node .error) (children : e.children = [])
      (empty : e.span.start = e.span.stop) (fault : e.fault.isSome = true)
  | composite (kind : e.kind.isToken = false) (children : e.children ≠ [])
      (abut : a.Abut e.span.start e.children e.span.stop) {below : List Nat} {first last : Entry}
      (walk : a.Walk [i] below) (first_mem : first ∈ (a.leaves below).head?)
      (first_token : first.kind.isToken = true) (first_solid : first.kind.isFiller = false)
      (last_mem : last ∈ (a.tokens below).getLast?) (last_solid : last.kind.isFiller = false)

end Table

namespace Node

theorem All.of_mem_children {p : Node → Prop} {n m : Node} (h : n.All p) (hm : m ∈ n.children) :
    m.All p := by
  cases n with
  | leaf k f t => simp [children] at hm
  | branch k f e ns => exact (all_branch.1 h).2 m hm

mutual

/-- The tokens in the table of a node are its leaves. -/
theorem map_kind_tokens (parent : Option Nat) (i pos : Nat) : (n : Node) →
    ((n.entries parent i pos).filter (·.kind.isToken)).map (·.kind) =
      n.leaves.map fun t => .token t.kind
  | .leaf k f t => by simp [entries, entry, kind, Kind.isToken]
  | .branch k f e cs => by
      rw [leaves_branch, ← map_kind_tokensAll i (i + 1) pos cs]
      simp [entries, entry, kind, Kind.isToken]

theorem map_kind_tokensAll (p i pos : Nat) : (ns : List Node) →
    ((entriesAll p i pos ns).filter (·.kind.isToken)).map (·.kind) =
      (leavesAll ns).map fun t => .token t.kind
  | [] => by simp
  | n :: ns => by
      rw [entriesAll_cons, leavesAll_cons, List.filter_append, List.map_append, List.map_append,
        map_kind_tokens (some p) i pos n,
        map_kind_tokensAll p (i + n.count) (pos + n.size) ns]

end

theorem locateAll_append (pos : Nat) (ns ms : List Node) :
    locateAll pos (ns ++ ms) = locateAll pos ns ++ locateAll (pos + sizeAll ns) ms := by
  induction ns generalizing pos with
  | nil => simp [locateAll]
  | cons n ns ih => simp [locateAll_cons, ih, Nat.add_assoc]

theorem filterMap_getElem?_of_prefix {α : Type} {xs zs : List α} {i : Nat}
    (h : xs <+: zs.drop i) : (List.range' i xs.length).filterMap (zs[·]?) = xs := by
  induction xs generalizing i with
  | nil => rfl
  | cons x xs ih =>
      have hcons : [x] ++ xs <+: zs.drop i := h
      have hrest : xs <+: zs.drop (i + 1) := prefix_drop_of_append hcons
      rw [List.length_cons, List.range'_succ, List.filterMap_cons, getElem?_of_cons_prefix h,
        ih hrest]

/-- The text of a node is that of its children. -/
theorem text_of_children {n m : Node} {before after : List Node}
    (h : n.children = before ++ m :: after) :
    n.text = (leavesAll before).flatMap Token.text ++ m.text ++
      (leavesAll after).flatMap Token.text := by
  cases n with
  | leaf k f t => simp [children] at h
  | branch k f e ns =>
      obtain rfl : ns = before ++ m :: after := h
      simp [text]

namespace Part

variable {root n : Node} {off : Nat} {above : List Located} {s : Site}

theorem of_all {p : Node → Prop} (h : Part root off above n s) (hp : root.All p) : n.All p := by
  induction h with
  | root => exact hp
  | child _ hc ih => exact ih.of_mem_children (by simp [hc])

/-- The children of a part follow one another. -/
theorem abut (h : Part root off above n s) (before after : List Node)
    (hc : n.children = before ++ after) :
    Table.Abut (root.entries none 0 0) (s.pos + sizeAll before)
      (indices (s.index + 1 + countAll before) after) (s.pos + sizeAll (before ++ after)) := by
  induction after generalizing before with
  | nil => simpa using Table.Abut.nil
  | cons m after ih =>
      have hrest := ih (before ++ [m]) (by simpa using hc)
      rw [sizeAll_concat, countAll_concat, ← Nat.add_assoc, ← Nat.add_assoc, List.append_assoc,
        List.singleton_append] at hrest
      exact .cons (h.child hc).getElem?_entries hrest

/-- The nodes from the index of a part on are those in it. -/
theorem filterMap_range' (h : Part root off above n s) :
    (List.range' s.index n.count).filterMap ((root.entries none 0 0)[·]?) =
      n.entries s.parent s.index s.pos := by
  have hentries := filterMap_getElem?_of_prefix h.entries_prefix
  rwa [length_entries] at hentries

/-- In the table of a tree that is trimmed everywhere, each node is tight. -/
theorem tight (h : Part root off above n s) (hroot : root.All Trimmed) :
    Table.Tight (root.entries none 0 0) s.index (n.entry s.parent s.index s.pos) := by
  have hwalk := walk n h .nil
  rw [List.append_nil] at hwalk
  cases (h.of_all hroot).self with
  | leaf nonempty =>
      refine .token rfl rfl ?_
      have := Text.size_pos nonempty
      simp only [entry, size_leaf]
      omega
  | marker fault => exact .marker rfl rfl (by simp [entry]) rfl
  | @branch k f e ns start stop =>
      obtain ⟨m, hm, k', hkind, hsolid⟩ := start
      obtain ⟨ms, rfl⟩ := List.head?_eq_some_iff.1 hm
      obtain ⟨u, hu, husolid⟩ := stop
      have hentries := h.filterMap_range'
      have hkinds := map_kind_tokens s.parent s.index s.pos (branch k f e (m :: ms))
      rw [leaves_branch, ← hentries, ← Table.tokens] at hkinds
      have hlast := congrArg List.getLast? hkinds
      rw [List.getLast?_map, List.getLast?_map, hu] at hlast
      obtain ⟨last, hlast, hlkind⟩ := Option.map_eq_some_iff.1 hlast
      have hfirst : m.entry (some s.index) (s.index + 1) s.pos ∈ (Table.leaves
          (root.entries none 0 0) (List.range' s.index (branch k f e (m :: ms)).count)).head? := by
        rw [Table.leaves, hentries, entries_eq, children, entriesAll_cons, entries_eq]
        cases m with
        | leaf => simp [entry, children]
        | branch => cases hkind
      have habut := h.abut [] (m :: ms) rfl
      refine .composite rfl (by simp [entry, children]) ?_ hwalk hfirst ?_ ?_ hlast
        (hlkind ▸ husolid)
      · simpa [entry, children] using habut
      · simp [entry, hkind, Kind.isToken]
      · simp [entry, hkind, Kind.isFiller, hsolid]

/-- The text of a part lies in that of the tree at its place. -/
theorem exists_text (h : Part root off above n s) :
    ∃ before after, root.text = before ++ n.text ++ after ∧ before.size = s.pos := by
  induction h with
  | root => exact ⟨[], [], by simp, rfl⟩
  | @child n s before m after _ hc ih =>
      obtain ⟨a, b, htext, hsize⟩ := ih
      refine ⟨a ++ (leavesAll before).flatMap Token.text,
        (leavesAll after).flatMap Token.text ++ b, ?_, ?_⟩
      · rw [htext, text_of_children hc]
        simp
      · rw [Text.size_append, hsize, size_textAll]
        rfl

/-- Every part is a number of steps below the root. -/
theorem exists_follow? (h : Part root off above n s) :
    ∃ k, Cursor.follow? ⟨n.locate (off + s.pos), s.above⟩ (List.replicate k .parent) =
      some ⟨root.locate off, above⟩ := by
  induction h with
  | root => exact ⟨0, rfl⟩
  | child _ _ ih =>
      obtain ⟨k, hk⟩ := ih
      exact ⟨k + 1, hk⟩

/-- What a walk comes to are the parts of the tree. -/
theorem exists_of_mem_preorder {c : Cursor} (h : c ∈ (Cursor.mk (root.locate off) above).preorder) :
    ∃ n s, Part root off above n s ∧ c = ⟨n.locate (off + s.pos), s.above⟩ := by
  obtain ⟨i, hi⟩ := List.getElem?_of_mem h
  have hlt : i < root.count := by
    have := (List.getElem?_eq_some_iff.1 hi).1
    rwa [Cursor.preorder, length_preorderOnto] at this
  obtain ⟨n, s, hn, rfl⟩ := exists_of_lt_count root off above hlt
  exact ⟨n, s, hn, Option.some.inj (hi.symm.trans hn.getElem?_preorder)⟩

theorem mem_preorder (h : Part root off above n s) :
    ⟨n.locate (off + s.pos), s.above⟩ ∈ (Cursor.mk (root.locate off) above).preorder :=
  List.mem_of_getElem? h.getElem?_preorder

/-- A part other than the root is a child of the part above it. -/
theorem eq_root_or_exists_parent (h : Part root off above n s) :
    Cursor.mk (n.locate (off + s.pos)) s.above = ⟨root.locate off, above⟩ ∨
      ∃ p ∈ (Cursor.mk (root.locate off) above).preorder,
        Cursor.parent? ⟨n.locate (off + s.pos), s.above⟩ = some p ∧
          Cursor.mk (n.locate (off + s.pos)) s.above ∈ p.node.children.map p.down := by
  cases h with
  | root => exact .inl rfl
  | @child m r before _ after hm hchildren =>
      refine .inr ⟨_, hm.mem_preorder, rfl, List.mem_map.2 ⟨_, ?_, rfl⟩⟩
      rw [children_locate, hchildren, locateAll_append, locateAll_cons, Nat.add_assoc]
      exact List.mem_append_right _ List.mem_cons_self

end Part

/-- The table of a segment has tight nodes. -/
theorem tight_entries {root : Node} (h : root.All Trimmed) {i : Nat} {e : Entry}
    (hi : (root.entries none 0 0)[i]? = some e) :
    Table.Tight (root.entries none 0 0) i e := by
  obtain ⟨n, s, hn, rfl, rfl⟩ := Part.exists_of_getElem? 0 [] hi
  exact hn.tight h

/-- A node that a walk comes to covers the bytes of its own text. -/
theorem exists_cut?_of_mem_preorder {root : Node} {c : Cursor}
    (h : c ∈ (Cursor.mk (root.locate 0) []).preorder) : ∃ before after,
      root.text.cut? c.node.span.start = some (before, c.node.text ++ after) ∧
        root.text.cut? c.node.span.stop = some (before ++ c.node.text, after) := by
  obtain ⟨n, s, hn, rfl⟩ := Part.exists_of_mem_preorder h
  obtain ⟨before, after, htext, hsize⟩ := hn.exists_text
  have hspan : (n.locate (0 + s.pos)).span = ⟨before.size, (before ++ n.text).size⟩ := by
    rw [span_locate, Nat.zero_add, ← hsize, Text.size_append, size_text]
  have hnode : (n.locate (0 + s.pos)).text = n.text := by rw [Located.text, node_locate]
  refine ⟨before, after, ?_, ?_⟩
  · rw [hspan, hnode, htext, List.append_assoc, Text.cut?_size_append]
  · rw [hspan, hnode, htext, Text.cut?_size_append]

end Node

namespace Tree

/-- The segments of a tree are the children of the file, each at its offset. -/
theorem locateAll_eq_zipWith (pos : Nat) (segs : List Segment) :
    Node.locateAll pos (segs.map (·.node)) =
      List.zipWith (fun g off => g.node.locate off) segs (offsetsFrom pos segs) := by
  induction segs generalizing pos with
  | nil => simp [Node.locateAll]
  | cons g segs ih =>
      rw [List.map_cons, Node.locateAll_cons, ih]
      rfl

theorem exists_child? (t : Tree) {k : Nat} {g : Segment} (h : t.segments[k]? = some g) :
    ∃ off, t.offsets[k]? = some off ∧
      (Cursor.top t).child? k = some ⟨g.node.locate off, [t.root]⟩ := by
  have hk : k < t.offsets.length := by
    rw [length_offsets]
    exact (List.getElem?_eq_some_iff.1 h).1
  refine ⟨t.offsets[k], List.getElem?_eq_getElem hk, ?_⟩
  have hchildren : t.root.children =
      List.zipWith (fun g off => g.node.locate off) t.segments t.offsets := by
    rw [root, Node.children_locate]
    exact locateAll_eq_zipWith 0 t.segments
  rw [Cursor.child?, Cursor.top, hchildren, List.getElem?_zipWith, h, List.getElem?_eq_getElem hk]
  rfl

end Tree

end BibStyle

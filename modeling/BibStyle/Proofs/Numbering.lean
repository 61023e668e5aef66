import BibStyle.Cursor
import BibStyle.Proofs.Schema
import BibStyle.Proofs.Table

/-!
# Nodes found by their numbers

In the table of a segment a node is found by its number alone, and it is the node that a cursor
comes to at that place of its walk. Both rest on one description of the places in a tree
(`Node.Part`): the root is at index zero, and the index of a child counts the nodes of its elder
siblings. Every index of the table is that of a part (`Part.exists_index`), the table and the walk
hold that part there (`Part.getElem?_entries`, `Part.getElem?_preorder`), and the parent and the
children of the part are the ones the entry names.
-/

namespace BibStyle

/-! ## Well-formed tables -/

namespace Table

/-- The order in which a walk comes to the nodes, if it goes on with the nodes on the stack: each
node is followed by those below it. -/
inductive Walk (a : Table) : List Nat → List Nat → Prop where
  | nil : Walk a [] []
  | cons {i e stack order} (here : a[i]? = some e) (rest : Walk a (e.children ++ stack) order) :
      Walk a (i :: stack) (i :: order)

/-- The nodes of the table are those of one tree, in preorder. -/
structure WellFormed (a : Table) : Prop where
  /-- The first node is the only one without a parent. -/
  root : ∀ (i : Nat) (e : Entry), a[i]? = some e → (e.parent = none ↔ i = 0)
  parent : ∀ (i : Nat) (e : Entry), a[i]? = some e → ∀ p ∈ e.parent, p < i
  sorted : ∀ (i : Nat) (e : Entry), a[i]? = some e → e.children.Pairwise (· < ·)
  /-- The children of a node are the nodes that name it as their parent. -/
  children : ∀ (i : Nat) (e : Entry), a[i]? = some e →
    ∀ j, j ∈ e.children ↔ ∃ c : Entry, a[j]? = some c ∧ c.parent = some i
  walk : a.Walk [0] (List.range a.length)

/-- The table lists the nodes that a walk down from `top` comes to, with their offsets counted from
`off`. -/
structure Lists (a : Table) (off : Nat) (top : Cursor) : Prop where
  length : top.preorder.length = a.length
  entry : ∀ (i : Nat) (e : Entry) (c : Cursor), a[i]? = some e → top.preorder[i]? = some c →
    c.node.kind = e.kind ∧ c.node.field = e.field ∧ c.node.span = e.span.shift off ∧
      c.node.fault = e.fault ∧ c.node.flawed = e.flawed
  parent : ∀ (i : Nat) (e : Entry) (c : Cursor), a[i]? = some e → top.preorder[i]? = some c →
    c.parent? = e.parent.elim top.parent? (top.preorder[·]?)
  children : ∀ (i : Nat) (e : Entry) (c : Cursor), a[i]? = some e → top.preorder[i]? = some c →
    e.children.map (top.preorder[·]?) = c.node.children.map fun l => some (c.down l)

end Table

/-! ## Walks of a cursor -/

namespace Cursor

mutual

theorem preorderOnto_eq (above : List Located) : (l : Located) → (acc : List Cursor) →
    preorderOnto above l acc = preorderOnto above l [] ++ acc
  | ⟨n, span, flawed, ls⟩, acc => by
      simp only [preorderOnto, List.cons_append, List.cons.injEq, true_and]
      exact preorderAll_eq _ ls acc

theorem preorderAll_eq (above : List Located) : (ls : List Located) → (acc : List Cursor) →
    preorderAll above ls acc = preorderAll above ls [] ++ acc
  | [], acc => by simp [preorderAll]
  | l :: ls, acc => by
      simp only [preorderAll]
      rw [preorderOnto_eq above l, preorderOnto_eq above l (preorderAll above ls []),
        preorderAll_eq above ls acc, List.append_assoc]

end

mutual

/-- A cursor comes to the nodes in preorder. -/
theorem map_node_preorderOnto (above : List Located) : (l : Located) → (acc : List Cursor) →
    (preorderOnto above l acc).map Cursor.node = l.preorderOnto (acc.map Cursor.node)
  | ⟨n, span, flawed, ls⟩, acc => by
      simp only [preorderOnto, Located.preorderOnto, List.map_cons, List.cons.injEq, true_and]
      exact map_node_preorderAll _ ls acc

theorem map_node_preorderAll (above : List Located) : (ls : List Located) → (acc : List Cursor) →
    (preorderAll above ls acc).map Cursor.node = Located.preorderAll ls (acc.map Cursor.node)
  | [], acc => by simp [preorderAll, Located.preorderAll]
  | l :: ls, acc => by
      simp only [preorderAll, Located.preorderAll]
      rw [map_node_preorderOnto above l, map_node_preorderAll above ls]

end

theorem map_node_preorder_top (t : Tree) :
    (top t).preorder.map Cursor.node = t.root.preorder := map_node_preorderOnto [] t.root []

end Cursor

namespace Node

theorem children_locate (pos : Nat) (n : Node) :
    (n.locate pos).children = locateAll pos n.children := by
  cases n <;> simp [locate, children, locateAll]

theorem preorderOnto_locate (above : List Located) (pos : Nat) (n : Node) :
    Cursor.preorderOnto above (n.locate pos) [] = ⟨n.locate pos, above⟩ ::
      Cursor.preorderAll (n.locate pos :: above) (locateAll pos n.children) [] := by
  cases n <;> simp [locate, Cursor.preorderOnto, children, locateAll]

theorem preorderAll_locateAll (above : List Located) (pos : Nat) (n : Node) (ns : List Node) :
    Cursor.preorderAll above (locateAll pos (n :: ns)) [] =
      Cursor.preorderOnto above (n.locate pos) [] ++
        Cursor.preorderAll above (locateAll (pos + n.size) ns) [] := by
  rw [locateAll_cons, Cursor.preorderAll, Cursor.preorderOnto_eq]

theorem preorderAll_locateAll_append (above : List Located) (pos : Nat) (ns ms : List Node) :
    Cursor.preorderAll above (locateAll pos (ns ++ ms)) [] =
      Cursor.preorderAll above (locateAll pos ns) [] ++
        Cursor.preorderAll above (locateAll (pos + sizeAll ns) ms) [] := by
  induction ns generalizing pos with
  | nil => simp [locateAll, Cursor.preorderAll]
  | cons n ns ih =>
      rw [List.cons_append, preorderAll_locateAll, ih, preorderAll_locateAll, List.append_assoc,
        sizeAll_cons, Nat.add_assoc]

mutual

theorem length_preorderOnto (above : List Located) (pos : Nat) : (n : Node) →
    (Cursor.preorderOnto above (n.locate pos) []).length = n.count
  | .leaf k f t => by
      rw [preorderOnto_locate]
      simp [children, locateAll, Cursor.preorderAll, count]
  | .branch k f e cs => by
      rw [preorderOnto_locate, List.length_cons, children, length_preorderAll _ pos cs, count,
        Nat.add_comm]

theorem length_preorderAll (above : List Located) (pos : Nat) : (ns : List Node) →
    (Cursor.preorderAll above (locateAll pos ns) []).length = countAll ns
  | [] => by simp [locateAll, Cursor.preorderAll]
  | n :: ns => by
      rw [preorderAll_locateAll, List.length_append, length_preorderOnto above pos n,
        length_preorderAll above (pos + n.size) ns, countAll_cons]

end

theorem countAll_concat (ns : List Node) (n : Node) :
    countAll (ns ++ [n]) = countAll ns + n.count := by simp [countAll_append]

theorem sizeAll_concat (ns : List Node) (n : Node) :
    sizeAll (ns ++ [n]) = sizeAll ns + n.size := by simp

theorem entriesAll_append (p i pos : Nat) (ns ms : List Node) :
    entriesAll p i pos (ns ++ ms) =
      entriesAll p i pos ns ++ entriesAll p (i + countAll ns) (pos + sizeAll ns) ms := by
  induction ns generalizing i pos with
  | nil => simp
  | cons n ns ih => simp [ih, Nat.add_assoc]

/-! ## Indices -/

theorem mem_indices_iff {i j : Nat} {ns : List Node} : j ∈ indices i ns ↔
    ∃ before n after, ns = before ++ n :: after ∧ j = i + countAll before := by
  constructor
  · intro h
    induction ns generalizing i with
    | nil => cases h
    | cons n ns ih =>
        rcases List.mem_cons.1 h with rfl | h
        · exact ⟨[], n, ns, rfl, by simp⟩
        · obtain ⟨before, m, after, rfl, rfl⟩ := ih h
          exact ⟨n :: before, m, after, rfl, by simp [Nat.add_assoc]⟩
  · rintro ⟨before, n, after, rfl, rfl⟩
    induction before generalizing i with
    | nil => simp
    | cons m before ih =>
        refine List.mem_cons_of_mem _ ?_
        rw [countAll_cons, ← Nat.add_assoc]
        exact ih

theorem pairwise_indices (i : Nat) (ns : List Node) : (indices i ns).Pairwise (· < ·) := by
  induction ns generalizing i with
  | nil => exact .nil
  | cons n ns ih =>
      refine .cons ?_ (ih _)
      intro j hj
      obtain ⟨before, m, after, -, rfl⟩ := mem_indices_iff.1 hj
      have := n.count_eq
      omega

/-! ## Parts of a tree -/

/-- The place of a node: its number, that of its parent, its offset, and the nodes around it. -/
structure Site where
  parent : Option Nat
  index : Nat
  pos : Nat
  above : List Located

/-- The place of the child that stands behind the children `before` of `n`, which has the place
`s`. -/
def Site.under (s : Site) (off : Nat) (n : Node) (before : List Node) : Site :=
  ⟨some s.index, s.index + 1 + countAll before, s.pos + sizeAll before,
    n.locate (off + s.pos) :: s.above⟩

/-- The nodes of the tree `root`, which is placed at byte `off` below the nodes `above`. -/
inductive Part (root : Node) (off : Nat) (above : List Located) : Node → Site → Prop where
  | root : Part root off above root ⟨none, 0, 0, above⟩
  | child {n s before m after} (parent : Part root off above n s)
      (children : n.children = before ++ m :: after) :
      Part root off above m (s.under off n before)

theorem prefix_drop_of_append {α : Type} {xs ys zs : List α} {i : Nat}
    (h : xs ++ ys <+: zs.drop i) : ys <+: zs.drop (i + xs.length) := by
  obtain ⟨rest, h⟩ := h
  refine ⟨rest, ?_⟩
  rw [← List.drop_drop, ← h, List.append_assoc, List.drop_left]

theorem getElem?_of_cons_prefix {α : Type} {x : α} {xs zs : List α} {i : Nat}
    (h : x :: xs <+: zs.drop i) : zs[i]? = some x := by
  obtain ⟨rest, h⟩ := h
  have hhead := congrArg List.head? h
  rw [List.head?_drop] at hhead
  exact hhead.symm

namespace Part

variable {root n : Node} {off : Nat} {above : List Located} {s : Site}

/-- The table has the nodes of a part from its index on. -/
theorem entries_prefix (h : Part root off above n s) :
    n.entries s.parent s.index s.pos <+: (root.entries none 0 0).drop s.index := by
  induction h with
  | root => exact List.prefix_rfl
  | @child n s before m after _ hc ih =>
      rw [entries_eq, hc, entriesAll_append, entriesAll_cons, ← List.cons_append] at ih
      have hdrop := prefix_drop_of_append ih
      rw [List.length_cons, length_entriesAll, Nat.add_comm (countAll before),
        ← Nat.add_assoc] at hdrop
      exact (List.prefix_append _ _).trans hdrop

theorem getElem?_entries (h : Part root off above n s) :
    (root.entries none 0 0)[s.index]? = some (n.entry s.parent s.index s.pos) := by
  have hprefix := h.entries_prefix
  rw [entries_eq] at hprefix
  exact getElem?_of_cons_prefix hprefix

/-- A walk comes to the nodes of a part from its index on. -/
theorem preorder_prefix (h : Part root off above n s) :
    Cursor.preorderOnto s.above (n.locate (off + s.pos)) [] <+:
      (Cursor.preorderOnto above (root.locate off) []).drop s.index := by
  induction h with
  | root => exact List.prefix_rfl
  | @child n s before m after _ hc ih =>
      rw [preorderOnto_locate, hc, preorderAll_locateAll_append, preorderAll_locateAll,
        ← List.cons_append] at ih
      have hdrop := prefix_drop_of_append ih
      rw [List.length_cons, length_preorderAll, Nat.add_comm (countAll before), ← Nat.add_assoc,
        Nat.add_assoc off] at hdrop
      exact (List.prefix_append _ _).trans hdrop

theorem getElem?_preorder (h : Part root off above n s) :
    (Cursor.mk (root.locate off) above).preorder[s.index]? =
      some ⟨n.locate (off + s.pos), s.above⟩ := by
  have hprefix := h.preorder_prefix
  rw [preorderOnto_locate] at hprefix
  exact getElem?_of_cons_prefix hprefix

mutual

/-- The indices from that of a part on are those of the nodes in it. -/
theorem exists_index : (n : Node) → {s : Site} → Part root off above n s → (k : Nat) →
    k < n.count → ∃ m s', Part root off above m s' ∧ s'.index = s.index + k
  | n, s, h, 0, _ => ⟨n, s, h, rfl⟩
  | .leaf k f t, s, h, i + 1, hi => by simp [count] at hi
  | .branch k f e cs, s, h, i + 1, hi => by
      obtain ⟨m, s', hm, hs'⟩ := exists_indexAll cs [] h rfl i
        (by simp [count] at hi; omega)
      exact ⟨m, s', hm, by simp at hs'; omega⟩

theorem exists_indexAll : (after : List Node) → {n : Node} → {s : Site} → (before : List Node) →
    Part root off above n s → n.children = before ++ after → (k : Nat) → k < countAll after →
    ∃ m s', Part root off above m s' ∧ s'.index = s.index + 1 + countAll before + k
  | [], _, _, _, _, _, _, hk => by simp at hk
  | m :: after, n, s, before, h, hc, k, hk => by
      by_cases hm : k < m.count
      · exact exists_index m (h.child hc) k hm
      · obtain ⟨c, s', hs, hindex⟩ := exists_indexAll after (before ++ [m]) h
          (by simpa using hc) (k - m.count) (by simp at hk; omega)
        refine ⟨c, s', hs, ?_⟩
        rw [countAll_concat] at hindex
        omega

end

/-- Every index is that of a part. -/
theorem exists_of_lt_count (root : Node) (off : Nat) (above : List Located) {i : Nat}
    (h : i < root.count) : ∃ n s, Part root off above n s ∧ s.index = i := by
  have hroot : Part root off above root ⟨none, 0, 0, above⟩ := .root
  obtain ⟨n, s, hn, hs⟩ := exists_index root hroot i h
  exact ⟨n, s, hn, by simpa using hs⟩

/-- What the table holds is the entry of a part. -/
theorem exists_of_getElem? {i : Nat} {e : Entry} (off : Nat) (above : List Located)
    (h : (root.entries none 0 0)[i]? = some e) :
    ∃ n s, Part root off above n s ∧ s.index = i ∧ e = n.entry s.parent i s.pos := by
  have hi : i < root.count := by simpa using (List.getElem?_eq_some_iff.1 h).1
  obtain ⟨n, s, hn, rfl⟩ := exists_of_lt_count root off above hi
  exact ⟨n, s, hn, rfl, Option.some.inj (h.symm.trans hn.getElem?_entries)⟩

mutual

/-- A walk from a part visits the indices from its own on. -/
theorem walk : (n : Node) → {s : Site} → Part root off above n s → {stack order : List Nat} →
    Table.Walk (root.entries none 0 0) stack order →
    Table.Walk (root.entries none 0 0) (s.index :: stack) (List.range' s.index n.count ++ order)
  | .leaf k f t, s, h, stack, order, hw => .cons h.getElem?_entries hw
  | .branch k f e cs, s, h, stack, order, hw => by
      rw [count, Nat.add_comm, List.range'_succ]
      exact .cons h.getElem?_entries (walkAll cs [] h rfl hw)

theorem walkAll : (after : List Node) → {n : Node} → {s : Site} → (before : List Node) →
    Part root off above n s → n.children = before ++ after → {stack order : List Nat} →
    Table.Walk (root.entries none 0 0) stack order →
    Table.Walk (root.entries none 0 0) (indices (s.index + 1 + countAll before) after ++ stack)
      (List.range' (s.index + 1 + countAll before) (countAll after) ++ order)
  | [], _, _, _, _, _, _, _, hw => by simpa using hw
  | m :: after, n, s, before, h, hc, stack, order, hw => by
      have hrest := walkAll after (before ++ [m]) h (by simpa using hc) hw
      rw [countAll_concat, ← Nat.add_assoc] at hrest
      rw [countAll_cons, ← List.range'_append_1, List.append_assoc]
      exact walk m (h.child hc) hrest

end

/-- The children of a part are found at the indices that its entry gives. -/
theorem map_getElem?_preorder (h : Part root off above n s) (before after : List Node)
    (hc : n.children = before ++ after) :
    (indices (s.index + 1 + countAll before) after).map
        ((Cursor.mk (root.locate off) above).preorder[·]?) =
      (locateAll (off + s.pos + sizeAll before) after).map
        fun l => some (Cursor.down ⟨n.locate (off + s.pos), s.above⟩ l) := by
  induction after generalizing before with
  | nil => simp [locateAll]
  | cons m after ih =>
      have hm := (h.child hc).getElem?_preorder
      have hrest := ih (before ++ [m]) (by simpa using hc)
      simp only [countAll_concat, sizeAll_concat, ← Nat.add_assoc] at hrest
      rw [indices_cons, locateAll_cons, List.map_cons, List.map_cons, hrest]
      simp only [Site.under, ← Nat.add_assoc] at hm
      rw [hm]
      rfl

/-- A part is the root or the child of another part. -/
theorem parent_cases (h : Part root off above n s) :
    (s.parent = none ∧ s.index = 0 ∧ s.above = above) ∨
      ∃ m r before after, Part root off above m r ∧ m.children = before ++ n :: after ∧
        s = r.under off m before := by
  cases h with
  | root => exact .inl ⟨rfl, rfl, rfl⟩
  | child parent children => exact .inr ⟨_, _, _, _, parent, children, rfl⟩

end Part

/-- The table of a tree is well-formed, whatever the tree. -/
theorem wellFormed_entries (root : Node) : Table.WellFormed (root.entries none 0 0) where
  root := by
    intro i e hi
    obtain ⟨n, s, hn, rfl, rfl⟩ := Part.exists_of_getElem? 0 [] hi
    show s.parent = none ↔ s.index = 0
    rcases hn.parent_cases with ⟨hp, hindex, -⟩ | ⟨m, r, before, after, -, -, rfl⟩
    · simp [hp, hindex]
    · simp [Site.under]
  parent := by
    intro i e hi p hp
    obtain ⟨n, s, hn, rfl, rfl⟩ := Part.exists_of_getElem? 0 [] hi
    have hp : s.parent = some p := hp
    rcases hn.parent_cases with ⟨hnone, -⟩ | ⟨m, r, before, after, -, -, rfl⟩
    · rw [hnone] at hp
      cases hp
    · cases hp
      simp only [Site.under]
      omega
  sorted := by
    intro i e hi
    obtain ⟨n, s, -, -, rfl⟩ := Part.exists_of_getElem? 0 [] hi
    exact pairwise_indices _ _
  children := by
    intro i e hi j
    obtain ⟨n, s, hn, rfl, rfl⟩ := Part.exists_of_getElem? 0 [] hi
    constructor
    · intro hj
      obtain ⟨before, m, after, hc, rfl⟩ := mem_indices_iff.1 hj
      exact ⟨_, (hn.child hc).getElem?_entries, rfl⟩
    · rintro ⟨c, hc, hparent⟩
      obtain ⟨m, r, hm, rfl, rfl⟩ := Part.exists_of_getElem? 0 [] hc
      have hparent : r.parent = some s.index := hparent
      rcases hm.parent_cases with ⟨hnone, -⟩ | ⟨p, q, before, after, hp, hchildren, rfl⟩
      · rw [hnone] at hparent
        cases hparent
      · -- Both are the entry at the parent's index.
        have hindex : q.index = s.index := Option.some.inj hparent
        have hsame := hp.getElem?_entries
        rw [hindex, hi] at hsame
        rw [Option.some.inj hsame, ← hindex]
        exact mem_indices_iff.2 ⟨before, m, after, hchildren, rfl⟩
  walk := by
    have hroot : Part root 0 [] root ⟨none, 0, 0, []⟩ := .root
    have hwalk := Part.walk root hroot .nil
    rw [List.append_nil] at hwalk
    rw [length_entries, List.range_eq_range']
    exact hwalk

/-- The table of a tree lists what a cursor finds in it. -/
theorem lists_entries (root : Node) (off : Nat) (above : List Located) :
    Table.Lists (root.entries none 0 0) off ⟨root.locate off, above⟩ := by
  have hfind : ∀ {i : Nat} {e : Entry} {c : Cursor}, (root.entries none 0 0)[i]? = some e →
      (Cursor.mk (root.locate off) above).preorder[i]? = some c →
        ∃ n s, Part root off above n s ∧ e = n.entry s.parent s.index s.pos ∧
          c = ⟨n.locate (off + s.pos), s.above⟩ := by
    intro i e c he hc
    obtain ⟨n, s, hn, rfl, rfl⟩ := Part.exists_of_getElem? off above he
    exact ⟨n, s, hn, rfl, Option.some.inj (hc.symm.trans hn.getElem?_preorder)⟩
  refine ⟨?_, ?_, ?_, ?_⟩
  · rw [length_entries]
    exact length_preorderOnto above off root
  · intro i e c he hc
    obtain ⟨n, s, -, rfl, rfl⟩ := hfind he hc
    simp [Located.kind, Located.field, Located.fault, span_locate, flawed_locate, entry, Span.shift,
      Nat.add_assoc]
  · intro i e c he hc
    obtain ⟨n, s, hn, rfl, rfl⟩ := hfind he hc
    rcases hn.parent_cases with ⟨hnone, -, habove⟩ | ⟨m, r, before, after, hm, -, rfl⟩
    · simp only [entry, hnone, habove, Cursor.parent?]
      rfl
    · exact hm.getElem?_preorder.symm
  · intro i e c he hc
    obtain ⟨n, s, hn, rfl, rfl⟩ := hfind he hc
    have hmap := hn.map_getElem?_preorder [] n.children rfl
    simp only [countAll_nil, sizeAll_nil, Nat.add_zero] at hmap
    rw [children_locate]
    exact hmap

end Node

end BibStyle

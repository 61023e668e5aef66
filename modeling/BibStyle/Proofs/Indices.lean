import BibStyle.Proofs.Arenas
import BibStyle.Proofs.Charges
import BibStyle.Proofs.Layout
import BibStyle.Proofs.Lossless
import Mathlib.Algebra.Order.BigOperators.Group.List

/-!
# Indices of 32 bits

A segment has at most three nodes for each of its bytes (`Tree.thrifty_segments`), so the nodes in
an arena can be counted in a word as long as the text has no more than a third of `2 ^ 32` bytes.
Then each word in an arena is the index that is meant, at any moment of the parse
(`Tree.Indexed`).
-/

namespace BibStyle

open Node

namespace Builder

/-- If the arena at hand is the one that is meant, the words on its stack are the indices of the
nodes that are open. -/
theorem exists_opens_of_current {before : List Order} {a : Arena}
    (h : ((maker UInt32).run before).map read = (maker Nat).run before)
    (ha : a ∈ ((maker UInt32).run before).current) :
    ∃ ks ∈ (openings.run before).current, a.read.table.Opens a.read.opened ks := by
  have hb : a.read ∈ ((maker Nat).run before).current := by
    rw [← h]
    exact Option.mem_map_of_mem read ha
  rw [Maker.current_run] at hb
  obtain ⟨r, hr, hb⟩ := Option.map_eq_some_iff.1 hb
  refine ⟨r.2.foldl Event.opens [], by rw [Maker.current_run, hr]; rfl, ?_⟩
  rw [← hb]
  exact Builder.opens_foldl (b := .new r.1) .nil r.2

end Builder

namespace Tree

/-- Words of 32 bits are indices enough for the parse. -/
structure Indexed (t : Text) : Prop where
  /-- The index of a new node is the number of nodes there are. -/
  next : ∀ before, before <+: orders t → ∀ a ∈ ((Builder.maker UInt32).run before).current,
    a.next.toNat = a.cells.length
  /-- At any moment, each parent, each child and each open node has the index that is meant. -/
  meant : ∀ before, before <+: orders t →
    ((Builder.maker UInt32).run before).map Builder.read = (Builder.maker Nat).run before
  /-- At any moment, the words on the stack are the indices of the nodes that are open. -/
  opened : ∀ before, before <+: orders t → ∀ a ∈ ((Builder.maker UInt32).run before).current,
    ∃ ks ∈ (openings.run before).current, a.read.table.Opens a.read.opened ks
  /-- The nodes that are open are those on the stack of the machine. -/
  machine : ∀ s, Machine.Reaches (fun _ => none) (.init 0 t) s →
    s.ordered 0 <+: orders t ∧ (openings.run (s.ordered 0)).current =
      if s.stack.isEmpty then none
      else some (s.stack.map fun level => (level.frame.kind, level.frame.field))
  /-- Each segment is stored as its table. -/
  stored : (arenas t).map (·.read.table) = (parse t).segments.map Segment.table
  /-- What is stored is a tree in preorder, in which the indices lead where a cursor goes. -/
  lists : ∀ (k : Nat) (a : Arena), (arenas t)[k]? = some a →
    ∃ off c, (parse t).offsets[k]? = some off ∧ (Cursor.top (parse t)).child? k = some c ∧
      a.read.table.WellFormed ∧ a.read.table.Lists off c

theorem size_le_of_mem_segments {t : Text} {g : Segment} (hg : g ∈ (parse t).segments) :
    g.size ≤ t.size := by
  have hsum : ((parse t).segments.map Segment.size).sum = t.size := (lossless_parse t).segments
  rw [← hsum]
  exact List.le_sum_of_mem (List.mem_map_of_mem hg)

theorem count_lt_of_size_le {t : Text} (ht : t.size ≤ 1431655765) :
    ∀ g ∈ (parse t).segments, g.node.count < 2 ^ 32 := by
  intro g hg
  have hthrifty : g.node.count ≤ 3 * g.size := thrifty_segments t g hg
  have hsize := size_le_of_mem_segments hg
  omega

theorem map_read_run_of_prefix {t : Text} {before : List Order}
    (h : ∀ g ∈ (parse t).segments, g.node.count ≤ 2 ^ 32) (hbefore : before <+: orders t) :
    ((Builder.maker UInt32).run before).map Builder.read = (Builder.maker Nat).run before := by
  rw [orders_eq_ordersAll] at hbefore
  exact Builder.map_read_run Index.holds_uint32 h hbefore

/-- The indices in an arena that words are enough for lead where a cursor goes in its segment. -/
theorem exists_lists {t : Text} {k : Nat} {a : Arena} (ha : (arenas t)[k]? = some a)
    (hlength : a.cells.length ≤ 2 ^ 32) :
    ∃ c, (parse t).offsets[k]? = some a.base ∧ (Cursor.top (parse t)).child? k = some c ∧
      a.read.table.WellFormed ∧ a.read.table.Lists a.base c := by
  obtain ⟨off, g, hoff, hg, -, hread⟩ := exists_segment ha
  obtain ⟨off', hoff', hchild⟩ := exists_child? (parse t) hg
  obtain rfl := Option.some.inj (hoff.symm.trans hoff')
  have hread := hread hlength
  have hbase : a.base = off := congrArg Builder.base hread
  rw [hread, Builder.table, g.table_eq, hbase]
  exact ⟨_, hoff, hchild, Node.wellFormed_entries g.node, Node.lists_entries g.node off _⟩

/-- The words for indices of a parse whose nodes can be counted are right. -/
theorem indexed_of_count_lt {t : Text} (h : ∀ g ∈ (parse t).segments, g.node.count < 2 ^ 32) :
    Indexed t where
  next := by
    intro before hbefore a ha
    rw [orders_eq_ordersAll] at hbefore
    obtain ⟨g, hg, hlength⟩ := Builder.exists_length_le hbefore ha
    exact Index.holds_uint32 _ (hlength.trans_lt (h g hg))
  meant := fun _ hbefore => map_read_run_of_prefix (fun g hg => (h g hg).le) hbefore
  opened := by
    intro before hbefore a ha
    have hmeant := map_read_run_of_prefix (fun g hg => (h g hg).le) hbefore
    exact Builder.exists_opens_of_current hmeant ha
  machine := fun s hs => ⟨ordered_prefix_orders hs, current_openings 0 s⟩
  stored := by
    rw [arenas_eq, ← List.forall₂_eq_eq_eq, List.forall₂_map_left_iff, List.forall₂_map_right_iff]
    refine Maker.forall₂_makeAll _ (fun pos g hg => ?_) 0
    rw [Builder.read_make Index.holds_uint32 (h g hg).le pos]
  lists := by
    intro k a ha
    obtain ⟨-, g, -, hg, hlength, -⟩ := exists_segment ha
    have hcount := h g (List.mem_of_getElem? hg)
    exact ⟨a.base, exists_lists ha (hlength.trans_le hcount.le)⟩

/-- However a text is broken, its parse has no more than three nodes for each byte of a segment, so
words of 32 bits are enough for texts of a third of `2 ^ 32` bytes. -/
theorem indexed_parse (t : Text) :
    List.Forall₂ (fun a g => a.cells.length = g.table.length ∧ g.table.length ≤ 3 * g.size)
        (arenas t) (parse t).segments ∧
      (t.size ≤ 1431655765 → Indexed t) := by
  refine ⟨?_, fun ht => indexed_of_count_lt (count_lt_of_size_le ht)⟩
  rw [arenas_eq]
  refine Maker.forall₂_makeAll _ (fun pos g hg => ?_) 0
  rw [Builder.length_make, g.length_table]
  exact ⟨rfl, thrifty_segments t g hg⟩

/-- Two quotes without a name, in a block that is not closed. -/
theorem indexed_parse_lone_quotes :
    Text.size "FUNCTION \x7bf\x7d \x7b''".toList ≤ 1431655765 ∧
      Indexed "FUNCTION \x7bf\x7d \x7b''".toList ∧
      (arenas "FUNCTION \x7bf\x7d \x7b''".toList).map (·.cells.map (·.parent)) =
        [[none, some 0, some 0, some 0, some 0, some 0, some 0, some 0, some 7, some 7, some 9,
          some 9, some 7, some 12, some 12]] :=
  ⟨by decide, (indexed_parse _).2 (by decide), by decide +kernel⟩

end Tree

end BibStyle

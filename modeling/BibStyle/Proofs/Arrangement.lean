import BibStyle.Proofs.Indices

/-!
# Trees in arenas

As long as no segment has more nodes than there are words, the arenas of a parse hold trees in
preorder, without gaps and without fillers at the ends of nodes, and a cursor finds in them what it
finds in the tree (`Tree.arranged_parse`). That is so for every text of at most a third of `2 ^ 32`
bytes.

It is not so for `2 ^ 32` closing braces: they are one segment, which has a node for each of them
and one around them, and its arena holds no tree (`Tree.exists_not_wellFormed`).
-/

namespace BibStyle

/-! ## More nodes than words -/

namespace Machine

/-- Closing braces as nodes. -/
def braces (n : Nat) : List Node := List.replicate n (.leaf .rbrace none ['}'])

theorem countAll_braces (n : Nat) : Node.countAll (braces n) = n := by
  induction n with
  | zero => rfl
  | succ n ih =>
      rw [braces, List.replicate_succ, Node.countAll_cons, ← braces, ih, Node.count, Nat.add_comm]

/-- Closing braces at the outside of a text are one stretch of unexpected tokens. -/
theorem ends_braces (n pos : Nat) (ns : List Node) (early : Bool) :
    Ends (fun _ => none)
      ⟨List.replicate n '}', pos, [], [⟨.unexpected .rbrace ⟨.normal, false, none⟩ 0, ns⟩], early,
        []⟩
      ([⟨.branch .error none (some (.unexpected (.token .rbrace))) (ns.reverse ++ braces n),
        false⟩], none) := by
  induction n generalizing pos ns with
  | zero =>
      have hnil : ns.reverse ++ braces 0 = ns.reverse := List.append_nil _
      rw [hnil]
      exact .next rfl (.done rfl)
  | succ n ih =>
      have hrest := ih (pos + 1) (.leaf .rbrace none ['}'] :: ns)
      rw [List.reverse_cons, List.append_assoc] at hrest
      exact .next rfl hrest

end Machine

namespace Tree

theorem segments_braces (n : Nat) : (parse (List.replicate n '}')).segments =
    if n = 0 then [] else
      [⟨.branch .error none (some (.unexpected (.token .rbrace))) (Machine.braces n), false⟩] := by
  cases n with
  | zero => rfl
  | succ n =>
      refine segments_eq_of_ends ?_
      exact .next rfl (Machine.ends_braces (n + 1) 0 [] false)

/-- The arena of `2 ^ 32` closing braces or more holds no tree. -/
theorem exists_not_wellFormed {n : Nat} (hn : 2 ^ 32 ≤ n) :
    ∃ a ∈ arenas (List.replicate n '}'), ¬a.read.table.WellFormed := by
  have hne : n ≠ 0 := by omega
  rw [arenas_eq, segments_braces, if_neg hne]
  refine ⟨_, List.mem_singleton_self _, fun h => ?_⟩
  have hlength := Arena.length_le_of_wellFormed h
  rw [Builder.length_make, Node.count, Machine.countAll_braces] at hlength
  omega

/-! ## Nodes that can be counted -/

/-- How the nodes of a parse are laid out. -/
structure Arranged (t : Text) : Prop where
  /-- There is an arena for each segment. -/
  length : (arenas t).length = (parse t).segments.length
  /-- The nodes in an arena are those of a tree in preorder. -/
  wellFormed : ∀ a ∈ arenas t, a.read.table.WellFormed
  /-- Nodes are without gaps and without fillers at their ends. -/
  tight : ∀ a ∈ arenas t, ∀ (i : Nat) (e : Entry), a.read.table[i]? = some e →
    a.read.table.Tight i e
  /-- An arena lists what a cursor finds in its segment. -/
  lists : ∀ (k : Nat) (a : Arena), (arenas t)[k]? = some a →
    ∃ c, (parse t).offsets[k]? = some a.base ∧ (Cursor.top (parse t)).child? k = some c ∧
      a.read.table.Lists a.base c
  /-- Every node starts and stops between two characters, and covers its own text. -/
  text : ∀ c ∈ (Cursor.top (parse t)).preorder, ∃ before after,
    t.cut? c.node.span.start = some (before, c.node.text ++ after) ∧
      t.cut? c.node.span.stop = some (before ++ c.node.text, after)
  /-- Every node but the file is among the children of its parent. -/
  parent : ∀ c ∈ (Cursor.top (parse t)).preorder, c = .top (parse t) ∨
    ∃ p ∈ (Cursor.top (parse t)).preorder, c.parent? = some p ∧ c ∈ p.node.children.map p.down
  /-- The way up from every node leads to the file. -/
  up : ∀ c ∈ (Cursor.top (parse t)).preorder,
    ∃ n, c.follow? (List.replicate n .parent) = some (.top (parse t))

theorem arranged_of_length_le {t : Text} (h : ∀ a ∈ arenas t, a.cells.length ≤ 2 ^ 32) :
    Arranged t where
  length := by
    rw [arenas_eq, Maker.makeAll, List.length_zipWith, length_offsetsFrom, Nat.min_self]
  wellFormed := by
    intro a ha
    obtain ⟨k, hk⟩ := List.getElem?_of_mem ha
    obtain ⟨-, -, -, hwellFormed, -⟩ := exists_lists hk (h a ha)
    exact hwellFormed
  tight := by
    intro a ha i e hi
    obtain ⟨k, hk⟩ := List.getElem?_of_mem ha
    obtain ⟨off, g, -, hg, -, hread⟩ := exists_segment hk
    rw [hread (h a ha), Builder.table, g.table_eq] at hi ⊢
    exact Node.tight_entries (trimmed_segments t g (List.mem_of_getElem? hg)) hi
  lists := by
    intro k a ha
    obtain ⟨c, hoff, hchild, -, hlists⟩ := exists_lists ha (h a (List.mem_of_getElem? ha))
    exact ⟨c, hoff, hchild, hlists⟩
  text := by
    intro c hc
    have hcut := Node.exists_cut?_of_mem_preorder hc
    have htext := texts_parse t
    rw [Segment.texts, ← Node.leaves_branch .sourceFile none none, ← Node.text] at htext
    rwa [htext] at hcut
  parent := by
    intro c hc
    obtain ⟨n, s, hn, rfl⟩ := Node.Part.exists_of_mem_preorder hc
    exact hn.eq_root_or_exists_parent
  up := by
    intro c hc
    obtain ⟨n, s, hn, rfl⟩ := Node.Part.exists_of_mem_preorder hc
    exact hn.exists_follow?

/-- A parse is arranged if and only if words are enough to count the nodes of each segment, as they
are in a text of a third of `2 ^ 32` bytes. -/
theorem arranged_parse (t : Text) :
    (Arranged t ↔ ∀ a ∈ arenas t, a.cells.length ≤ 2 ^ 32) ∧
      (t.size ≤ 1431655765 → Arranged t) := by
  have hiff : Arranged t ↔ ∀ a ∈ arenas t, a.cells.length ≤ 2 ^ 32 :=
    ⟨fun h a ha => Arena.length_le_of_wellFormed (h.wellFormed a ha), arranged_of_length_le⟩
  refine ⟨hiff, fun ht => hiff.2 fun a ha => ?_⟩
  obtain ⟨k, hk⟩ := List.getElem?_of_mem ha
  obtain ⟨off, g, -, hg, hlength, -⟩ := exists_segment hk
  rw [hlength]
  exact (count_lt_of_size_le ht g (List.mem_of_getElem? hg)).le

/-- A reference without a name behind its quote, in a block that a comment ends. -/
theorem arranged_parse_lone_quote :
    Text.size "FUNCTION \x7bf\x7d \x7b' % c".toList ≤ 1431655765 ∧
      (∀ a ∈ arenas "FUNCTION \x7bf\x7d \x7b' % c".toList, a.cells.length ≤ 2 ^ 32) ∧
      Arranged "FUNCTION \x7bf\x7d \x7b' % c".toList :=
  ⟨by decide, by decide +kernel, (arranged_parse _).2 (by decide)⟩

/-- The last leaf of a statement that lacks a brace is a marker, and the arena of `2 ^ 32` closing
braces holds no tree. -/
theorem exists_last_leaf_marker_and_not_wellFormed :
    (∃ a ∈ arenas "EXECUTE".toList, ∃ order, a.read.table.Walk [0] order ∧
        ∃ last ∈ (a.read.table.leaves order).getLast?, last.kind = .node .error) ∧
      ∃ a ∈ arenas (List.replicate (2 ^ 32) '}'), ¬a.read.table.WellFormed := by
  refine ⟨?_, exists_not_wellFormed (Nat.le_refl _)⟩
  have htables : (arenas "EXECUTE".toList).map (·.read.table) =
      [[⟨.node (.statement .execute), none, ⟨0, 7⟩, none, true, none, [1, 2]⟩,
        ⟨.token .keyword, none, ⟨0, 7⟩, none, false, some 0, []⟩,
        ⟨.node .error, none, ⟨7, 7⟩, some (.missing .lbrace), true, some 0, []⟩]] := by
    decide +kernel
  obtain ⟨a, ha, htable⟩ := List.mem_map.1 (htables ▸ List.mem_singleton_self _)
  refine ⟨a, ha, [0, 1, 2], ?_, ?_⟩
  · rw [htable]
    exact .cons rfl (.cons rfl (.cons rfl .nil))
  · rw [htable]
    exact ⟨_, rfl, rfl⟩

end Tree

end BibStyle

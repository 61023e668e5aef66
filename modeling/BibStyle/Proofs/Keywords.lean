import BibStyle.Proofs.Conformance

/-!
# Keywords and statements

Keywords and statements come in pairs: a keyword is the first child of the statement that it names,
and stands nowhere else. The statements of a parse are therefore found, in order, by its keywords.
No open node takes a keyword, whatever is wrong with the text in front of it.
-/

namespace BibStyle

namespace Node

@[simp] theorem map_node_locateAll (pos : Nat) (ns : List Node) :
    (locateAll pos ns).map (·.node) = ns := by
  induction ns generalizing pos with
  | nil => simp [locateAll]
  | cons n ns ih => rw [locateAll_cons, List.map_cons, node_locate, ih]

theorem map_node_children_locate (pos : Nat) (n : Node) :
    (n.locate pos).children.map (·.node) = n.children := by
  cases n <;> simp [locate, children]

theorem exists_of_mem_locateAll {pos : Nat} {ns : List Node} {l : Located}
    (h : l ∈ locateAll pos ns) : ∃ n ∈ ns, ∃ start, l = n.locate start := by
  induction ns generalizing pos with
  | nil => simp [locateAll] at h
  | cons n ns ih =>
      rw [locateAll_cons] at h
      rcases List.mem_cons.1 h with rfl | h
      · exact ⟨n, by simp, pos, rfl⟩
      · obtain ⟨m, hm, start, hl⟩ := ih h
        exact ⟨m, by simp [hm], start, hl⟩

mutual

/-- The children of a placed node are those of the node. -/
theorem map_node_children (pos : Nat) : (n : Node) → ∀ l ∈ (n.locate pos).preorder,
    l.children.map (·.node) = l.node.children
  | .leaf k f t, l, hl => by
      rw [preorder_locate_leaf, List.mem_singleton] at hl
      rw [hl, node_locate, map_node_children_locate]
  | .branch k f e ns, l, hl => by
      rw [preorder_locate_branch] at hl
      rcases List.mem_cons.1 hl with rfl | hl
      · rw [node_locate, map_node_children_locate]
      · exact map_node_childrenAll pos ns l hl

theorem map_node_childrenAll (pos : Nat) : (ns : List Node) →
    ∀ l ∈ Located.preorderAll (locateAll pos ns) [], l.children.map (·.node) = l.node.children
  | [], l, hl => by simp [locateAll, Located.preorderAll] at hl
  | n :: ns, l, hl => by
      rw [preorderAll_locateAll_cons] at hl
      rcases List.mem_append.1 hl with hl | hl
      · exact map_node_children pos n l hl
      · exact map_node_childrenAll (pos + n.size) ns l hl

end

/-- A keyword is the first child of a statement. -/
theorem Schema.eq_zero_of_keyword {n m : Node} {i : Nat} (h : n.Schema)
    (hm : n.children[i]? = some m) (hk : m.kind = .token .keyword) :
    i = 0 ∧ n.isStatement = true := by
  have houter : m.kind.isOuter = true := by
    rw [hk]
    rfl
  have hmem : m ∈ n.children := List.mem_of_getElem? hm
  have hinner : n.kind.isOuter = true := by
    cases hn : n.kind.isOuter with
    | true => rfl
    | false =>
        rw [h.isOuter_child hn m hmem] at houter
        cases houter
  cases h with
  | leaf field => simp [children] at hmem
  | sourceFile children =>
      rcases (children m hmem).isStatement_or with hst | hin
      · rw [isStatement, hk] at hst
        cases hst
      · rw [hin] at houter
        cases houter
  | @statement command ns parts once =>
      refine ⟨?_, rfl⟩
      cases i with
      | zero => rfl
      | succ i =>
          have htail : m ∈ ns.tail := List.mem_of_getElem? (i := i) (by simpa [children] using hm)
          rw [(parts.children m htail).isOuter] at houter
          cases houter
  | _ => cases hinner

theorem filter_keyword_eq (ls : List Located) :
    ls.filter (·.kind == .token .keyword) =
      (ls.filter (·.kind.isOuter)).filter (·.kind == .token .keyword) := by
  rw [List.filter_filter]
  refine List.filter_congr fun l _ => ?_
  by_cases hk : l.kind = .token .keyword <;> simp [hk, Kind.isOuter]

/-- The nodes of a file have one keyword for each statement, its first child. -/
theorem filter_keyword_locateAll (pos : Nat) {ns : List Node}
    (h : ∀ n ∈ ns, n.All Schema ∧ n.InFile) :
    ((Located.preorderAll (locateAll pos ns) []).filter (·.kind == .token .keyword)).map some =
      ((locateAll pos ns).filter (·.kind.isA .statement)).map (·.children.head?) := by
  induction ns generalizing pos with
  | nil => simp [locateAll, Located.preorderAll]
  | cons n ns ih =>
      obtain ⟨⟨hall, hfile⟩, hns⟩ := List.forall_mem_cons.1 h
      have hkind : (n.locate pos).kind = n.kind := by rw [Located.kind, node_locate]
      rw [preorderAll_locateAll_cons, locateAll_cons, List.filter_append, List.map_append,
        ih _ hns, filter_keyword_eq]
      rcases hfile.isStatement_or with hn | hn
      · obtain ⟨k, c, hhead, hk, -, hc, hfilter⟩ := filter_isOuter_statement pos hall hn
        rw [hfilter]
        simp [hkind, hc, hk, hhead, Kind.isA]
      · have hst : (n.locate pos).kind.isA .statement = false := by
          rw [hkind, Bool.eq_false_iff]
          intro hst
          rw [isOuter_of_isStatement hst] at hn
          cases hn
        rw [filter_isOuter_of_not_outer pos hall hn, List.filter_cons_of_neg (by simp [hst])]
        rfl

end Node

namespace Tree

theorem mem_statements_iff {t : Tree} {l : Located} :
    l ∈ t.statements ↔ l ∈ t.root.children ∧ l.node.isStatement = true := List.mem_filter

/-- The statements follow one another as their keywords do. -/
theorem map_head?_children_statements (t : Text) :
    (parse t).statements.map (·.children.head?) =
      ((parse t).tokens.filter (·.kind == .token .keyword)).map some := by
  have htokens : (parse t).tokens.filter (·.kind == .token .keyword) =
      (Located.preorderAll (parse t).root.children []).filter (·.kind == .token .keyword) := by
    rw [tokens, List.filter_filter, root, Node.preorder_locate_branch]
    rw [List.filter_cons_of_neg (by simp [Located.kind, Node.kind])]
    refine List.filter_congr fun l _ => ?_
    by_cases hk : l.kind = .token .keyword <;> simp [hk, Located.isToken, Kind.isToken]
  rw [htokens]
  exact (Node.filter_keyword_locateAll 0 (schema_segments t)).symm

theorem exists_keyword_of_mem_statements {t : Text} {l : Located}
    (hl : l ∈ (parse t).statements) : ∃ k c, l.children.head? = some k ∧
      k.kind = .token .keyword ∧ Command.ofWord? k.text = some c ∧
      l.kind = .node (.statement c) := by
  obtain ⟨hchild, hst⟩ := mem_statements_iff.1 hl
  obtain ⟨n, hn, pos, rfl⟩ := Node.exists_of_mem_locateAll hchild
  rw [Node.node_locate] at hst
  obtain ⟨k, c, hhead, hk, hword, hc, -⟩ :=
    Node.filter_isOuter_statement pos (schema_segments t n hn).1 hst
  refine ⟨k, c, hhead, hk, hword, ?_⟩
  rw [Located.kind, Node.node_locate, hc]

/-- A keyword stands in a parse only as the first child of a statement, every statement starts with
the keyword that names it, and the statements follow one another as the keywords do. -/
theorem keywords_parse (t : Text) :
    (∀ l ∈ (parse t).root.preorder, ∀ i k, l.children[i]? = some k → k.kind = .token .keyword →
      i = 0 ∧ l ∈ (parse t).statements) ∧
    (∀ l ∈ (parse t).statements, ∃ k c, l.children.head? = some k ∧ k.kind = .token .keyword ∧
      Command.ofWord? k.text = some c ∧ l.kind = .node (.statement c)) ∧
    (parse t).statements.map (·.children.head?) =
      ((parse t).tokens.filter (·.kind == .token .keyword)).map some := by
  refine ⟨?_, fun l hl => exists_keyword_of_mem_statements hl, map_head?_children_statements t⟩
  intro l hl i k hi hk
  have hnode : l.node.children[i]? = some k.node := by
    rw [← Node.map_node_children 0 _ l hl, List.getElem?_map, hi]
    rfl
  obtain ⟨hzero, hst⟩ := (schema_of_mem_preorder hl).eq_zero_of_keyword hnode hk
  exact ⟨hzero, mem_statements_iff.2 ⟨mem_children_root hl hst, hst⟩⟩

end Tree

end BibStyle

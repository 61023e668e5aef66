import BibStyle.Grammar
import BibStyle.Proofs.Places

/-!
# What may stand in a node

`Node.Schema` says of one node what its kind allows: which children it has and in which order, in
which fields they stand, and which faults it carries. Nothing below the children is looked at, so a
whole tree follows the schema if each of its nodes does (`Node.All`).

A statement is described by `Node.Begins`, which also fits a statement that has not come to its end:
the fields of its parts that have gone by are a parameter. Each part of a sound statement has left
its field, in the order of the parts.

Statements and keywords have a place at the outside of a tree only (`Kind.isOuter`), so below a
statement there is nothing of these but its own keyword.
-/

namespace BibStyle

/-- The kinds of nodes that stand in the field. -/
def Field.holds : Field → Kind → Bool
  | .fields, k | .integers, k | .strings, k => k == .node .identifierList
  | .pattern, k => k == .token .pattern
  | .subst, k => k == .token .string
  | .name, k => k == .token .identifier
  | .func, k | .symbol, k => k.isA .symbol
  | .body, k => k == .node .block
  | .term, k => k.isA .term

/-- The kinds of nodes that the part of a statement puts into its field. -/
def Item.fills : Item → Kind → Bool
  | .list _, k => k == .node .identifierList
  | .group _ cls, .token k => cls.accepts k
  | .group .., .node _ => false
  | .block _, k => k == .node .block

/-- What a part of a command puts into its field stands there. -/
theorem Item.holds_of_fills {command : Command} {item : Item} {kind : Kind}
    (h : item ∈ command.items) (hk : item.fills kind = true) : item.field.holds kind = true := by
  have hall : ∀ c ∈ Command.all, ∀ i ∈ c.items, ∀ k ∈ Kind.all, i.fills k = true →
      i.field.holds k = true := by decide
  exact hall command (Command.mem_all command) item h kind (Kind.mem_all kind) hk

/-- No command has two parts for one field. -/
theorem Command.nodup_fields (command : Command) : (command.items.map Item.field).Nodup := by
  cases command <;> decide

namespace Node

/-! ## Single nodes -/

/-- The node is a token of the kind, in no field. -/
def IsToken (k : TokenKind) (n : Node) : Prop := n.kind = .token k ∧ n.field = none

def IsFiller (n : Node) : Prop := n.kind.isFiller = true ∧ n.field = none

def IsError (n : Node) : Prop := n.kind = .node .error ∧ n.field = none

/-- The node stands in the field, and is of a kind that does. -/
def InField (f : Field) (n : Node) : Prop := n.field = some f ∧ f.holds n.kind = true

/-- The fields of the nodes that stand in one. -/
def labels (ns : List Node) : List Field := ns.filterMap field

/-! ## Children -/

/-- What stands in a file. -/
inductive InFile (n : Node) : Prop where
  | statement (h : n.isStatement = true) (field : n.field = none)
  | error (h : n.IsError) (children : n.children ≠ [])
  | filler (h : n.IsFiller)

/-- What stands in a statement behind its keyword. -/
inductive InStatement (n : Node) : Prop where
  | lbrace (h : n.IsToken .lbrace)
  | rbrace (h : n.IsToken .rbrace)
  | filler (h : n.IsFiller)
  | error (h : n.IsError)
  | part {f} (h : n.InField f)

/-- What stands between the braces of a list. -/
inductive InList (n : Node) : Prop where
  | identifier (h : n.IsToken .identifier)
  | filler (h : n.IsFiller)
  | error (h : n.IsError)

/-- What stands between the braces of a block. -/
inductive InBlock (n : Node) : Prop where
  | term (h : n.InField .term)
  | filler (h : n.IsFiller)

/-- What stands in a stretch of unexpected tokens. -/
def InStretch (n : Node) : Prop := ∃ k, n.IsToken k ∧ k ≠ .keyword

/-- The children of a statement up to where its parts for the fields `passed` have gone by. -/
structure Begins (command : Command) (passed : List Field) (ns : List Node) : Prop where
  /-- The first child is the keyword of the command. -/
  keyword : ∃ k ∈ ns.head?, k.IsToken .keyword ∧ Command.ofWord? k.text = some command
  children : ∀ n ∈ ns.tail, n.InStatement
  /-- The fields are in the order of the parts. -/
  order : (labels ns).Sublist passed
  /-- Without a fault, all of them are there. -/
  all : flawedAll ns = false → labels ns = passed

/-- The children of a node in braces: without the fault, the closing brace is there. -/
inductive Braced (p : Node → Prop) (c : Construct) : Option Fault → List Node → Prop where
  | closed {l ns r} (lbrace : l.IsToken .lbrace) (inside : ∀ n ∈ ns, p n)
      (rbrace : r.IsToken .rbrace) : Braced p c none (l :: (ns ++ [r]))
  | unterminated {l ns} (lbrace : l.IsToken .lbrace) (inside : ∀ n ∈ ns, p n) :
      Braced p c (some (.unterminated c)) (l :: ns)

/-! ## The schema -/

/-- The node has the children, the field and the fault that its kind allows. -/
inductive Schema : Node → Prop where
  | leaf {k f t} (field : ∀ g ∈ f, g.holds (.token k) = true) : Schema (.leaf k f t)
  | sourceFile {ns} (children : ∀ n ∈ ns, n.InFile) : Schema (.branch .sourceFile none none ns)
  | statement {command ns} (parts : Begins command (command.items.map Item.field) ns)
      (once : (labels ns).Nodup) : Schema (.branch (.statement command) none none ns)
  | identifierList {f e ns} (field : f.holds (.node .identifierList) = true)
      (children : Braced InList .identifierList e ns) :
      Schema (.branch .identifierList (some f) e ns)
  | block {f e ns} (field : f.holds (.node .block) = true) (children : Braced InBlock .block e ns) :
      Schema (.branch .block (some f) e ns)
  /-- A quote, and the symbol behind it or a marker in its place. -/
  | ref {q ns x} (quote : q.IsToken .quote) (fillers : ∀ n ∈ ns, n.IsFiller)
      (symbol : x.InField .symbol ∨ x = .marker (.missing .symbol)) :
      Schema (.branch .ref (some .term) none (q :: (ns ++ [x])))
  | missing (e : Expected) : Schema (.marker (.missing e))
  | openGroup : Schema (.marker (.unterminated .group))
  /-- Tokens that are unexpected together with the first of them, which the fault names. -/
  | unexpected {n ns k} (first : n.IsToken k) (solid : k.isFiller = false)
      (tokens : ∀ m ∈ n :: ns, m.InStretch) :
      Schema (.branch .error none (some (.unexpected (.token k))) (n :: ns))

/-! ## Adding a child -/

@[simp] theorem labels_append (ns ms : List Node) : labels (ns ++ ms) = labels ns ++ labels ms :=
  List.filterMap_append

theorem labels_of_field_none {n : Node} (h : n.field = none) : labels [n] = [] := by
  simp [labels, h]

theorem labels_of_field_some {n : Node} {f : Field} (h : n.field = some f) : labels [n] = [f] := by
  simp [labels, h]

theorem flawedAll_of_append {ns ms : List Node} (h : flawedAll (ns ++ ms) = false) :
    flawedAll ns = false := by
  simp only [flawedAll_eq_any, List.any_append, Bool.or_eq_false_iff] at h ⊢
  exact h.1

namespace Begins

variable {command : Command} {passed fields : List Field} {ns : List Node} {n : Node}

theorem ne_nil (h : Begins command passed ns) : ns ≠ [] := by
  rintro rfl
  obtain ⟨k, hk, -⟩ := h.keyword
  cases hk

theorem head?_append (h : Begins command passed ns) : (ns ++ [n]).head? = ns.head? := by
  cases ns with
  | nil => exact absurd rfl h.ne_nil
  | cons m ns => rfl

theorem children_append (h : Begins command passed ns) (hn : n.InStatement) :
    ∀ m ∈ (ns ++ [n]).tail, m.InStatement := by
  rw [List.tail_append_of_ne_nil h.ne_nil]
  exact List.forall_mem_append.2 ⟨h.children, List.forall_mem_singleton.2 hn⟩

/-- A child in no field adds nothing to the parts. -/
theorem append (h : Begins command passed ns) (hn : n.InStatement) (hf : n.field = none) :
    Begins command passed (ns ++ [n]) where
  keyword := h.head?_append ▸ h.keyword
  children := h.children_append hn
  order := by simpa [labels_of_field_none hf] using h.order
  all hflawed := by simpa [labels_of_field_none hf] using h.all (flawedAll_of_append hflawed)

/-- The child in the field of the next part. -/
theorem append_field {f : Field} (h : Begins command passed ns) (hn : n.InField f) :
    Begins command (passed ++ [f]) (ns ++ [n]) where
  keyword := h.head?_append ▸ h.keyword
  children := h.children_append (.part hn)
  order := by
    rw [labels_append, labels_of_field_some hn.1]
    exact h.order.append_right [f]
  all hflawed := by
    rw [labels_append, labels_of_field_some hn.1, h.all (flawedAll_of_append hflawed)]

/-- With a fault, parts may have gone by that left no field. -/
theorem of_flawed (h : Begins command passed ns) (hs : passed.Sublist fields)
    (hf : flawedAll ns = true) : Begins command fields ns where
  keyword := h.keyword
  children := h.children
  order := h.order.trans hs
  all hflawed := by simp [hf] at hflawed

/-- A statement that has all its parts, or a fault, follows the schema. -/
theorem schema (h : Begins command passed ns) (hs : passed.Sublist (command.items.map Item.field))
    (hend : flawedAll ns = true ∨ passed = command.items.map Item.field) :
    Schema (.branch (.statement command) none none ns) := by
  have hparts : Begins command (command.items.map Item.field) ns := by
    rcases hend with hf | rfl
    · exact h.of_flawed hs hf
    · exact h
  exact .statement hparts (hparts.order.nodup command.nodup_fields)

end Begins

/-! ## Whole trees -/

mutual

/-- The node and all nodes below it satisfy `p`. -/
def All (p : Node → Prop) : Node → Prop
  | .leaf k f t => p (.leaf k f t)
  | .branch k f e ns => p (.branch k f e ns) ∧ AllIn p ns

def AllIn (p : Node → Prop) : List Node → Prop
  | [] => True
  | n :: ns => n.All p ∧ AllIn p ns

end

variable {p : Node → Prop}

theorem allIn_iff {ns : List Node} : AllIn p ns ↔ ∀ n ∈ ns, n.All p := by
  induction ns with
  | nil => simp [AllIn]
  | cons n ns ih => simp [AllIn, ih]

@[simp] theorem all_leaf {k : TokenKind} {f : Option Field} {t : Text} :
    (leaf k f t).All p ↔ p (.leaf k f t) := by simp [All]

@[simp] theorem all_branch {k : NodeKind} {f : Option Field} {e : Option Fault} {ns : List Node} :
    (branch k f e ns).All p ↔ p (.branch k f e ns) ∧ ∀ n ∈ ns, n.All p := by
  simp [All, allIn_iff]

theorem All.self {n : Node} (h : n.All p) : p n := by
  cases n with
  | leaf k f t => exact all_leaf.1 h
  | branch k f e ns => exact (all_branch.1 h).1

@[simp] theorem node_locate (pos : Nat) (n : Node) : (n.locate pos).node = n := by
  cases n <;> simp [locate]

theorem kind_locate (pos : Nat) (n : Node) : (n.locate pos).kind = n.kind := by
  rw [Located.kind, node_locate]

theorem field_locate (pos : Nat) (n : Node) : (n.locate pos).field = n.field := by
  rw [Located.field, node_locate]

mutual

/-- What holds of all nodes of a tree holds of them at their places. -/
theorem All.of_mem_preorder (pos : Nat) : (n : Node) → n.All p →
    ∀ l ∈ (n.locate pos).preorder, p l.node
  | .leaf k f t, h, l, hl => by
      rw [preorder_locate_leaf, List.mem_singleton] at hl
      rw [hl, node_locate]
      exact h.self
  | .branch k f e ns, h, l, hl => by
      rw [preorder_locate_branch] at hl
      rcases List.mem_cons.1 hl with rfl | hl
      · rw [node_locate]
        exact h.self
      · exact AllIn.of_mem_preorder pos ns h.2 l hl

theorem AllIn.of_mem_preorder (pos : Nat) : (ns : List Node) → AllIn p ns →
    ∀ l ∈ Located.preorderAll (locateAll pos ns) [], p l.node
  | [], _, l, hl => by simp [locateAll, Located.preorderAll] at hl
  | n :: ns, h, l, hl => by
      rw [preorderAll_locateAll_cons] at hl
      rcases List.mem_append.1 hl with hl | hl
      · exact All.of_mem_preorder pos n h.1 l hl
      · exact AllIn.of_mem_preorder (pos + n.size) ns h.2 l hl

end

end Node

/-! ## Statements and their keywords -/

/-- The kinds of the file, of its statements and of the keywords in front of them. -/
def Kind.isOuter : Kind → Bool
  | .node .sourceFile | .node (.statement _) | .token .keyword => true
  | _ => false

theorem Field.isOuter_of_holds {f : Field} {k : Kind} (h : f.holds k = true) :
    k.isOuter = false := by
  have hall : ∀ k ∈ Kind.all, f.holds k = true → k.isOuter = false := by
    cases f <;> decide
  exact hall k (Kind.mem_all k) h

namespace Node

theorem isOuter_of_isStatement {n : Node} (h : n.isStatement = true) : n.kind.isOuter = true := by
  cases n with
  | leaf k f t => cases h
  | branch k f e ns => cases k <;> first | rfl | cases h

theorem IsToken.isOuter {n : Node} {k : TokenKind} (h : n.IsToken k) (hk : k ≠ .keyword) :
    n.kind.isOuter = false := by
  rw [h.1]
  cases k with
  | keyword => exact absurd rfl hk
  | _ => rfl

theorem IsFiller.isOuter {n : Node} (h : n.IsFiller) : n.kind.isOuter = false := by
  obtain ⟨hk, -⟩ := h
  cases n with
  | leaf k f t => cases k <;> first | rfl | cases hk
  | branch k f e ns => cases hk

theorem IsError.isOuter {n : Node} (h : n.IsError) : n.kind.isOuter = false := by
  rw [h.1]
  rfl

theorem InField.isOuter {n : Node} {f : Field} (h : n.InField f) : n.kind.isOuter = false :=
  f.isOuter_of_holds h.2

theorem InStatement.isOuter {n : Node} (h : n.InStatement) : n.kind.isOuter = false := by
  cases h with
  | lbrace h => exact h.isOuter (by decide)
  | rbrace h => exact h.isOuter (by decide)
  | filler h => exact h.isOuter
  | error h => exact h.isOuter
  | part h => exact h.isOuter

theorem InList.isOuter {n : Node} (h : n.InList) : n.kind.isOuter = false := by
  cases h with
  | identifier h => exact h.isOuter (by decide)
  | filler h => exact h.isOuter
  | error h => exact h.isOuter

theorem InBlock.isOuter {n : Node} (h : n.InBlock) : n.kind.isOuter = false := by
  cases h with
  | term h => exact h.isOuter
  | filler h => exact h.isOuter

theorem InStretch.isOuter {n : Node} (h : n.InStretch) : n.kind.isOuter = false := by
  obtain ⟨k, h, hk⟩ := h
  exact h.isOuter hk

theorem Braced.isOuter {p : Node → Prop} {c : Construct} {e : Option Fault} {ns : List Node}
    (h : Braced p c e ns) (hp : ∀ n, p n → n.kind.isOuter = false) :
    ∀ n ∈ ns, n.kind.isOuter = false := by
  cases h with
  | closed lbrace inside rbrace =>
      refine List.forall_mem_cons.2 ⟨lbrace.isOuter (by decide), List.forall_mem_append.2 ⟨?_, ?_⟩⟩
      · exact fun n hn => hp n (inside n hn)
      · exact List.forall_mem_singleton.2 (rbrace.isOuter (by decide))
  | unterminated lbrace inside =>
      refine List.forall_mem_cons.2 ⟨lbrace.isOuter (by decide), ?_⟩
      exact fun n hn => hp n (inside n hn)

namespace Schema

/-- Inside a statement there is neither another one nor a keyword. -/
theorem isOuter_child {n : Node} (h : n.Schema) (hn : n.kind.isOuter = false) :
    ∀ m ∈ n.children, m.kind.isOuter = false := by
  cases h with
  | leaf field => simp [children]
  | sourceFile children => cases hn
  | statement parts once => cases hn
  | identifierList field children => exact children.isOuter fun n h => h.isOuter
  | block field children => exact children.isOuter fun n h => h.isOuter
  | ref quote fillers symbol =>
      refine List.forall_mem_cons.2 ⟨quote.isOuter (by decide), List.forall_mem_append.2 ⟨?_, ?_⟩⟩
      · exact fun m hm => (fillers m hm).isOuter
      · refine List.forall_mem_singleton.2 ?_
        rcases symbol with symbol | rfl
        · exact symbol.isOuter
        · rfl
  | missing e => simp [marker, children]
  | openGroup => simp [marker, children]
  | unexpected first solid tokens => exact fun m hm => (tokens m hm).isOuter

/-- A statement is a keyword that names it, and what stands behind. -/
theorem children_statement {n : Node} (h : n.Schema) (hn : n.isStatement = true) :
    ∃ k ns c, n.children = k :: ns ∧ n.kind = .node (.statement c) ∧ k.IsToken .keyword ∧
      Command.ofWord? k.text = some c ∧ ∀ m ∈ ns, m.kind.isOuter = false := by
  cases h with
  | @statement c ns parts once =>
      obtain ⟨k, hk, htoken, hword⟩ := parts.keyword
      obtain ⟨ns, rfl⟩ := List.head?_eq_some_iff.1 hk
      exact ⟨k, ns, c, rfl, rfl, htoken, hword, fun m hm => (parts.children m hm).isOuter⟩
  | _ => cases hn

end Schema

theorem InFile.isStatement_or {n : Node} (h : n.InFile) :
    n.isStatement = true ∨ n.kind.isOuter = false := by
  cases h with
  | statement h _ => exact .inl h
  | error h _ => exact .inr h.isOuter
  | filler h => exact .inr h.isOuter

mutual

/-- Below a node that is no statement there is none, and no keyword. -/
theorem All.isOuter : (n : Node) → n.All Schema → n.kind.isOuter = false →
    n.All fun m => m.kind.isOuter = false
  | .leaf .., _, hn => all_leaf.2 hn
  | .branch _ _ _ ns, h, hn => ⟨hn, AllIn.isOuter ns h.2 (h.1.isOuter_child hn)⟩

theorem AllIn.isOuter : (ns : List Node) → AllIn Schema ns →
    (∀ n ∈ ns, n.kind.isOuter = false) → AllIn (fun m => m.kind.isOuter = false) ns
  | [], _, _ => trivial
  | n :: ns, h, hns =>
      ⟨All.isOuter n h.1 (hns n (by simp)),
        AllIn.isOuter ns h.2 fun m hm => hns m (List.mem_cons_of_mem n hm)⟩

end

theorem filter_isOuter_of_not_outer {n : Node} (pos : Nat) (h : n.All Schema)
    (hn : n.kind.isOuter = false) :
    (n.locate pos).preorder.filter (·.kind.isOuter) = [] := by
  refine List.filter_eq_nil_iff.2 fun l hl => ?_
  simpa [Located.kind] using All.of_mem_preorder pos n (All.isOuter n h hn) l hl

theorem filter_isOuter_inner {ns : List Node} (pos : Nat) (h : AllIn Schema ns)
    (hns : ∀ n ∈ ns, n.kind.isOuter = false) :
    (Located.preorderAll (locateAll pos ns) []).filter (·.kind.isOuter) = [] := by
  refine List.filter_eq_nil_iff.2 fun l hl => ?_
  simpa [Located.kind] using AllIn.of_mem_preorder pos ns (AllIn.isOuter ns h hns) l hl

/-- In a statement that is placed there are itself and the keyword that names it. -/
theorem filter_isOuter_statement {n : Node} (pos : Nat) (h : n.All Schema)
    (hn : n.isStatement = true) : ∃ k c, (n.locate pos).children.head? = some k ∧
      k.kind = .token .keyword ∧ Command.ofWord? k.text = some c ∧ n.kind = .node (.statement c) ∧
      (n.locate pos).preorder.filter (·.kind.isOuter) = [n.locate pos, k] := by
  obtain ⟨k, ns, c, hchildren, hkind, hk, hword, hns⟩ := h.self.children_statement hn
  cases n with
  | leaf k f t => cases hkind
  | branch kind f e ms =>
      obtain rfl : ms = k :: ns := hchildren
      obtain rfl : kind = .statement c := Kind.node.inj hkind
      cases k with
      | branch => cases hk.1
      | leaf k g t =>
          obtain rfl : k = .keyword := Kind.token.inj hk.1
          refine ⟨(leaf .keyword g t).locate pos, c, ?_, ?_, ?_, rfl, ?_⟩
          · simp [locate, locateAll]
          · simp [Located.kind, kind]
          · simpa [Located.text] using hword
          · rw [preorder_locate_branch, preorderAll_locateAll_cons, preorder_locate_leaf,
              List.filter_cons_of_pos, List.filter_append, filter_isOuter_inner _ h.2.2 hns]
            · simp [Located.kind, kind, Kind.isOuter]
            · simp [Located.kind, kind, Kind.isOuter]

/-- No statement is below another node than the file. -/
theorem mem_locateAll_of_isStatement {ns : List Node} (pos : Nat)
    (h : ∀ n ∈ ns, n.All Schema ∧ n.InFile) {l : Located}
    (hl : l ∈ Located.preorderAll (locateAll pos ns) []) (hst : l.node.isStatement = true) :
    l ∈ locateAll pos ns := by
  induction ns generalizing pos with
  | nil => simp [locateAll, Located.preorderAll] at hl
  | cons n ns ih =>
      obtain ⟨⟨hall, hfile⟩, hns⟩ := List.forall_mem_cons.1 h
      rw [preorderAll_locateAll_cons] at hl
      rw [locateAll_cons]
      rcases List.mem_append.1 hl with hl | hl
      · have houter : l ∈ (n.locate pos).preorder.filter (·.kind.isOuter) :=
          List.mem_filter.2 ⟨hl, isOuter_of_isStatement hst⟩
        rcases hfile.isStatement_or with hn | hn
        · obtain ⟨k, -, -, hk, -, -, hfilter⟩ := filter_isOuter_statement pos hall hn
          rw [hfilter] at houter
          rcases List.mem_cons.1 houter with rfl | hlk
          · exact List.mem_cons_self
          · rw [List.mem_singleton.1 hlk, isStatement, show k.node.kind = _ from hk] at hst
            cases hst
        · rw [filter_isOuter_of_not_outer pos hall hn] at houter
          cases houter
      · exact List.mem_cons_of_mem _ (ih _ hns hl)

end Node

end BibStyle

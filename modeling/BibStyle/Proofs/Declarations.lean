import BibStyle.Outline
import BibStyle.Proofs.Keywords
import BibStyle.Proofs.Layout
import BibStyle.Proofs.Lossless
import Mathlib.Data.List.Infix

/-!
# The outline of a file

An outline is put together statement by statement, from the first child in each field that may hold
names. A walk over the whole tree would come to the same names in the same order: the leaves that
name something (`Cursor.declares`) stand nowhere else, whatever is wrong with the text.

Below a node that is neither a list nor in a field for names there are no such leaves
(`Node.All.filter_declares`), so those of a statement are those of its parts
(`Cursor.names`, `Node.filter_declares_preorderOnto`). The parts are in the order of the command's
items, one for each field at most, and so they are found by their fields
(`Located.flatMap_eq_flatMap_find?`).
-/

namespace BibStyle

/-- What a name in the field of the command declares. -/
def DeclarationKind.of? : Command → Field → Option DeclarationKind
  | .function, .name => some .function
  | .macroDef, .pattern => some .macroDef
  | .entry, .fields => some .entryField
  | .entry, .integers => some .entryInteger
  | .entry, .strings => some .entryString
  | .integers, .integers => some .integer
  | .strings, .strings => some .string
  | _, _ => none

theorem Field.of_holds_list (f : Field) (h : f.holds (.node .identifierList) = true) :
    f = .fields ∨ f = .integers ∨ f = .strings := by
  revert h
  cases f <;> decide

theorem Field.of_holds_block (f : Field) (h : f.holds (.node .block) = true) :
    f = .body ∨ f = .term := by
  revert h
  cases f <;> decide

/-- The command of a statement. -/
def Located.command? (l : Located) : Option Command :=
  match l.kind with
  | .node (.statement c) => some c
  | _ => none

namespace Cursor

/-! ## Leaves that name something -/

/-- The node is a leaf in a field for a name, or an identifier directly in a list. -/
def declares (c : Cursor) : Bool :=
  c.node.isToken && (c.node.field == some .name || c.node.field == some .pattern ||
    (c.node.kind == .token .identifier &&
      c.ancestors.head?.any (·.kind == .node .identifierList)))

/-- The node just below the file on the way up. -/
def segment? (c : Cursor) : Option Located := (c.node :: c.ancestors).dropLast.getLast?

/-- The field of the list around the node, or of the node itself. -/
def part? (c : Cursor) : Option Field :=
  match c.ancestors with
  | p :: _ => if p.kind = .node .identifierList then p.field else c.node.field
  | [] => c.node.field

/-- The declaration of the name, by the statement and the field around it. -/
def declaration? (c : Cursor) : Option Declaration := do
  let statement ← c.segment?
  let command ← statement.command?
  let field ← c.part?
  let kind ← DeclarationKind.of? command field
  return ⟨kind, c.node.text, c.node.span, statement.span⟩

/-- The leaves that name something in a part of a statement. -/
def names (c : Cursor) : List Cursor :=
  match c.node.field with
  | some .name | some .pattern => [c]
  | some .fields | some .integers | some .strings =>
      (c.node.children.filter (·.kind == .token .identifier)).map c.down
  | _ => []

/-- A declaration has the bytes of the name and those of a node around it. -/
theorem spans_of_declaration? {c : Cursor} {d : Declaration} (h : c.declaration? = some d) :
    d.span = c.node.span ∧ ∃ s ∈ c.node :: c.ancestors, d.statement = s.span := by
  simp only [declaration?, Option.bind_eq_bind, Option.bind_eq_some_iff, Option.pure_def,
    Option.some.injEq] at h
  obtain ⟨s, hs, -, -, -, -, -, -, rfl⟩ := h
  exact ⟨rfl, s, List.mem_of_mem_dropLast (List.mem_of_getLast? hs), rfl⟩

theorem map_span_of_map_declaration? {cs : List Cursor} {ds : List Declaration}
    (h : cs.map declaration? = ds.map some) : ds.map (·.span) = cs.map (·.node.span) := by
  induction cs generalizing ds with
  | nil => simp [List.map_eq_nil_iff.1 h.symm]
  | cons c cs ih =>
      obtain ⟨d, ds, rfl, hd, hds⟩ := List.map_eq_cons_iff.1 h.symm
      rw [List.map_cons, List.map_cons, ih hds.symm, (spans_of_declaration? hd.symm).1]

end Cursor

namespace Node

/-- The node is not on the outside of a tree, and neither a list nor a name. -/
structure Plain (n : Node) : Prop where
  inner : n.kind.isOuter = false
  list : n.kind ≠ .node .identifierList
  name : n.field ≠ some .name
  pattern : n.field ≠ some .pattern

theorem plain_of_field_none {n : Node} (h : n.kind.isOuter = false)
    (hk : n.kind ≠ .node .identifierList) (hf : n.field = none) : n.Plain :=
  ⟨h, hk, by simp [hf], by simp [hf]⟩

theorem IsToken.plain {n : Node} {k : TokenKind} (h : n.IsToken k) (hk : k ≠ .keyword) : n.Plain :=
  plain_of_field_none (h.isOuter hk) (by simp [h.1]) h.2

theorem IsFiller.plain {n : Node} (h : n.IsFiller) : n.Plain := by
  refine plain_of_field_none h.isOuter ?_ h.2
  intro hk
  rw [IsFiller, hk] at h
  cases h.1

theorem IsError.plain {n : Node} (h : n.IsError) : n.Plain :=
  plain_of_field_none h.isOuter (by simp [h.1]) h.2

theorem InField.plain {n : Node} {f : Field} (h : n.InField f) (hf : f = .term ∨ f = .symbol) :
    n.Plain := by
  have hkind : n.kind ≠ .node .identifierList := by
    intro hk
    have hholds := h.2
    rw [hk] at hholds
    rcases hf with rfl | rfl <;> cases hholds
  rcases hf with rfl | rfl <;> exact ⟨h.isOuter, hkind, by simp [h.1], by simp [h.1]⟩

/-- What stands in a block, a reference or a stretch of unexpected tokens is plain. -/
theorem Schema.plain_child {n : Node} (h : n.Schema) (hn : n.kind.isOuter = false)
    (hk : n.kind ≠ .node .identifierList) : ∀ m ∈ n.children, m.Plain := by
  have hblock : ∀ m : Node, m.InBlock → m.Plain := by
    rintro m (h | h)
    · exact h.plain (.inl rfl)
    · exact h.plain
  cases h with
  | leaf field => simp [children]
  | sourceFile children => cases hn
  | statement parts once => cases hn
  | identifierList field children => exact absurd rfl hk
  | block field children =>
      cases children with
      | closed lbrace inside rbrace =>
          refine List.forall_mem_cons.2 ⟨lbrace.plain (by decide), ?_⟩
          refine List.forall_mem_append.2 ⟨?_, ?_⟩
          · exact fun m hm => hblock m (inside m hm)
          · exact List.forall_mem_singleton.2 (rbrace.plain (by decide))
      | unterminated lbrace inside =>
          refine List.forall_mem_cons.2 ⟨lbrace.plain (by decide), ?_⟩
          exact fun m hm => hblock m (inside m hm)
  | ref quote fillers symbol =>
      refine List.forall_mem_cons.2 ⟨quote.plain (by decide), List.forall_mem_append.2 ⟨?_, ?_⟩⟩
      · exact fun m hm => (fillers m hm).plain
      · refine List.forall_mem_singleton.2 ?_
        rcases symbol with symbol | rfl
        · exact symbol.plain (.inr rfl)
        · exact IsError.plain ⟨rfl, rfl⟩
  | missing e => simp [marker, children]
  | openGroup => simp [marker, children]
  | unexpected first solid tokens =>
      rintro m hm
      obtain ⟨k, hm, hk⟩ := tokens m hm
      exact hm.plain hk

/-! ## Where these leaves are -/

theorem declares_locate (pos : Nat) (n : Node) (p : Located) (above : List Located) :
    Cursor.declares ⟨n.locate pos, p :: above⟩ =
      (n.kind.isToken && (n.field == some .name || n.field == some .pattern ||
        (n.kind == .token .identifier && p.kind == .node .identifierList))) := by
  simp [Cursor.declares, Located.isToken, Located.kind, Located.field]

theorem Plain.not_declares {n : Node} (h : n.Plain) (pos : Nat) {p : Located}
    (hp : p.kind ≠ .node .identifierList) (above : List Located) :
    Cursor.declares ⟨n.locate pos, p :: above⟩ = false := by
  rw [declares_locate]
  simp [h.name, h.pattern, hp]

mutual

/-- There are none in a plain node. -/
theorem All.filter_declares {p : Located} (hp : p.kind ≠ .node .identifierList)
    (above : List Located) (pos : Nat) : (n : Node) → n.All Schema → n.Plain →
    (Cursor.preorderOnto (p :: above) (n.locate pos) []).filter Cursor.declares = []
  | .leaf k f t, _, hn => by
      rw [preorderOnto_locate, List.filter_cons_of_neg (by simp [hn.not_declares pos hp above])]
      simp [children, locateAll, Cursor.preorderAll]
  | .branch k f e ns, h, hn => by
      rw [preorderOnto_locate, List.filter_cons_of_neg (by simp [hn.not_declares pos hp above])]
      refine AllIn.filter_declares ?_ (p :: above) pos ns h.2 ?_
      · rw [kind_locate]
        exact hn.list
      · exact h.1.plain_child hn.inner hn.list

theorem AllIn.filter_declares {p : Located} (hp : p.kind ≠ .node .identifierList)
    (above : List Located) (pos : Nat) : (ns : List Node) → AllIn Schema ns →
    (∀ n ∈ ns, n.Plain) →
    (Cursor.preorderAll (p :: above) (locateAll pos ns) []).filter Cursor.declares = []
  | [], _, _ => by simp [locateAll, Cursor.preorderAll]
  | n :: ns, h, hns => by
      obtain ⟨hn, hns⟩ := List.forall_mem_cons.1 hns
      rw [preorderAll_locateAll, List.filter_append, All.filter_declares hp above pos n h.1 hn,
        AllIn.filter_declares hp above (pos + n.size) ns h.2 hns, List.append_nil]

end

theorem filter_declares_children {n : Node} (h : n.All Schema) (hn : n.Plain)
    (above : List Located) (pos : Nat) :
    (Cursor.preorderAll (n.locate pos :: above) (locateAll pos n.children) []).filter
      Cursor.declares = [] := by
  cases n with
  | leaf k f t => simp [children, locateAll, Cursor.preorderAll]
  | branch k f e ns =>
      refine AllIn.filter_declares ?_ above pos ns h.2 (h.1.plain_child hn.inner hn.list)
      rw [kind_locate]
      exact hn.list

/-- In a list there are its identifiers. -/
theorem filter_declares_list {p : Located} (hp : p.kind = .node .identifierList)
    (above : List Located) (pos : Nat) {ns : List Node} (h : AllIn Schema ns)
    (hns : ∀ n ∈ ns, n.IsToken .identifier ∨ n.Plain ∧ n.kind ≠ .token .identifier) :
    (Cursor.preorderAll (p :: above) (locateAll pos ns) []).filter Cursor.declares =
      ((locateAll pos ns).filter (·.kind == .token .identifier)).map (⟨·, p :: above⟩) := by
  induction ns generalizing pos with
  | nil => simp [locateAll, Cursor.preorderAll]
  | cons n ns ih =>
      obtain ⟨hn, hns⟩ := List.forall_mem_cons.1 hns
      rw [preorderAll_locateAll, locateAll_cons, List.filter_append, ih _ h.2 hns,
        preorderOnto_locate]
      rcases hn with hn | ⟨hn, hne⟩
      · cases n with
        | branch => cases hn.1
        | leaf k f t =>
            rw [List.filter_cons_of_pos (by simp [declares_locate, hn.1, hp, Kind.isToken])]
            simp [children, locateAll, Cursor.preorderAll, kind_locate, hn.1]
      · rw [List.filter_cons_of_neg (by simp [declares_locate, hn.name, hn.pattern, hne]),
          filter_declares_children h.1 hn]
        simp [kind_locate, hne]

theorem InList.identifier_or_plain {n : Node} (h : n.InList) :
    n.IsToken .identifier ∨ n.Plain ∧ n.kind ≠ .token .identifier := by
  rcases h with h | h | h
  · exact .inl h
  · refine .inr ⟨h.plain, fun hk => ?_⟩
    rw [IsFiller, hk] at h
    cases h.1
  · exact .inr ⟨h.plain, by simp [h.1]⟩

theorem Braced.identifier_or_plain {c : Construct} {e : Option Fault} {ns : List Node}
    (h : Braced InList c e ns) :
    ∀ n ∈ ns, n.IsToken .identifier ∨ n.Plain ∧ n.kind ≠ .token .identifier := by
  have hbrace : ∀ {m : Node} {k : TokenKind}, m.IsToken k → k ≠ .keyword → k ≠ .identifier →
      m.IsToken .identifier ∨ m.Plain ∧ m.kind ≠ .token .identifier :=
    fun hm hk hi => .inr ⟨hm.plain hk, by simp [hm.1, hi]⟩
  cases h with
  | closed lbrace inside rbrace =>
      refine List.forall_mem_cons.2 ⟨hbrace lbrace (by decide) (by decide), ?_⟩
      refine List.forall_mem_append.2 ⟨fun m hm => (inside m hm).identifier_or_plain, ?_⟩
      exact List.forall_mem_singleton.2 (hbrace rbrace (by decide) (by decide))
  | unterminated lbrace inside =>
      refine List.forall_mem_cons.2 ⟨hbrace lbrace (by decide) (by decide), ?_⟩
      exact fun m hm => (inside m hm).identifier_or_plain

theorem names_of_field (pos : Nat) (n : Node) (above : List Located) :
    Cursor.names ⟨n.locate pos, above⟩ =
      match n.field with
      | some .name | some .pattern => [⟨n.locate pos, above⟩]
      | some .fields | some .integers | some .strings =>
          ((locateAll pos n.children).filter (·.kind == .token .identifier)).map
            (⟨·, n.locate pos :: above⟩)
      | _ => [] := by
  rw [← children_locate]
  simp only [Cursor.names, field_locate]
  rfl

/-- In a part of a statement there are its names. -/
theorem filter_declares_preorderOnto {p : Located} (hp : p.kind ≠ .node .identifierList)
    (above : List Located) (pos : Nat) {n : Node} (h : n.All Schema)
    (hn : n.kind.isToken = true ∨ n.kind.isOuter = false) :
    (Cursor.preorderOnto (p :: above) (n.locate pos) []).filter Cursor.declares =
      Cursor.names ⟨n.locate pos, p :: above⟩ := by
  rw [names_of_field]
  have hself := h.self
  cases hself with
  | @leaf k f t field =>
      rw [preorderOnto_locate, List.filter_cons, declares_locate]
      cases f with
      | none => simp [Node.field, children, locateAll, Cursor.preorderAll, hp]
      | some g =>
          have hg := field g rfl
          cases g <;>
            simp_all [Field.holds, Node.field, children, locateAll, Cursor.preorderAll, kind,
              Kind.isToken]
  | sourceFile children => simp [kind, Kind.isToken, Kind.isOuter] at hn
  | statement parts once => simp [kind, Kind.isToken, Kind.isOuter] at hn
  | @identifierList f e ns field children =>
      have hlist := filter_declares_list (p := (branch .identifierList (some f) e ns).locate pos)
        (by simp [Located.kind, kind]) (p :: above) pos h.2 children.identifier_or_plain
      rw [preorderOnto_locate,
        List.filter_cons_of_neg (by simp [declares_locate, kind, Kind.isToken])]
      rcases f.of_holds_list field with rfl | rfl | rfl <;> exact hlist
  | @block f e ns field children =>
      have hplain : f ≠ .name → f ≠ .pattern → (branch .block (some f) e ns).Plain :=
        fun hname hpattern =>
          ⟨rfl, by simp [kind], by simpa [Node.field], by simpa [Node.field]⟩
      rcases f.of_holds_block field with rfl | rfl <;>
        exact All.filter_declares hp above pos _ h (hplain (by decide) (by decide))
  | ref quote fillers symbol =>
      exact All.filter_declares hp above pos _ h
        ⟨rfl, by simp [kind], by simp [Node.field], by simp [Node.field]⟩
  | missing e => exact All.filter_declares hp above pos _ h (IsError.plain ⟨rfl, rfl⟩)
  | openGroup => exact All.filter_declares hp above pos _ h (IsError.plain ⟨rfl, rfl⟩)
  | unexpected first solid tokens =>
      exact All.filter_declares hp above pos _ h (IsError.plain ⟨rfl, rfl⟩)

/-- In a statement, or in the file, there are those of its parts. -/
theorem filter_declares_preorderAll {p : Located} (hp : p.kind ≠ .node .identifierList)
    (above : List Located) (pos : Nat) {ns : List Node} (h : AllIn Schema ns)
    (hns : ∀ n ∈ ns, n.kind.isToken = true ∨ n.kind.isOuter = false) :
    (Cursor.preorderAll (p :: above) (locateAll pos ns) []).filter Cursor.declares =
      (locateAll pos ns).flatMap fun l => Cursor.names ⟨l, p :: above⟩ := by
  induction ns generalizing pos with
  | nil => simp [locateAll, Cursor.preorderAll]
  | cons n ns ih =>
      obtain ⟨hn, hns⟩ := List.forall_mem_cons.1 hns
      rw [preorderAll_locateAll, locateAll_cons, List.filter_append, List.flatMap_cons,
        filter_declares_preorderOnto hp above pos h.1 hn, ih _ h.2 hns]

end Node

namespace Located

/-! ## Parts by their fields -/

theorem find?_field_eq_none {f : Field} {ls : List Located}
    (h : f ∉ ls.filterMap Located.field) : ls.find? (·.field == some f) = none := by
  rw [List.find?_eq_none]
  intro l hl hf
  exact h (List.mem_filterMap.2 ⟨l, hl, by simpa using hf⟩)

/-- Where the fields of the nodes follow one another as in `fs`, what the nodes give is found field
by field. -/
theorem flatMap_eq_flatMap_find? {α : Type} {g : Located → List α} {fs : List Field}
    (hfs : fs.Nodup) {ls : List Located} (hls : (ls.filterMap Located.field).Sublist fs)
    (hg : ∀ l ∈ ls, l.field = none → g l = []) :
    ls.flatMap g = fs.flatMap fun f => (ls.find? (·.field == some f)).toList.flatMap g := by
  induction fs generalizing ls with
  | nil =>
      rw [List.sublist_nil, List.filterMap_eq_nil_iff] at hls
      rw [List.flatMap_eq_nil_iff.2 fun l hl => hg l hl (hls l hl)]
      rfl
  | cons f fs ih =>
      obtain ⟨hf, hfs⟩ := List.nodup_cons.1 hfs
      rw [List.flatMap_cons]
      rcases List.sublist_cons_iff.1 hls with hls | ⟨gs, heq, hgs⟩
      · rw [find?_field_eq_none fun hmem => hf (hls.subset hmem), ih hfs hls hg]
        rfl
      · obtain ⟨before, l, after, rfl, hbefore, hl, rfl⟩ := List.filterMap_eq_cons_iff.1 heq
        have hnone : ∀ x ∈ before, g x = [] := fun x hx => hg x (by simp [hx]) (hbefore x hx)
        have hskip : ∀ f', before.find? (·.field == some f') = none := fun f' =>
          List.find?_eq_none.2 fun x hx => by simp [hbefore x hx]
        -- the later fields are found behind the node that has this one
        have hlater : (fs.flatMap fun f' =>
              ((before ++ l :: after).find? (·.field == some f')).toList.flatMap g) =
            fs.flatMap fun f' => (after.find? (·.field == some f')).toList.flatMap g := by
          rw [List.flatMap_def, List.flatMap_def]
          refine congrArg List.flatten (List.map_congr_left fun f' hf' => ?_)
          have hne : f ≠ f' := fun h => hf (h ▸ hf')
          rw [List.find?_append, hskip, Option.none_or, List.find?_cons_of_neg (by simp [hl, hne])]
        rw [hlater, ← ih hfs hgs fun x hx => hg x (by simp [hx]), List.find?_append, hskip,
          Option.none_or, List.find?_cons_of_pos (by simp [hl]), List.flatMap_append,
          List.flatMap_eq_nil_iff.2 hnone]
        simp

end Located

namespace Outline

variable {s top : Located} {command : Command} {f : Field}

theorem declaration?_child {l : Located} (hs : s.kind = .node (.statement command))
    (hf : l.field = some f) : Cursor.declaration? ⟨l, [s, top]⟩ =
      (DeclarationKind.of? command f).map fun kind => declare s kind l := by
  have hlist : s.kind ≠ .node .identifierList := by simp [hs]
  have hcommand : s.command? = some command := by rw [Located.command?, hs]
  have hsegment : Cursor.segment? ⟨l, [s, top]⟩ = some s := rfl
  have hpart : Cursor.part? ⟨l, [s, top]⟩ = some f := (if_neg hlist).trans hf
  rw [Cursor.declaration?, hsegment, hpart]
  simp only [Option.bind_eq_bind, Option.bind_some, hcommand]
  cases DeclarationKind.of? command f <;> rfl

theorem declaration?_listed {l m : Located} (hs : s.kind = .node (.statement command))
    (hf : l.field = some f) (hl : l.kind = .node .identifierList) :
    Cursor.declaration? ⟨m, [l, s, top]⟩ =
      (DeclarationKind.of? command f).map fun kind => declare s kind m := by
  have hcommand : s.command? = some command := by rw [Located.command?, hs]
  have hsegment : Cursor.segment? ⟨m, [l, s, top]⟩ = some s := rfl
  have hpart : Cursor.part? ⟨m, [l, s, top]⟩ = some f := (if_pos hl).trans hf
  rw [Cursor.declaration?, hsegment, hpart]
  simp only [Option.bind_eq_bind, Option.bind_some, hcommand]
  cases DeclarationKind.of? command f <;> rfl

/-- The declarations of the names in the field. -/
def declared (s top : Located) (f : Field) : List (Option Declaration) :=
  (s.child? f).toList.flatMap fun l => (Cursor.names ⟨l, [s, top]⟩).map Cursor.declaration?

theorem declared_of_name {kind : DeclarationKind} (hs : s.kind = .node (.statement command))
    (hf : f = .name ∨ f = .pattern) (hkind : DeclarationKind.of? command f = some kind) :
    declared s top f = (ofField s f kind).map some := by
  rw [declared, ofField]
  cases hl : s.child? f with
  | none => rfl
  | some l =>
      have hfield : l.field = some f := by simpa using List.find?_some hl
      have hnames : Cursor.names ⟨l, [s, top]⟩ = [⟨l, [s, top]⟩] := by
        rcases hf with rfl | rfl <;> simp only [Cursor.names, hfield]
      rw [Option.toList_some, List.flatMap_singleton, hnames, List.map_singleton,
        declaration?_child hs hfield, hkind]
      rfl

theorem declared_of_list {kind : DeclarationKind} (hs : s.kind = .node (.statement command))
    (hkinds : ∀ l ∈ s.children, ∀ f ∈ l.field, f.holds l.kind = true)
    (hf : f = .fields ∨ f = .integers ∨ f = .strings)
    (hkind : DeclarationKind.of? command f = some kind) :
    declared s top f = (ofList s f kind).map some := by
  rw [declared, ofList]
  cases hl : s.child? f with
  | none => rfl
  | some l =>
      have hfield : l.field = some f := by simpa using List.find?_some hl
      have hlist : l.kind = .node .identifierList := by
        have hholds := hkinds l (List.mem_of_find?_eq_some hl) f hfield
        rcases hf with rfl | rfl | rfl <;> simpa [Field.holds] using hholds
      have hnames : Cursor.names ⟨l, [s, top]⟩ =
          (l.children.filter (·.kind == .token .identifier)).map (⟨·, [l, s, top]⟩) := by
        rcases hf with rfl | rfl | rfl <;> simp only [Cursor.names, hfield] <;> rfl
      have hdeclare : ∀ m, Cursor.declaration? ⟨m, [l, s, top]⟩ = some (declare s kind m) := by
        intro m
        rw [declaration?_listed hs hfield hlist, hkind]
        rfl
      rw [Option.toList_some, List.flatMap_singleton, hnames, List.map_map, List.map_map]
      exact List.map_congr_left fun m _ => hdeclare m

theorem declared_of_other (hf : f = .subst ∨ f = .body ∨ f = .func) : declared s top f = [] := by
  rw [declared]
  cases hl : s.child? f with
  | none => rfl
  | some l =>
      have hfield : l.field = some f := by simpa using List.find?_some hl
      have hnames : Cursor.names ⟨l, [s, top]⟩ = [] := by
        rcases hf with rfl | rfl | rfl <;> simp only [Cursor.names, hfield]
      rw [Option.toList_some, List.flatMap_singleton, hnames]
      rfl

/-- What a statement declares is what its items declare, in their order. -/
theorem map_ofStatement (hs : s.kind = .node (.statement command))
    (hkinds : ∀ l ∈ s.children, ∀ f ∈ l.field, f.holds l.kind = true) :
    (ofStatement s).map some = (command.items.map Item.field).flatMap (declared s top) := by
  rw [ofStatement, hs]
  cases command with
  | entry =>
      simp only [Command.items, List.map_cons, List.map_nil, Item.field, List.flatMap_cons,
        List.flatMap_nil, List.append_nil, List.map_append, List.append_assoc]
      rw [declared_of_list hs hkinds (.inl rfl) rfl,
        declared_of_list hs hkinds (.inr (.inl rfl)) rfl,
        declared_of_list hs hkinds (.inr (.inr rfl)) rfl]
  | integers =>
      simp only [Command.items, List.map_cons, List.map_nil, Item.field, List.flatMap_singleton]
      rw [declared_of_list hs hkinds (.inr (.inl rfl)) rfl]
  | strings =>
      simp only [Command.items, List.map_cons, List.map_nil, Item.field, List.flatMap_singleton]
      rw [declared_of_list hs hkinds (.inr (.inr rfl)) rfl]
  | macroDef =>
      simp only [Command.items, List.map_cons, List.map_nil, Item.field, List.flatMap_cons,
        List.flatMap_nil, List.append_nil]
      rw [declared_of_name hs (.inr rfl) rfl, declared_of_other (.inl rfl), List.append_nil]
  | function =>
      simp only [Command.items, List.map_cons, List.map_nil, Item.field, List.flatMap_cons,
        List.flatMap_nil, List.append_nil]
      rw [declared_of_name hs (.inl rfl) rfl, declared_of_other (.inr (.inl rfl)), List.append_nil]
  | read | sort => rfl
  | execute | iterate | reverse =>
      simp only [Command.items, List.map_cons, List.map_nil, Item.field, List.flatMap_singleton]
      rw [declared_of_other (.inr (.inr rfl))]

end Outline

namespace Node

/-! ## Statements and files -/

theorem filterMap_field_locateAll (pos : Nat) (ns : List Node) :
    (locateAll pos ns).filterMap Located.field = labels ns := by
  rw [labels, ← map_node_locateAll pos ns, List.filterMap_map, map_node_locateAll]
  rfl

theorem InStatement.holds {n : Node} {f : Field} (h : n.InStatement) (hf : n.field = some f) :
    f.holds n.kind = true := by
  cases h with
  | lbrace h => simp [h.2] at hf
  | rbrace h => simp [h.2] at hf
  | filler h => simp [h.2] at hf
  | error h => simp [h.2] at hf
  | part h =>
      obtain rfl := Option.some.inj (h.1.symm.trans hf)
      exact h.2

/-- The leaves of a statement that name something make its declarations. -/
theorem map_declaration?_statement (pos : Nat) {n : Node} (h : n.All Schema)
    (hn : n.isStatement = true) (top : Located) :
    ((Cursor.preorderOnto [top] (n.locate pos) []).filter Cursor.declares).map
      Cursor.declaration? = (Outline.ofStatement (n.locate pos)).map some := by
  have hschema := h.self
  cases hschema with
  | @statement command ns parts once =>
      obtain ⟨k, hk, hkeyword, -⟩ := parts.keyword
      obtain ⟨ms, rfl⟩ := List.head?_eq_some_iff.1 hk
      set s := branch (.statement command) none none (k :: ms) with hs
      have hkind : (s.locate pos).kind = .node (.statement command) := by
        rw [kind_locate]
        rfl
      have hinner : ∀ m ∈ k :: ms, m.kind.isToken = true ∨ m.kind.isOuter = false := by
        refine List.forall_mem_cons.2 ⟨.inl (by simp [hkeyword.1, Kind.isToken]), ?_⟩
        exact fun m hm => .inr (parts.children m hm).isOuter
      have hholds : ∀ m ∈ k :: ms, ∀ f ∈ m.field, f.holds m.kind = true := by
        refine List.forall_mem_cons.2 ⟨by simp [hkeyword.2], ?_⟩
        exact fun m hm f hf => (parts.children m hm).holds hf
      have hlocated : ∀ l ∈ (s.locate pos).children, ∀ f ∈ l.field, f.holds l.kind = true := by
        intro l hl f hf
        rw [children_locate] at hl
        obtain ⟨m, hm, start, rfl⟩ := exists_of_mem_locateAll hl
        rw [kind_locate]
        rw [field_locate] at hf
        exact hholds m hm f hf
      have hnames : (Cursor.preorderOnto [top] (s.locate pos) []).filter Cursor.declares =
          (locateAll pos (k :: ms)).flatMap fun l => Cursor.names ⟨l, [s.locate pos, top]⟩ := by
        have hne : (s.locate pos).kind ≠ .node .identifierList := by simp [hkind]
        rw [preorderOnto_locate, List.filter_cons_of_neg
          (by simp [s, declares_locate, kind, Kind.isToken])]
        exact filter_declares_preorderAll hne [top] pos h.2 hinner
      have hfields : ((locateAll pos (k :: ms)).filterMap Located.field).Sublist
          (command.items.map Item.field) := by
        rw [filterMap_field_locateAll]
        exact parts.order
      have hnone : ∀ l ∈ locateAll pos (k :: ms), l.field = none →
          Cursor.names ⟨l, [s.locate pos, top]⟩ = [] := by
        intro l _ hl
        rw [Cursor.names, hl]
      have hdeclared : (Outline.ofStatement (s.locate pos)).map some =
          (command.items.map Item.field).flatMap (Outline.declared (s.locate pos) top) :=
        Outline.map_ofStatement hkind hlocated
      rw [hnames, Located.flatMap_eq_flatMap_find? command.nodup_fields hfields hnone, hdeclared,
        List.map_flatMap]
      refine congrArg List.flatten (List.map_congr_left fun f _ => ?_)
      rw [Outline.declared, Located.child?, children_locate, List.map_flatMap]
      rfl
  | _ => cases hn

theorem InFile.plain {n : Node} (h : n.InFile) (hn : n.isStatement = false) : n.Plain := by
  cases h with
  | statement h _ => simp [h] at hn
  | error h _ => exact h.plain
  | filler h => exact h.plain

/-- The leaves of a file that name something make its declarations. -/
theorem map_declaration?_file (pos : Nat) {ns : List Node}
    (h : ∀ n ∈ ns, n.All Schema ∧ n.InFile) {top : Located}
    (htop : top.kind ≠ .node .identifierList) :
    ((Cursor.preorderAll [top] (locateAll pos ns) []).filter Cursor.declares).map
      Cursor.declaration? =
      (((locateAll pos ns).filter (·.kind.isA .statement)).flatMap Outline.ofStatement).map
        some := by
  induction ns generalizing pos with
  | nil => simp [locateAll, Cursor.preorderAll]
  | cons n ns ih =>
      obtain ⟨⟨hall, hfile⟩, hns⟩ := List.forall_mem_cons.1 h
      have hkind : (n.locate pos).kind.isA .statement = n.isStatement := by
        rw [kind_locate, isStatement]
      rw [preorderAll_locateAll, locateAll_cons, List.filter_append, List.map_append, ih _ hns]
      cases hn : n.isStatement with
      | true =>
          rw [map_declaration?_statement pos hall hn]
          simp [hkind, hn]
      | false =>
          rw [All.filter_declares htop [] pos n hall (hfile.plain hn)]
          simp [hkind, hn]

theorem size_of_children {n m : Node} {before after : List Node}
    (h : n.children = before ++ m :: after) :
    n.size = sizeAll before + m.size + sizeAll after := by
  cases n with
  | leaf k f t => simp [children] at h
  | branch k f e ns =>
      obtain rfl : ns = before ++ m :: after := h
      rw [size_branch, sizeAll_append, sizeAll_cons, Nat.add_assoc]

/-- The nodes around a part cover its bytes. -/
theorem Part.span_above {root n : Node} {off : Nat} {above : List Located} {s : Site}
    (h : Part root off above n s) : ∀ a ∈ s.above,
      a ∈ above ∨ a.span.start ≤ off + s.pos ∧ off + s.pos + n.size ≤ a.span.stop := by
  induction h with
  | root => exact fun a ha => .inl ha
  | @child n s before m after _ hchildren ih =>
      have hsize := size_of_children hchildren
      intro a ha
      rcases List.mem_cons.1 ha with rfl | ha
      · rw [span_locate]
        simp only [Site.under]
        omega
      · refine (ih a ha).imp id fun hspan => ?_
        simp only [Site.under]
        omega

end Node

theorem Span.Tiles.pairwise {a b : Nat} {ss : List Span} (h : Span.Tiles a ss b) :
    (∀ s ∈ ss, a ≤ s.start) ∧ ss.Pairwise (·.start < ·.start) := by
  induction h with
  | nil => exact ⟨nofun, .nil⟩
  | @cons a b s ss start nonempty rest ih =>
      have hlt : ∀ r ∈ ss, s.start < r.start :=
        fun r hr => Nat.lt_of_lt_of_le nonempty (ih.1 r hr)
      refine ⟨List.forall_mem_cons.2 ⟨start.ge, fun r hr => ?_⟩, .cons hlt ih.2⟩
      exact start ▸ (hlt r hr).le

namespace Tree

/-- The declarations of the tree are those of its leaves, in their order. -/
structure Outlined (t : Tree) : Prop where
  /-- The walk that the declarations are compared with comes to every node of the tree. -/
  walk : (Cursor.top t).preorder.map Cursor.node = t.root.preorder
  /-- Each leaf that names something has its one declaration, and there are no others. -/
  complete : t.outline.declarations.map some =
    ((Cursor.top t).preorder.filter Cursor.declares).map Cursor.declaration?
  /-- A name stands in the statement that declares it. -/
  inside : ∀ d ∈ t.outline.declarations,
    d.statement.start ≤ d.span.start ∧ d.span.stop ≤ d.statement.stop
  ordered : t.outline.declarations.Pairwise (·.span.start < ·.span.start)

theorem map_declaration?_parse (t : Text) :
    ((Cursor.top (parse t)).preorder.filter Cursor.declares).map Cursor.declaration? =
      (parse t).outline.declarations.map some := by
  rw [Cursor.preorder, Cursor.top, root, Node.preorderOnto_locate,
    List.filter_cons_of_neg Bool.false_ne_true]
  exact Node.map_declaration?_file 0 (schema_segments t) (by simp [Located.kind, Node.kind])

/-- A declaration is that of a leaf of the tree. -/
theorem exists_of_mem_declarations {t : Text} {d : Declaration}
    (hd : d ∈ (parse t).outline.declarations) :
    ∃ c ∈ (Cursor.top (parse t)).preorder, c.declares = true ∧ c.declaration? = some d := by
  have hmem : some d ∈ (parse t).outline.declarations.map some := List.mem_map_of_mem hd
  rw [← map_declaration?_parse] at hmem
  obtain ⟨c, hc, hdecl⟩ := List.mem_map.1 hmem
  exact ⟨c, (List.mem_filter.1 hc).1, (List.mem_filter.1 hc).2, hdecl⟩

theorem span_statement {t : Text} {d : Declaration} (hd : d ∈ (parse t).outline.declarations) :
    d.statement.start ≤ d.span.start ∧ d.span.stop ≤ d.statement.stop := by
  obtain ⟨c, hc, -, hdecl⟩ := exists_of_mem_declarations hd
  obtain ⟨hspan, s, hs, hstatement⟩ := Cursor.spans_of_declaration? hdecl
  obtain ⟨n, r, hn, rfl⟩ := Node.Part.exists_of_mem_preorder hc
  rw [hspan, hstatement]
  rcases List.mem_cons.1 hs with rfl | hs
  · exact ⟨Nat.le_refl _, Nat.le_refl _⟩
  · rw [Node.span_locate]
    exact (hn.span_above s hs).resolve_left List.not_mem_nil

/-- The outline loses and doubles nothing, whatever is wrong with the text. -/
theorem outlined_parse (t : Text) : (parse t).Outlined where
  walk := Cursor.map_node_preorder_top (parse t)
  complete := (map_declaration?_parse t).symm
  inside := fun _ hd => span_statement hd
  ordered := by
    have hspans := Cursor.map_span_of_map_declaration? (map_declaration?_parse t)
    -- Names are leaves, and the leaves follow one another.
    have hleaf : ∀ c : Cursor, c.declares = true → c.node.isToken = true :=
      fun c hc => (Bool.and_eq_true_iff.1 hc).1
    have hsub : (((Cursor.top (parse t)).preorder.filter Cursor.declares).map
        (·.node.span)).Sublist ((parse t).tokens.map (·.span)) := by
      rw [tokens, ← Cursor.map_node_preorder_top, List.filter_map, List.map_map]
      exact (List.monotone_filter_right _ hleaf).map _
    have hordered := (lossless_parse t).tiles.pairwise.2.sublist hsub
    rwa [← hspans, List.pairwise_map] at hordered

end Tree

end BibStyle

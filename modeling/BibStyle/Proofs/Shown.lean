import BibStyle.Dump.Snapshot
import BibStyle.Proofs.Numbering
import Mathlib.Data.List.Infix
import Mathlib.Data.List.Forall2

/-!
# Ways to the nodes that a dump shows

A dump leaves out the white space unless it is asked for. What it does show can be reached from the
root by a way that says at each step which of the shown children to go on to. No two nodes have the
same way, not even markers that stand side by side and are equal, and the order of the ways is the
preorder of the nodes (`Located.pairwise_ways`, `Located.leads_preorderOnto`).
-/

namespace BibStyle

namespace Located

/-- The children that are shown. -/
def shown (shows : Kind → Bool) (l : Located) : List Located := l.children.filter (shows ·.kind)

/-- The node at the end of the way, if it leads anywhere. -/
def at? (shows : Kind → Bool) (l : Located) : List Nat → Option Located
  | [] => some l
  | k :: way => (l.shown shows)[k]?.bind (at? shows · way)

mutual

/-- The ways from the node to itself and to all shown below it, in preorder. -/
def ways (shows : Kind → Bool) : Located → List (List Nat)
  | ⟨_, _, _, children⟩ => [] :: waysAll shows 0 children

/-- The ways into the nodes that are shown, the first of which has the number `k`. -/
def waysAll (shows : Kind → Bool) (k : Nat) : List Located → List (List Nat)
  | [] => []
  | l :: ls =>
      if shows l.kind then (ways shows l).map (k :: ·) ++ waysAll shows (k + 1) ls
      else waysAll shows k ls

end

/-- The way leads from `root` to the node of the cursor, by the nodes above it. -/
def Leads (shows : Kind → Bool) (root : Located) (c : Cursor) (way : List Nat) : Prop :=
  way.inits.map (root.at? shows) = (c.node :: c.ancestors).reverse.map some

variable {shows : Kind → Bool}

theorem ways_eq (l : Located) : l.ways shows = [] :: waysAll shows 0 l.children := by
  cases l
  rw [ways]

theorem at?_append (l : Located) (v w : List Nat) :
    l.at? shows (v ++ w) = (l.at? shows v).bind (at? shows · w) := by
  induction v generalizing l with
  | nil => rfl
  | cons k v ih =>
      rw [List.cons_append, at?, at?, Option.bind_assoc]
      exact congrArg _ (funext ih)

/-! ## Their order -/

mutual

theorem pairwise_ways : (l : Located) → (l.ways shows).Pairwise (· < ·)
  | ⟨_, _, _, children⟩ => by
      obtain ⟨hlt, hstart⟩ := pairwise_waysAll 0 children
      rw [ways]
      refine .cons (fun way hway => ?_) hlt
      obtain ⟨j, v, rfl, -⟩ := hstart way hway
      exact List.nil_lt_cons _ _

theorem pairwise_waysAll (k : Nat) : (ls : List Located) →
    (waysAll shows k ls).Pairwise (· < ·) ∧ ∀ way ∈ waysAll shows k ls, ∃ j v, way = j :: v ∧ k ≤ j
  | [] => by simp [waysAll]
  | l :: ls => by
      rw [waysAll]
      split
      · obtain ⟨hlt, hstart⟩ := pairwise_waysAll (k + 1) ls
        have hfirst : ((l.ways shows).map (k :: ·)).Pairwise (· < ·) :=
          (pairwise_ways l).map _ fun v w hvw => List.cons_lt_cons_iff.2 (.inr ⟨rfl, hvw⟩)
        refine ⟨List.pairwise_append.2 ⟨hfirst, hlt, fun v hv w hw => ?_⟩, fun way hway => ?_⟩
        · obtain ⟨v, -, rfl⟩ := List.mem_map.1 hv
          obtain ⟨j, w, rfl, hj⟩ := hstart w hw
          exact List.cons_lt_cons_iff.2 (.inl hj)
        · rcases List.mem_append.1 hway with hway | hway
          · obtain ⟨v, -, rfl⟩ := List.mem_map.1 hway
            exact ⟨k, v, rfl, Nat.le_refl k⟩
          · obtain ⟨j, v, rfl, hj⟩ := hstart way hway
            exact ⟨j, v, rfl, Nat.le_of_succ_le hj⟩
      · exact pairwise_waysAll k ls

end

/-! ## Where they lead -/

theorem inits_concat (way : List Nat) (k : Nat) :
    (way ++ [k]).inits = way.inits ++ [way ++ [k]] := by simp [List.inits_append, List.inits]

theorem getLast?_inits (way : List Nat) : way.inits.getLast? = some way := by
  rcases List.eq_nil_or_concat way with rfl | ⟨way, k, rfl⟩
  · rfl
  · rw [List.concat_eq_append, inits_concat, List.getLast?_concat]

theorem Leads.at?_eq {root : Located} {c : Cursor} {way : List Nat}
    (h : Leads shows root c way) : root.at? shows way = some c.node := by
  have hlast := congrArg List.getLast? h
  rw [List.getLast?_map, List.getLast?_map, getLast?_inits, List.getLast?_reverse] at hlast
  exact Option.some.inj hlast

theorem Leads.down {root m : Located} {c : Cursor} {way : List Nat} {k : Nat}
    (h : Leads shows root c way) (hm : (c.node.shown shows)[k]? = some m) :
    Leads shows root (c.down m) (way ++ [k]) := by
  have hstep : root.at? shows (way ++ [k]) = some m := by
    rw [at?_append, h.at?_eq, Option.bind_some, at?, hm]
    rfl
  rw [Leads, inits_concat, List.map_append, h, List.map_singleton, hstep, Cursor.down,
    List.reverse_cons (a := m), List.map_append]
  rfl

end Located

/-- The row says what the node at the cursor is. -/
structure Row.Tells (r : Row) (c : Cursor) : Prop where
  kind : r.kind = c.node.kind
  field : r.field = c.node.field
  span : r.span = c.node.span
  /-- A token has its text in the row. -/
  text : r.text = if c.node.isToken then some c.node.text else none
  fault : r.fault = c.node.fault

theorem Row.tells_ofLocated (parent : Option Nat) (c : Cursor) :
    (Row.ofLocated parent c.node).Tells c := ⟨rfl, rfl, rfl, rfl, rfl⟩

namespace Node

open Located (Leads ways waysAll ways_eq)

variable {shows : Kind → Bool} {root : Located}

/-- Only a token can be left out, and there is nothing below it. -/
theorem filter_preorderOnto_of_hidden (hshows : ∀ k, shows (.node k) = true) {n : Node}
    (hn : shows n.kind = false) (above : List Located) (pos : Nat) :
    (Cursor.preorderOnto above (n.locate pos) []).filter (shows ·.node.kind) = [] := by
  rw [preorderOnto_locate, List.filter_cons_of_neg (by simp [kind_locate, hn])]
  cases n with
  | branch k f e ns => exact absurd (hshows k) (by simpa [kind] using hn)
  | leaf k f t => simp [children, locateAll, Cursor.preorderAll]

mutual

/-- The ways into a part of a tree lead to what is shown of it, in this order. -/
theorem leads_preorderOnto (hshows : ∀ k, shows (.node k) = true) {w : List Nat}
    (above : List Located) (pos : Nat) : (n : Node) → shows n.kind = true →
    Leads shows root ⟨n.locate pos, above⟩ w →
    List.Forall₂ (fun c v => Leads shows root c (w ++ v))
      ((Cursor.preorderOnto above (n.locate pos) []).filter (shows ·.node.kind))
      (ways shows (n.locate pos))
  | n, hn, hw => by
      rw [preorderOnto_locate, List.filter_cons_of_pos ((kind_locate pos n).symm ▸ hn), ways_eq,
        children_locate]
      refine .cons (by rwa [List.append_nil]) ?_
      cases n with
      | leaf k f t => simp [children, locateAll, Cursor.preorderAll, waysAll]
      | branch k f e ns =>
          refine leads_preorderAll hshows above pos [] ns hw ?_
          rw [Located.shown, children_locate]
          rfl

theorem leads_preorderAll (hshows : ∀ k, shows (.node k) = true) {w : List Nat} {p : Located}
    (above : List Located) (pos : Nat) (before : List Located) : (ns : List Node) →
    Leads shows root ⟨p, above⟩ w →
    p.shown shows = before ++ (locateAll pos ns).filter (shows ·.kind) →
    List.Forall₂ (fun c v => Leads shows root c (w ++ v))
      ((Cursor.preorderAll (p :: above) (locateAll pos ns) []).filter (shows ·.node.kind))
      (waysAll shows before.length (locateAll pos ns))
  | [], _, _ => by simp [locateAll, Cursor.preorderAll, waysAll]
  | n :: ns, hw, hp => by
      rw [preorderAll_locateAll, List.filter_append, locateAll_cons]
      rw [locateAll_cons, List.filter_cons, kind_locate] at hp
      cases hn : shows n.kind with
      | true =>
          rw [if_pos hn] at hp
          have hm : (p.shown shows)[before.length]? = some (n.locate pos) := by simp [hp]
          have hfirst := leads_preorderOnto hshows (p :: above) pos n hn (hw.down hm)
          have hrest := leads_preorderAll hshows above (pos + n.size)
            (before ++ [n.locate pos]) ns hw (by rw [hp, List.append_cons])
          rw [waysAll, if_pos ((kind_locate pos n).symm ▸ hn)]
          rw [List.length_append, List.length_singleton] at hrest
          refine List.rel_append ?_ hrest
          rw [List.forall₂_map_right_iff]
          exact hfirst.imp fun c v hcv => by rwa [List.append_cons]
      | false =>
          rw [if_neg (by simp [hn])] at hp
          rw [waysAll, if_neg (by simp [kind_locate, hn]), filter_preorderOnto_of_hidden hshows hn]
          exact leads_preorderAll hshows above _ before ns hw hp

end

/-! ## Rows -/

theorem rowsOnto_prune (parent : Option Nat) (l : Located) (rows : Array Row) :
    (l.prune shows).rowsOnto parent rows =
      Located.rowsAll (some rows.size) (Located.pruneAll shows l.children)
        (rows.push (.ofLocated parent l)) := by
  cases l
  rw [Located.prune, Located.rowsOnto]
  rfl

mutual

/-- The rows of a part of a tree are those of what is shown of it. -/
theorem exists_rowsOnto (hshows : ∀ k, shows (.node k) = true) (above : List Located) (pos : Nat)
    (parent : Option Nat) (rows : Array Row) : (n : Node) → shows n.kind = true →
    ∃ rs, (((n.locate pos).prune shows).rowsOnto parent rows).toList = rows.toList ++ rs ∧
      List.Forall₂ Row.Tells rs
        ((Cursor.preorderOnto above (n.locate pos) []).filter (shows ·.node.kind))
  | n, hn => by
      have hbelow : ∃ rs, (((n.locate pos).prune shows).rowsOnto parent rows).toList =
          (rows.push (.ofLocated parent (n.locate pos))).toList ++ rs ∧
            List.Forall₂ Row.Tells rs ((Cursor.preorderAll (n.locate pos :: above)
              (locateAll pos n.children) []).filter (shows ·.node.kind)) := by
        rw [rowsOnto_prune, children_locate]
        cases n with
        | leaf k f t =>
            refine ⟨[], ?_, ?_⟩
            · simp [children, locateAll, Located.pruneAll, Located.rowsAll]
            · simp [children, locateAll, Cursor.preorderAll]
        | branch k f e ns => exact exists_rowsAll hshows _ pos _ _ ns
      obtain ⟨rs, hrs, htells⟩ := hbelow
      refine ⟨.ofLocated parent (n.locate pos) :: rs, ?_, ?_⟩
      · rw [hrs, Array.toList_push, List.append_assoc]
        rfl
      · rw [preorderOnto_locate, List.filter_cons_of_pos ((kind_locate pos n).symm ▸ hn)]
        exact .cons (Row.tells_ofLocated parent ⟨n.locate pos, above⟩) htells

theorem exists_rowsAll (hshows : ∀ k, shows (.node k) = true) (above : List Located) (pos : Nat)
    (parent : Option Nat) (rows : Array Row) : (ns : List Node) →
    ∃ rs, (Located.rowsAll parent (Located.pruneAll shows (locateAll pos ns)) rows).toList =
        rows.toList ++ rs ∧
      List.Forall₂ Row.Tells rs
        ((Cursor.preorderAll above (locateAll pos ns) []).filter (shows ·.node.kind))
  | [] => ⟨[], by simp [locateAll, Located.pruneAll, Located.rowsAll], by
      simp [locateAll, Cursor.preorderAll]⟩
  | n :: ns => by
      rw [preorderAll_locateAll, List.filter_append, locateAll_cons]
      cases hn : shows n.kind with
      | true =>
          obtain ⟨rs, hrs, htells⟩ := exists_rowsOnto hshows above pos parent rows n hn
          obtain ⟨ss, hss, htells'⟩ := exists_rowsAll hshows above (pos + n.size) parent
            (((n.locate pos).prune shows).rowsOnto parent rows) ns
          refine ⟨rs ++ ss, ?_, List.rel_append htells htells'⟩
          rw [Located.pruneAll, if_pos ((kind_locate pos n).symm ▸ hn), Located.rowsAll, hss, hrs,
            List.append_assoc]
      | false =>
          have hleaf := filter_preorderOnto_of_hidden hshows hn above pos
          rw [Located.pruneAll, if_neg (by simp [kind_locate, hn]), hleaf]
          exact exists_rowsAll hshows above (pos + n.size) parent rows ns

end

end Node

namespace Tree

/-- The nodes of the tree that a dump shows, white space only if it is asked for, in preorder. -/
def shown (t : Tree) (o : DumpOptions) : List Cursor :=
  (Cursor.top t).preorder.filter (o.showsInk ·.node.kind)

/-- The ways to them from the root. -/
def ways (t : Tree) (o : DumpOptions) : List (List Nat) := t.root.ways o.showsInk

theorem showsInk_node (o : DumpOptions) (k : NodeKind) : o.showsInk (.node k) = true := by
  simp [DumpOptions.showsInk]

theorem leads_ways (t : Tree) (o : DumpOptions) :
    List.Forall₂ (Located.Leads o.showsInk t.root) (t.shown o) (t.ways o) :=
  Node.leads_preorderOnto (w := []) (showsInk_node o) [] 0 _ (showsInk_node o _) rfl

theorem tells_rows (t : Tree) (o : DumpOptions) :
    List.Forall₂ Row.Tells (t.snapshot o).rows.toList (t.shown o) := by
  obtain ⟨rs, hrs, htells⟩ := Node.exists_rowsOnto (showsInk_node o) [] 0 none #[]
    (.branch .sourceFile none none (t.segments.map (·.node))) (showsInk_node o _)
  rw [snapshot, root, hrs]
  exact htells

end Tree

end BibStyle

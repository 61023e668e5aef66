import BibStyle.Proofs.Drawn
import BibStyle.Proofs.Lossless
import Mathlib.Data.List.Sort

/-!
# Rows that make up a tree

The rows of a snapshot stand in the order of the ways to their nodes (`Tree.ways`), so a node is
found by its way, and the parent that a row names is the row at its way without the last step
(`Row.RecordsAt`). All that a reader of the rows relies on follows from the order of the ways. A
way comes behind its own beginnings, so a parent stands before its children. The ways that are one
step longer than a given one come in the order of that step, so the rows that name a row as their
parent are its children, none missing and none out of place (`Located.filter_isStep_ways`).

The rows can be made with a stack: what is pushed with the number of its parent is popped when all
that stands before it has its row (`Snapshot.loop`).
-/

namespace BibStyle

/-! ## With a stack -/

namespace Snapshot

theorem sum_weight_map (parent : Option Nat) (ls : List Located) :
    ((ls.map (·, parent)).map (·.1.weight)).sum = Located.weightAll ls := by
  induction ls with
  | nil => rfl
  | cons l ls ih => simp only [List.map_cons, List.sum_cons, ih, Located.weightAll]

/-- The rows that the stack leads to, after `rows`. Each node on it has the number of its parent. -/
def loop (o : DumpOptions) (rows : Array Row) : List (Located × Option Nat) → Array Row
  | [] => rows
  | (l, parent) :: rest =>
      loop o (rows.push (.ofLocated parent l))
        ((l.shown o.showsInk).map (·, some rows.size) ++ rest)
termination_by stack => (stack.map (·.1.weight)).sum
decreasing_by
  have := l.weightAll_shown_lt o.showsInk
  simp only [List.map_append, List.sum_append, sum_weight_map, List.map_cons, List.sum_cons]
  omega

variable {o : DumpOptions}

mutual

-- By the nodes of the tree, for any rows made before and any rest of the stack.
theorem loop_cons (parent : Option Nat) (rest : List (Located × Option Nat)) (rows : Array Row) :
    (l : Located) → loop o rows ((l, parent) :: rest) =
      loop o ((l.prune o.showsInk).rowsOnto parent rows) rest
  | ⟨node, span, flawed, children⟩ => by
      rw [Snapshot.loop, Node.rowsOnto_prune]
      exact loop_append _ rest _ children

theorem loop_append (parent : Option Nat) (rest : List (Located × Option Nat)) (rows : Array Row) :
    (ls : List Located) →
    loop o rows ((ls.filter (o.showsInk ·.kind)).map (·, parent) ++ rest) =
      loop o (Located.rowsAll parent (Located.pruneAll o.showsInk ls) rows) rest
  | [] => by simp [Located.pruneAll, Located.rowsAll]
  | l :: ls => by
      rw [List.filter_cons, Located.pruneAll]
      split
      · rw [List.map_cons, List.cons_append, loop_cons parent _ rows l, Located.rowsAll]
        exact loop_append parent rest _ ls
      · exact loop_append parent rest rows ls

end

end Snapshot

/-! ## Where the rows stand -/

/-- The row is that of the node at the end of the way, and its parent has the number of the way
without its last step among `ws`. -/
inductive Row.RecordsAt (shows : Kind → Bool) (root : Located) (ws : List (List Nat)) :
    Row → List Nat → Prop where
  | root : RecordsAt shows root ws (.ofLocated none root) []
  | below {p v k l} (parent : ws[p]? = some v) (node : root.at? shows (v ++ [k]) = some l) :
      RecordsAt shows root ws (.ofLocated (some p) l) (v ++ [k])

namespace Located

variable {shows : Kind → Bool} {root : Located} {ws : List (List Nat)}

mutual

-- The ways from a node on are the next ones that have no row, so the number of rows made before is
-- that of the way to the node.
theorem exists_rowsOnto_prune {w : List Nat} {parent : Option Nat} {rows : Array Row} :
    (l : Located) → (Row.ofLocated parent l).RecordsAt shows root ws w →
    root.at? shows w = some l → (l.ways shows).map (w ++ ·) <+: ws.drop rows.size →
    ∃ rs, ((l.prune shows).rowsOnto parent rows).toList = rows.toList ++ rs ∧
      List.Forall₂ (fun r v => r.RecordsAt shows root ws (w ++ v)) rs (l.ways shows)
  | ⟨node, span, flawed, children⟩, hrow, hat, hws => by
      rw [ways, List.map_cons, List.append_nil] at hws
      rw [← List.singleton_append] at hws
      have hrest := Node.prefix_drop_of_append hws
      rw [List.length_singleton, ← Array.size_push (.ofLocated parent _)] at hrest
      obtain ⟨rs, hrs, hrecords⟩ := exists_rowsAll_pruneAll children [] hat rfl
        (Node.getElem?_of_cons_prefix hws) hrest
      refine ⟨.ofLocated parent ⟨node, span, flawed, children⟩ :: rs, ?_, ?_⟩
      · rw [Node.rowsOnto_prune, hrs, Array.toList_push, List.append_assoc]
        rfl
      · rw [ways]
        exact .cons (by rwa [List.append_nil]) hrecords

theorem exists_rowsAll_pruneAll {w : List Nat} {i : Nat} {p : Located} {rows : Array Row} :
    (ls : List Located) → (before : List Located) → root.at? shows w = some p →
    p.shown shows = before ++ ls.filter (shows ·.kind) → ws[i]? = some w →
    (waysAll shows before.length ls).map (w ++ ·) <+: ws.drop rows.size →
    ∃ rs, (rowsAll (some i) (pruneAll shows ls) rows).toList = rows.toList ++ rs ∧
      List.Forall₂ (fun r v => r.RecordsAt shows root ws (w ++ v)) rs
        (waysAll shows before.length ls)
  | [], _, _, _, _, _ => ⟨[], by simp [pruneAll, rowsAll], by simp [waysAll]⟩
  | l :: ls, before, hat, hp, hi, hws => by
      rw [List.filter_cons] at hp
      rw [pruneAll]
      rw [waysAll] at hws ⊢
      split
      · next hl =>
          rw [if_pos hl] at hp hws
          have hstep : root.at? shows (w ++ [before.length]) = some l := by
            rw [at?_append, hat]
            simp [at?, hp]
          have hmap : ((l.ways shows).map (before.length :: ·)).map (w ++ ·) =
              (l.ways shows).map (w ++ [before.length] ++ ·) := by
            simp
          rw [List.map_append, hmap] at hws
          obtain ⟨rs, hrs, hrecords⟩ := exists_rowsOnto_prune l (.below hi hstep) hstep
            ((List.prefix_append _ _).trans hws)
          have hsize : ((l.prune shows).rowsOnto (some i) rows).size =
              rows.size + ((l.ways shows).map (w ++ [before.length] ++ ·)).length := by
            rw [← Array.length_toList, hrs, List.length_append, hrecords.length_eq, List.length_map]
            rfl
          have hrest := Node.prefix_drop_of_append hws
          rw [← hsize] at hrest
          obtain ⟨ss, hss, hrecords'⟩ := exists_rowsAll_pruneAll ls (before ++ [l]) hat
            (by rw [hp, List.append_cons]) hi (by simpa using hrest)
          refine ⟨rs ++ ss, by rw [rowsAll, hss, hrs, List.append_assoc], ?_⟩
          refine List.rel_append ?_ (by simpa using hrecords')
          rw [List.forall₂_map_right_iff]
          exact hrecords.imp fun r v h => by rwa [List.append_cons]
      · next hl =>
          rw [if_neg hl] at hp hws
          exact exists_rowsAll_pruneAll ls before hat hp hi hws

end

/-! ## Ways below a way -/

-- The number `k` counts the nodes of the list that are shown.
theorem mem_waysAll_iff {v : List Nat} {k : Nat} (j : Nat) (ls : List Located) :
    (j + k) :: v ∈ waysAll shows j ls ↔
      ∃ m, (ls.filter (shows ·.kind))[k]? = some m ∧ v ∈ m.ways shows := by
  induction ls generalizing j k with
  | nil => simp [waysAll]
  | cons l ls ih =>
      rw [waysAll, List.filter_cons]
      split
      · cases k with
        | zero =>
            have hrest : j :: v ∉ waysAll shows (j + 1) ls := by
              intro h
              obtain ⟨i, u, heq, hi⟩ := (pairwise_waysAll (j + 1) ls).2 _ h
              obtain ⟨rfl, -⟩ := List.cons.inj heq
              exact Nat.not_succ_le_self j hi
            simp [hrest]
        | succ k =>
            have hfirst : (j + (k + 1)) :: v ∉ (l.ways shows).map (j :: ·) := by
              intro h
              obtain ⟨u, -, heq⟩ := List.mem_map.1 h
              have := (List.cons.inj heq).1
              omega
            rw [List.mem_append, or_iff_right hfirst, List.getElem?_cons_succ, ← ih (j + 1),
              Nat.add_right_comm, Nat.add_assoc]
      · exact ih j

/-- The ways are those that lead to a node. -/
theorem mem_ways_iff {w : List Nat} {l : Located} :
    w ∈ l.ways shows ↔ (l.at? shows w).isSome = true := by
  induction w generalizing l with
  | nil => simp [ways_eq, at?]
  | cons k w ih =>
      have hbelow : k :: w ∈ waysAll shows 0 l.children ↔
          ∃ m, (l.shown shows)[k]? = some m ∧ w ∈ m.ways shows := by
        rw [shown, ← mem_waysAll_iff 0, Nat.zero_add]
      rw [ways_eq, List.mem_cons, or_iff_right (List.cons_ne_nil k w), hbelow, at?]
      cases (l.shown shows)[k]? with
      | none => simp
      | some m => simp [ih]

/-- The second way is the first with one step more. -/
def isStep (w way : List Nat) : Bool := !way.isEmpty && way.dropLast == w

theorem isStep_iff {w way : List Nat} : isStep w way = true ↔ ∃ k, way = w ++ [k] := by
  rcases List.eq_nil_or_concat way with rfl | ⟨v, k, rfl⟩
  · simp [isStep]
  · have hlast : isStep w (v ++ [k]) = true ↔ v = w := by simp [isStep]
    rw [List.concat_eq_append, hlast]
    constructor
    · rintro rfl
      exact ⟨k, rfl⟩
    · rintro ⟨j, hj⟩
      exact (List.append_inj' hj rfl).1

theorem lt_concat (w : List Nat) (k : Nat) : w < w ++ [k] := by
  have h : w ++ [] < w ++ [k] := List.append_left_lt (List.nil_lt_cons k [])
  rwa [List.append_nil] at h

theorem lt_of_getElem?_lt {v w : List Nat} {i j : Nat} (hs : ws.Pairwise (· < ·))
    (hi : ws[i]? = some v) (hj : ws[j]? = some w) (h : v < w) : i < j := by
  obtain ⟨hi', rfl⟩ := List.getElem?_eq_some_iff.1 hi
  obtain ⟨hj', rfl⟩ := List.getElem?_eq_some_iff.1 hj
  apply Nat.lt_of_not_le
  intro hle
  rcases Nat.lt_or_eq_of_le hle with hlt | rfl
  · exact List.lt_asymm h (List.pairwise_iff_getElem.1 hs _ _ hj' hi' hlt)
  · exact List.lt_irrefl _ h

theorem eq_of_getElem?_eq {w : List Nat} {i j : Nat} (hs : ws.Pairwise (· < ·))
    (hi : ws[i]? = some w) (hj : ws[j]? = some w) : i = j :=
  (List.getElem?_inj (List.getElem?_eq_some_iff.1 hi).1 hs.nodup).1 (hi.trans hj.symm)

/-- Behind a way stand those with one step more, one for each node that is shown below. -/
theorem filter_isStep_ways {w : List Nat} {i : Nat} {l : Located}
    (hi : (root.ways shows)[i]? = some w) (hl : root.at? shows w = some l) :
    ((root.ways shows).drop (i + 1)).filter (isStep w) =
      (List.range (l.shown shows).length).map fun k => w ++ [k] := by
  have hsorted : (root.ways shows).Pairwise (· < ·) := pairwise_ways root
  refine List.Pairwise.eq_of_mem_iff (r := (· < ·)) ?_ ?_ fun way => ?_
  · exact hsorted.sublist (List.filter_sublist.trans (List.drop_sublist _ _))
  · refine List.pairwise_lt_range.map _ fun j k hjk => ?_
    exact List.append_left_lt (List.cons_lt_cons_iff.2 (.inl hjk))
  · have hstep : ∀ k, (root.at? shows (w ++ [k])).isSome = true ↔ k < (l.shown shows).length := by
      intro k
      rw [at?_append, hl]
      simp [at?]
    rw [List.mem_filter, isStep_iff, List.mem_map]
    constructor
    · rintro ⟨hway, k, rfl⟩
      have := mem_ways_iff.1 (List.mem_of_mem_drop hway)
      exact ⟨k, List.mem_range.2 ((hstep k).1 this), rfl⟩
    · rintro ⟨k, hk, rfl⟩
      refine ⟨?_, k, rfl⟩
      obtain ⟨j, hj⟩ := List.mem_iff_getElem?.1
        (mem_ways_iff.2 ((hstep k).2 (List.mem_range.1 hk)))
      have hlt := lt_of_getElem?_lt hsorted hi hj (lt_concat w k)
      refine List.mem_iff_getElem?.2 ⟨j - (i + 1), ?_⟩
      rw [List.getElem?_drop, Nat.add_sub_cancel' hlt]
      exact hj

theorem Leads.parent?_eq {c p : Cursor} {w : List Nat} {k : Nat}
    (hc : Leads shows root c (w ++ [k])) (hp : Leads shows root p w) : c.parent? = some p := by
  rw [Leads, inits_concat, List.map_append, hp, List.reverse_cons (a := c.node),
    List.map_append] at hc
  have habove := (List.append_inj' hc rfl).1
  have habove := List.reverse_injective (List.map_injective_iff.2 (Option.some_injective _) habove)
  rw [Cursor.parent?, ← habove]

end Located

/-! ## Parents and children -/

namespace Row

open Located

variable {shows : Kind → Bool} {root : Located} {ws : List (List Nat)} {r : Row}

theorem RecordsAt.of_nil (h : r.RecordsAt shows root ws []) : r = .ofLocated none root := by
  generalize hway : ([] : List Nat) = way at h
  cases h with
  | root => rfl
  | below => simp at hway

theorem RecordsAt.of_concat {w : List Nat} {k : Nat} (h : r.RecordsAt shows root ws (w ++ [k])) :
    ∃ p l, ws[p]? = some w ∧ root.at? shows (w ++ [k]) = some l ∧ r = .ofLocated (some p) l := by
  generalize hway : w ++ [k] = way at h
  cases h with
  | root => simp at hway
  | below parent node =>
      obtain ⟨rfl, -⟩ := List.append_inj' hway rfl
      exact ⟨_, _, parent, node, rfl⟩

/-- A row names the row at `i` as its parent if its way is one step longer. -/
theorem RecordsAt.parent_eq_iff {w way : List Nat} {i : Nat} (hs : ws.Pairwise (· < ·))
    (hi : ws[i]? = some w) (h : r.RecordsAt shows root ws way) :
    (r.parent == some i) = true ↔ isStep w way = true := by
  rw [isStep_iff]
  cases h with
  | root => simp [ofLocated]
  | @below p v k l parent node =>
      have hparent : (ofLocated (some p) l).parent = some p := rfl
      rw [hparent, beq_iff_eq, Option.some.injEq]
      constructor
      · rintro rfl
        rw [Option.some.inj (hi.symm.trans parent)]
        exact ⟨k, rfl⟩
      · rintro ⟨j, hj⟩
        obtain ⟨rfl, -⟩ := List.append_inj' hj rfl
        exact eq_of_getElem?_eq hs parent hi

/-- The rows behind the row at `i` that name it as their parent are those of the nodes shown below
its node. -/
theorem filter_parent_eq {rs : List Row} {w : List Nat} {i : Nat} {l : Located}
    (h : List.Forall₂ (RecordsAt shows root (root.ways shows)) rs (root.ways shows))
    (hi : (root.ways shows)[i]? = some w) (hl : root.at? shows w = some l) :
    (rs.drop (i + 1)).filter (·.parent == some i) =
      (l.shown shows).map (ofLocated (some i)) := by
  have hsorted : (root.ways shows).Pairwise (· < ·) := pairwise_ways root
  have hfilter := List.rel_filter (fun r way hr => hr.parent_eq_iff hsorted hi)
    (List.forall₂_drop (i + 1) h)
  rw [filter_isStep_ways hi hl, List.forall₂_map_right_iff] at hfilter
  have hlength := hfilter.length_eq
  rw [List.length_range] at hlength
  refine List.ext_getElem (by rw [hlength, List.length_map]) fun k hk hk' => ?_
  have hr := hfilter.get hk (by rwa [List.length_range, ← hlength])
  rw [List.get_eq_getElem, List.get_eq_getElem, List.getElem_range] at hr
  obtain ⟨p, m, hp, hm, heq⟩ := hr.of_concat
  obtain rfl := eq_of_getElem?_eq hsorted hp hi
  have hk : k < (l.shown shows).length := by rwa [← hlength]
  rw [at?_append, hl, Option.bind_some, at?, List.getElem?_eq_getElem hk] at hm
  rw [heq, List.getElem_map, Option.some.inj hm]

end Row

namespace Tree

/-- The rows of the snapshot are the nodes that are shown, and the numbers in them make up the tree
again. -/
structure Recorded (t : Tree) (o : DumpOptions) : Prop where
  /-- The rows can be made with a stack. -/
  loop : Snapshot.loop o #[] [(t.root, none)] = (t.snapshot o).rows
  /-- All nodes are shown, in preorder, but for white space that is not asked for. -/
  shown : (t.shown o).map Cursor.node =
    t.root.preorder.filter fun l => o.includeTrivia || l.kind != .token .whitespace
  /-- Each node has its row, in the same order. -/
  rows : List.Forall₂ Row.Tells (t.snapshot o).rows.toList (t.shown o)
  /-- Each node has a way from the root through the nodes above it. -/
  leads : List.Forall₂ (Located.Leads o.showsInk t.root) (t.shown o) (t.ways o)
  /-- No two nodes have the same way. -/
  sorted : (t.ways o).Pairwise (· < ·)
  /-- The first row is that of the root. -/
  root : ∃ r, (t.snapshot o).root? = some r ∧ r.parent = none ∧ r.Tells (.top t)
  /-- Any other row names its parent, which comes before it. -/
  parent : ∀ i r c, (t.snapshot o).rows[i + 1]? = some r → (t.shown o)[i + 1]? = some c →
    ∃ p, r.parent = some p ∧ p < i + 1 ∧ (t.shown o)[p]? = c.parent? ∧
      (t.ways o)[p]? = (t.ways o)[i + 1]?.map List.dropLast
  /-- The rows that name a row are those of the nodes shown below its own. -/
  children : ∀ i c, (t.shown o)[i]? = some c →
    List.Forall₂ (fun r l => r.parent = some i ∧ r.Tells (c.down l)) ((t.snapshot o).children i)
      (c.node.shown o.showsInk)
  /-- With the white space, the texts make up the text. -/
  texts : o.includeTrivia = true →
    ((t.snapshot o).rows.toList.filterMap (·.text)).flatten = t.text

theorem exists_getElem?_of_forall₂ {α β : Type} {R : α → β → Prop} {xs : List α} {ys : List β}
    (h : List.Forall₂ R xs ys) {i : Nat} {x : α} (hx : xs[i]? = some x) :
    ∃ y, ys[i]? = some y ∧ R x y := by
  obtain ⟨hi, rfl⟩ := List.getElem?_eq_some_iff.1 hx
  have hi' : i < ys.length := h.length_eq ▸ hi
  exact ⟨ys[i], List.getElem?_eq_getElem hi', h.get hi hi'⟩

theorem recordsAt_rows (t : Tree) (o : DumpOptions) :
    List.Forall₂ (Row.RecordsAt o.showsInk t.root (t.ways o)) (t.snapshot o).rows.toList
      (t.ways o) := by
  have hprefix : (t.ways o).map ([] ++ ·) <+: (t.ways o).drop (#[] : Array Row).size := by simp
  obtain ⟨rs, hrs, hrecords⟩ := Located.exists_rowsOnto_prune t.root .root rfl hprefix
  rw [snapshot, hrs]
  exact hrecords

theorem getElem?_ways_zero (t : Tree) (o : DumpOptions) : (t.ways o)[0]? = some [] := by
  rw [ways, Located.ways_eq]
  rfl

theorem filterMap_text_of_tells {rs : List Row} {cs : List Cursor}
    (h : List.Forall₂ Row.Tells rs cs) :
    rs.filterMap (·.text) = ((cs.map Cursor.node).filter (·.isToken)).map (·.text) := by
  induction h with
  | nil => rfl
  | @cons r c rs cs hr _ ih =>
      rw [List.filterMap_cons, hr.text, ih, List.map_cons, List.filter_cons]
      cases c.node.isToken <;> rfl

theorem root?_snapshot (t : Tree) (o : DumpOptions) :
    (t.snapshot o).root? = some (.ofLocated none t.root) := by
  obtain ⟨r, hr, hrecords⟩ :=
    exists_getElem?_of_forall₂ (t.recordsAt_rows o).flip (t.getElem?_ways_zero o)
  rw [Snapshot.root?, ← Array.getElem?_toList, hr, hrecords.of_nil]

/-- A row behind the first names the row of its node's parent, the one at the way without the last
step. -/
theorem exists_parent {t : Tree} {o : DumpOptions} {i : Nat} {r : Row} {c : Cursor}
    (hr : (t.snapshot o).rows[i + 1]? = some r) (hc : (t.shown o)[i + 1]? = some c) :
    ∃ p, r.parent = some p ∧ p < i + 1 ∧ (t.shown o)[p]? = c.parent? ∧
      (t.ways o)[p]? = (t.ways o)[i + 1]?.map List.dropLast := by
  have hsorted : (t.ways o).Pairwise (· < ·) := Located.pairwise_ways t.root
  rw [← Array.getElem?_toList] at hr
  obtain ⟨way, hway, hrecords⟩ := exists_getElem?_of_forall₂ (t.recordsAt_rows o) hr
  obtain ⟨way', hway', hleads⟩ := exists_getElem?_of_forall₂ (t.leads_ways o) hc
  obtain rfl := Option.some.inj (hway.symm.trans hway')
  cases hrecords with
  | root =>
      have := Located.eq_of_getElem?_eq hsorted (t.getElem?_ways_zero o) hway
      omega
  | @below p v k l parent node =>
      obtain ⟨c', hc', hleads'⟩ := exists_getElem?_of_forall₂ (t.leads_ways o).flip parent
      refine ⟨p, rfl, ?_, ?_, ?_⟩
      · exact Located.lt_of_getElem?_lt hsorted parent hway (Located.lt_concat v k)
      · rw [hc', Located.Leads.parent?_eq hleads hleads']
      · rw [parent, hway, Option.map_some, List.dropLast_concat]

theorem tells_children_snapshot {t : Tree} {o : DumpOptions} {i : Nat} {c : Cursor}
    (hc : (t.shown o)[i]? = some c) :
    List.Forall₂ (fun r l => r.parent = some i ∧ r.Tells (c.down l)) ((t.snapshot o).children i)
      (c.node.shown o.showsInk) := by
  obtain ⟨way, hway, hleads⟩ := exists_getElem?_of_forall₂ (t.leads_ways o) hc
  have hchildren : (t.snapshot o).children i =
      (c.node.shown o.showsInk).map (Row.ofLocated (some i)) :=
    Row.filter_parent_eq (t.recordsAt_rows o) hway hleads.at?_eq
  rw [hchildren, List.forall₂_map_left_iff, List.forall₂_same]
  exact fun l _ => ⟨rfl, Row.tells_ofLocated _ (c.down l)⟩

theorem map_node_shown (t : Tree) (o : DumpOptions) : (t.shown o).map Cursor.node =
    t.root.preorder.filter fun l => o.includeTrivia || l.kind != .token .whitespace := by
  rw [shown, ← Cursor.map_node_preorder_top, List.filter_map]
  rfl

theorem flatten_text_rows {t : Tree} (h : t.Lossless) {o : DumpOptions}
    (ho : o.includeTrivia = true) :
    ((t.snapshot o).rows.toList.filterMap (·.text)).flatten = t.text := by
  have hall : (t.shown o).map Cursor.node = t.root.preorder := by
    simp [map_node_shown, ho]
  rw [filterMap_text_of_tells (t.tells_rows o), hall, ← List.flatMap_def]
  exact h.texts

theorem recorded_of_lossless {t : Tree} (h : t.Lossless) (o : DumpOptions) : t.Recorded o where
  loop := by
    rw [Snapshot.loop_cons, Snapshot.loop]
    rfl
  shown := t.map_node_shown o
  rows := t.tells_rows o
  leads := t.leads_ways o
  sorted := Located.pairwise_ways t.root
  root := ⟨_, t.root?_snapshot o, rfl, Row.tells_ofLocated none (.top t)⟩
  parent _ _ _ := exists_parent
  children _ _ := tells_children_snapshot
  texts := flatten_text_rows h

/-- However a parse has been edited, the rows of its snapshot make up the tree. -/
theorem recorded_editAll_parse (s : Text) (es : List Edit) (o : DumpOptions) :
    ((parse s).editAll es).Recorded o := by
  obtain ⟨text, htext⟩ := editAll_parse s es
  rw [htext]
  exact recorded_of_lossless (lossless_parse text) o

end Tree

end BibStyle

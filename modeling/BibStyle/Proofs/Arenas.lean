import BibStyle.Proofs.Building
import BibStyle.Proofs.Numbering
import Mathlib.Data.List.Forall2

/-!
# Arenas

The nodes of a segment are kept in an arena, in which indices are words of 32 bits. The index of a
new node is the number of nodes there are, cut to a word, and nothing checks that it fits: beyond
`2 ^ 32` nodes it is the index of another node.

An arena is read as a table by taking its words for numbers (`Builder.read`). A builder that hears
an event is read as one whose indices are numbers and that hears the same event, as long as the
number of nodes is kept by the index of the next one (`Builder.read_hear`). So the arenas of a parse
are at any moment those that are meant if no segment has more than `2 ^ 32` nodes
(`Builder.map_read_run`). If one has, its arena is no tree (`Arena.length_le_of_wellFormed`).
-/

namespace BibStyle

open Node

/-! ## Indices read as numbers -/

/-- Numbers below the size can be read back from the indices that keep them. -/
def Index.Holds (ι : Type) [Index ι] (size : Nat) : Prop :=
  ∀ n < size, Index.toNat (Index.ofNat n : ι) = n

variable {ι : Type} [Index ι]

namespace Cell

/-- The node with its indices read as numbers. -/
def read (c : Cell ι) : Entry :=
  ⟨c.kind, c.field, c.span, c.fault, c.flawed, c.parent.map Index.toNat,
    c.children.map Index.toNat⟩

theorem read_gain (is : List ι) (flawed : Bool) (c : Cell ι) :
    (c.gain is flawed).read = c.read.gain (is.map Index.toNat) flawed := by
  simp [read, gain]

theorem read_finish (stop : Nat) (fault : Option Fault) (c : Cell ι) :
    (c.finish stop fault).read = c.read.finish stop fault := rfl

variable {f : Cell ι → Cell ι} {g : Entry → Entry}

theorem map_read_modify (h : ∀ c, (f c).read = g c.read) (cells : List (Cell ι)) (i : Nat) :
    (cells.modify i f).map read = (cells.map read).modify i g := by
  induction cells generalizing i with
  | nil => cases i <;> rfl
  | cons c cells ih =>
      cases i with
      | zero => simp [h]
      | succ i => simp [ih]

theorem map_read_modifyAt (h : ∀ c, (f c).read = g c.read) (cells : List (Cell ι))
    (p : Option ι) :
    (modifyAt cells p f).map read = modifyAt (cells.map read) (p.map Index.toNat) g := by
  cases p with
  | none => rfl
  | some p => exact map_read_modify h cells (Index.toNat p)

end Cell

namespace Builder

/-- The builder with its indices read as numbers. -/
def read (b : Builder ι) : Builder Nat :=
  ⟨b.base, b.cells.map Cell.read, b.opened.map Index.toNat, b.stop⟩

theorem read_add {b : Builder ι} (c : Cell ι) (h : Index.toNat b.next = b.cells.length) :
    (b.add c).read = b.read.add c.read := by
  have hgain : ∀ d : Cell ι, (d.gain [b.next] c.flawed).read =
      d.read.gain [b.cells.length] c.flawed := by
    intro d
    rw [Cell.read_gain, List.map_singleton, h]
  rw [read, add, List.map_append, Cell.map_read_modifyAt hgain]
  simp [add, read, Cell.read]

theorem read_close (b : Builder ι) (fault : Option Fault) :
    (b.close fault).read = b.read.close fault := by
  obtain ⟨base, cells, opened, stop⟩ := b
  cases opened with
  | nil => rfl
  | cons i above =>
      have hmodify := Cell.map_read_modify (Cell.read_finish stop fault) cells (Index.toNat i)
      have hparent : ∀ c : Option (Cell ι),
          (c.bind Cell.parent).map Index.toNat = (c.map Cell.read).bind Cell.parent := by
        rintro (_ | c) <;> rfl
      have hflawed : ∀ c : Option (Cell ι),
          c.any (·.flawed) = (c.map Cell.read).any (·.flawed) := by
        rintro (_ | c) <;> rfl
      simp only [close, read, List.map_cons, Index.toNat_nat, ← hmodify, List.getElem?_map,
        ← hparent, ← hflawed]
      rw [Cell.map_read_modifyAt (Cell.read_gain [] _)]
      rfl

theorem read_finish (b : Builder ι) : b.finish.read = b.read.finish := by
  have hclose : ∀ (is : List ι) (b : Builder ι), (is.foldl (fun b _ => b.close none) b).read =
      (is.map Index.toNat).foldl (fun b _ => b.close none) b.read := by
    intro is
    induction is with
    | nil => exact fun _ => rfl
    | cons i is ih =>
        intro b
        rw [List.foldl_cons, ih, read_close, List.map_cons, List.foldl_cons]
  exact hclose b.opened b

section

variable {b : Builder ι} (h : Index.toNat b.next = b.cells.length)

include h

theorem read_token (k : TokenKind) (f : Option Field) (span : Span) :
    (b.token k f span).read = b.read.token k f span := by
  let fault := Fault.ofToken? k
  let own : Span := ⟨span.start - b.base, span.stop - b.base⟩
  exact congrArg (fun r : Builder Nat => { r with stop := own.stop })
    (read_add ⟨.token k, f, own, fault, fault.isSome, none, []⟩ h)

theorem read_mark (fault : Fault) : (b.mark fault).read = b.read.mark fault := read_add _ h

theorem read_enter (k : NodeKind) (f : Option Field) (start : Nat) :
    (b.enter k f start).read = b.read.enter k f start := by
  have hnext : b.read.next = Index.toNat b.next := by rw [h, next_eq, read, List.length_map]
  let own : Span := ⟨start - b.base, start - b.base⟩
  rw [enter.eq_def b.read, hnext]
  exact congrArg (fun r : Builder Nat => { r with opened := Index.toNat b.next :: b.read.opened })
    (read_add ⟨.node k, f, own, none, false, none, []⟩ h)

end

/-- An event that adds a node needs an index for it. -/
theorem read_hear {b : Builder ι} {e : Event}
    (h : 0 < e.nodes → Index.toNat b.next = b.cells.length) :
    (b.hear e).read = b.read.hear e := by
  cases e with
  | enter k f start => exact read_enter (h Nat.one_pos) k f start
  | token k f span => exact read_token (h Nat.one_pos) k f span
  | mark fault => exact read_mark (h Nat.one_pos) fault
  | close fault => exact read_close b fault

/-! ## The number of nodes -/

@[simp] theorem length_add (b : Builder ι) (c : Cell ι) :
    (b.add c).cells.length = b.cells.length + 1 := by
  simp [add]

@[simp] theorem length_close (b : Builder ι) (fault : Option Fault) :
    (b.close fault).cells.length = b.cells.length := by
  unfold close
  split
  · rfl
  · simp

theorem length_hear (b : Builder ι) (e : Event) :
    (b.hear e).cells.length = b.cells.length + e.nodes := by
  cases e <;> simp [hear, Event.nodes, enter, token, mark]

theorem length_foldl_hear (b : Builder ι) (es : List Event) :
    (es.foldl hear b).cells.length = b.cells.length + (es.map Event.nodes).sum := by
  induction es generalizing b with
  | nil => rfl
  | cons e es ih =>
      rw [List.foldl_cons, ih, length_hear, List.map_cons, List.sum_cons, Nat.add_assoc]

theorem length_finish (b : Builder ι) : b.finish.cells.length = b.cells.length := by
  unfold finish
  generalize b.opened = is
  induction is generalizing b with
  | nil => rfl
  | cons i is ih => rw [List.foldl_cons, ih, length_close]

/-- There is a cell for each node of the segment, however many there are. -/
theorem length_make (pos : Nat) (g : Segment) :
    ((maker ι).make pos g).cells.length = g.node.count := by
  rw [Maker.make, maker, length_finish, length_foldl_hear, sum_nodes_events]
  exact Nat.zero_add _

theorem length_le_of_prefix_events {pos : Nat} {g : Segment} {es : List Event}
    (h : es <+: g.node.events pos) :
    (es.foldl hear (new pos : Builder ι)).cells.length ≤ g.node.count := by
  obtain ⟨more, h⟩ := h
  rw [length_foldl_hear, ← sum_nodes_events pos, ← h, List.map_append, List.sum_append]
  simp [new]

/-- The builder at hand adds nodes of a segment. -/
theorem exists_length_le {pos : Nat} {segs : List Segment} {before : List Order} {b : Builder ι}
    (h : before <+: Segment.ordersAll pos segs) (hb : b ∈ ((maker ι).run before).current) :
    ∃ g ∈ segs, b.cells.length ≤ g.node.count := by
  rw [Maker.current_run] at hb
  obtain ⟨r, hr, rfl⟩ := Option.map_eq_some_iff.1 hb
  obtain ⟨g, hg, hprefix⟩ := Maker.exists_prefix_events h hr
  exact ⟨g, hg, length_le_of_prefix_events hprefix⟩

/-! ## Builders that are meant -/

theorem map_read_follow {w : Bench (Builder ι)} {o : Order}
    (h : ∀ b ∈ w.current, ∀ e, o = .tell e → 0 < e.nodes → Index.toNat b.next = b.cells.length) :
    ((maker ι).follow w o).map read = (maker Nat).follow (w.map read) o := by
  obtain ⟨current, stored⟩ := w
  cases o with
  | begin base => rfl
  | tell e =>
      cases current with
      | none => rfl
      | some b =>
          exact congrArg (fun r => Bench.mk (some r) (stored.map read)) (read_hear (h b rfl e rfl))
  | store =>
      cases current with
      | none => simp [Maker.follow, Bench.map]
      | some b =>
          simp only [Maker.follow, Bench.map, Option.map_some, Option.toList_some, List.map_append,
            List.map_singleton]
          exact congrArg (fun r => Bench.mk none (stored.map read ++ [r])) (read_finish b)

/-- As long as the nodes can be counted in indices, the builder at hand is at any moment the one
that is meant. -/
theorem map_read_run {size pos : Nat} {segs : List Segment} {before : List Order}
    (hι : Index.Holds ι size) (h : ∀ g ∈ segs, g.node.count ≤ size)
    (hbefore : before <+: Segment.ordersAll pos segs) :
    ((maker ι).run before).map read = (maker Nat).run before := by
  induction before using List.reverseRecOn with
  | nil => rfl
  | append_singleton before o ih =>
      rw [Maker.run_append, Maker.run_append, ← ih ((List.prefix_append before [o]).trans hbefore)]
      refine map_read_follow ?_
      rintro b hb e rfl hnodes
      -- the node that comes next is one of the segment too
      have hnext : b.hear e ∈ ((maker ι).run (before ++ [.tell e])).current := by
        rw [Maker.run_append]
        exact Option.mem_map_of_mem _ hb
      obtain ⟨g, hg, hlength⟩ := exists_length_le hbefore hnext
      have hsize := h g hg
      rw [length_hear] at hlength
      exact hι b.cells.length (by omega)

/-- A segment with no more nodes than that is made into its table. -/
theorem read_make {size : Nat} {g : Segment} (hι : Index.Holds ι size) (h : g.node.count ≤ size)
    (pos : Nat) : ((maker ι).make pos g).read = ⟨pos, g.table, [], g.size⟩ := by
  have hrun : ((maker ι).run (Segment.ordersAll pos [g])).map read = _ :=
    map_read_run hι (by simpa using h) List.prefix_rfl
  rw [Maker.run_ordersAll, Maker.run_ordersAll] at hrun
  have hstored : [((maker ι).make pos g).read] = [(maker Nat).make pos g] :=
    congrArg Bench.stored hrun
  rw [← make_maker]
  exact List.head_eq_of_cons_eq hstored

end Builder

/-! ## Words -/

instance : Index UInt32 := ⟨.ofNat, UInt32.toNat⟩

theorem Index.holds_uint32 : Index.Holds UInt32 (2 ^ 32) :=
  fun _ h => UInt32.toNat_ofNat_of_lt' h

/-- The nodes of a segment, with words as indices. -/
abbrev Arena := Builder UInt32

/-- A tree in an arena has no more nodes than there are words: only the first node is no child, and
the children of a node are words. -/
theorem Arena.length_le_of_wellFormed {a : Arena} (h : a.read.table.WellFormed) :
    a.cells.length ≤ 2 ^ 32 := by
  apply Nat.le_of_not_lt
  intro hlt
  have hwords : ∀ w : UInt32, Index.toNat w < 2 ^ 32 := UInt32.toNat_lt
  generalize 2 ^ 32 = n at hlt hwords
  have hcell : ∀ (i : Nat) (hi : i < a.cells.length),
      a.read.table[i]? = some (a.cells[i].read) := by
    intro i hi
    simp [Builder.table, Builder.read, hi]
  have hne : (a.cells[n].read).parent ≠ none := by
    intro hnone
    have := hwords 0
    have := (h.root n _ (hcell n hlt)).1 hnone
    omega
  obtain ⟨p, hp⟩ := Option.ne_none_iff_exists'.1 hne
  have hpn := h.parent n _ (hcell n hlt) p hp
  have hmem := (h.children p _ (hcell p (hpn.trans hlt)) n).2 ⟨_, hcell n hlt, hp⟩
  obtain ⟨w, -, rfl⟩ := List.mem_map.1 hmem
  exact Nat.lt_irrefl _ (hwords w)

namespace Tree

/-- What the arenas of a parse come to. -/
def arenas (t : Text) : List Arena := ((Builder.maker UInt32).run (orders t)).stored

theorem arenas_eq (t : Text) :
    arenas t = (Builder.maker UInt32).makeAll 0 (parse t).segments := by
  rw [arenas, orders_eq_ordersAll, Maker.run_ordersAll]

/-- Each segment is kept in an arena, which is read as its table if there are words enough. -/
theorem exists_segment {t : Text} {k : Nat} {a : Arena} (h : (arenas t)[k]? = some a) :
    ∃ off g, (parse t).offsets[k]? = some off ∧ (parse t).segments[k]? = some g ∧
      a.cells.length = g.node.count ∧
        (a.cells.length ≤ 2 ^ 32 → a.read = ⟨off, g.table, [], g.size⟩) := by
  rw [arenas_eq, Maker.makeAll, List.getElem?_zipWith_eq_some] at h
  obtain ⟨off, g, hoff, hg, rfl⟩ := h
  refine ⟨off, g, hoff, hg, Builder.length_make off g, ?_⟩
  rw [Builder.length_make]
  exact fun hcount => Builder.read_make Index.holds_uint32 hcount off

end Tree

end BibStyle

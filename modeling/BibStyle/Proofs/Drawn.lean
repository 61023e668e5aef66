import BibStyle.Dump.Drawing
import BibStyle.Proofs.Shown
import BibStyle.Text.Number
import Mathlib.Algebra.Order.Ring.Nat

/-!
# Drawings

Every line of a drawing belongs to a node, and what stands in front of the node is told by its way
from the root: one column for each node on the way, and a connector (`Drawing.line`). Both depend
only on which of these nodes are the last that are shown below their parents.

A drawing can be made with a stack of tasks and a single text that is written in front of every line
(`Drawing.loop`). It grows when the children of a node are put on the stack, together with the task
to cut it back to what it was.
-/

namespace BibStyle

namespace Text

/-- The first `n` bytes of the text, or all of it if it has no more; nothing if byte `n` lies inside
a character. -/
def truncate? (n : Nat) (t : Text) : Option Text :=
  if n < t.size then (cut? n t).map Prod.fst else some t

theorem truncate?_size_append (t u : Text) : truncate? t.size (t ++ u) = some t := by
  cases u with
  | nil => simp [truncate?]
  | cons c u =>
      have hlt : t.size < size (t ++ c :: u) := by
        have := c.utf8Size_pos
        rw [size_append, size_cons]
        omega
      rw [truncate?, if_pos hlt, cut?_size_append]
      rfl

end Text

namespace Located

mutual

/-- Enough for a task for each node below, and one more for the node itself. -/
def weight : Located → Nat
  | ⟨_, _, _, children⟩ => 2 + weightAll children

def weightAll : List Located → Nat
  | [] => 0
  | l :: ls => weight l + weightAll ls

end

theorem weightAll_filter_le (p : Located → Bool) (ls : List Located) :
    weightAll (ls.filter p) ≤ weightAll ls := by
  induction ls with
  | nil => exact Nat.le_refl _
  | cons l ls ih =>
      rw [List.filter_cons]
      split <;> simp only [weightAll] <;> omega

theorem weightAll_shown_lt (shows : Kind → Bool) (l : Located) :
    weightAll (l.shown shows) + 1 < l.weight := by
  obtain ⟨node, span, flawed, children⟩ := l
  have hle := weightAll_filter_le (shows ·.kind) children
  have hshown : shown shows ⟨node, span, flawed, children⟩ = children.filter (shows ·.kind) := rfl
  rw [weight, hshown]
  omega

theorem pruneAll_eq (shows : Kind → Bool) (ls : List Located) :
    pruneAll shows ls = (ls.filter (shows ·.kind)).map (prune shows) := by
  induction ls with
  | nil => rfl
  | cons l ls ih =>
      rw [pruneAll, List.filter_cons, ih]
      split <;> rfl

end Located

namespace Drawing

/-! ## With a stack -/

inductive Task where
  /-- Draw the node, which may be the last below its parent, and all that is below it. -/
  | line (l : Located) (isLast : Bool)
  /-- Cut what is drawn in front of the lines back to this size. -/
  | ascend (size : Nat)

def Task.weight : Task → Nat
  | .line l _ => l.weight
  | .ascend _ => 1

/-- The tasks for siblings. -/
def tasks : List Located → List Task
  | [] => []
  | l :: ls => .line l ls.isEmpty :: tasks ls

theorem sum_weight_tasks (ls : List Located) :
    ((tasks ls).map Task.weight).sum = Located.weightAll ls := by
  induction ls with
  | nil => rfl
  | cons l ls ih => simp [tasks, Located.weightAll, Task.weight, ih]

/-- The lines that the tasks lead to; `rails` stands in front of the next one. -/
def loop (o : DumpOptions) (rails : Text) : List Task → Option (List String)
  | [] => some []
  | .ascend size :: rest => (rails.truncate? size).bind fun kept => loop o kept rest
  | .line l isLast :: rest =>
      let line := String.ofList rails ++ connector isLast ++ caption o l ++ "\n"
      let below := l.shown o.showsInk
      if below.isEmpty then (loop o rails rest).map (line :: ·)
      else
        (loop o (rails ++ (rail isLast).toList)
          (tasks below ++ .ascend rails.size :: rest)).map (line :: ·)
termination_by ts => (ts.map Task.weight).sum
decreasing_by
  · simp [Task.weight]
  · have := l.weightAll_shown_lt o.showsInk
    simp [Task.weight]
    omega
  · have := l.weightAll_shown_lt o.showsInk
    simp only [List.map_append, List.map_cons, List.sum_append, List.sum_cons, sum_weight_tasks,
      Task.weight]
    omega

variable {o : DumpOptions}

mutual

-- By the nodes of the tree: `ss` is what the rest of the stack comes to with the same text in
-- front, which is what it finds again once the task to cut it back has been done.
theorem loop_line {rails : Text} {isLast : Bool} {rest : List Task} {ss : List String}
    (h : loop o rails rest = some ss) : (l : Located) →
    loop o rails (.line l isLast :: rest) =
      some (linesOnto o (String.ofList rails) isLast (l.prune o.showsInk) ss)
  | ⟨node, span, flawed, children⟩ => by
      have hshown : Located.shown o.showsInk ⟨node, span, flawed, children⟩ =
          children.filter (o.showsInk ·.kind) := rfl
      rw [loop, hshown, Located.prune, linesOnto]
      split
      · next hempty =>
          rw [h, Located.pruneAll_eq, List.isEmpty_iff.1 hempty]
          rfl
      · have hback : loop o (rails ++ (rail isLast).toList) (.ascend rails.size :: rest) =
            some ss := by
          rw [loop, Text.truncate?_size_append]
          exact h
        rw [loop_tasks hback children, String.ofList_append, String.ofList_toList]
        rfl

theorem loop_tasks {rails : Text} {rest : List Task} {ss : List String}
    (h : loop o rails rest = some ss) : (ls : List Located) →
    loop o rails (tasks (ls.filter (o.showsInk ·.kind)) ++ rest) =
      some (linesAll o (String.ofList rails) (Located.pruneAll o.showsInk ls) ss)
  | [] => h
  | l :: ls => by
      rw [List.filter_cons, Located.pruneAll]
      split
      · rw [tasks, List.cons_append, linesAll, loop_line (loop_tasks h ls) l, Located.pruneAll_eq]
        simp
      · exact loop_tasks h ls

end

/-! ## By ways -/

/-- The way ends at the last child that is shown below its parent. -/
def isLast (o : DumpOptions) (root : Located) (way : List Nat) : Bool :=
  match way.getLast?, root.at? o.showsInk way.dropLast with
  | some k, some p => k + 1 == (p.shown o.showsInk).length
  | _, _ => false

/-- What the lines below the node at the end of the way have in front: a column for each node on the
way but the root, which is empty below the last one that is shown. -/
def rails (o : DumpOptions) (root : Located) (way : List Nat) : String :=
  String.join (way.inits.tail.map fun v => if isLast o root v then "  " else "│ ")

/-- The kind, the field and the range of a node, and what it says. -/
def told (o : DumpOptions) (l : Located) : String :=
  l.kind.name ++ (l.field.elim "" fun f => " (" ++ f.tag ++ ")") ++ o.range l.span ++ ": " ++
    label l

/-- The line of the node `l` at the end of the way. -/
def line (o : DumpOptions) (root l : Located) (way : List Nat) : String :=
  rails o root way.dropLast ++ (if isLast o root way then "└─ " else "├─ ") ++ told o l ++ "\n"

variable {root : Located}

theorem caption_eq_told (o : DumpOptions) (l : Located) : caption o l = told o l := by
  rw [caption, told]
  cases l.field <;> rfl

theorem isLast_concat {p : Located} {way : List Nat} (hp : root.at? o.showsInk way = some p)
    (k : Nat) : isLast o root (way ++ [k]) = (k + 1 == (p.shown o.showsInk).length) := by
  simp [isLast, hp]

theorem rails_concat (way : List Nat) (k : Nat) :
    rails o root (way ++ [k]) = rails o root way ++ rail (isLast o root (way ++ [k])) := by
  have hinits : way.inits ≠ [] := by cases way <;> simp [List.inits]
  rw [rails, Located.inits_concat, List.tail_append_of_ne_nil hinits, List.map_append,
    String.join_append]
  simp [rails, rail]

/-- The line of the node that the way leads to. -/
def lineAt (o : DumpOptions) (root : Located) (way : List Nat) : String :=
  (root.at? o.showsInk way).elim "" fun l => line o root l way

mutual

-- Only the children that are shown count for a way, so the list of children keeps track of how many
-- of them stand in front.
theorem linesOnto_prune {way : List Nat} {k : Nat} (rest : List String) : (l : Located) →
    root.at? o.showsInk (way ++ [k]) = some l →
    linesOnto o (rails o root way) (isLast o root (way ++ [k])) (l.prune o.showsInk) rest =
      (l.ways o.showsInk).map (fun v => lineAt o root (way ++ k :: v)) ++ rest
  | ⟨node, span, flawed, children⟩, hl => by
      have hline : lineAt o root (way ++ [k]) = rails o root way ++
          connector (isLast o root (way ++ [k])) ++
            caption o ⟨node, span, flawed, children⟩ ++ "\n" := by
        rw [lineAt, hl, Option.elim_some, line, List.dropLast_concat, caption_eq_told]
        rfl
      have hbelow := linesAll_prune [] rest children hl rfl
      rw [rails_concat] at hbelow
      -- What is left out below a node is not part of its caption.
      have hcaption : caption o ⟨node, span, flawed, Located.pruneAll o.showsInk children⟩ =
          caption o ⟨node, span, flawed, children⟩ := rfl
      rw [Located.prune, linesOnto, hcaption, hbelow, Located.ways, List.map_cons,
        List.cons_append, hline]
      simp

/-- The lines of the nodes `ls`, which stand behind `before` below `p`. -/
theorem linesAll_prune {way : List Nat} {p : Located} (before : List Located)
    (rest : List String) : (ls : List Located) →
    root.at? o.showsInk way = some p →
    p.shown o.showsInk = before ++ ls.filter (o.showsInk ·.kind) →
    linesAll o (rails o root way) (Located.pruneAll o.showsInk ls) rest =
      (Located.waysAll o.showsInk before.length ls).map (fun v => lineAt o root (way ++ v)) ++ rest
  | [], _, _ => by simp [Located.pruneAll, linesAll, Located.waysAll]
  | l :: ls, hw, hp => by
      rw [List.filter_cons] at hp
      rw [Located.pruneAll, Located.waysAll]
      split
      · next hl =>
          rw [if_pos hl] at hp
          have hat : root.at? o.showsInk (way ++ [before.length]) = some l := by
            rw [Located.at?_append, hw]
            simp [Located.at?, hp]
          have hlast : (Located.pruneAll o.showsInk ls).isEmpty =
              isLast o root (way ++ [before.length]) := by
            rw [isLast_concat hw, hp, Located.pruneAll_eq]
            cases ls.filter (o.showsInk ·.kind) <;> simp
          have hrest := linesAll_prune (before ++ [l]) rest ls hw
            (by rw [hp, List.append_cons])
          rw [List.length_append, List.length_singleton] at hrest
          rw [linesAll, hlast, hrest, linesOnto_prune _ l hat, List.map_append, List.map_map,
            List.append_assoc]
          rfl
      · next hl =>
          rw [if_neg hl] at hp
          exact linesAll_prune before rest ls hw hp

end

theorem lines_eq (o : DumpOptions) (t : Tree) :
    lines o t = (t.ways o).tail.map (lineAt o t.root) := by
  have hroot : t.root.at? o.showsInk [] = some t.root := rfl
  have hlines := linesAll_prune [] [] t.root.children hroot rfl
  have hchildren : (t.root.prune o.showsInk).children =
      Located.pruneAll o.showsInk t.root.children := by
    cases t.root
    rfl
  rw [List.append_nil] at hlines
  rw [lines, hchildren, Tree.ways, Located.ways_eq]
  exact hlines

/-! ## Line feeds -/

theorem not_mem_message (e : Fault) : '\n' ∉ e.message.toList := by
  have hkind : ∀ k ∈ Kind.all, '\n' ∉ k.label.toList := by decide +kernel
  cases e with
  | strayChar => decide
  | unterminated c => cases c <;> decide
  | unexpected k =>
      have hmessage : (Fault.unexpected k).message = "unexpected " ++ k.label := rfl
      rw [hmessage, String.toList_append, List.mem_append, not_or]
      exact ⟨by decide, hkind k (Kind.mem_all k)⟩
  | missing x => cases x <;> decide

theorem not_mem_label (l : Located) : '\n' ∉ (label l).toList := by
  have hshorten : ∀ t : Text, '\n' ∉ t → '\n' ∉ shorten t := by
    intro t ht
    rw [shorten]
    split
    · rw [List.mem_append, not_or]
      exact ⟨fun h => ht (List.mem_of_mem_take h), by decide⟩
    · exact ht
  rw [label]
  split
  · exact not_mem_message _
  · rw [String.toList_ofList]
    exact hshorten _ (Text.not_mem_escaped _)

theorem not_mem_range (o : DumpOptions) (s : Span) : '\n' ∉ (o.range s).toList := by
  have hnumber : ∀ n : Nat, '\n' ∉ (toString n).toList :=
    fun n h => Bool.false_ne_true (Text.isDigit_of_mem_toString h)
  cases ho : o.showRanges with
  | false => rw [DumpOptions.range_of_not_showRanges ho]; decide
  | true =>
      simp only [DumpOptions.range_of_showRanges ho, String.toList_append, List.mem_append,
        hnumber]
      decide

theorem not_mem_told (o : DumpOptions) (l : Located) : '\n' ∉ (told o l).toList := by
  have hname : ∀ k ∈ Kind.all, '\n' ∉ k.name.toList := by decide +kernel
  have hfield : '\n' ∉ (l.field.elim "" fun f => " (" ++ f.tag ++ ")").toList := by
    rcases l.field with _ | f
    · decide
    · cases f <;> decide
  simp only [told, String.toList_append, List.mem_append, not_or]
  exact ⟨⟨⟨⟨hname _ (Kind.mem_all _), hfield⟩, not_mem_range o _⟩, by decide⟩, not_mem_label l⟩

theorem not_mem_rails (o : DumpOptions) (root : Located) (way : List Nat) :
    '\n' ∉ (rails o root way).toList := by
  have hrail : ∀ b : Bool, '\n' ∉ (if b then "  " else "│ ").toList := by decide
  rw [rails, String.toList_join, List.mem_flatMap]
  rintro ⟨s, hs, hmem⟩
  obtain ⟨v, -, rfl⟩ := List.mem_map.1 hs
  exact hrail _ hmem

/-- The one line feed of a line is its last character. -/
theorem exists_line_eq (o : DumpOptions) (root l : Located) (way : List Nat) :
    ∃ u, (line o root l way).toList = u ++ ['\n'] ∧ '\n' ∉ u := by
  have hconnector : ∀ b : Bool, '\n' ∉ (if b then "└─ " else "├─ ").toList := by decide
  refine ⟨_, String.toList_append .., ?_⟩
  simp only [String.toList_append, List.mem_append, not_or]
  exact ⟨⟨not_mem_rails o root _, hconnector _⟩, not_mem_told o l⟩

end Drawing

namespace Tree

/-- The drawing has a line for each node that is shown but the root. -/
structure Drawn (t : Tree) (o : DumpOptions) : Prop where
  /-- The lines can be made with a stack. -/
  loop : Drawing.loop o [] (Drawing.tasks (t.root.shown o.showsInk)) = some (Drawing.lines o t)
  /-- The rows of the snapshot are for the same nodes, in the same order. -/
  rows : List.Forall₂ Row.Tells (t.snapshot o).rows.toList (t.shown o)
  /-- Each node has a way from the root through the nodes above it. -/
  leads : List.Forall₂ (Located.Leads o.showsInk t.root) (t.shown o) (t.ways o)
  /-- No two nodes have the same way. -/
  sorted : (t.ways o).Pairwise (· < ·)
  /-- The line of a node is what its way says. -/
  drawing : t.drawing o = String.join
    (((t.shown o).zip (t.ways o)).tail.map fun p => Drawing.line o t.root p.1.node p.2)
  /-- A line ends at its one line feed. -/
  feed : ∀ s ∈ Drawing.lines o t, ∃ u, s.toList = u ++ ['\n'] ∧ '\n' ∉ u

theorem map_lineAt {o : DumpOptions} {root : Located} {cs : List Cursor} {ws : List (List Nat)}
    (h : List.Forall₂ (Located.Leads o.showsInk root) cs ws) :
    ws.map (Drawing.lineAt o root) =
      (cs.zip ws).map fun p => Drawing.line o root p.1.node p.2 := by
  induction h with
  | nil => rfl
  | cons hcw _ ih =>
      rw [List.map_cons, List.zip_cons_cons, List.map_cons, ih, Drawing.lineAt, hcw.at?_eq]
      rfl

theorem lines_eq_map_zip (t : Tree) (o : DumpOptions) : Drawing.lines o t =
    ((t.shown o).zip (t.ways o)).tail.map fun p => Drawing.line o t.root p.1.node p.2 := by
  rw [Drawing.lines_eq, List.map_tail, map_lineAt (t.leads_ways o), List.map_tail]

/-- Every tree is drawn line by line, white space or not, and with a stack as without. -/
theorem drawn_drawing (t : Tree) (o : DumpOptions) : t.Drawn o where
  loop := by
    have hnil : Drawing.loop o [] [] = some [] := by rw [Drawing.loop]
    have hloop := Drawing.loop_tasks hnil t.root.children
    rw [List.append_nil] at hloop
    exact hloop
  rows := t.tells_rows o
  leads := t.leads_ways o
  sorted := Located.pairwise_ways t.root
  drawing := congrArg String.join (t.lines_eq_map_zip o)
  feed := by
    intro s hs
    rw [lines_eq_map_zip] at hs
    obtain ⟨p, -, rfl⟩ := List.mem_map.1 hs
    exact Drawing.exists_line_eq o t.root p.1.node p.2

end Tree

end BibStyle

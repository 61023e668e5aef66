import BibStyle.Text

/-!
# Lines and columns

An index of a text holds where each of its lines starts. The place of a byte is then a search among
the lines by halving, and a count of the characters from the start of one line on.
-/

namespace BibStyle

/-- A place for people: lines and columns count from one, and columns count characters. -/
structure Position where
  line : Nat
  column : Nat
deriving DecidableEq, Repr

namespace Position

def render (p : Position) : String := s!"{p.line}:{p.column}"

/-- By lines, and by columns within a line. -/
def compare (p q : Position) : Ordering :=
  (Ord.compare p.line q.line).then (Ord.compare p.column q.column)

end Position

/-- The byte at which a line starts, and the text from there on. -/
structure Line where
  start : Nat
  text : Text

/-- Where the lines of a text start. The first line is there in every text. -/
structure LineIndex where
  size : Nat
  lines : Array Line
  nonempty : 0 < lines.size

namespace LineIndex

/-- Adds the lines behind the line feeds of a text that stands at byte `pos`. -/
def scan (pos : Nat) (lines : Array Line) : Text → Array Line
  | [] => lines
  | c :: t => scan (pos + c.utf8Size) (if c = '\n' then lines.push ⟨pos + 1, t⟩ else lines) t

theorem size_scan (pos : Nat) (lines : Array Line) (t : Text) :
    (scan pos lines t).size = lines.size + t.count '\n' := by
  induction t generalizing pos lines with
  | nil => rfl
  | cons c t ih =>
      rw [scan, ih, List.count_cons]
      by_cases hc : c = '\n'
      · simp [hc]
        omega
      · simp [hc]

def of (t : Text) : LineIndex where
  size := t.size
  lines := scan 0 #[⟨0, t⟩] t
  nonempty := by
    rw [size_scan]
    exact Nat.lt_add_right _ Nat.one_pos

/-- Among the lines from `lo` up to, not including, `hi`: the one that starts at byte `offset`, or
where one that starts there would have to be inserted. -/
def search (lines : Array Line) (offset lo hi : Nat) (hlo : lo ≤ hi) (hhi : hi ≤ lines.size) :
    Except (Fin (lines.size + 1)) (Fin lines.size) :=
  if h : lo < hi then
    let mid := lo + (hi - lo) / 2
    have hmid : mid < lines.size := by omega
    match compare lines[mid].start offset with
    | .eq => .ok ⟨mid, hmid⟩
    | .lt => search lines offset (mid + 1) hi (by omega) hhi
    | .gt => search lines offset lo mid (by omega) (by omega)
  else .error ⟨lo, by omega⟩
termination_by hi - lo

/-- The line of byte `offset`, counted from zero: the one that starts there, or the last one that
starts before. -/
def lineAt (index : LineIndex) (offset : Nat) : Fin index.lines.size :=
  match search index.lines offset 0 index.lines.size (Nat.zero_le _) (Nat.le_refl _) with
  | .ok line => line
  | .error next => ⟨next - 1, by have := index.nonempty; omega⟩

def line (index : LineIndex) (i : Fin index.lines.size) : Line := index.lines[i]

/-- How far a count of the characters of a line has come: the byte reached, the characters passed
and the text ahead. -/
structure Count where
  reached : Nat
  passed : Nat
  ahead : Text

/-- The count over the characters that start before byte `offset`. -/
def Count.goTo (offset reached passed : Nat) : Text → Count
  | [] => ⟨reached, passed, []⟩
  | c :: t =>
      if reached < offset then goTo offset (reached + c.utf8Size) (passed + 1) t
      else ⟨reached, passed, c :: t⟩

def Count.onTo (c : Count) (offset : Nat) : Count := goTo offset c.reached c.passed c.ahead

/-- The count from the start of a line. -/
def count (index : LineIndex) (i : Fin index.lines.size) (offset : Nat) : Count :=
  let ⟨start, text⟩ := index.line i
  Count.goTo offset start 0 text

/-- The place of byte `offset`; past the end it is the place of the end. -/
def position (index : LineIndex) (offset : Nat) : Position :=
  let offset := min offset index.size
  let i := index.lineAt offset
  ⟨i + 1, (index.count i offset).passed + 1⟩

def lineCount (index : LineIndex) : Nat := index.lines.size

/-- The offset at which a line starts, the first line being line one. -/
def lineStart? (index : LineIndex) : Nat → Option Nat
  | 0 => none
  | line + 1 => index.lines[line]?.map (·.start)

/-! ### Many places -/

/-- The places of some bytes. A count on line `i` goes on to the next byte if that is further on
the same line. -/
def positionsAlong (index : LineIndex) (i : Fin index.lines.size) (c : Count) :
    List Nat → List Position
  | [] => []
  | offset :: offsets =>
      let offset := min offset index.size
      let next := index.lineAt offset
      let c := if next = i ∧ c.reached ≤ offset then c.onTo offset else index.count next offset
      ⟨next + 1, c.passed + 1⟩ :: positionsAlong index next c offsets

/-- The places of some bytes, each line counted once if they are in order. -/
def positions (index : LineIndex) (offsets : List Nat) : List Position :=
  positionsAlong index ⟨0, index.nonempty⟩ (index.count ⟨0, index.nonempty⟩ 0) offsets

theorem Count.reached_le_goTo (offset reached passed : Nat) (t : Text) :
    reached ≤ (goTo offset reached passed t).reached := by
  induction t generalizing reached passed with
  | nil => exact Nat.le_refl _
  | cons c t ih =>
      rw [goTo]
      split
      · exact Nat.le_trans (Nat.le_add_right _ _) (ih _ _)
      · exact Nat.le_refl _

/-- A count with a stop on the way ends where the count without it does. -/
theorem Count.onTo_goTo {stop offset reached passed : Nat} {t : Text}
    (h : (goTo stop reached passed t).reached ≤ offset) :
    (goTo stop reached passed t).onTo offset = goTo offset reached passed t := by
  induction t generalizing reached passed with
  | nil => rfl
  | cons c t ih =>
      rw [goTo] at h ⊢
      split
      next hlt =>
        rw [if_pos hlt] at h
        have hle := reached_le_goTo stop (reached + c.utf8Size) (passed + 1) t
        have hpos := c.utf8Size_pos
        rw [ih h, goTo, if_pos (by omega)]
      next => rfl

theorem positionsAlong_count (index : LineIndex) (i : Fin index.lines.size) (stop : Nat)
    (offsets : List Nat) :
    index.positionsAlong i (index.count i stop) offsets = offsets.map index.position := by
  induction offsets generalizing i stop with
  | nil => rfl
  | cons offset offsets ih =>
      have hcount : (if index.lineAt (min offset index.size) = i ∧
            (index.count i stop).reached ≤ min offset index.size then
          (index.count i stop).onTo (min offset index.size)
        else index.count (index.lineAt (min offset index.size)) (min offset index.size)) =
          index.count (index.lineAt (min offset index.size)) (min offset index.size) := by
        split
        next h =>
          rw [h.1]
          exact Count.onTo_goTo h.2
        next => rfl
      simp only [positionsAlong, hcount, ih, List.map_cons]
      rfl

theorem positions_eq_map (index : LineIndex) (offsets : List Nat) :
    index.positions offsets = offsets.map index.position :=
  index.positionsAlong_count ⟨0, index.nonempty⟩ 0 offsets

end LineIndex

namespace Text

def position (t : Text) (offset : Nat) : Position := (LineIndex.of t).position offset

def positions (t : Text) (offsets : List Nat) : List Position :=
  (LineIndex.of t).positions offsets

def lineCount (t : Text) : Nat := (LineIndex.of t).lineCount

def lineStart? (t : Text) (line : Nat) : Option Nat := (LineIndex.of t).lineStart? line

end Text

end BibStyle

import BibStyle.Lines
import BibStyle.Proofs.Text

/-!
# Places count line feeds and characters

The place of a byte is read off the characters that start before it (`Text.upTo`). With `head` the
whole lines among them and `part` what there is of the next one, the byte is on the line whose
number is one more than the line feeds in `head`, and its column is one more than the characters in
`part` (`Text.leads_position`). Two places of one text then compare as the characters before them
do (`Text.Leads.order`).

The index gives this because a line stands in it for every line feed (`getElem?_scan`) and lines
start in order, so that the search ends at the last line that starts at the byte or before
(`isLast_of_lineAt`). A later line feed before the byte would start a later line.

Between two characters the ones before a byte are all of the text in front of it, so places are
exact there (`Text.exact_position`). Inside a character, that character starts before the byte and
is counted: the byte has the place of what follows (`Text.position_inside`).
-/

namespace BibStyle

theorem Position.isLE_compare {p q : Position}
    (h : p.line < q.line ∨ p.line = q.line ∧ p.column ≤ q.column) :
    (p.compare q).isLE = true := by
  rw [Position.compare]
  rcases h with hline | ⟨hline, hcolumn⟩
  · rw [Nat.compare_eq_lt.2 hline]
    rfl
  · rw [Nat.compare_eq_eq.2 hline]
    exact Nat.isLE_compare.2 hcolumn

namespace Text

/-! ## The characters before a byte -/

/-- The characters of the text that start before byte `n`. -/
def upTo (n : Nat) : Text → Text
  | [] => []
  | c :: t => if 0 < n then c :: upTo (n - c.utf8Size) t else []

@[simp] theorem upTo_zero (t : Text) : upTo 0 t = [] := by cases t <;> rfl

theorem upTo_append {n : Nat} {a : Text} (h : a.size ≤ n) (b : Text) :
    upTo n (a ++ b) = a ++ upTo (n - a.size) b := by
  induction a generalizing n with
  | nil => rfl
  | cons c a ih =>
      have hc := c.utf8Size_pos
      rw [size_cons] at h
      rw [List.cons_append, upTo, if_pos (by omega), ih (by omega), size_cons, Nat.sub_add_eq,
        List.cons_append]

@[simp] theorem upTo_size_append (a b : Text) : upTo a.size (a ++ b) = a := by
  simp [upTo_append]

theorem upTo_of_size_le {n : Nat} {t : Text} (h : t.size ≤ n) : upTo n t = t := by
  simpa [upTo] using upTo_append h []

theorem upTo_prefix_upTo {m n : Nat} (h : m ≤ n) (t : Text) : upTo m t <+: upTo n t := by
  induction t generalizing m n with
  | nil => exact List.prefix_rfl
  | cons c t ih =>
      rw [upTo, upTo]
      by_cases hm : 0 < m
      · rw [if_pos hm, if_pos (Nat.lt_of_lt_of_le hm h), List.prefix_cons_inj]
        exact ih (Nat.sub_le_sub_right h _)
      · rw [if_neg hm]
        exact List.nil_prefix

theorem upTo_prefix (n : Nat) (t : Text) : upTo n t <+: t := by
  rcases Nat.le_total n t.size with h | h
  · simpa [upTo_of_size_le (Nat.le_refl _)] using upTo_prefix_upTo h t
  · simp [upTo_of_size_le h]

theorem upTo_min_size (n : Nat) (t : Text) : upTo (min n t.size) t = upTo n t := by
  rcases Nat.le_total n t.size with h | h
  · rw [Nat.min_eq_left h]
  · rw [Nat.min_eq_right h, upTo_of_size_le h, upTo_of_size_le (Nat.le_refl _)]

theorem size_lt_of_upTo_eq {n : Nat} {t a b : Text} {c : Char} (h : upTo n t = a ++ c :: b) :
    a.size < n := by
  refine Nat.lt_of_not_le fun hle => ?_
  obtain ⟨rest, ht⟩ := upTo_prefix n t
  have hlength := (upTo_prefix_upTo hle t).length_le
  rw [h] at ht hlength
  rw [← ht, List.append_assoc, upTo_size_append, List.length_append, List.length_cons] at hlength
  omega

/-- Up to a byte inside a character, or to its end, that character is the last one. -/
theorem upTo_of_inside {n : Nat} {before : Text} {c : Char} (hlt : before.size < n)
    (hle : n ≤ before.size + c.utf8Size) (after : Text) :
    upTo n (before ++ c :: after) = before ++ [c] := by
  rw [upTo_append (Nat.le_of_lt hlt), upTo, if_pos (by omega), Nat.sub_eq_zero_of_le (by omega),
    upTo_zero]

end Text

namespace LineIndex

open Text

theorem Count.passed_goTo (offset reached passed : Nat) (t : Text) :
    (goTo offset reached passed t).passed = passed + (t.upTo (offset - reached)).length := by
  induction t generalizing reached passed with
  | nil => rfl
  | cons c t ih =>
      rw [goTo, upTo]
      split
      next h =>
        rw [if_pos (by omega), ih, List.length_cons, Nat.sub_add_eq]
        omega
      next h =>
        rw [if_neg (by omega)]
        rfl

theorem passed_count (index : LineIndex) (i : Fin index.lines.size) (offset : Nat) :
    (index.count i offset).passed =
      (upTo (offset - (index.line i).start) (index.line i).text).length := by
  rw [count, Count.passed_goTo, Nat.zero_add]

/-! ## Where lines start -/

theorem getElem?_push_eq_some {lines : Array Line} {pos j : Nat} {t : Text} {l : Line} :
    (lines.push ⟨pos, t⟩)[j]? = some l ↔
      lines[j]? = some l ∨ t = l.text ∧ l.start = pos ∧ j = lines.size := by
  rw [Array.getElem?_push]
  split
  next hj =>
    rw [hj, Array.getElem?_size]
    cases l
    simp [and_comm, eq_comm]
  next hj => simp [hj]

theorem exists_cons_eq_append {c : Char} {t u : Text} {p : Text → Prop} :
    (∃ head, c :: t = head ++ u ∧ p head) ↔
      c :: t = u ∧ p [] ∨ ∃ head, t = head ++ u ∧ p (c :: head) := by
  constructor
  · rintro ⟨- | ⟨d, head⟩, h, hp⟩
    · exact .inl ⟨h, hp⟩
    · obtain ⟨rfl, rfl⟩ := List.cons.inj h
      exact .inr ⟨head, rfl, hp⟩
  · rintro (⟨h, hp⟩ | ⟨head, rfl, hp⟩)
    · exact ⟨[], h, hp⟩
    · exact ⟨c :: head, rfl, hp⟩

/-- Behind each line feed the scan adds a line. -/
theorem getElem?_scan {pos j : Nat} {lines : Array Line} {t : Text} {l : Line} :
    (scan pos lines t)[j]? = some l ↔ lines[j]? = some l ∨
      ∃ head, t = head ++ '\n' :: l.text ∧ l.start = pos + head.size + 1 ∧
        j = lines.size + head.count '\n' := by
  induction t generalizing pos lines with
  | nil => simp [scan]
  | cons c t ih =>
      rw [scan, ih, exists_cons_eq_append]
      by_cases hc : c = '\n'
      · subst hc
        have hone : '\n'.utf8Size = 1 := rfl
        rw [if_pos rfl, getElem?_push_eq_some, or_assoc]
        simp [hone, Nat.add_assoc, Nat.add_comm 1]
      · rw [if_neg hc]
        simp [hc, Nat.add_assoc]

/-- A line starts where the lines before it end, and they have as many line feeds. -/
theorem getElem?_lines {t : Text} {j : Nat} {l : Line} :
    (LineIndex.of t).lines[j]? = some l ↔
      ∃ head, t = head ++ l.text ∧ l.start = head.size ∧ head.EndsLine ∧ j = head.count '\n' := by
  rw [LineIndex.of, getElem?_scan]
  constructor
  · rintro (h | ⟨head, rfl, hstart, rfl⟩)
    · rcases j with - | j
      · cases h
        exact ⟨[], rfl, rfl, .inl rfl, rfl⟩
      · cases h
    · refine ⟨head ++ ['\n'], by simp, ?_, .inr List.getLast?_concat, ?_⟩
      · rw [hstart, size_append, Nat.zero_add]
        rfl
      · rw [List.count_append, Nat.add_comm]
        rfl
  · rintro ⟨head, rfl, hstart, rfl | hlast, rfl⟩
    · left
      cases l
      cases hstart
      rfl
    · obtain ⟨head, rfl⟩ := List.getLast?_eq_some_iff.1 hlast
      refine .inr ⟨head, by simp, ?_, ?_⟩
      · rw [hstart, size_append, Nat.zero_add]
        rfl
      · rw [List.count_append, Nat.add_comm]
        rfl

theorem getElem?_lines_zero (t : Text) : (LineIndex.of t).lines[0]? = some ⟨0, t⟩ :=
  getElem?_lines.2 ⟨[], rfl, rfl, .inl rfl, rfl⟩

/-- Lines in the order in which they start. -/
def Ordered (lines : Array Line) : Prop :=
  ∀ (i j : Nat) (_ : i < lines.size) (_ : j < lines.size), i < j → lines[i].start < lines[j].start

theorem ordered_lines (t : Text) : Ordered (LineIndex.of t).lines := by
  intro i j hi hj hij
  obtain ⟨a, hta, hstart, -, rfl⟩ := getElem?_lines.1 (Array.getElem?_eq_getElem hi)
  obtain ⟨b, htb, hstart', -, rfl⟩ := getElem?_lines.1 (Array.getElem?_eq_getElem hj)
  rw [hstart, hstart']
  refine Nat.lt_of_not_le fun hle => ?_
  obtain ⟨x, rfl, -⟩ := exists_of_append_eq_append (htb.symm.trans hta) hle
  rw [List.count_append] at hij
  omega

/-! ## The search -/

variable {lines : Array Line} {offset lo hi : Nat}

/-- The lines before `lo` start before byte `offset`, and those from `hi` on start behind it. -/
structure Between (lines : Array Line) (offset lo hi : Nat) : Prop where
  below : ∀ (i : Nat) (_ : i < lines.size), i < lo → lines[i].start < offset
  above : ∀ (i : Nat) (_ : i < lines.size), hi ≤ i → offset < lines[i].start

/-- The search ends at the byte asked for, or between the lines before it and those behind it. -/
theorem search_spec (hordered : Ordered lines) (hlo : lo ≤ hi) (hhi : hi ≤ lines.size)
    (h : Between lines offset lo hi) :
    match search lines offset lo hi hlo hhi with
    | .ok line => lines[line].start = offset
    | .error next => Between lines offset next next := by
  fun_induction search lines offset lo hi hlo hhi with
  | case1 lo hi hlo hhi hlt mid hmid heq => exact Nat.compare_eq_eq.1 heq
  | case2 lo hi hlo hhi hlt mid hmid hless ih =>
      have hstart := Nat.compare_eq_lt.1 hless
      refine ih ⟨fun i hi hmi => ?_, h.above⟩
      rcases Nat.lt_succ_iff_lt_or_eq.1 hmi with hmi | rfl
      · exact Nat.lt_trans (hordered i mid hi hmid hmi) hstart
      · exact hstart
  | case3 lo hi hlo hhi hlt mid hmid hgreater ih =>
      have hstart := Nat.compare_eq_gt.1 hgreater
      refine ih ⟨h.below, fun i hi hmi => ?_⟩
      rcases Nat.lt_or_eq_of_le hmi with hmi | rfl
      · exact Nat.lt_trans hstart (hordered mid i hmid hi hmi)
      · exact hstart
  | case4 lo hi hlo hhi hle =>
      obtain rfl : lo = hi := by omega
      exact h

/-- Among the lines of a text the search never ends before the first one. -/
theorem search_lines (t : Text) (offset : Nat) :
    match search (LineIndex.of t).lines offset 0 (LineIndex.of t).lines.size (Nat.zero_le _)
      (Nat.le_refl _) with
    | .ok i => ((LineIndex.of t).line i).start = offset
    | .error next => 0 < next.val ∧ Between (LineIndex.of t).lines offset next next := by
  have hall : Between (LineIndex.of t).lines offset 0 (LineIndex.of t).lines.size :=
    ⟨nofun, fun i hi hle => absurd hi (Nat.not_lt_of_le hle)⟩
  have hspec := search_spec (ordered_lines t) (Nat.zero_le _) (Nat.le_refl _) hall
  split
  next line hline =>
    rw [hline] at hspec
    exact hspec
  next next hnext =>
    rw [hnext] at hspec
    refine ⟨Nat.pos_of_ne_zero fun hzero => ?_, hspec⟩
    obtain ⟨h, hfirst⟩ := Array.getElem?_eq_some_iff.1 (getElem?_lines_zero t)
    have habove := hspec.above 0 h (Nat.le_of_eq hzero)
    rw [hfirst] at habove
    exact absurd habove (Nat.not_lt_zero _)

/-- The last line that starts at byte `offset` or before. -/
structure IsLast (lines : Array Line) (offset line : Nat) (l : Line) : Prop where
  getElem? : lines[line]? = some l
  start_le : l.start ≤ offset
  lt_start : ∀ i m, lines[i]? = some m → line < i → offset < m.start

theorem isLast_of_lineAt {t : Text} {i : Fin (LineIndex.of t).lines.size}
    (h : (LineIndex.of t).lineAt offset = i) :
    IsLast (LineIndex.of t).lines offset i ((LineIndex.of t).line i) := by
  have hspec := search_lines t offset
  rw [lineAt] at h
  split at h
  next found hfound =>
    subst h
    rw [hfound] at hspec
    refine ⟨Array.getElem?_eq_getElem found.isLt, Nat.le_of_eq hspec, fun i m hm hlt => ?_⟩
    obtain ⟨hi, rfl⟩ := Array.getElem?_eq_some_iff.1 hm
    rw [← hspec]
    exact ordered_lines t found i found.isLt hi hlt
  next next hnext =>
    subst h
    rw [hnext] at hspec
    obtain ⟨hpos, hbelow, habove⟩ := hspec
    refine ⟨Array.getElem?_eq_getElem _, Nat.le_of_lt (hbelow (next - 1) _ (by omega)),
      fun i m hm hlt => ?_⟩
    obtain ⟨hi, rfl⟩ := Array.getElem?_eq_some_iff.1 hm
    exact habove i hi (Nat.le_of_pred_lt hlt)

end LineIndex

namespace Text

/-- Every line feed ends a line, and there is one line more. -/
theorem lineCount_eq (t : Text) : t.lineCount = t.count '\n' + 1 :=
  (LineIndex.size_scan 0 _ t).trans (Nat.add_comm _ _)

/-! ## Places -/

/-- The characters before a place are whole lines, then a part of the line of the place. -/
inductive Leads (t : Text) : Text → Position → Prop where
  | mk {head part : Text} (ends : head.EndsLine) (within : '\n' ∉ part)
      (start : t.lineStart? (head.count '\n' + 1) = some head.size) :
      Leads t (head ++ part) ⟨head.count '\n' + 1, part.length + 1⟩

theorem leads_position (t : Text) (offset : Nat) :
    t.Leads (t.upTo offset) (t.position offset) := by
  obtain ⟨i, hi⟩ : ∃ i, (LineIndex.of t).lineAt (min offset t.size) = i := ⟨_, rfl⟩
  have hlast := LineIndex.isLast_of_lineAt hi
  have hposition : t.position offset =
      ⟨i + 1, ((LineIndex.of t).count i (min offset t.size)).passed + 1⟩ := by
    rw [← hi]
    rfl
  rw [hposition, LineIndex.passed_count, ← upTo_min_size offset]
  generalize (LineIndex.of t).line i = l at hlast ⊢
  generalize min offset t.size = n at hlast ⊢
  obtain ⟨head, ht, hstart, hends, hcount⟩ := LineIndex.getElem?_lines.1 hlast.getElem?
  have hupTo : t.upTo n = head ++ l.text.upTo (n - l.start) := by
    rw [ht, upTo_append (by rw [← hstart]; exact hlast.start_le), hstart]
  rw [hupTo, hcount]
  refine .mk hends (fun hmem => ?_) ?_
  · -- A line feed in the part would start a later line at the byte or before.
    obtain ⟨x, y, hxy⟩ := List.append_of_mem hmem
    obtain ⟨z, hz⟩ := upTo_prefix (n - l.start) l.text
    rw [hxy] at hz hupTo
    have hsize : (head ++ x).size < n :=
      size_lt_of_upTo_eq (hupTo.trans (List.append_assoc head x ('\n' :: y)).symm)
    have hnext : (LineIndex.of t).lines[(head ++ x ++ ['\n']).count '\n']? =
        some ⟨(head ++ x ++ ['\n']).size, y ++ z⟩ := by
      refine LineIndex.getElem?_lines.2 ⟨_, ?_, rfl, .inr List.getLast?_concat, rfl⟩
      rw [ht, ← hz]
      simp
    have hlater := hlast.lt_start _ _ hnext (by simp [hcount])
    rw [size_append _ ['\n']] at hlater
    exact absurd hlater (Nat.not_lt_of_le hsize)
  · rw [lineStart?, LineIndex.lineStart?, ← hcount, hlast.getElem?, ← hstart]
    rfl

/-- With more characters before it a place is on a later line, or that much further on the line. -/
theorem Leads.order {t a z : Text} {p q : Position} (hp : t.Leads a p) (hq : t.Leads (a ++ z) q) :
    p.line < q.line ∨ p.line = q.line ∧ q.column = p.column + z.length := by
  obtain @⟨head, part, -, hwithin, hstart⟩ := hp
  generalize hb : head ++ part ++ z = b at hq
  obtain @⟨head', part', -, hwithin', hstart'⟩ := hq
  have hcount := congrArg (List.count '\n') hb
  rw [List.count_append, List.count_append, List.count_append, List.count_eq_zero.2 hwithin,
    List.count_eq_zero.2 hwithin'] at hcount
  rcases Nat.eq_zero_or_pos (z.count '\n') with hz | hz
  · right
    have hline : head.count '\n' = head'.count '\n' := by omega
    rw [hline, hstart'] at hstart
    rw [List.append_assoc] at hb
    obtain ⟨rfl, rfl⟩ := append_inj_of_size hb (Option.some.inj hstart).symm
    exact ⟨rfl, by simp only [List.length_append, Nat.add_right_comm]⟩
  · left
    simp only
    omega

theorem Leads.place_unique {t a : Text} {p q : Position} (hp : t.Leads a p) (hq : t.Leads a q) :
    p = q := by
  rw [← List.append_nil a] at hp hq
  have hpq := Leads.order (by rwa [List.append_nil] at hp) hq
  have hqp := Leads.order (by rwa [List.append_nil] at hq) hp
  cases p
  cases q
  simp only [Position.mk.injEq, List.length_nil] at *
  omega

theorem Leads.unique {t a b : Text} {p : Position} (ha : t.Leads a p) (hb : t.Leads b p)
    (hat : a <+: t) (hbt : b <+: t) : a = b := by
  have hnil : ∀ {c z : Text}, t.Leads c p → t.Leads (c ++ z) p → z = [] := by
    intro c z hc hz
    have horder := hc.order hz
    exact List.length_eq_zero_iff.1 (by omega)
  rcases List.prefix_or_prefix_of_prefix hat hbt with ⟨z, rfl⟩ | ⟨z, rfl⟩
  · rw [hnil ha hb, List.append_nil]
  · rw [hnil hb ha, List.append_nil]

theorem Leads.append_singleton {t a : Text} {c : Char} {p : Position} (h : t.Leads a p)
    (hc : c ≠ '\n') : t.Leads (a ++ [c]) ⟨p.line, p.column + 1⟩ := by
  obtain @⟨head, part, hends, hwithin, hstart⟩ := h
  rw [List.append_assoc]
  have hwithin' : '\n' ∉ part ++ [c] := by simp [hwithin, Ne.symm hc]
  simpa using Leads.mk hends hwithin' hstart

/-- The line counts the line feeds before a byte, the column the characters from the start of that
line on, and these lead from the line's start back to the byte. -/
theorem position_size (before after : Text) : ∃ head part, before = head ++ part ∧
    head.EndsLine ∧ '\n' ∉ part ∧
    ((before ++ after).position before.size).line = 1 + before.count '\n' ∧
    ((before ++ after).position before.size).column = 1 + part.length ∧
    (before ++ after).lineStart? ((before ++ after).position before.size).line =
      some head.size := by
  have hleads := leads_position (before ++ after) before.size
  rw [upTo_size_append] at hleads
  generalize (before ++ after).position before.size = p at hleads ⊢
  obtain @⟨head, part, hends, hwithin, hstart⟩ := hleads
  refine ⟨head, part, rfl, hends, hwithin, ?_, Nat.add_comm _ _, hstart⟩
  rw [List.count_append, List.count_eq_zero.2 hwithin]
  exact Nat.add_comm _ _

theorem position_inj {t : Text} {a b : Nat} (ha : t.isBoundary a = true)
    (hb : t.isBoundary b = true) (h : t.position a = t.position b) : a = b := by
  obtain ⟨x, y, rfl, rfl⟩ := isBoundary_iff.1 ha
  obtain ⟨z, w, ht, rfl⟩ := isBoundary_iff.1 hb
  have hx := leads_position (x ++ y) x.size
  have hz := leads_position (x ++ y) z.size
  rw [upTo_size_append] at hx
  rw [← h, ht, upTo_size_append, ← ht] at hz
  rw [hx.unique hz (List.prefix_append x y) ⟨w, ht.symm⟩]

theorem isLE_compare_position (t : Text) {a b : Nat} (h : a ≤ b) :
    ((t.position a).compare (t.position b)).isLE = true := by
  have ha := leads_position t a
  have hb := leads_position t b
  obtain ⟨z, hz⟩ := upTo_prefix_upTo h t
  rw [← hz] at hb
  refine Position.isLE_compare ((ha.order hb).imp_right fun ⟨hline, hcolumn⟩ => ⟨hline, ?_⟩)
  omega

theorem position_of_size_le {t : Text} {n : Nat} (h : t.size ≤ n) :
    t.position n = t.position t.size := by
  have hbehind := leads_position t n
  have hend := leads_position t t.size
  rw [upTo_of_size_le h] at hbehind
  rw [upTo_of_size_le (Nat.le_refl _)] at hend
  exact hbehind.place_unique hend

/-- Places are exact: between two characters a byte has the line and the column that count the line
feeds before it and the characters from the start of its line on, and these lead back to the byte,
so no two such bytes share a place. A later byte never has an earlier place, and any byte past the
end has the place of the end. -/
theorem exact_position (t : Text) :
    (∀ before after, t = before ++ after → ∃ head part, before = head ++ part ∧
      head.EndsLine ∧ '\n' ∉ part ∧
      (t.position before.size).line = 1 + before.count '\n' ∧
      (t.position before.size).column = 1 + part.length ∧
      t.lineStart? (t.position before.size).line = some head.size) ∧
    (∀ a b, t.isBoundary a = true → t.isBoundary b = true → t.position a = t.position b → a = b) ∧
    (∀ a b, a ≤ b → ((t.position a).compare (t.position b)).isLE = true) ∧
    ∀ a, t.size ≤ a → t.position a = t.position t.size := by
  refine ⟨?_, fun _ _ => position_inj, fun _ _ => isLE_compare_position t,
    fun _ => position_of_size_le⟩
  rintro before after rfl
  exact position_size before after

example : position "é\n".toList 3 = ⟨2, 1⟩ := by decide +kernel

theorem exists_of_not_boundary {n : Nat} {t : Text} (hle : n ≤ t.size)
    (h : t.isBoundary n = false) : ∃ (before : Text) (c : Char) (after : Text),
      t = before ++ c :: after ∧ before.size < n ∧ n < before.size + c.utf8Size := by
  induction t generalizing n with
  | nil =>
      obtain rfl := Nat.le_zero.1 hle
      cases h
  | cons c t ih =>
      rcases Nat.eq_zero_or_pos n with rfl | hn
      · cases h
      rcases Nat.lt_or_ge n c.utf8Size with hc | hc
      · exact ⟨[], c, t, rfl, hn, by simpa using hc⟩
      · have hrest : isBoundary (n - c.utf8Size) t = false := by
          rw [← Bool.not_eq_true, isBoundary_iff] at h ⊢
          rintro ⟨a, b, rfl, ha⟩
          exact h ⟨c :: a, b, rfl, by rw [size_cons]; omega⟩
        have hin : n - c.utf8Size ≤ size t := by
          rw [size_cons] at hle
          omega
        obtain ⟨before, d, after, rfl, hlt, hgt⟩ := ih hin hrest
        refine ⟨c :: before, d, after, rfl, ?_, ?_⟩ <;> rw [size_cons] <;> omega

/-- Inside a character a byte has the place of the end of that character, one column behind the
place of its start. -/
theorem position_inside {t : Text} {offset : Nat} (hle : offset ≤ t.size)
    (h : t.isBoundary offset = false) : ∃ (before : Text) (c : Char) (after : Text),
      t = before ++ c :: after ∧ before.size < offset ∧ offset < before.size + c.utf8Size ∧
      t.position offset = t.position (before.size + c.utf8Size) ∧
      t.position offset = ⟨(t.position before.size).line, (t.position before.size).column + 1⟩ := by
  obtain ⟨before, c, after, rfl, hlt, hgt⟩ := exists_of_not_boundary hle h
  have hc : c ≠ '\n' := by
    rintro rfl
    have hone : '\n'.utf8Size = 1 := rfl
    omega
  have hstart := leads_position (before ++ c :: after) before.size
  have hin := leads_position (before ++ c :: after) offset
  have hend := leads_position (before ++ c :: after) (before.size + c.utf8Size)
  rw [upTo_size_append] at hstart
  rw [upTo_of_inside hlt (Nat.le_of_lt hgt)] at hin
  rw [upTo_of_inside (Nat.lt_trans hlt hgt) (Nat.le_refl _)] at hend
  exact ⟨before, c, after, rfl, hlt, hgt, hin.place_unique hend,
    hin.place_unique (hstart.append_singleton hc)⟩

/-- The second byte of a character between two others. -/
theorem position_inside_umlaut :
    (2 ≤ size "aéb".toList ∧ isBoundary 2 "aéb".toList = false) ∧
      ∃ (before : Text) (c : Char) (after : Text), "aéb".toList = before ++ c :: after ∧
        before.size < 2 ∧ 2 < before.size + c.utf8Size ∧
        position "aéb".toList 2 = position "aéb".toList (before.size + c.utf8Size) ∧
        position "aéb".toList 2 = ⟨(position "aéb".toList before.size).line,
          (position "aéb".toList before.size).column + 1⟩ := by
  have hle : 2 ≤ size "aéb".toList := by decide
  have h : isBoundary 2 "aéb".toList = false := by decide
  exact ⟨⟨hle, h⟩, position_inside hle h⟩

/-- A byte inside a character does not count as that character. -/
theorem not_position_start_of_inside :
    ¬ ∀ (t : Text) (offset : Nat), offset ≤ t.size → t.isBoundary offset = false →
      ∀ (before : Text) (c : Char) (after : Text), t = before ++ c :: after →
        before.size < offset → offset < before.size + c.utf8Size →
          t.position offset = t.position before.size := by
  intro h
  have heq := h "é".toList 1 (by decide) (by decide) [] 'é' [] rfl (by decide) (by decide)
  have hne : position "é".toList 1 ≠ position "é".toList 0 := by decide +kernel
  exact hne heq

end Text

end BibStyle

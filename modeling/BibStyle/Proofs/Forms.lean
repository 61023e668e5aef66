import BibStyle.Dump.Sexp
import BibStyle.Text.Number
import Mathlib.Combinatorics.Enumerative.DyckWord

/-!
# S-expressions can be read back

With ranges, an S-expression says all there is to say of the nodes that it shows: `Sexp.decode` is a
reader for it that knows nothing of the options it was written with (`Tree.legible_sexp`).

A dump is a row of steps, each of which opens or closes a form, and every step ends at the first
bracket that closes anything. The texts between the brackets are from small tables, none of which
has brackets in it or one text for two things, or they are numbers. So the steps are found again
(`Sexp.scan_piecesOnto`), and from the steps the forms (`Sexp.build_steps`).
-/

namespace BibStyle

open DyckStep

namespace Sexp

/-! ## What a dump shows of a tree -/

/-- What a form is the form of. -/
inductive Head where
  | kind (kind : Kind)
  | missing (expected : Expected)
deriving DecidableEq, Repr

namespace Head

def all : List Head := Kind.all.map .kind ++ Expected.all.map .missing

theorem mem_all (h : Head) : h ∈ all := by
  cases h with
  | kind k => simp [all, Kind.mem_all]
  | missing e => cases e <;> simp [all, Expected.all]

def name : Head → String
  | .kind k => k.name
  | .missing e => "MISSING " ++ e.label

end Head

/-- What a form says of its node. -/
structure Heading where
  field : Option Field
  head : Head
  span : Span
deriving DecidableEq, Repr

/-- A node that a dump shows, with those below it. -/
inductive Form where
  | mk (heading : Heading) (children : List Form)

/-- A marker for something absent is shown as what is. -/
def headOf (l : Located) : Head :=
  match l.fault with
  | some (.missing e) => if l.isMissing then .missing e else .kind l.kind
  | _ => .kind l.kind

def headingOf (l : Located) : Heading := ⟨l.field, headOf l, l.span⟩

mutual

/-- The node and what is below it, without the nodes whose kind `shows` refuses. -/
def formOf (shows : Kind → Bool) : Located → Form
  | ⟨node, span, flawed, children⟩ =>
      ⟨headingOf ⟨node, span, flawed, children⟩, formsOf shows children⟩

def formsOf (shows : Kind → Bool) : List Located → List Form
  | [] => []
  | l :: ls => if shows l.kind then formOf shows l :: formsOf shows ls else formsOf shows ls

end

/-! ## Steps -/

inductive Step where
  | opening (heading : Heading)
  | closing

mutual

def steps : Form → List Step
  | ⟨heading, children⟩ => .opening heading :: (stepsAll children ++ [.closing])

def stepsAll : List Form → List Step
  | [] => []
  | f :: fs => steps f ++ stepsAll fs

end

/-- Put the steps together. The forms `fs` stand one after the other, and around them those that are
still open, the innermost first, each with the forms in front of it. -/
def build (around : List (Heading × List Form)) (fs : List Form) : List Step → Option (List Form)
  | [] => if around.isEmpty then some fs else none
  | .opening heading :: steps => build ((heading, fs) :: around) [] steps
  | .closing :: steps =>
      match around with
      | (heading, before) :: around => build around (before ++ [⟨heading, fs⟩]) steps
      | [] => none

mutual

theorem build_steps (around : List (Heading × List Form)) (fs : List Form) (rest : List Step) :
    (f : Form) → build around fs (steps f ++ rest) = build around (fs ++ [f]) rest
  | ⟨heading, children⟩ => by
      rw [steps, List.cons_append, List.append_assoc, build, build_stepsAll _ _ _ children]
      rfl

theorem build_stepsAll (around : List (Heading × List Form)) (fs : List Form) (rest : List Step) :
    (gs : List Form) → build around fs (stepsAll gs ++ rest) = build around (fs ++ gs) rest
  | [] => by simp [stepsAll]
  | g :: gs => by
      rw [stepsAll, List.append_assoc, build_steps around fs _ g,
        build_stepsAll around (fs ++ [g]) rest gs, List.append_assoc, List.singleton_append]

end

/-! ## The text of a step -/

/-- The brackets, and the dot between the two ends of a range. -/
def isMark (c : Char) : Bool := c == '(' || c == ')' || c == '[' || c == ']' || c == '.'

/-- The text before the first `c` and the text behind it. -/
def splitAt? (c : Char) : Text → Option (Text × Text)
  | [] => none
  | d :: t => if d = c then some ([], t) else (splitAt? c t).map fun p => (d :: p.1, p.2)

def labelText : Option Field → Text
  | some f => f.tag.toList ++ [':', ' ']
  | none => []

def ofLabelText? (t : Text) : Option (Option Field) :=
  (none :: Field.all.map some).find? fun f => labelText f == t

def Head.ofName? (t : Text) : Option Head := all.find? fun h => h.name.toList == t

/-- The text that opens a form, such as `name: (identifier [9..14`, up to its last bracket. -/
def Heading.text (h : Heading) : Text :=
  labelText h.field ++ '(' :: (h.head.name.toList ++ ' ' :: '[' ::
    ((toString h.span.start).toList ++ '.' :: '.' :: (toString h.span.stop).toList))

def isBlank (c : Char) : Bool := c == '\n' || c == ' '

def Heading.ofText? (t : Text) : Option Heading := do
  let (label, t) ← splitAt? '(' (t.dropWhile isBlank)
  let (name, t) ← splitAt? '[' t
  let (start, t) ← splitAt? '.' t
  let (_, stop) ← splitAt? '.' t
  return ⟨← ofLabelText? label, ← Head.ofName? name.dropLast, ⟨← start.nat?, ← stop.nat?⟩⟩

theorem splitAt?_append {c : Char} {u : Text} (h : c ∉ u) (t : Text) :
    splitAt? c (u ++ c :: t) = some (u, t) := by
  induction u with
  | nil => simp [splitAt?]
  | cons d u ih =>
      rw [List.mem_cons, not_or] at h
      rw [List.cons_append, splitAt?, if_neg (Ne.symm h.1), ih h.2]
      rfl

theorem isMark_of_mem_of_all {t : Text} (ht : t.all (!isMark ·) = true) {c : Char} (h : c ∈ t) :
    isMark c = false := by
  simpa using List.all_eq_true.1 ht c h

theorem isMark_of_mem_labelText {f : Option Field} {c : Char} (h : c ∈ labelText f) :
    isMark c = false := by
  refine isMark_of_mem_of_all ?_ h
  rcases f with _ | f
  · rfl
  · cases f <;> decide

theorem isMark_of_mem_name {h : Head} {c : Char} (hc : c ∈ h.name.toList) : isMark c = false := by
  have hall : ∀ h ∈ Head.all, h.name.toList.all (!isMark ·) = true := by decide +kernel
  exact isMark_of_mem_of_all (hall h h.mem_all) hc

theorem isMark_of_isDigit {c : Char} (h : c.isDigit = true) : isMark c = false := by
  rw [Bool.eq_false_iff]
  intro hmark
  simp only [isMark, Bool.or_eq_true, beq_iff_eq] at hmark
  rcases hmark with (((rfl | rfl) | rfl) | rfl) | rfl <;> cases h

theorem not_mem_of_isMark {c : Char} (hc : isMark c = true) {t : Text}
    (h : ∀ d ∈ t, isMark d = false) : c ∉ t :=
  fun hmem => Bool.false_ne_true ((h c hmem).symm.trans hc)

theorem ofLabelText?_labelText (f : Option Field) : ofLabelText? (labelText f) = some f := by
  rcases f with _ | f
  · rfl
  · cases f <;> decide

theorem Head.ofName?_name (h : Head) : ofName? h.name.toList = some h := by
  have hall : ∀ h ∈ all, ofName? h.name.toList = some h := by decide +kernel
  exact hall h h.mem_all

theorem isBlank_of_mem_indent {depth : Nat} {c : Char} (h : c ∈ (indent depth).toList) :
    isBlank c = true := by
  cases depth with
  | zero => cases h
  | succ depth =>
      simp only [indent, String.toList_append, String.toList_ofList, List.mem_append,
        List.mem_replicate] at h
      rcases h with h | ⟨-, rfl⟩
      · rw [List.mem_singleton.1 h]
        rfl
      · rfl

theorem isMark_of_isBlank {c : Char} (h : isBlank c = true) : isMark c = false := by
  rcases Bool.or_eq_true_iff.1 h with h | h <;> rw [eq_of_beq h] <;> rfl

theorem Heading.dropWhile_isBlank_text (h : Heading) : h.text.dropWhile isBlank = h.text := by
  obtain ⟨f, _, _⟩ := h
  rcases f with _ | f
  · rfl
  · cases f <;> rfl

/-- The text that opens a form says what the form says of its node. -/
theorem Heading.ofText?_text (depth : Nat) (h : Heading) :
    ofText? ((indent depth).toList ++ h.text) = some h := by
  have hblank : ((indent depth).toList ++ h.text).dropWhile isBlank = h.text := by
    rw [List.dropWhile_append_of_pos fun c hc => isBlank_of_mem_indent hc, dropWhile_isBlank_text]
  have hlabel := splitAt?_append (u := labelText h.field)
    (not_mem_of_isMark (c := '(') rfl fun d hd => isMark_of_mem_labelText hd)
  have hname := splitAt?_append (u := h.head.name.toList ++ [' ']) (c := '[') (by
    rw [List.mem_append, not_or]
    exact ⟨not_mem_of_isMark rfl fun d hd => isMark_of_mem_name hd, by decide⟩)
  have hstart := splitAt?_append (u := (toString h.span.start).toList) (c := '.')
    (not_mem_of_isMark rfl fun d hd => isMark_of_isDigit (Text.isDigit_of_mem_toString hd))
  have hdot : ∀ t, splitAt? '.' ('.' :: t) = some ([], t) := splitAt?_append List.not_mem_nil
  have htext : h.text = labelText h.field ++ '(' :: (h.head.name.toList ++ [' '] ++ '[' ::
      ((toString h.span.start).toList ++ '.' :: '.' :: (toString h.span.stop).toList)) := by
    simp [text]
  rw [ofText?, hblank, htext, hlabel]
  simp only [Option.bind_eq_bind, Option.bind_some, hname, hstart, hdot, ofLabelText?_labelText,
    List.dropLast_concat, Head.ofName?_name, Text.nat?_toString]
  rfl

/-! ## Steps of a dump -/

/-- The steps of a dump; `word` is what has been read of the first of them. -/
def scan (word : Text) : Text → Option (List Step)
  | [] => if word.isEmpty then some [] else none
  | c :: t =>
      if c = ']' then do return .opening (← Heading.ofText? word) :: (← scan [] t)
      else if c = ')' then if word.isEmpty then (scan [] t).map (.closing :: ·) else none
      else scan (word ++ [c]) t

/-- The tree that a dump with ranges shows. -/
def decode (s : String) : Option Form := do
  let steps ← scan [] s.toList
  match ← build [] [] steps with
  | [f] => some f
  | _ => none

theorem scan_append {u : Text} (h : ∀ c ∈ u, c ≠ ']' ∧ c ≠ ')') (word t : Text) :
    scan word (u ++ t) = scan (word ++ u) t := by
  induction u generalizing word with
  | nil => rw [List.nil_append, List.append_nil]
  | cons c u ih =>
      obtain ⟨hc, hu⟩ := List.forall_mem_cons.1 h
      rw [List.cons_append, scan, if_neg hc.1, if_neg hc.2, ih hu, List.append_assoc,
        List.singleton_append]

theorem scan_opening (depth : Nat) (h : Heading) (t : Text) :
    scan [] ((indent depth).toList ++ h.text ++ ']' :: t) =
      (scan [] t).map (.opening h :: ·) := by
  have hmarks : ∀ c ∈ (indent depth).toList ++ h.text, c ≠ ']' ∧ c ≠ ')' := by
    have hfree : ∀ c : Char, isMark c = false → c ≠ ']' ∧ c ≠ ')' := by
      rintro c hc
      refine ⟨?_, ?_⟩ <;> rintro rfl <;> cases hc
    simp only [Heading.text, List.mem_append, List.mem_cons]
    rintro c (hc | hc | rfl | hc | rfl | rfl | hc | rfl | rfl | hc)
    · exact hfree c (isMark_of_isBlank (isBlank_of_mem_indent hc))
    · exact hfree c (isMark_of_mem_labelText hc)
    · decide
    · exact hfree c (isMark_of_mem_name hc)
    · decide
    · decide
    · exact hfree c (isMark_of_isDigit (Text.isDigit_of_mem_toString hc))
    · decide
    · decide
    · exact hfree c (isMark_of_isDigit (Text.isDigit_of_mem_toString hc))
  rw [scan_append hmarks, List.nil_append, scan, if_pos rfl, Heading.ofText?_text]
  cases scan [] t <;> rfl

theorem scan_closing (t : Text) : scan [] (')' :: t) = (scan [] t).map (.closing :: ·) := rfl

variable {o : DumpOptions}

theorem head_eq (l : Located) :
    head o l =
      String.ofList (labelText l.field) ++ "(" ++ (headOf l).name ++ o.range l.span := by
  have hname : (headOf l).name = match l.fault with
      | some (.missing e) => if l.isMissing then s!"MISSING {e.label}" else l.kind.name
      | _ => l.kind.name := by
    rw [headOf]
    split
    · split <;> rfl
    · rfl
  have hlabel : String.ofList (labelText l.field) = match l.field with
      | some f => s!"{f.tag}: "
      | none => "" := by
    rcases l.field with _ | f
    · rfl
    · rw [labelText, String.ofList_append, String.ofList_toList]
      rfl
  rw [hname, hlabel]
  rfl

theorem toList_head (ho : o.showRanges = true) (l : Located) :
    (head o l).toList = (headingOf l).text ++ [']'] := by
  rw [head_eq, DumpOptions.range_of_showRanges ho]
  simp [Heading.text, headingOf]

mutual

theorem scan_piecesOnto (ho : o.showRanges = true) (depth : Nat) (rest : List String) :
    (l : Located) →
    scan [] ((piecesOnto o depth (l.prune o.showsNamed) rest).flatMap String.toList) =
      (scan [] (rest.flatMap String.toList)).map (steps (formOf o.showsNamed l) ++ ·)
  | ⟨node, span, flawed, children⟩ => by
      have hchildren := scan_piecesAll ho (depth + 1) (")" :: rest) children
      have hclosing : (")" :: rest).flatMap String.toList =
          ')' :: rest.flatMap String.toList := rfl
      have hheading : headingOf ⟨node, span, flawed, Located.pruneAll o.showsNamed children⟩ =
          headingOf ⟨node, span, flawed, children⟩ := rfl
      rw [Located.prune, piecesOnto, List.flatMap_cons, List.flatMap_cons, toList_head ho,
        ← List.append_assoc, ← List.append_assoc, List.append_assoc, List.singleton_append,
        scan_opening, hchildren, hclosing, scan_closing, hheading, formOf, steps]
      cases scan [] (rest.flatMap String.toList) <;> simp

theorem scan_piecesAll (ho : o.showRanges = true) (depth : Nat) (rest : List String) :
    (ls : List Located) →
    scan [] ((piecesAll o depth (Located.pruneAll o.showsNamed ls) rest).flatMap String.toList) =
      (scan [] (rest.flatMap String.toList)).map (stepsAll (formsOf o.showsNamed ls) ++ ·)
  | [] => by simp [Located.pruneAll, piecesAll, formsOf, stepsAll]
  | l :: ls => by
      cases hl : o.showsNamed l.kind with
      | false =>
          rw [Located.pruneAll, formsOf, if_neg (by simp [hl]), if_neg (by simp [hl])]
          exact scan_piecesAll ho depth rest ls
      | true =>
          rw [Located.pruneAll, formsOf, if_pos hl, if_pos hl, piecesAll, stepsAll,
            scan_piecesOnto ho depth _ l, scan_piecesAll ho depth rest ls]
          cases scan [] (rest.flatMap String.toList) <;> simp

end

/-! ## Parentheses -/

def paren? (c : Char) : Option DyckStep :=
  if c = '(' then some U else if c = ')' then some D else none

/-- The parentheses of a text in order. -/
def parens (t : Text) : List DyckStep := t.filterMap paren?

theorem parens_eq_nil {t : Text} (h : ∀ c ∈ t, isMark c = false) : parens t = [] := by
  rw [parens, List.filterMap_eq_nil_iff]
  intro c hc
  have hmark := h c hc
  rw [paren?, if_neg, if_neg] <;> rintro rfl <;> cases hmark

theorem parens_range (s : Span) : parens (o.range s).toList = [] := by
  have hnumber := fun n => parens_eq_nil fun c hc =>
    isMark_of_isDigit (Text.isDigit_of_mem_toString (n := n) (c := c) hc)
  cases ho : o.showRanges with
  | false => rw [DumpOptions.range_of_not_showRanges ho]; rfl
  | true =>
      simp only [parens] at hnumber ⊢
      simp only [DumpOptions.range_of_showRanges ho, String.toList_append, List.filterMap_append,
        hnumber]
      rfl

theorem parens_head (l : Located) : parens (head o l).toList = [U] := by
  have hlabel := parens_eq_nil fun c hc => isMark_of_mem_labelText (f := l.field) hc
  have hname := parens_eq_nil fun c hc => isMark_of_mem_name (h := headOf l) hc
  have hrange := parens_range (o := o) l.span
  rw [parens] at hlabel hname hrange ⊢
  simp only [head_eq, String.toList_append, String.toList_ofList, List.filterMap_append, hlabel,
    hname, hrange]
  rfl

theorem parens_indent (depth : Nat) : parens (indent depth).toList = [] :=
  parens_eq_nil fun _ hc => isMark_of_isBlank (isBlank_of_mem_indent hc)

mutual

theorem exists_parens_piecesOnto (depth : Nat) (rest : List String) : (l : Located) →
    ∃ w : DyckWord, parens ((piecesOnto o depth l rest).flatMap String.toList) =
      w.toList ++ parens (rest.flatMap String.toList)
  | ⟨node, span, flawed, children⟩ => by
      obtain ⟨w, hw⟩ := exists_parens_piecesAll (depth + 1) (")" :: rest) children
      refine ⟨w.nest, ?_⟩
      have hclosing : parens ((")" :: rest).flatMap String.toList) =
          D :: parens (rest.flatMap String.toList) := rfl
      rw [piecesOnto, List.flatMap_cons, List.flatMap_cons, parens, List.filterMap_append,
        List.filterMap_append, ← parens, ← parens, ← parens, hw, parens_indent, parens_head,
        hclosing]
      simp [DyckWord.nest]

theorem exists_parens_piecesAll (depth : Nat) (rest : List String) : (ls : List Located) →
    ∃ w : DyckWord, parens ((piecesAll o depth ls rest).flatMap String.toList) =
      w.toList ++ parens (rest.flatMap String.toList)
  | [] => ⟨0, rfl⟩
  | l :: ls => by
      obtain ⟨v, hv⟩ := exists_parens_piecesOnto depth (piecesAll o depth ls rest) l
      obtain ⟨w, hw⟩ := exists_parens_piecesAll depth rest ls
      refine ⟨v + w, ?_⟩
      rw [piecesAll, hv, hw, ← List.append_assoc]
      rfl

end

end Sexp

namespace Tree

/-- What a dump with ranges shows of the tree: the named nodes, and white space if trivia are
included. -/
def visible (t : Tree) (trivia : Bool) : Sexp.Form :=
  Sexp.formOf (DumpOptions.showsNamed ⟨true, trivia⟩) t.root

/-- The S-expressions of the tree can be read back. -/
structure Legible (t : Tree) : Prop where
  /-- One reader gets what is shown out of the dumps with ranges. -/
  decode : ∀ trivia, Sexp.decode (t.sexp ⟨true, trivia⟩) = some (t.visible trivia)
  /-- Trees that are shown alike have the same visible parts. -/
  unique : ∀ trivia (u : Tree) trivia', u.sexp ⟨true, trivia'⟩ = t.sexp ⟨true, trivia⟩ →
    u.visible trivia' = t.visible trivia
  /-- Parentheses are in pairs in every dump. -/
  balanced : ∀ o, ∃ w : DyckWord, Sexp.parens (t.sexp o).toList = w.toList

theorem decode_sexp (t : Tree) (trivia : Bool) :
    Sexp.decode (t.sexp ⟨true, trivia⟩) = some (t.visible trivia) := by
  have hscan := Sexp.scan_piecesOnto (o := ⟨true, trivia⟩) rfl 0 [] t.root
  have hbuild := Sexp.build_steps [] [] [] (t.visible trivia)
  rw [List.append_nil, List.nil_append] at hbuild
  have hsteps : Sexp.scan [] (t.sexp ⟨true, trivia⟩).toList =
      some (Sexp.steps (t.visible trivia)) := by
    rw [sexp, String.toList_join, hscan]
    simp [Sexp.scan, visible]
  rw [Sexp.decode, hsteps]
  simp only [Option.bind_eq_bind, Option.bind_some, hbuild]
  rfl

/-- The S-expressions of every tree can be read back. -/
theorem legible_sexp (t : Tree) : t.Legible where
  decode := t.decode_sexp
  unique := by
    intro trivia u trivia' h
    have hu := u.decode_sexp trivia'
    rw [h, t.decode_sexp] at hu
    exact (Option.some.inj hu).symm
  balanced := by
    intro o
    obtain ⟨w, hw⟩ := Sexp.exists_parens_piecesOnto (o := o) 0 [] (t.root.prune o.showsNamed)
    refine ⟨w, ?_⟩
    rw [sexp, String.toList_join, hw]
    exact List.append_nil _

end Tree

end BibStyle

import BibStyle.Node.Value
import BibStyle.Proofs.Munch
import Mathlib.Data.Nat.Digits.Defs

/-!
# Values of literals

An integer token is a `#` sign in front of a decimal numeral, which may be of any length and start
with zeros (`Text.Numeral`). The value of the token is the number that the numeral writes, if it
fits a signed word of 64 bits. A reader that has only such words, and gives up as soon as a product
or a sum does not fit one, comes to the same (`Text.word?_of_numeral`): the numbers it has on the
way only move away from zero, so it never gives up in front of a number that fits.

A string token is its value between two quotes, and the value has neither a quote nor a line feed.
-/

namespace BibStyle

namespace Text

/-! ## Numerals -/

/-- What a decimal digit stands for. -/
def digit (c : Char) : Nat := c.toNat - '0'.toNat

/-- The number that decimal digits write, the last of them being the ones. -/
def decimal (ds : Text) : Nat := Nat.ofDigits 10 (ds.map digit).reverse

/-- The text is a decimal numeral, with or without a minus sign, and writes the number. -/
inductive Numeral : Text → Int → Prop where
  | plain {ds} (nonempty : ds ≠ []) (digits : ∀ c ∈ ds, c.isDigit = true) : Numeral ds (decimal ds)
  | minus {ds} (nonempty : ds ≠ []) (digits : ∀ c ∈ ds, c.isDigit = true) :
      Numeral ('-' :: ds) (-decimal ds)

theorem ofDigitChars_eq (n : Nat) (ds : Text) :
    Nat.ofDigitChars 10 ds n = decimal ds + 10 ^ ds.length * n := by
  induction ds generalizing n with
  | nil => simp [decimal, Nat.ofDigitChars]
  | cons c ds ih =>
      have hcons : decimal (c :: ds) = decimal ds + 10 ^ ds.length * digit c := by
        simp [decimal, Nat.ofDigits_append]
      rw [Nat.ofDigitChars_cons, ih, hcons, List.length_cons, Nat.pow_succ, digit]
      ring

theorem nat?_of_isDigit {ds : Text} (hne : ds ≠ []) (hds : ∀ c ∈ ds, c.isDigit = true) :
    nat? ds = some (decimal ds) := by
  rw [nat?_eq_natFrom? hne, natFrom?_of_isDigit hds, ofDigitChars_eq, Nat.mul_zero, Nat.add_zero]

theorem head?_ne_of_isDigit {ds : Text} (hds : ∀ c ∈ ds, c.isDigit = true) {sign : Char}
    (hsign : sign.isDigit = false) : ds.head? ≠ some sign := by
  intro h
  exact absurd (hds sign (List.mem_of_head? h)) (by simp [hsign])

/-- Without a sign in front, a text is read as a natural number. -/
theorem int?_of_isDigit {ds : Text} (hds : ∀ c ∈ ds, c.isDigit = true) :
    int? ds = (nat? ds).map Int.ofNat := by
  unfold int?
  split
  · exact absurd rfl (head?_ne_of_isDigit hds (by decide))
  · exact absurd rfl (head?_ne_of_isDigit hds (by decide))
  · rfl

theorem int?_of_numeral {t : Text} {v : Int} (h : Numeral t v) : int? t = some v := by
  cases h with
  | plain nonempty digits =>
      rw [int?_of_isDigit digits, nat?_of_isDigit nonempty digits]
      rfl
  | minus nonempty digits =>
      rw [int?, nat?_of_isDigit nonempty digits]
      rfl

/-! ## Numerals read in words -/

/-- The number, if it fits a signed word of 64 bits. -/
def checked (n : Int) : Option Int := if isInt64 n then some n else none

/-- The number `n` with a digit behind its own; nothing if the product or the sum does not fit. -/
def append? (minus : Bool) (n : Int) (c : Char) : Option Int :=
  (checked (n * 10)).bind fun m => checked (if minus then m - digit c else m + digit c)

def wordFrom? (minus : Bool) (n : Int) : Text → Option Int
  | [] => some n
  | c :: ds => if c.isDigit then (append? minus n c).bind (wordFrom? minus · ds) else none

/-- The number that a sign and the digits write, read in words only. -/
def wordOf? (minus : Bool) (ds : Text) : Option Int :=
  if ds.isEmpty then none else wordFrom? minus 0 ds

def word? : Text → Option Int
  | '-' :: ds => wordOf? true ds
  | '+' :: ds => wordOf? false ds
  | ds => wordOf? false ds

/-- A number by its sign and its size. -/
def signed (minus : Bool) (n : Nat) : Int := if minus then -n else n

theorem isInt64_iff {n : Int} : isInt64 n = true ↔ -2 ^ 63 ≤ n ∧ n ≤ 2 ^ 63 - 1 := by
  rw [isInt64, Bool.and_eq_true, decide_eq_true_eq, decide_eq_true_eq]
  omega

/-- What is closer to zero than a number that fits does fit. -/
theorem isInt64_signed_of_le {minus : Bool} {m n : Nat} (h : isInt64 (signed minus n) = true)
    (hle : m ≤ n) : isInt64 (signed minus m) = true := by
  rw [isInt64_iff] at h ⊢
  cases minus <;> simp only [signed, Bool.false_eq_true, if_true, if_false] at h ⊢ <;> omega

theorem le_ofDigitChars (n : Nat) (ds : Text) : n ≤ Nat.ofDigitChars 10 ds n := by
  rw [ofDigitChars_eq]
  exact Nat.le_trans (Nat.le_mul_of_pos_left n (by positivity)) (Nat.le_add_left _ _)

theorem append?_signed (minus : Bool) (n : Nat) (c : Char) :
    append? minus (signed minus n) c = checked (signed minus (10 * n + digit c)) := by
  have hproduct : signed minus n * 10 = signed minus (10 * n) := by
    cases minus <;> simp only [signed, Bool.false_eq_true, if_true, if_false] <;> omega
  have hsum : (if minus then signed minus (10 * n) - digit c
      else signed minus (10 * n) + digit c) = signed minus (10 * n + digit c) := by
    cases minus <;> simp only [signed, Bool.false_eq_true, if_true, if_false] <;> omega
  rw [append?, hproduct]
  by_cases hfit : isInt64 (signed minus (10 * n)) = true
  · rw [checked, if_pos hfit, Option.bind_some, hsum]
  · rw [checked, if_neg hfit, Option.bind_none, checked, if_neg]
    exact fun h => hfit (isInt64_signed_of_le h (Nat.le_add_right _ _))

-- By induction on the digits: where the run gives up, the number is no further from zero than the
-- one that all digits write.
theorem wordFrom?_signed {ds : Text} (hds : ∀ c ∈ ds, c.isDigit = true) (minus : Bool) (n : Nat)
    (hn : isInt64 (signed minus n) = true) :
    wordFrom? minus (signed minus n) ds = checked (signed minus (Nat.ofDigitChars 10 ds n)) := by
  induction ds generalizing n with
  | nil => exact (if_pos hn).symm
  | cons c ds ih =>
      rw [wordFrom?, if_pos (hds c List.mem_cons_self), append?_signed, Nat.ofDigitChars_cons]
      by_cases hfit : isInt64 (signed minus (10 * n + digit c)) = true
      · rw [checked, if_pos hfit, Option.bind_some]
        exact ih (fun d hd => hds d (List.mem_cons_of_mem c hd)) _ hfit
      · rw [checked, if_neg hfit, Option.bind_none, checked, if_neg]
        exact fun h => hfit (isInt64_signed_of_le h (le_ofDigitChars _ ds))

theorem wordOf?_eq {ds : Text} (hne : ds ≠ []) (hds : ∀ c ∈ ds, c.isDigit = true) (minus : Bool) :
    wordOf? minus ds = checked (signed minus (decimal ds)) := by
  have h := wordFrom?_signed hds minus 0 (by cases minus <;> decide)
  have hzero : signed minus 0 = 0 := by cases minus <;> rfl
  rw [hzero, ofDigitChars_eq, Nat.mul_zero, Nat.add_zero] at h
  rw [wordOf?, if_neg (by simpa using hne), h]

/-- Reading in words gives the number that a numeral writes if it fits, and nothing otherwise. -/
theorem word?_of_numeral {t : Text} {v : Int} (h : Numeral t v) : word? t = checked v := by
  cases h with
  | plain nonempty digits =>
      have hplain : word? t = wordOf? false t := by
        unfold word?
        split
        · exact absurd rfl (head?_ne_of_isDigit digits (by decide))
        · exact absurd rfl (head?_ne_of_isDigit digits (by decide))
        · rfl
      rw [hplain, wordOf?_eq nonempty digits]
      rfl
  | minus nonempty digits =>
      rw [word?, wordOf?_eq nonempty digits]
      rfl

end Text

/-! ## Tokens of literals -/

namespace Lexer

variable {m : Mode} {tok : Token} {rest : Text}

theorem Scans.exists_numeral (h : Scans m tok rest) (hk : tok.kind = .integer) :
    ∃ (u : Text) (v : Int), tok.text = '#' :: u ∧ u.Numeral v := by
  cases h with
  | @integer minus ds _ hm hn hw =>
      rcases hm with rfl | rfl
      · exact ⟨_, _, rfl, .plain hn hw⟩
      · exact ⟨_, _, rfl, .minus hn hw⟩
  | word => exact absurd hk (wordKind_ne _ (by simp) (by simp))
  | patternWord => exact absurd hk (wordKind_ne _ (by simp) (by simp))
  | _ => cases hk

theorem Scans.exists_quoted (h : Scans m tok rest) (hk : tok.kind = .string) :
    ∃ u, tok.text = '"' :: u ++ ['"'] ∧ '"' ∉ u ∧ '\n' ∉ u := by
  cases h with
  | @string u _ hw =>
      refine ⟨u, rfl, ?_, ?_⟩
      · exact fun hmem => absurd (hw _ hmem) (by decide)
      · exact fun hmem => absurd (hw _ hmem) (by decide)
  | word => exact absurd hk (wordKind_ne _ (by simp) (by simp))
  | patternWord => exact absurd hk (wordKind_ne _ (by simp) (by simp))
  | _ => cases hk

end Lexer

namespace Node

/-- A node of the kind of a token is a leaf with its text. -/
theorem exists_leaf {n : Node} {k : TokenKind} (h : n.kind = .token k) :
    ∃ f, n = .leaf k f n.text := by
  cases n with
  | leaf k' f t =>
      cases h
      exact ⟨f, by simp [text]⟩
  | branch => cases h

theorem integer?_eq_none {n : Node} (h : n.kind ≠ .token .integer) : n.integer? = none := by
  unfold integer?
  split
  · exact absurd rfl h
  · rfl

theorem string?_eq_none {n : Node} (h : n.kind ≠ .token .string) : n.string? = none := by
  unfold string?
  split
  · exact absurd rfl h
  · rfl

theorem integer?_of_numeral {n : Node} {u : Text} {v : Int} (hk : n.kind = .token .integer)
    (ht : n.text = '#' :: u) (hu : u.Numeral v) : n.integer? = Text.checked v := by
  obtain ⟨f, hleaf⟩ := exists_leaf hk
  rw [hleaf, ht, integer?, Text.int?_of_numeral hu]
  rfl

theorem string?_of_quoted {n : Node} {u : Text} (hk : n.kind = .token .string)
    (ht : n.text = '"' :: u ++ ['"']) : n.string? = some u := by
  obtain ⟨f, hleaf⟩ := exists_leaf hk
  rw [hleaf, ht, List.cons_append, string?]
  simp

end Node

namespace Tree

/-- The literals of the tree, and no other nodes, have values, which are those that they write. -/
structure Valued (t : Tree) : Prop where
  /-- An integer has the number behind its sign, unless that is out of range. -/
  integer : ∀ l ∈ t.root.preorder, l.kind = .token .integer →
    ∃ u : Text, l.text = '#' :: u ∧ (∃ v, u.Numeral v) ∧ ∀ v, u.Numeral v →
      l.node.integer? = if -2 ^ 63 ≤ v ∧ v ≤ 2 ^ 63 - 1 then some v else none
  /-- Words are enough to read it. -/
  word : ∀ l ∈ t.root.preorder, l.kind = .token .integer →
    ∃ u : Text, l.text = '#' :: u ∧ u.word? = l.node.integer?
  /-- A string has what stands between its quotes. -/
  string : ∀ l ∈ t.root.preorder, l.kind = .token .string →
    ∃ u, l.text = '"' :: u ++ ['"'] ∧ '"' ∉ u ∧ '\n' ∉ u ∧ l.node.string? = some u
  not_integer : ∀ l ∈ t.root.preorder, l.kind ≠ .token .integer → l.node.integer? = none
  not_string : ∀ l ∈ t.root.preorder, l.kind ≠ .token .string → l.node.string? = none

/-- A token of a tree that loses nothing of its text is one that the lexer reads. -/
theorem Lossless.exists_scans {t : Tree} (h : t.Lossless) {l : Located} {k : TokenKind}
    (hl : l ∈ t.root.preorder) (hk : l.kind = .token k) :
    ∃ m tok rest, Lexer.Scans m tok rest ∧ tok.kind = k ∧ l.text = tok.text := by
  have htoken : l ∈ t.tokens := List.mem_filter.2 ⟨hl, by rw [Located.isToken, hk]; rfl⟩
  obtain ⟨m, tok, hlex, hkind, htext⟩ := h.lexed l htoken
  obtain ⟨_, _, rest, -, -, hread, -⟩ := lexAt_eq_some_iff.1 hlex
  rw [hk, Kind.token.injEq] at hkind
  exact ⟨m, tok, rest, scans_of_lex hread, hkind.symm, htext⟩

/-- However a parse has been edited, its literals have the values that they write. -/
theorem valued_editAll_parse (s : Text) (es : List Edit) : ((parse s).editAll es).Valued := by
  obtain ⟨text, htext⟩ := editAll_parse s es
  rw [htext]
  have hlossless := lossless_parse text
  generalize parse text = t at hlossless
  have hinteger : ∀ l ∈ t.root.preorder, l.kind = .token .integer →
      ∃ u : Text, l.text = '#' :: u ∧ ∃ v, u.Numeral v := by
    intro l hl hk
    obtain ⟨m, tok, rest, hscans, hkind, htext⟩ := hlossless.exists_scans hl hk
    obtain ⟨u, v, hu, hv⟩ := hscans.exists_numeral hkind
    exact ⟨u, htext.trans hu, v, hv⟩
  refine ⟨?_, ?_, ?_, ?_, ?_⟩
  · intro l hl hk
    obtain ⟨u, hu, hnumeral⟩ := hinteger l hl hk
    refine ⟨u, hu, hnumeral, fun v hv => ?_⟩
    rw [Node.integer?_of_numeral hk hu hv, Text.checked]
    exact if_congr Text.isInt64_iff rfl rfl
  · intro l hl hk
    obtain ⟨u, hu, v, hv⟩ := hinteger l hl hk
    exact ⟨u, hu, by rw [Text.word?_of_numeral hv, Node.integer?_of_numeral hk hu hv]⟩
  · intro l hl hk
    obtain ⟨m, tok, rest, hscans, hkind, htext⟩ := hlossless.exists_scans hl hk
    obtain ⟨u, hu, hquote, hfeed⟩ := hscans.exists_quoted hkind
    exact ⟨u, htext.trans hu, hquote, hfeed, Node.string?_of_quoted hk (htext.trans hu)⟩
  · exact fun l _ hk => Node.integer?_eq_none hk
  · exact fun l _ hk => Node.string?_eq_none hk

/-- The least number that fits, and the one below it behind a zero. -/
example :
    (Node.leaf .integer none "#-9223372036854775808".toList).integer? = some (-2 ^ 63) ∧
      (Node.leaf .integer none "#-09223372036854775809".toList).integer? = none := by
  decide

end Tree

end BibStyle

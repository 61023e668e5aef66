import BibStyle.Proofs.LetterCase
import Mathlib.Computability.Language
import Mathlib.Data.Char

/-!
# The rules of the tokens

The tokens of a mode are declared by rules, each a language of words (`Mode.rules`). The lexer does
not try the rules: it commits itself by the first character and goes on for as long as it can. Still
its tokens are the words of the rules, which has two halves, both by cases on what a token can be
(`Lexer.Scans`): a word of a rule is a token if nothing stands behind it (`exists_lex_of_matches`),
and a token is a word of a rule of its kind (`Mode.matches_of_scans`).
-/

namespace BibStyle

open Computability

/-! ## Rules -/

/-- Tokens of one kind and the words they are made of. -/
structure Rule where
  kind : TokenKind
  words : Language Char

namespace Rule

/-- The words of a single character of the class. -/
def one (s : Set Char) : Language Char := {w | ∃ c ∈ s, w = [c]}

/-- The words of characters of the class, but for the empty one. -/
def many (s : Set Char) : Language Char := one s * (one s)∗

/-- The word alone. -/
def word (w : String) : Language Char := {w.toList}

def blanks : Set Char := {' ', '\t', '\r', '\n', '\x0c', '\u3000'}

def digits : Set Char := Set.Icc '0' '9'

def wordStarts : Set Char := Set.Icc 'A' 'Z' ∪ Set.Icc 'a' 'z' ∪ {'_'}

def wordParts : Set Char := wordStarts ∪ digits ∪ {'.', '+', ':', '<', '>', '&', '-'}

def patternParts : Set Char := wordStarts ∪ digits ∪ {'.', '+', '/', '-'}

/-- The rules that both modes have, but for the keywords. -/
def shared : List Rule :=
  [⟨.whitespace, many blanks⟩, ⟨.comment, word "%" * (one {'\r', '\n'}ᶜ)∗⟩,
    ⟨.lbrace, word "\x7b"⟩, ⟨.rbrace, word "\x7d"⟩]

/-- The keyword of each command, in capital or small letters. -/
def keywords : List Rule :=
  Command.all.map fun c => ⟨.keyword, {w | Text.SameButCase w c.keyword.toList}⟩

def operators : List Rule :=
  [":=", "=", "*", ">", "<", "+", "-", "&"].map fun w => ⟨.operator, word w⟩

end Rule

namespace Mode

open Rule

/-- The rules that only the mode itself has. -/
def own : Mode → List Rule
  | .normal =>
      [⟨.quote, word "'"⟩,
        ⟨.identifier, one wordStarts * (one wordParts)∗⟩,
        ⟨.builtin, one wordStarts * (one wordParts)∗ * word "$"⟩,
        ⟨.integer, word "#" * ((1 + word "-") * many digits)⟩,
        ⟨.string, word "\"" * (one {'"', '\n'}ᶜ)∗ * word "\""⟩,
        ⟨.openString, word "\"" * (one {'"', '\n'}ᶜ)∗⟩] ++ operators
  | .pattern => [⟨.pattern, one wordStarts * (one patternParts)∗⟩]

def rules (m : Mode) : List Rule := shared ++ keywords ++ m.own

/-- A rule of the mode for tokens of the kind has the word. -/
def Matches (m : Mode) (k : TokenKind) (w : Text) : Prop := ∃ r ∈ m.rules, r.kind = k ∧ w ∈ r.words

end Mode

namespace Rule

/-! ## Words -/

section Words

variable {s : Set Char} {l : Language Char} {u : String} {w : Text}

theorem mem_word_iff : w ∈ word u ↔ w = u.toList := Iff.rfl

theorem mem_star_one_iff : w ∈ (one s)∗ ↔ ∀ c ∈ w, c ∈ s := by
  rw [Language.mem_kstar]
  constructor
  · rintro ⟨ws, rfl, hws⟩ c hc
    obtain ⟨v, hv, hc⟩ := List.mem_flatten.1 hc
    obtain ⟨d, hd, rfl⟩ := hws v hv
    rw [List.mem_singleton.1 hc]
    exact hd
  · intro hw
    refine ⟨w.map fun c => [c], by rw [← List.flatMap_def, List.flatMap_singleton'], ?_⟩
    intro v hv
    obtain ⟨c, hc, rfl⟩ := List.mem_map.1 hv
    exact ⟨c, hw c hc, rfl⟩

theorem mem_one_mul_iff : w ∈ one s * l ↔ ∃ c v, w = c :: v ∧ c ∈ s ∧ v ∈ l := by
  rw [Language.mem_mul]
  constructor
  · rintro ⟨_, ⟨c, hc, rfl⟩, v, hv, rfl⟩
    exact ⟨c, v, rfl, hc, hv⟩
  · rintro ⟨c, v, rfl, hc, hv⟩
    exact ⟨[c], ⟨c, hc, rfl⟩, v, hv, rfl⟩

theorem mem_word_mul_iff : w ∈ word u * l ↔ ∃ v ∈ l, w = u.toList ++ v := by
  rw [Language.mem_mul]
  constructor
  · rintro ⟨_, rfl, v, hv, rfl⟩
    exact ⟨v, hv, rfl⟩
  · rintro ⟨v, hv, rfl⟩
    exact ⟨_, rfl, v, hv, rfl⟩

theorem mem_mul_word_iff : w ∈ l * word u ↔ ∃ v ∈ l, w = v ++ u.toList := by
  rw [Language.mem_mul]
  constructor
  · rintro ⟨v, hv, _, rfl, rfl⟩
    exact ⟨v, hv, rfl⟩
  · rintro ⟨v, hv, rfl⟩
    exact ⟨v, hv, _, rfl, rfl⟩

end Words

/-! ## Classes of characters -/

section Classes

open Lexer

variable {c : Char}

theorem mem_digits_iff : c ∈ digits ↔ c.isDigit = true := by
  simp [digits, Char.isDigit, Char.le_def]

theorem mem_letters_iff : c ∈ Set.Icc 'A' 'Z' ∪ Set.Icc 'a' 'z' ↔ c.isAlpha = true := by
  have hupper : c.isUpper = decide ('A' ≤ c ∧ c ≤ 'Z') := rfl
  have hlower : c.isLower = (decide ('a' ≤ c) && decide (c ≤ 'z')) := rfl
  have halpha : c.isAlpha = (c.isUpper || c.isLower) := rfl
  rw [halpha, hupper, hlower]
  simp

theorem mem_blanks_iff : c ∈ blanks ↔ isBlank c = true := by
  simp [blanks, isBlank, or_assoc]

theorem mem_wordStarts_iff : c ∈ wordStarts ↔ isWordStart c = true := by
  rw [wordStarts, Set.mem_union, mem_letters_iff, isWordStart]
  simp

theorem mem_wordParts_iff : c ∈ wordParts ↔ isWordPart c = true := by
  rw [wordParts, Set.mem_union, Set.mem_union, mem_wordStarts_iff, mem_digits_iff]
  simp [isWordStart, isWordPart, Char.isAlphanum]
  tauto

theorem mem_patternParts_iff : c ∈ patternParts ↔ isPatternPart c = true := by
  rw [patternParts, Set.mem_union, Set.mem_union, mem_wordStarts_iff, mem_digits_iff]
  simp [isWordStart, isPatternPart, Char.isAlphanum]
  tauto

theorem mem_inComment_iff : c ∈ ({'\r', '\n'}ᶜ : Set Char) ↔ isInComment c = true := by
  simp [isInComment]

theorem mem_inString_iff : c ∈ ({'"', '\n'}ᶜ : Set Char) ↔ isInString c = true := by
  simp [isInString]

end Classes

/-! ## A word of a rule is a token -/

section Read

open Lexer

variable {m : Mode} {r : Rule} {w : Text}

/-- The words of the rule are tokens of its kind, unless they are keywords. -/
def Read (m : Mode) (r : Rule) : Prop :=
  ∀ w ∈ r.words, ∃ k, Scans m ⟨k, w⟩ [] ∧ k ≠ .strayChar ∧ (k = r.kind ∨ k = .keyword)

theorem stops_nil {p : Char → Bool} : Stops p [] := by
  intro c hc
  cases hc

theorem forall_of_mem_star {s : Set Char} {p : Char → Bool} (hp : ∀ {c}, c ∈ s ↔ p c = true)
    (hw : w ∈ (one s)∗) : ∀ c ∈ w, p c = true :=
  fun c hc => hp.1 (mem_star_one_iff.1 hw c hc)

theorem read_shared (hr : r ∈ shared) : r.Read m := by
  intro w hw
  simp only [shared, List.mem_cons, List.not_mem_nil, or_false] at hr
  rcases hr with rfl | rfl | rfl | rfl
  · obtain ⟨c, v, rfl, hc, hv⟩ := mem_one_mul_iff.1 hw
    exact ⟨_, .blank (mem_blanks_iff.1 hc) (forall_of_mem_star mem_blanks_iff hv) stops_nil,
      by simp, .inl rfl⟩
  · obtain ⟨v, hv, rfl⟩ := mem_word_mul_iff.1 hw
    exact ⟨_, .comment (forall_of_mem_star mem_inComment_iff hv) stops_nil, by simp, .inl rfl⟩
  · rw [mem_word_iff.1 hw]
    exact ⟨_, .lbrace, by simp, .inl rfl⟩
  · rw [mem_word_iff.1 hw]
    exact ⟨_, .rbrace, by simp, .inl rfl⟩

theorem wordKind_cases (other : TokenKind) (w : Text) :
    wordKind other w = other ∨ wordKind other w = .keyword := by
  unfold wordKind
  split
  · exact .inr rfl
  · exact .inl rfl

/-- A word that names a command is a keyword in both modes. -/
theorem scans_of_ofWord? {c : Command} (h : Command.ofWord? w = some c) (m : Mode) :
    Scans m ⟨.keyword, w⟩ [] := by
  have halpha := isAlpha_of_ofWord? h
  have hkind : ∀ other, wordKind other w = .keyword := by simp [wordKind, h]
  cases w with
  | nil => cases h
  | cons x v =>
      have hx : isWordStart x = true := by simp [isWordStart, halpha x]
      have hv : ∀ y ∈ v, y.isAlpha = true := fun y hy => halpha y (List.mem_cons_of_mem x hy)
      cases m with
      | normal =>
          rw [← hkind .identifier]
          exact .word hx (fun y hy => isWordPart_of_isAlpha (hv y hy)) stops_nil (by simp)
      | pattern =>
          rw [← hkind .pattern]
          exact .patternWord hx (fun y hy => isPatternPart_of_isAlpha (hv y hy)) stops_nil

theorem read_keywords (hr : r ∈ keywords) : r.Read m := by
  intro w hw
  obtain ⟨c, -, rfl⟩ := List.mem_map.1 hr
  exact ⟨_, scans_of_ofWord? (sameButCase_keyword_iff.1 hw) m, by simp, .inl rfl⟩

theorem read_operators (hr : r ∈ operators) : r.Read .normal := by
  intro w hw
  obtain ⟨u, hu, rfl⟩ := List.mem_map.1 hr
  rw [mem_word_iff.1 hw]
  refine ⟨_, ?_, by simp, .inl rfl⟩
  simp only [List.mem_cons, List.not_mem_nil, or_false] at hu
  rcases hu with rfl | rfl | rfl | rfl | rfl | rfl | rfl | rfl
  · exact .assign
  all_goals exact .operator (by decide)

theorem read_own (hr : r ∈ m.own) : r.Read m := by
  intro w hw
  cases m with
  | normal =>
      rcases List.mem_append.1 hr with hr | hr
      · simp only [List.mem_cons, List.not_mem_nil, or_false] at hr
        rcases hr with rfl | rfl | rfl | rfl | rfl | rfl
        · rw [mem_word_iff.1 hw]
          exact ⟨_, .quote, by simp, .inl rfl⟩
        · obtain ⟨c, v, rfl, hc, hv⟩ := mem_one_mul_iff.1 hw
          exact ⟨_, .word (mem_wordStarts_iff.1 hc) (forall_of_mem_star mem_wordParts_iff hv)
            stops_nil (by simp), wordKind_ne _ (by simp) (by simp), wordKind_cases _ _⟩
        · obtain ⟨_, hu, rfl⟩ := mem_mul_word_iff.1 hw
          obtain ⟨c, v, rfl, hc, hv⟩ := mem_one_mul_iff.1 hu
          exact ⟨_, .builtin (mem_wordStarts_iff.1 hc) (forall_of_mem_star mem_wordParts_iff hv),
            by simp, .inl rfl⟩
        · obtain ⟨u, hu, rfl⟩ := mem_word_mul_iff.1 hw
          obtain ⟨minus, hminus, ds, hds, rfl⟩ := Language.mem_mul.1 hu
          obtain ⟨d, v, rfl, hd, hv⟩ := mem_one_mul_iff.1 hds
          have hminus : minus = [] ∨ minus = ['-'] := hminus
          have hdigits : ∀ x ∈ d :: v, x.isDigit = true :=
            List.forall_mem_cons.2 ⟨mem_digits_iff.1 hd, forall_of_mem_star mem_digits_iff hv⟩
          have hscans : Scans .normal ⟨.integer, '#' :: (minus ++ d :: v)⟩ [] :=
            .integer hminus (by simp) hdigits stops_nil
          exact ⟨_, hscans, by simp, .inl rfl⟩
        · obtain ⟨_, hu, rfl⟩ := mem_mul_word_iff.1 hw
          obtain ⟨v, hv, rfl⟩ := mem_word_mul_iff.1 hu
          exact ⟨_, .string (forall_of_mem_star mem_inString_iff hv), by simp, .inl rfl⟩
        · obtain ⟨v, hv, rfl⟩ := mem_word_mul_iff.1 hw
          exact ⟨_, .openString (forall_of_mem_star mem_inString_iff hv) stops_nil (by simp),
            by simp, .inl rfl⟩
      · exact read_operators hr w hw
  | pattern =>
      rw [Mode.own, List.mem_singleton] at hr
      subst hr
      obtain ⟨c, v, rfl, hc, hv⟩ := mem_one_mul_iff.1 hw
      exact ⟨_, .patternWord (mem_wordStarts_iff.1 hc) (forall_of_mem_star mem_patternParts_iff hv)
        stops_nil, wordKind_ne _ (by simp) (by simp), wordKind_cases _ _⟩

end Read

end Rule

open Lexer Rule

/-- A word that a rule matches is a token of the rule's kind, or a keyword. -/
theorem exists_lex_of_matches {m : Mode} {k : TokenKind} {w : Text} (h : m.Matches k w) :
    ∃ k', lex m w = some (⟨k', w⟩, []) ∧ k' ≠ .strayChar ∧ (k' = k ∨ k' = .keyword) := by
  obtain ⟨r, hr, rfl, hw⟩ := h
  have hread : r.Read m := by
    rcases List.mem_append.1 hr with hr | hr
    · rcases List.mem_append.1 hr with hr | hr
      · exact read_shared hr
      · exact read_keywords hr
    · exact read_own hr
  obtain ⟨k', hscans, hstray, hk⟩ := hread w hw
  have hlex := lex_of_scans hscans
  rw [List.append_nil] at hlex
  exact ⟨k', hlex, hstray, hk⟩

/-! ## A token is a word of a rule -/

namespace Mode

variable {m : Mode} {w : Text}

theorem matches_keyword {c : Command} (h : Command.ofWord? w = some c) : m.Matches .keyword w := by
  refine ⟨⟨.keyword, {w | Text.SameButCase w c.keyword.toList}⟩, ?_, rfl,
    sameButCase_keyword_iff.2 h⟩
  refine List.mem_append_left _ (List.mem_append_right _ ?_)
  exact List.mem_map_of_mem (Command.mem_all c)

theorem matches_of_mem_shared {r : Rule} (hr : r ∈ shared) (hw : w ∈ r.words) :
    m.Matches r.kind w :=
  ⟨r, List.mem_append_left _ (List.mem_append_left _ hr), rfl, hw⟩

theorem matches_of_mem_own {r : Rule} (hr : r ∈ m.own) (hw : w ∈ r.words) : m.Matches r.kind w :=
  ⟨r, List.mem_append_right _ hr, rfl, hw⟩

/-- A word of a mode is a keyword or what its own rule says. -/
theorem matches_wordKind {other : TokenKind} (h : m.Matches other w) :
    m.Matches (wordKind other w) w := by
  unfold wordKind
  split
  · rename_i hsome
    obtain ⟨c, hc⟩ := Option.isSome_iff_exists.1 hsome
    exact matches_keyword hc
  · exact h

theorem mem_star_of_forall {s : Set Char} {p : Char → Bool} (hp : ∀ {c}, c ∈ s ↔ p c = true)
    (hw : ∀ c ∈ w, p c = true) : w ∈ (one s)∗ :=
  mem_star_one_iff.2 fun c hc => hp.2 (hw c hc)

/-- A rule has the token among its words. -/
theorem matches_of_scans {tok : Token} {rest : Text} (h : Scans m tok rest)
    (hk : tok.kind ≠ .strayChar) : m.Matches tok.kind tok.text := by
  cases h with
  | blank hc hw =>
      exact matches_of_mem_shared (r := ⟨.whitespace, many blanks⟩) (by simp [shared])
        (mem_one_mul_iff.2 ⟨_, _, rfl, mem_blanks_iff.2 hc, mem_star_of_forall mem_blanks_iff hw⟩)
  | comment hw =>
      exact matches_of_mem_shared (r := ⟨.comment, word "%" * (one {'\r', '\n'}ᶜ)∗⟩)
        (by simp [shared])
        (mem_word_mul_iff.2 ⟨_, mem_star_of_forall mem_inComment_iff hw, rfl⟩)
  | lbrace => exact matches_of_mem_shared (r := ⟨.lbrace, word "\x7b"⟩) (by simp [shared]) rfl
  | rbrace => exact matches_of_mem_shared (r := ⟨.rbrace, word "\x7d"⟩) (by simp [shared]) rfl
  | quote => exact matches_of_mem_own (r := ⟨.quote, word "'"⟩) (by simp [own]) rfl
  | word hc hw =>
      refine matches_wordKind (matches_of_mem_own
        (r := ⟨.identifier, one wordStarts * (one wordParts)∗⟩) (by simp [own]) ?_)
      exact mem_one_mul_iff.2 ⟨_, _, rfl, mem_wordStarts_iff.2 hc,
        mem_star_of_forall mem_wordParts_iff hw⟩
  | builtin hc hw =>
      refine matches_of_mem_own
        (r := ⟨.builtin, one wordStarts * (one wordParts)∗ * word "$"⟩) (by simp [own]) ?_
      exact mem_mul_word_iff.2 ⟨_, mem_one_mul_iff.2 ⟨_, _, rfl, mem_wordStarts_iff.2 hc,
        mem_star_of_forall mem_wordParts_iff hw⟩, rfl⟩
  | patternWord hc hw =>
      refine matches_wordKind (matches_of_mem_own
        (r := ⟨.pattern, one wordStarts * (one patternParts)∗⟩) (by simp [own]) ?_)
      exact mem_one_mul_iff.2 ⟨_, _, rfl, mem_wordStarts_iff.2 hc,
        mem_star_of_forall mem_patternParts_iff hw⟩
  | @integer minus ds _ hm hn hw =>
      refine matches_of_mem_own
        (r := ⟨.integer, word "#" * ((1 + word "-") * many digits)⟩) (by simp [own]) ?_
      obtain ⟨d, ds, rfl⟩ := List.exists_cons_of_ne_nil hn
      obtain ⟨hd, hds⟩ := List.forall_mem_cons.1 hw
      have hdigits : d :: ds ∈ many digits := mem_one_mul_iff.2
        ⟨d, ds, rfl, mem_digits_iff.2 hd, mem_star_of_forall mem_digits_iff hds⟩
      exact mem_word_mul_iff.2 ⟨_, Language.mem_mul.2 ⟨minus, hm, _, hdigits, rfl⟩, rfl⟩
  | sharp => exact absurd rfl hk
  | string hw =>
      refine matches_of_mem_own
        (r := ⟨.string, word "\"" * (one {'"', '\n'}ᶜ)∗ * word "\""⟩) (by simp [own]) ?_
      exact mem_mul_word_iff.2 ⟨_, mem_word_mul_iff.2 ⟨_, mem_star_of_forall mem_inString_iff hw,
        rfl⟩, rfl⟩
  | openString hw =>
      refine matches_of_mem_own
        (r := ⟨.openString, word "\"" * (one {'"', '\n'}ᶜ)∗⟩) (by simp [own]) ?_
      exact mem_word_mul_iff.2 ⟨_, mem_star_of_forall mem_inString_iff hw, rfl⟩
  | @operator c _ hc =>
      refine matches_of_mem_own (r := ⟨.operator, word (String.singleton c)⟩) ?_ ?_
      · refine List.mem_append_right _ (List.mem_map.2 ⟨String.singleton c, ?_, rfl⟩)
        simp only [isOperator, Bool.or_eq_true, beq_iff_eq] at hc
        rcases hc with (((((rfl | rfl) | rfl) | rfl) | rfl) | rfl) | rfl <;> decide
      · exact mem_word_iff.2 (String.toList_singleton c).symm
  | assign =>
      exact matches_of_mem_own (r := ⟨.operator, word ":="⟩) (by simp [own, operators]) rfl
  | stray => exact absurd rfl hk

end Mode

end BibStyle

import BibStyle.Proofs.Lexing

/-!
# Letter case in texts and tokens

Two texts that differ in the case of ASCII letters only have the same small letters (`Text.lower`),
so what is the same for a text and its small letters is the same for both. Every class of characters
that the lexer knows has a letter in both cases or in neither, and a word is looked up among the
keywords in capitals. So a text is read as its small letters are, with the letters of the tokens
made small (`lex_lower`).
-/

namespace BibStyle

/-- The byte with an ASCII letter made small. -/
def lowerByte (b : UInt8) : UInt8 := if 65 ≤ b ∧ b ≤ 90 then b + 32 else b

/-! ## Characters -/

/-- The capital letters, in the order of the alphabet. -/
def capital (n : Nat) : Char := Char.ofNat (65 + n)

theorem toLower_eq_self_or (c : Char) : c.toLower = c ∨ ∃ n < 26, c = capital n := by
  unfold Char.toLower
  split
  · rename_i h
    have hlow : 65 ≤ c.toNat := UInt32.le_iff_toNat_le.1 h.1
    have hhigh : c.toNat ≤ 90 := UInt32.le_iff_toNat_le.1 h.2
    refine .inr ⟨c.toNat - 65, by omega, ?_⟩
    rw [capital, Nat.add_sub_cancel' hlow, Char.ofNat_toNat]
  · exact .inl rfl

/-- What does not tell capitals from small letters is blind to case. -/
theorem apply_toLower {α : Type} {p : Char → α}
    (h : ∀ n < 26, p (capital n).toLower = p (capital n)) (c : Char) : p c.toLower = p c := by
  rcases toLower_eq_self_or c with hc | ⟨n, hn, rfl⟩
  · rw [hc]
  · exact h n hn

theorem lowerByte_ofNat {n : Nat} (h : 128 ≤ n) (hn : n < 256) :
    lowerByte (UInt8.ofNat n) = UInt8.ofNat n := by
  refine if_neg ?_
  rintro ⟨-, hle⟩
  have := UInt8.le_iff_toNat_le.1 hle
  rw [UInt8.toNat_ofNat_of_lt' hn] at this
  simp at this
  omega

/-- The bytes of a character that is not ASCII are no letters. -/
theorem map_lowerByte_utf8EncodeChar {c : Char} (h : 128 ≤ c.toNat) :
    (String.utf8EncodeChar c).map lowerByte = String.utf8EncodeChar c := by
  have hbyte : ∀ n m, 128 ≤ m → n + m < 256 →
      lowerByte (UInt8.ofNat (n + m)) = UInt8.ofNat (n + m) :=
    fun n m hm hn => lowerByte_ofNat (by omega) hn
  unfold String.utf8EncodeChar
  have hc : ¬c.val.toNat ≤ 127 := by
    have : c.val.toNat = c.toNat := rfl
    omega
  simp only [if_neg hc]
  split
  · simp only [List.map_cons, List.map_nil]
    rw [hbyte _ 192 (by omega) (by omega), hbyte _ 128 (by omega) (by omega)]
  split
  · simp only [List.map_cons, List.map_nil]
    rw [hbyte _ 224 (by omega) (by omega), hbyte _ 128 (by omega) (by omega),
      hbyte _ 128 (by omega) (by omega)]
  · simp only [List.map_cons, List.map_nil]
    rw [hbyte _ 240 (by omega) (by omega), hbyte _ 128 (by omega) (by omega),
      hbyte _ 128 (by omega) (by omega), hbyte _ 128 (by omega) (by omega)]

theorem utf8EncodeChar_toLower (c : Char) :
    String.utf8EncodeChar c.toLower = (String.utf8EncodeChar c).map lowerByte := by
  by_cases h : c.toNat < 128
  · have hall : ∀ n < 128, String.utf8EncodeChar (Char.ofNat n).toLower =
        (String.utf8EncodeChar (Char.ofNat n)).map lowerByte := by decide
    have hc := hall c.toNat h
    rwa [Char.ofNat_toNat] at hc
  · have hall : ∀ n < 26, (capital n).toNat < 128 := by decide
    rcases toLower_eq_self_or c with hc | ⟨n, hn, rfl⟩
    · rw [hc, map_lowerByte_utf8EncodeChar (by omega)]
    · exact absurd (hall n hn) h

/-! ## Texts -/

namespace Text

/-- The texts have the same bytes but for the case of ASCII letters. -/
def SameButCase (t u : Text) : Prop := t.bytes.map lowerByte = u.bytes.map lowerByte

instance (t u : Text) : Decidable (t.SameButCase u) := inferInstanceAs (Decidable (_ = _))

/-- The text in small letters. -/
def lower (t : Text) : Text := t.map Char.toLower

@[simp] theorem lower_nil : lower [] = [] := rfl

@[simp] theorem lower_cons (c : Char) (t : Text) : lower (c :: t) = c.toLower :: lower t := rfl

@[simp] theorem lower_append (t u : Text) : lower (t ++ u) = lower t ++ lower u := List.map_append

theorem bytes_lower (t : Text) : (lower t).bytes = t.bytes.map lowerByte := by
  rw [bytes, lower, List.flatMap_map, bytes, List.map_flatMap]
  exact congrArg (List.flatMap · t) (funext utf8EncodeChar_toLower)

@[simp] theorem size_lower (t : Text) : (lower t).size = t.size := by
  rw [← length_bytes, bytes_lower, List.length_map, length_bytes]

theorem SameButCase.lower_eq {t u : Text} (h : t.SameButCase u) : lower t = lower u := by
  apply bytes_injective
  rw [bytes_lower, bytes_lower]
  exact h

/-- Small letters are cut where the text is. -/
theorem cut?_lower (n : Nat) (t : Text) :
    (lower t).cut? n = (t.cut? n).map fun p => (lower p.1, lower p.2) := by
  cases h : t.cut? n with
  | some parts =>
      obtain ⟨rfl, rfl⟩ := append_of_cut? h
      rw [lower_append, ← size_lower, cut?_size_append]
      rfl
  | none =>
      cases hl : (lower t).cut? n with
      | none => rfl
      | some parts =>
          obtain ⟨happend, rfl⟩ := append_of_cut? hl
          obtain ⟨a, b, rfl, ha, -⟩ := List.map_eq_append_iff.1 happend.symm
          rw [← ha] at h
          simp only [← lower.eq_def, size_lower, cut?_size_append] at h
          cases h

end Text

open Text

/-! ## Tokens -/

def Token.lower (t : Token) : Token := ⟨t.kind, t.text.lower⟩

@[simp] theorem Token.kind_lower (t : Token) : t.lower.kind = t.kind := rfl

@[simp] theorem Token.text_lower (t : Token) : t.lower.text = t.text.lower := rfl

@[simp] theorem Token.size_lower (t : Token) : t.lower.size = t.size := t.text.size_lower

theorem toUpper_toLower (c : Char) : c.toLower.toUpper = c.toUpper :=
  apply_toLower (by decide) c

theorem toLower_toUpper (c : Char) : c.toUpper.toLower = c.toLower := by
  by_cases h : c.val ≥ 'a'.val ∧ c.val ≤ 'z'.val
  · have hlow : 97 ≤ c.toNat := UInt32.le_iff_toNat_le.1 h.1
    have hhigh : c.toNat ≤ 122 := UInt32.le_iff_toNat_le.1 h.2
    have hall : ∀ n < 26,
        (Char.ofNat (97 + n)).toUpper.toLower = (Char.ofNat (97 + n)).toLower := by decide
    have hc := hall (c.toNat - 97) (by omega)
    rwa [Nat.add_sub_cancel' hlow, Char.ofNat_toNat] at hc
  · have hupper : c.toUpper = c := dif_neg h
    rw [hupper]

@[simp] theorem Command.ofWord?_lower (w : Text) :
    Command.ofWord? w.lower = Command.ofWord? w := by
  have hupper : w.lower.map Char.toUpper = w.map Char.toUpper := by
    rw [Text.lower, List.map_map]
    exact congrArg (List.map · w) (funext toUpper_toLower)
  rw [Command.ofWord?, hupper]
  rfl

/-- A word is the keyword of a command, in capital or small letters, if it names the command. -/
theorem sameButCase_keyword_iff {w : Text} {c : Command} :
    w.SameButCase c.keyword.toList ↔ Command.ofWord? w = some c := by
  constructor
  · intro h
    rw [← Command.ofWord?_lower, h.lower_eq, Command.ofWord?_lower, Command.ofWord?_keyword]
  · intro h
    have hlower : Text.lower (w.map Char.toUpper) = w.lower := by
      rw [Text.lower, List.map_map]
      exact congrArg (List.map · w) (funext toLower_toUpper)
    rw [← map_toUpper_of_ofWord? h, Text.SameButCase, ← Text.bytes_lower, ← Text.bytes_lower,
      hlower]

namespace Lexer

@[simp] theorem wordKind_lower (other : TokenKind) (w : Text) :
    wordKind other w.lower = wordKind other w := by simp [wordKind]

/-- The class of characters does not tell capitals from small letters. -/
def CaseBlind (p : Char → Bool) : Prop := ∀ c : Char, p c.toLower = p c

theorem caseBlind_isBlank : CaseBlind isBlank := apply_toLower (by decide)

theorem caseBlind_isInComment : CaseBlind isInComment := apply_toLower (by decide)

theorem caseBlind_isInString : CaseBlind isInString := apply_toLower (by decide)

theorem caseBlind_isWordStart : CaseBlind isWordStart := apply_toLower (by decide)

theorem caseBlind_isWordPart : CaseBlind isWordPart := apply_toLower (by decide)

theorem caseBlind_isPatternPart : CaseBlind isPatternPart := apply_toLower (by decide)

theorem caseBlind_isOperator : CaseBlind isOperator := apply_toLower (by decide)

theorem caseBlind_isDigit : CaseBlind Char.isDigit := apply_toLower (by decide)

theorem caseBlind_isStray (m : Mode) : CaseBlind (isStray m) :=
  apply_toLower (by cases m <;> decide)

namespace CaseBlind

variable {p : Char → Bool} {t : Text}

theorem forall_lower (hp : CaseBlind p) (h : ∀ c ∈ t, p c = true) : ∀ c ∈ t.lower, p c = true := by
  intro c hc
  obtain ⟨x, hx, rfl⟩ := List.mem_map.1 hc
  rw [hp]
  exact h x hx

theorem stops_lower (hp : CaseBlind p) (h : Stops p t) : Stops p t.lower := by
  intro c hc
  cases t with
  | nil => cases hc
  | cons x t =>
      obtain rfl := Option.some.inj hc
      rw [hp]
      exact h x rfl

end CaseBlind

/-- Making letters small makes no other character. -/
theorem toLower_eq_iff {x : Char} (hx : x.isAlpha = false) (c : Char) : c.toLower = x ↔ c = x := by
  have hletter : ∀ n < 26, (capital n).isAlpha = true ∧ (capital n).toLower.isAlpha = true := by
    decide
  have hne : ∀ c : Char, c.isAlpha = true → c ≠ x := by
    rintro c hc rfl
    rw [hx] at hc
    cases hc
  rcases toLower_eq_self_or c with hc | ⟨n, hn, rfl⟩
  · rw [hc]
  · obtain ⟨hcap, hsmall⟩ := hletter n hn
    exact iff_of_false (hne _ hsmall) (hne _ hcap)

theorem head?_lower_eq_iff {x : Char} (hx : x.isAlpha = false) (t : Text) :
    t.lower.head? = some x ↔ t.head? = some x := by
  cases t with
  | nil => exact Iff.rfl
  | cons c t => simpa using toLower_eq_iff hx c

/-- Small letters are scanned as the letters of the text are. -/
theorem Scans.lower {m : Mode} {tok : Token} {rest : Text} (h : Scans m tok rest) :
    Scans m tok.lower rest.lower := by
  cases h with
  | blank hc hw hr =>
      exact .blank ((caseBlind_isBlank _).trans hc) (caseBlind_isBlank.forall_lower hw)
        (caseBlind_isBlank.stops_lower hr)
  | comment hw hr =>
      exact .comment (caseBlind_isInComment.forall_lower hw) (caseBlind_isInComment.stops_lower hr)
  | lbrace => exact .lbrace
  | rbrace => exact .rbrace
  | quote => exact .quote
  | word hc hw hr hd =>
      rw [← wordKind_lower]
      refine .word ((caseBlind_isWordStart _).trans hc) (caseBlind_isWordPart.forall_lower hw)
        (caseBlind_isWordPart.stops_lower hr) ?_
      rwa [Ne, head?_lower_eq_iff rfl]
  | @builtin c w _ hc hw =>
      have htext : Text.lower (c :: w ++ ['$']) = c.toLower :: Text.lower w ++ ['$'] := by
        rw [lower_append, lower_cons]
        rfl
      rw [Token.lower, htext]
      exact .builtin ((caseBlind_isWordStart _).trans hc) (caseBlind_isWordPart.forall_lower hw)
  | patternWord hc hw hr =>
      rw [← wordKind_lower]
      exact .patternWord ((caseBlind_isWordStart _).trans hc)
        (caseBlind_isPatternPart.forall_lower hw) (caseBlind_isPatternPart.stops_lower hr)
  | @integer minus ds _ hm hn hw hr =>
      have htext : Text.lower ('#' :: (minus ++ ds)) = '#' :: (minus ++ Text.lower ds) := by
        rw [lower_cons, lower_append]
        rcases hm with rfl | rfl <;> rfl
      rw [Token.lower, htext]
      exact .integer hm (by simpa [Text.lower] using hn) (caseBlind_isDigit.forall_lower hw)
        (caseBlind_isDigit.stops_lower hr)
  | @sharp rest hr hd =>
      refine .sharp (caseBlind_isDigit.stops_lower hr) ?_
      rw [head?_lower_eq_iff rfl, Text.lower, ← List.map_tail]
      intro hhead
      exact caseBlind_isDigit.stops_lower (hd hhead)
  | @string w _ hw =>
      have htext : Text.lower ('"' :: w ++ ['"']) = '"' :: Text.lower w ++ ['"'] := by
        rw [lower_append, lower_cons]
        rfl
      rw [Token.lower, htext]
      exact .string (caseBlind_isInString.forall_lower hw)
  | openString hw hr hd =>
      refine .openString (caseBlind_isInString.forall_lower hw)
        (caseBlind_isInString.stops_lower hr) ?_
      rwa [Ne, head?_lower_eq_iff rfl]
  | operator hc => exact .operator ((caseBlind_isOperator _).trans hc)
  | assign => exact .assign
  | stray hc hd =>
      refine .stray ((caseBlind_isStray _ _).trans hc) ?_
      rw [toLower_eq_iff rfl, Ne, head?_lower_eq_iff rfl]
      exact hd

end Lexer

/-- A text is read as its small letters are. -/
theorem lex_lower (m : Mode) (t : Text) :
    lex m t.lower = (lex m t).map fun p => (p.1.lower, p.2.lower) := by
  cases h : lex m t with
  | none =>
      obtain rfl := lex_eq_none_iff.1 h
      rfl
  | some look =>
      obtain ⟨tok, rest⟩ := look
      obtain ⟨rfl, hscans⟩ := lex_eq_some_iff.1 h
      exact lex_eq_some_iff.2 ⟨Text.lower_append _ _, hscans.lower⟩

/-- At every place the same token is read, with its letters made small. -/
theorem lexAt_lower (m : Mode) (pos : Nat) (t : Text) :
    lexAt m pos t.lower = (lexAt m pos t).map fun p => (p.1, p.2.lower) := by
  unfold lexAt
  rw [cut?_lower]
  cases t.cut? pos with
  | none => rfl
  | some parts =>
      simp only [Option.map_some, lex_lower, Option.map_map]
      refine congrArg (Option.map · (lex m parts.2)) (funext ?_)
      rintro ⟨tok, rest⟩
      simp

end BibStyle

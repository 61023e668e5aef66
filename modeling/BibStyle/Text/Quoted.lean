import BibStyle.Text
import BibStyle.Text.Printable

/-! # Text made visible

Characters that would not show, or would be taken for a delimiter, are written as escapes.
-/

namespace BibStyle

namespace Text

def hexDigits (n : Nat) : Text := Nat.toDigits 16 n

/-- The form `\u{200b}`. -/
def escapeCode (c : Char) : Text :=
  ['\\', 'u', '{'] ++ hexDigits c.toNat ++ ['}']

/-- What has to be escaped beside the characters that always are. -/
structure Escaping where
  doubleQuote : Bool
  singleQuote : Bool
  combining : Bool
deriving DecidableEq

def Escaping.char (e : Escaping) (c : Char) : Text :=
  if c = '\x00' then ['\\', '0']
  else if c = '\t' then ['\\', 't']
  else if c = '\r' then ['\\', 'r']
  else if c = '\n' then ['\\', 'n']
  else if c = '\\' then ['\\', '\\']
  else if c = '"' && e.doubleQuote then ['\\', '"']
  else if c = '\x27' && e.singleQuote then ['\\', '\x27']
  else if e.combining && isCombining c then escapeCode c
  else if isPrintable c then [c]
  else escapeCode c

/-- The text in double quotes; inside them only the double quote is a delimiter, and accents
without a base are never shown. -/
def quoted (t : Text) : Text := '"' :: t.flatMap (Escaping.char ⟨true, false, true⟩) ++ ['"']

/-- The text on one line, without quotes around it. An accent needs an escape only where nothing
stands before it. -/
def escaped : Text → Text
  | [] => []
  | c :: t => Escaping.char ⟨true, true, true⟩ c ++ t.flatMap (Escaping.char ⟨true, true, false⟩)

/-! ## Line feeds -/

theorem not_mem_hexDigits (n : Nat) : '\n' ∉ hexDigits n := by
  have hdigit : ∀ d < 16, Nat.digitChar d ≠ '\n' := by decide
  rw [hexDigits]
  induction n using Nat.strongRecOn with
  | ind n ih =>
      rcases Nat.lt_or_ge n 16 with h | h
      · rw [Nat.toDigits_of_lt_base h, List.mem_singleton]
        exact (hdigit n h).symm
      · rw [Nat.toDigits_of_base_le (by decide) h, List.mem_append, List.mem_singleton, not_or]
        exact ⟨ih _ (by omega), (hdigit _ (Nat.mod_lt _ (by decide))).symm⟩

theorem not_mem_ite {p : Prop} [Decidable p] {c : Char} {t u : Text} (ht : c ∉ t) (hu : c ∉ u) :
    c ∉ if p then t else u := by
  split
  · exact ht
  · exact hu

theorem Escaping.not_mem_char (e : Escaping) (c : Char) : '\n' ∉ e.char c := by
  have hcode : '\n' ∉ escapeCode c := by
    simp [escapeCode, not_mem_hexDigits]
  by_cases hc : c = '\n'
  · rw [hc, show e.char '\n' = ['\\', 'n'] from rfl]
    decide
  · have hself : '\n' ∉ [c] := by simpa using Ne.symm hc
    have hshown : '\n' ∉ if isPrintable c then [c] else escapeCode c :=
      not_mem_ite hself hcode
    have hquotes := not_mem_ite (p := e.combining && isCombining c) hcode hshown
    refine not_mem_ite (by decide) (not_mem_ite (by decide) (not_mem_ite (by decide) ?_))
    refine not_mem_ite (by decide) (not_mem_ite (by decide) (not_mem_ite (by decide) ?_))
    exact not_mem_ite (by decide) hquotes

/-- An escaped text has no line feeds. -/
theorem not_mem_escaped (t : Text) : '\n' ∉ t.escaped := by
  cases t with
  | nil => nofun
  | cons c t => simp [escaped, Escaping.not_mem_char]

end Text

end BibStyle

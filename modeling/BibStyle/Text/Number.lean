import BibStyle.Text

/-! # Numbers in decimal digits -/

namespace BibStyle

namespace Text

/-- The number that decimal digits write, after the digits of `n`; nothing if another character
occurs. -/
def natFrom? (n : Nat) : Text → Option Nat
  | [] => some n
  | c :: t => if c.isDigit then natFrom? (10 * n + (c.toNat - '0'.toNat)) t else none

/-- The number written by one or more decimal digits. -/
def nat? : Text → Option Nat
  | [] => none
  | t => natFrom? 0 t

theorem natFrom?_of_isDigit {t : Text} (h : ∀ c ∈ t, c.isDigit = true) (n : Nat) :
    natFrom? n t = some (Nat.ofDigitChars 10 t n) := by
  induction t generalizing n with
  | nil => rfl
  | cons c t ih =>
      rw [natFrom?, if_pos (h c List.mem_cons_self), Nat.ofDigitChars_cons]
      exact ih (fun d hd => h d (List.mem_cons_of_mem _ hd)) _

theorem nat?_eq_natFrom? {t : Text} (h : t ≠ []) : nat? t = natFrom? 0 t := by
  cases t with
  | nil => exact absurd rfl h
  | cons c t => rfl

theorem isDigit_of_mem_toString {n : Nat} {c : Char} (h : c ∈ (toString n).toList) :
    c.isDigit = true := by
  rw [Nat.toString_eq_ofList_toDigits, String.toList_ofList] at h
  exact Nat.isDigit_of_mem_toDigits (by decide) (by decide) h

theorem nat?_toString (n : Nat) : nat? (toString n).toList = some n := by
  have hdigits := natFrom?_of_isDigit (fun c hc => isDigit_of_mem_toString (n := n) hc) 0
  rw [Nat.toString_eq_ofList_toDigits, String.toList_ofList] at hdigits ⊢
  rw [nat?_eq_natFrom? Nat.toDigits_ne_nil, hdigits, Nat.ofDigitChars_ten_toDigits]

/-- The number written by decimal digits, after a sign or none. -/
def int? : Text → Option Int
  | '-' :: t => (nat? t).map fun n => -(n : Int)
  | '+' :: t => (nat? t).map Int.ofNat
  | t => (nat? t).map Int.ofNat

end Text

/-- Numbers that fit a signed word of 64 bits. -/
def isInt64 (n : Int) : Bool := -0x8000000000000000 ≤ n && n < 0x8000000000000000

end BibStyle

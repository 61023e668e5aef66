import BibStyle.Text

/-! # Texts from bytes -/

namespace BibStyle

namespace Utf8

/-- Why no text can be read at a place. -/
inductive Fault where
  /-- The bytes there start a character, as far as they are counted, and do not go on with it. -/
  | invalid (length : Nat)
  | incomplete
deriving DecidableEq, Repr

structure Error where
  index : Nat
  fault : Fault
deriving DecidableEq, Repr

def Error.message (e : Error) : String :=
  match e.fault with
  | .invalid n => s!"invalid utf-8 sequence of {n} bytes from index {e.index}"
  | .incomplete => s!"incomplete utf-8 byte sequence from index {e.index}"

/-- What the first byte of a character says: its own bits, the number of bytes that follow, and
the bounds of the first of these, which leave out longer forms than needed, surrogates and what
lies past the last code point. -/
structure Lead where
  bits : Nat
  more : Nat
  low : Nat
  high : Nat

def lead? (b : Nat) : Option Lead :=
  if b < 0x80 then some ⟨b, 0, 0, 0⟩
  else if b < 0xc2 then none
  else if b < 0xe0 then some ⟨b - 0xc0, 1, 0x80, 0xbf⟩
  else if b = 0xe0 then some ⟨0, 2, 0xa0, 0xbf⟩
  else if b = 0xed then some ⟨0xd, 2, 0x80, 0x9f⟩
  else if b < 0xf0 then some ⟨b - 0xe0, 2, 0x80, 0xbf⟩
  else if b = 0xf0 then some ⟨0, 3, 0x90, 0xbf⟩
  else if b < 0xf4 then some ⟨b - 0xf0, 3, 0x80, 0xbf⟩
  else if b = 0xf4 then some ⟨4, 3, 0x80, 0x8f⟩
  else none

/-- Reads the bytes that follow the first, `seen` of the character being read already. -/
def follow (seen : Nat) : (more low high value : Nat) → List UInt8 →
    Except Fault (Nat × List UInt8)
  | 0, _, _, value, bytes => .ok (value, bytes)
  | _ + 1, _, _, _, [] => .error .incomplete
  | more + 1, low, high, value, b :: bytes =>
      if low ≤ b.toNat ∧ b.toNat ≤ high then
        follow (seen + 1) more 0x80 0xbf (64 * value + (b.toNat - 0x80)) bytes
      else .error (.invalid seen)

theorem length_of_follow {seen more low high value v : Nat} {bytes rest : List UInt8}
    (h : follow seen more low high value bytes = .ok (v, rest)) : rest.length ≤ bytes.length := by
  induction more generalizing seen low high value bytes with
  | zero =>
      simp only [follow, Except.ok.injEq, Prod.mk.injEq] at h
      exact Nat.le_of_eq (congrArg List.length h.2.symm)
  | succ more ih =>
      cases bytes with
      | nil => simp [follow] at h
      | cons b bytes =>
          simp only [follow] at h
          split at h
          · exact Nat.le_succ_of_le (ih h)
          · simp at h

/-- The characters of the bytes after `index`; `seen` holds those before it, last first. -/
def decodeFrom (seen : Text) (index : Nat) (bytes : List UInt8) : Except Error Text :=
  match bytes with
  | [] => .ok seen.reverse
  | b :: bytes =>
      match lead? b.toNat with
      | none => .error ⟨index, .invalid 1⟩
      | some lead =>
          match _h : follow 1 lead.more lead.low lead.high lead.bits bytes with
          | .error fault => .error ⟨index, fault⟩
          | .ok (value, rest) => decodeFrom (Char.ofNat value :: seen) (index + 1 + lead.more) rest
termination_by bytes.length
decreasing_by exact Nat.lt_succ_of_le (length_of_follow (by assumption))

def decode (bytes : List UInt8) : Except Error Text := decodeFrom [] 0 bytes

end Utf8

end BibStyle

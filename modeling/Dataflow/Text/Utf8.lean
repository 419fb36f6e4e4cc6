/-!
# Text from bytes

Reads bytes as UTF-8. A run of bytes that begins a character but cannot be completed to one is
replaced as a whole by the replacement character `U+FFFD`; so is a byte that begins none.
-/

namespace Dataflow.Text

/-- The character that stands for what cannot be read. -/
def replacement : Char := '\ufffd'

/-- What a first byte announces: how many further bytes, its share of the code point, and the bounds
of the second byte. -/
def leadByte? (b : Nat) : Option (Nat × Nat × Nat × Nat) :=
  if b < 0x80 then some (0, b, 0, 0)
  else if 0xC2 ≤ b && b ≤ 0xDF then some (1, b - 0xC0, 0x80, 0xBF)
  else if b = 0xE0 then some (2, 0, 0xA0, 0xBF)
  else if b = 0xED then some (2, 0xD, 0x80, 0x9F)
  else if 0xE1 ≤ b && b ≤ 0xEF then some (2, b - 0xE0, 0x80, 0xBF)
  else if b = 0xF0 then some (3, 0, 0x90, 0xBF)
  else if 0xF1 ≤ b && b ≤ 0xF3 then some (3, b - 0xF0, 0x80, 0xBF)
  else if b = 0xF4 then some (3, 4, 0x80, 0x8F)
  else none

/-- Takes `n` further bytes of a character whose next byte lies within the bounds. Returns the code
point if all are there, and the bytes behind those taken. -/
def continueChar (n point low high : Nat) (bytes : List UInt8) : Option Nat × List UInt8 :=
  match n, bytes with
  | 0, bytes => (some point, bytes)
  | _ + 1, [] => (none, [])
  | n + 1, b :: rest =>
    if low ≤ b.toNat && b.toNat ≤ high then
      continueChar n (point * 64 + b.toNat % 64) 0x80 0xBF rest
    else (none, b :: rest)

theorem length_continueChar_le (n point low high : Nat) (bytes : List UInt8) :
    (continueChar n point low high bytes).2.length ≤ bytes.length := by
  fun_induction continueChar n point low high bytes <;> simp_all
  omega

/-- The characters that the bytes stand for; none where there is no character. -/
def decode (bytes : List UInt8) : List (Option Char) :=
  match bytes with
  | [] => []
  | b :: rest =>
    match leadByte? b.toNat with
    | none => none :: decode rest
    | some (n, share, low, high) =>
      (continueChar n share low high rest).1.map Char.ofNat ::
        decode (continueChar n share low high rest).2
termination_by bytes.length
decreasing_by
  · simp
  · have := length_continueChar_le n share low high rest
    simp only [List.length_cons]; omega

/-- The text that the bytes stand for. -/
def ofBytes (bytes : List UInt8) : String :=
  String.ofList ((decode bytes).map (·.getD replacement))

/-- The text that the bytes stand for, if all of them belong to characters. -/
def ofBytes? (bytes : List UInt8) : Option String := do
  return String.ofList (← (decode bytes).mapM id)

end Dataflow.Text

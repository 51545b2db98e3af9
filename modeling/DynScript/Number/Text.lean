import DynScript.Number.Shortest

/-!
# Numbers as text

The language has one kind of number, the double. `Number.text` writes it with the fewest digits that read
back, always in positional notation; `Number.read?` reads digits with an optional fraction.
-/

namespace DynScript.Number

/-- The parts of a double: its sign bit, its biased exponent and the bits of its fraction. -/
structure Parts where
  /-- Whether the sign bit is set. -/
  negative : Bool
  /-- The eleven bits of the exponent. -/
  biased : Nat
  /-- The fifty-two bits of the fraction. -/
  fraction : Nat

/-- Take a double apart. -/
def parts (x : Float) : Parts :=
  let bits := x.toBits.toNat
  ⟨bits / pow2 63 == 1, bits / pow2 52 % pow2 11, bits % pow2 52⟩

/-- The magnitude of a finite double. -/
def Parts.magnitude (p : Parts) : Dyadic :=
  if p.biased = 0 then ⟨p.fraction, Dyadic.minExponent⟩
  else ⟨pow2 52 + p.fraction, p.biased - 1 + Dyadic.minExponent⟩

/-- The text of a number: the fewest digits that read back, no exponent, no point in a whole number, a minus
sign also on a negative zero. -/
def text (x : Float) : String :=
  let p := parts x
  let sign := if p.negative then "-" else ""
  if p.biased = pow2 11 - 1 then
    if p.fraction = 0 then sign ++ "inf" else "NaN"
  else if p.magnitude.mantissa = 0 then sign ++ "0"
  else sign ++ p.magnitude.shortest.positional

/-- The value of a row of digits. -/
def digitsValue (digits : List Char) : Nat :=
  digits.foldl (fun n c => 10 * n + (c.toNat - '0'.toNat)) 0

/-- Whether a text is a row of digits, at least one. -/
def isDigits (cs : List Char) : Bool := !cs.isEmpty && cs.all Char.isDigit

/-- The double nearest to a number written as digits with an optional fraction. -/
def read? (cs : List Char) : Option Float :=
  let whole := cs.takeWhile Char.isDigit
  match cs.dropWhile Char.isDigit with
  | [] => if isDigits whole then some (Float.ofScientific (digitsValue whole) false 0) else none
  | '.' :: fraction =>
    if isDigits whole && isDigits fraction then
      some (Float.ofScientific (digitsValue (whole ++ fraction)) true fraction.length)
    else none
  | _ => none

end DynScript.Number

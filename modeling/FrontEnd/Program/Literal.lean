/-! # Integer literals

`literalValue?` reads an array size: hexadecimal after `0x`, octal after another leading zero,
decimal otherwise. It must have a digit and fit into 64 bits; a plus sign may stand before the
digits.
-/

namespace FrontEnd
set_option autoImplicit false

/-- The value of a digit, if there is such a digit in this base. -/
def digitValue? (base : Nat) (c : Char) : Option Nat :=
  let value? :=
    if '0' ≤ c ∧ c ≤ '9' then some (c.toNat - '0'.toNat)
    else if 'a' ≤ c ∧ c ≤ 'f' then some (c.toNat - 'a'.toNat + 10)
    else if 'A' ≤ c ∧ c ≤ 'F' then some (c.toNat - 'A'.toNat + 10)
    else none
  value?.filter (· < base)

/-- The value of digits that stand to the right of `high`. -/
def digitsValue? (base high : Nat) : List Char → Option Nat
  | [] => some high
  | c :: digits =>
    match digitValue? base c with
    | some low => digitsValue? base (high * base + low) digits
    | none => none

/-- The first number that 64 bits do not hold, the sixty-fourth power of two. -/
def sizeLimit : Nat := 18446744073709551616

def unsignedValue? (base : Nat) (text : List Char) : Option Nat :=
  let digits := match text with
    | '+' :: digits => digits
    | _ => text
  if digits.isEmpty then none else (digitsValue? base 0 digits).filter (· < sizeLimit)

def literalValue? (text : String) : Option Nat :=
  match text.toList with
  | '0' :: 'x' :: digits | '0' :: 'X' :: digits => unsignedValue? 16 digits
  | '0' :: c :: digits => unsignedValue? 8 (c :: digits)
  | digits => unsignedValue? 10 digits

end FrontEnd

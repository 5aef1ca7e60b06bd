import HostBindings.Text.DecimalDigit

/-!
Whole numbers as a user writes them: digits of any script, an underscore allowed between two of
them, a sign in front and blanks around. There is a limit to the digits.
-/

namespace HostBindings.Text.Integer

/-- Blanks of all scripts, line ends included. -/
def isBlank (c : CodePoint) : Bool :=
  let n := c.val
  (9 ≤ n && n ≤ 13) || n = 0x20 || n = 0x85 || n = 0xA0 || n = 0x1680 ||
    (0x2000 ≤ n && n ≤ 0x200A) || n = 0x2028 || n = 0x2029 || n = 0x202F || n = 0x205F ||
    n = 0x3000

/-- The text without blanks at its ends. -/
def strip (t : Text) : Text := ((t.dropWhile isBlank).reverse.dropWhile isBlank).reverse

/-- The values of the digits after the first one; an underscore needs a digit after it. -/
def moreDigits : Text → Option (List Nat)
  | [] => some []
  | c :: rest =>
    if c = '_' then
      match rest with
      | [] => none
      | d :: rest => (DecimalDigit.value? d).bind fun v => (moreDigits rest).map (v :: ·)
    else (DecimalDigit.value? c).bind fun v => (moreDigits rest).map (v :: ·)

/-- The values of the digits of a number, which has at least one. -/
def digits? : Text → Option (List Nat)
  | [] => none
  | c :: rest => (DecimalDigit.value? c).bind fun v => (moreDigits rest).map (v :: ·)

/-- The largest number of digits, zeros in front included. -/
def maxDigits : Nat := 4300

/-- The number that digits stand for. -/
def natural? (t : Text) : Option Nat :=
  ((digits? t).filter fun ds => ds.length ≤ maxDigits).map fun ds =>
    ds.foldl (fun n v => n * 10 + v) 0

/-- The whole number that a text stands for. -/
def read? (t : Text) : Option Int :=
  match strip t with
  | [] => none
  | c :: rest =>
    if c = '-' then (natural? rest).map fun n => -(n : Int)
    else if c = '+' then (natural? rest).map Int.ofNat
    else (natural? (c :: rest)).map Int.ofNat

end HostBindings.Text.Integer

import HostBindings.Text

/-!
Double-quoted string literals in ASCII.

The quote and the backslash are escaped by a backslash, five control characters have letters,
and every other code point outside the visible ASCII range is written by its UTF-16 code units
in four hexadecimal digits each.
-/

namespace HostBindings.Text.Quoted

/-- The lower-case hexadecimal digit of a number below sixteen. -/
def hexDigit (n : Nat) : CodePoint := CodePoint.ofChar (Nat.digitChar (n % 16))

/-- A number below 65536 in four hexadecimal digits. -/
def hex4 (n : Nat) : Text :=
  [hexDigit (n / 4096), hexDigit (n / 256), hexDigit (n / 16), hexDigit n]

/-- One UTF-16 code unit as an escape. -/
def unitEscape (n : Nat) : Text := '\\' :: 'u' :: hex4 n

/-- The UTF-16 code units of a code point: two above `FFFF`, a surrogate pair. -/
def units (c : CodePoint) : List Nat :=
  if c.val < 0x10000 then [c.val]
  else [0xD800 + (c.val - 0x10000) / 0x400, 0xDC00 + (c.val - 0x10000) % 0x400]

/-- The letter that names a control character after a backslash. -/
def controlLetter? (c : CodePoint) : Option CodePoint :=
  if c.val = 0x0A then some 'n'
  else if c.val = 0x0D then some 'r'
  else if c.val = 0x09 then some 't'
  else if c.val = 0x08 then some 'b'
  else if c.val = 0x0C then some 'f'
  else none

/-- A code point as it stands inside a literal. -/
def escape (c : CodePoint) : Text :=
  if c = '"' then "\\\""
  else if c = '\\' then "\\\\"
  else if 0x20 ≤ c.val && c.val ≤ 0x7E then [c]
  else
    match controlLetter? c with
    | some letter => ['\\', letter]
    | none => (units c).flatMap unitEscape

/-- The whole literal, quotes included. -/
def literal (t : Text) : Text := "\"" ++ t.flatMap escape ++ "\""

end HostBindings.Text.Quoted

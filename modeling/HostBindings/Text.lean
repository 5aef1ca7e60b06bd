/-!
Text as a list of Unicode code points.

A string escape may name a surrogate on its own, so text is not a list of characters: every
code point up to `10FFFF` is admitted. All positions, lengths and orders below count code points.
-/

namespace HostBindings

/-- A Unicode code point, surrogates included. -/
abbrev CodePoint := Fin 0x110000

namespace CodePoint

/-- The code point of a character. -/
def ofChar (c : Char) : CodePoint :=
  ⟨c.toNat, by
    have h := c.valid
    simp only [UInt32.isValidChar, Nat.isValidChar] at h
    simp only [Char.toNat]
    omega⟩

instance : Coe Char CodePoint := ⟨ofChar⟩

def isUpper (c : CodePoint) : Bool := 0x41 ≤ c.val && c.val ≤ 0x5A

def isLower (c : CodePoint) : Bool := 0x61 ≤ c.val && c.val ≤ 0x7A

def isDigit (c : CodePoint) : Bool := 0x30 ≤ c.val && c.val ≤ 0x39

def isLetter (c : CodePoint) : Bool := c.isUpper || c.isLower

/-- Letters, digits and the underscore: what an identifier of the output may hold. -/
def isWord (c : CodePoint) : Bool := c.isLetter || c.isDigit || c == '_'

/-- Half of a pair that stands for one code point in another encoding; alone it has no bytes. -/
def isSurrogate (c : CodePoint) : Bool := 0xD800 ≤ c.val && c.val ≤ 0xDFFF

/-- The value of a hexadecimal digit of either case. -/
def hexValue? (c : CodePoint) : Option Nat :=
  if c.isDigit then some (c.val - 0x30)
  else if 0x61 ≤ c.val && c.val ≤ 0x66 then some (c.val - 0x57)
  else if 0x41 ≤ c.val && c.val ≤ 0x46 then some (c.val - 0x37)
  else none

/-- Lower case of an ASCII letter; every other code point is kept. -/
def toLower (c : CodePoint) : CodePoint :=
  if h : 0x41 ≤ c.val ∧ c.val ≤ 0x5A then ⟨c.val + 0x20, by omega⟩ else c

/-- The character of a code point; a surrogate has none and shows as the replacement character. -/
def toChar (c : CodePoint) : Char :=
  if c.val.isValidChar then Char.ofNat c.val else Char.ofNat 0xFFFD

end CodePoint

/-- A sequence of code points. -/
abbrev Text := List CodePoint

namespace Text

def ofString (s : String) : Text := s.toList.map CodePoint.ofChar

instance : Coe String Text := ⟨ofString⟩

def toString (t : Text) : String := String.ofList (t.map CodePoint.toChar)

/-- The decimal digits of a number, most significant first. -/
def decimal (n : Nat) : Text := (Nat.toDigits 10 n).map CodePoint.ofChar

/-- A whole number in decimal digits, with a sign if it is below zero. -/
def integer : Int → Text
  | .ofNat n => decimal n
  | .negSucc n => "-" ++ decimal (n + 1)

/-- The parts with a separator between neighbours. -/
def join (separator : Text) (parts : List Text) : Text := separator.intercalate parts

/-- The maximal runs free of `separator`, in order: one more than the separators in the text. -/
def split (separator : CodePoint) : Text → List Text
  | [] => [[]]
  | c :: rest =>
    if c == separator then [] :: split separator rest
    else
      match split separator rest with
      | [] => [[c]]
      | part :: parts => (c :: part) :: parts

/-- The text without `ending`, when it ends so. -/
def dropEnding? (ending : Text) (t : Text) : Option Text :=
  if ending.isSuffixOf t then some (t.take (t.length - ending.length)) else none

def startsWith (t beginning : Text) : Bool := beginning.isPrefixOf t

def endsWith (t ending : Text) : Bool := ending.isSuffixOf t

end Text

end HostBindings

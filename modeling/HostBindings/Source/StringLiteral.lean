import HostBindings.Failure

/-!
The text that a string literal stands for.
-/

namespace HostBindings.Source.StringLiteral

/-- The number that hexadecimal digits stand for. -/
def hexNumber (t : Text) : Nat := t.foldl (fun n c => 16 * n + c.hexValue?.getD 0) 0

def isHex (c : CodePoint) : Bool := c.hexValue?.isSome

/-- The code point of a number, if there is one. -/
def codePoint (n : Nat) : Except Fault CodePoint :=
  if h : n < 0x110000 then .ok ⟨n, h⟩
  else if n ≤ 0x7FFFFFFF then .error .escapeOutOfRange
  else .error .escapeOverflow

/-- The digits of an escape with braces, when `t` goes on with one after its letter. -/
def braced? (t : Text) : Option Text :=
  match t with
  | [] => none
  | c :: rest =>
    let digits := rest.takeWhile isHex
    let closed := (rest.drop digits.length).head? = some (CodePoint.ofChar '\x7d')
    if c = '\x7b' && !digits.isEmpty && closed then some digits else none

/-- The first `n` code points, if they are hexadecimal digits. -/
def fixed? (n : Nat) (t : Text) : Option Text :=
  let digits := t.take n
  if digits.length = n && digits.all isHex then some digits else none

/-- What a single code point after a backslash stands for. -/
def simple (c : CodePoint) : Text :=
  if c = 'n' then "\n"
  else if c = 't' then "\t"
  else if c = 'r' then "\r"
  else if c = '0' then "\x00"
  else if c = 'b' then "\x08"
  else if c = 'f' then "\x0C"
  else if c = 'v' then "\x0B"
  else if c = '\n' then []
  else [c]

/-- What an escape stands for, and how many code points it takes after the first one. -/
def escape (c : CodePoint) (rest : Text) : Except Fault Text × Nat :=
  let numbered (digits : Text) (extra : Nat) : Except Fault Text × Nat :=
    ((codePoint (hexNumber digits)).map fun p => [p], digits.length + extra)
  if c = 'u' then
    match braced? rest with
    | some digits => numbered digits 2
    | none =>
      match fixed? 4 rest with
      | some digits => numbered digits 0
      | none => (.ok (simple c), 0)
  else if c = 'x' then
    match fixed? 2 rest with
    | some digits => numbered digits 0
    | none => (.ok (simple c), 0)
  else (.ok (simple c), 0)

/-- Where the reading stands: how many code points to pass over, and whether a backslash came
before. -/
inductive Position
  | passing (count : Nat)
  | escaped

/-- Resolves the escapes of a text from left to right. -/
def resolve : Position → Text → Except Fault Text
  | _, [] => .ok []
  | .passing (count + 1), _ :: rest => resolve (.passing count) rest
  | .escaped, c :: rest => do
    let (value, count) := escape c rest
    let value ← value
    let tail ← resolve (.passing count) rest
    return value ++ tail
  | .passing 0, c :: rest =>
    if c = '\\' then resolve .escaped rest
    else do
      let tail ← resolve (.passing 0) rest
      return c :: tail

/-- The text of a literal, quotes taken off and escapes resolved. -/
def decode (literal : Text) : Except Fault Text := resolve (.passing 0) (literal.drop 1).dropLast

end HostBindings.Source.StringLiteral

import HostBindings.Text

/-!
UTF-8: the bytes of a text and the text of bytes.

Reading is strict. Every code point has one form, the shortest, and surrogates have none.
-/

namespace HostBindings.Text.Utf8

/-- A byte after the first of a form, with the lowest six bits of a number. -/
def trail (n : Nat) : UInt8 := UInt8.ofNat (0x80 + n % 0x40)

/-- The bytes of a code point. -/
def encodeOne (c : CodePoint) : List UInt8 :=
  let n := c.val
  if n < 0x80 then [UInt8.ofNat n]
  else if n < 0x800 then [UInt8.ofNat (0xC0 + n / 0x40), trail n]
  else if n < 0x10000 then [UInt8.ofNat (0xE0 + n / 0x1000), trail (n / 0x40), trail n]
  else [UInt8.ofNat (0xF0 + n / 0x40000), trail (n / 0x1000), trail (n / 0x40), trail n]

def encode (t : Text) : List UInt8 := t.flatMap encodeOne

/-- The six bits of a byte that follows the first one of a form. -/
def trailBits? (b : UInt8) : Option Nat :=
  if 0x80 ≤ b.toNat && b.toNat < 0xC0 then some (b.toNat - 0x80) else none

/-- The code point of a number, if it needs a form that long and is no surrogate. -/
def codePoint? (least n : Nat) : Option CodePoint :=
  if h : n < 0x110000 then
    if least ≤ n && !(0xD800 ≤ n && n < 0xE000) then some ⟨n, h⟩ else none
  else none

/-- The text that the bytes stand for, if they stand for one. -/
def decode : List UInt8 → Option Text
  | [] => some []
  | a :: rest =>
    let n := a.toNat
    if n < 0x80 then do
      let c ← codePoint? 0 n
      let tail ← decode rest
      return c :: tail
    else if n < 0xC0 then none
    else if n < 0xE0 then
      match rest with
      | b :: rest => do
        let x ← trailBits? b
        let c ← codePoint? 0x80 ((n - 0xC0) * 0x40 + x)
        let tail ← decode rest
        return c :: tail
      | _ => none
    else if n < 0xF0 then
      match rest with
      | b :: b' :: rest => do
        let x ← trailBits? b
        let y ← trailBits? b'
        let c ← codePoint? 0x800 ((n - 0xE0) * 0x1000 + x * 0x40 + y)
        let tail ← decode rest
        return c :: tail
      | _ => none
    else
      match rest with
      | b :: b' :: b'' :: rest => do
        let x ← trailBits? b
        let y ← trailBits? b'
        let z ← trailBits? b''
        let c ← codePoint? 0x10000 ((n - 0xF0) * 0x40000 + x * 0x1000 + y * 0x40 + z)
        let tail ← decode rest
        return c :: tail
      | _ => none

end HostBindings.Text.Utf8

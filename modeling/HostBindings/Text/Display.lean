import HostBindings.Text.Quoted
import HostBindings.Text.Visible

/-!
Text as an error message shows it: in quotes, with the code points escaped that have no visible
form.
-/

namespace HostBindings.Text.Display

/-- A number in at least `width` lower-case hexadecimal digits; higher digits are dropped. -/
def hexDigits : Nat → Nat → Text
  | 0, _ => []
  | width + 1, n => hexDigits width (n / 16) ++ [Quoted.hexDigit n]

/-- A code point without a visible form, by its number. -/
def numbered (c : CodePoint) : Text :=
  if c.val < 0x100 then "\\x" ++ hexDigits 2 c.val
  else if c.val < 0x10000 then "\\u" ++ hexDigits 4 c.val
  else "\\U" ++ hexDigits 8 c.val

/-- A code point inside quotes of the given kind. -/
def shown (quote c : CodePoint) : Text :=
  if c = quote || c = '\\' then ['\\', c]
  else if c = '\n' then "\\n"
  else if c = '\r' then "\\r"
  else if c = '\t' then "\\t"
  else if Visible.isVisible c then [c]
  else numbered c

def singleQuote : CodePoint := ⟨0x27, by decide⟩

def doubleQuote : CodePoint := ⟨0x22, by decide⟩

/-- Single quotes, unless the text holds some of these and none of the double ones. -/
def quoteFor (t : Text) : CodePoint :=
  if t.contains singleQuote && !t.contains doubleQuote then doubleQuote else singleQuote

/-- The text in quotes. -/
def quoted (t : Text) : Text :=
  let quote := quoteFor t
  [quote] ++ t.flatMap (shown quote) ++ [quote]

end HostBindings.Text.Display

import HostBindings.Diagnostic
import HostBindings.Source.Terminal
import HostBindings.Text.DecimalDigit

/-!
Tokens of a source text.

White space and comments stand between tokens and are skipped. At each place the first kind of
lexeme that fits is taken, and as much of it as fits; words, literals and comments are tried before
punctuation.
-/

namespace HostBindings.Source

/-- A piece of source text with its kind and its place. -/
structure Token where
  kind : Terminal
  text : Text
  loc : Location
deriving DecidableEq, Repr

namespace Lexeme

def isBlank (c : CodePoint) : Bool :=
  c = ' ' || c = '\t' || c.val = 0x0C || c = '\r' || c = '\n'

def isNameStart (c : CodePoint) : Bool := c.isLetter || c = '_' || c = '$'

def isNamePart (c : CodePoint) : Bool := isNameStart c || c.isDigit

/-- A matcher gives the length of the lexeme at the start of a text, if there is one. -/
abbrev Matcher := Text → Option Nat

/-- The length of the longest run of a class of code points. -/
def run (isIn : CodePoint → Bool) (t : Text) : Nat := (t.takeWhile isIn).length

/-- A run that must not be empty. -/
def run1 (isIn : CodePoint → Bool) : Matcher := fun t =>
  match run isIn t with
  | 0 => none
  | n => some n

def blank : Matcher := run1 isBlank

def lineComment : Matcher
  | [] => none
  | c :: rest =>
    match rest with
    | [] => none
    | d :: rest => if c = '/' && d = '/' then some (2 + run (· != '\n') rest) else none

/-- The length up to and with the end of a comment. -/
def commentEnd : Matcher
  | [] => none
  | c :: rest =>
    if c = '*' && rest.head? = some (CodePoint.ofChar '/') then some 2
    else (commentEnd rest).map (· + 1)

def blockComment : Matcher
  | [] => none
  | c :: rest =>
    match rest with
    | [] => none
    | d :: rest => if c = '/' && d = '*' then (commentEnd rest).map (· + 2) else none

def name : Matcher
  | [] => none
  | c :: rest => if isNameStart c then some (1 + run isNamePart rest) else none

def privateName : Matcher
  | [] => none
  | c :: rest => if c = '#' then (name rest).map (· + 1) else none

/-- The length up to and with the closing quote. A backslash takes the next code point with it,
which may not be a line end; other line ends are admitted only if `multiline`. -/
def quoteEnd (quote : CodePoint) (multiline : Bool) (escaped : Bool) : Matcher
  | [] => none
  | c :: rest =>
    if escaped then
      if c = '\n' then none else (quoteEnd quote multiline false rest).map (· + 1)
    else if c = quote then some 1
    else if c = '\\' then (quoteEnd quote multiline true rest).map (· + 1)
    else if c = '\n' && !multiline then none
    else (quoteEnd quote multiline false rest).map (· + 1)

def quoted (quote : CodePoint) (multiline : Bool) : Matcher
  | [] => none
  | c :: rest => if c = quote then (quoteEnd quote multiline false rest).map (· + 1) else none

def singleQuote : CodePoint := 0x27

def doubleQuote : CodePoint := 0x22

def backquote : CodePoint := 0x60

def string : Matcher := fun t => quoted doubleQuote false t <|> quoted singleQuote false t

def template : Matcher := quoted backquote true

/-- One matcher after another; the second may match nothing. -/
def followedBy (first : Matcher) (second : Text → Nat) : Matcher := fun t =>
  (first t).map fun n => n + second (t.drop n)

/-- The big-integer mark at the end of a number, if it is there. -/
def bigMark (t : Text) : Nat :=
  match t with
  | c :: _ => if c = 'n' then 1 else 0
  | [] => 0

def isHexPart (c : CodePoint) : Bool := c.hexValue?.isSome || c = '_'

def isBinaryPart (c : CodePoint) : Bool := c = '0' || c = '1' || c = '_'

def isOctalPart (c : CodePoint) : Bool := (0x30 ≤ c.val && c.val ≤ 0x37) || c = '_'

/-- A number with a radix letter after a zero. -/
def radixNumber (lower upper : CodePoint) (isPart : CodePoint → Bool) : Matcher
  | [] => none
  | c :: rest =>
    match rest with
    | [] => none
    | d :: rest =>
      if c = '0' && (d = lower || d = upper) then
        (followedBy (run1 isPart) bigMark rest).map (· + 2)
      else none

def isDecimalPart (c : CodePoint) : Bool := Text.DecimalDigit.isDecimal c || c = '_'

/-- Digits and underscores that start with a digit. -/
def digits : Matcher
  | [] => none
  | c :: rest =>
    if Text.DecimalDigit.isDecimal c then some (1 + run isDecimalPart rest) else none

/-- A point and digits after it, if the point is there. -/
def fraction : Text → Nat
  | [] => 0
  | c :: rest => if c = '.' then 1 + run isDecimalPart rest else 0

/-- A point that digits follow. -/
def pointFirst : Matcher
  | [] => none
  | c :: rest => if c = '.' then (digits rest).map (· + 1) else none

/-- The sign of an exponent, if it is there. -/
def sign : Text → Nat
  | [] => 0
  | c :: _ => if c = '+' || c = '-' then 1 else 0

/-- An exponent, if it is complete. -/
def exponent : Text → Nat
  | [] => 0
  | c :: rest =>
    if c = 'e' || c = 'E' then
      match run Text.DecimalDigit.isDecimal (rest.drop (sign rest)) with
      | 0 => 0
      | n => 1 + sign rest + n
    else 0

def decimalNumber : Matcher :=
  followedBy (followedBy (fun t => followedBy digits fraction t <|> pointFirst t) exponent) bigMark

def number : Matcher := fun t =>
  radixNumber 'x' 'X' isHexPart t <|> radixNumber 'b' 'B' isBinaryPart t <|>
    radixNumber 'o' 'O' isOctalPart t <|> decimalNumber t

/-- The first mark that a text starts with. -/
def mark? (t : Text) : Option (Terminal × Nat) :=
  (Terminal.marks.find? fun mark => t.startsWith mark.spelling).map fun mark =>
    (mark, mark.spelling.length)

/-- What stands at the start of a text: a lexeme without a kind is skipped. -/
def next? (t : Text) : Option (Option Terminal × Nat) :=
  ((blank t <|> lineComment t <|> blockComment t).map fun n => (none, n)) <|>
  ((name t).map fun n => (some (Terminal.ofWord (t.take n)), n)) <|>
  ((privateName t).map fun n => (some .privateName, n)) <|>
  ((string t).map fun n => (some .string, n)) <|>
  ((template t).map fun n => (some .template, n)) <|>
  ((number t).map fun n => (some .number, n)) <|>
  (mark? t).map fun (kind, n) => (some kind, n)

end Lexeme

/-- The tokens of a text up to the first place where no lexeme fits, and that place with the code
point there. -/
structure Tokens where
  tokens : List Token
  stop : Option (Location × CodePoint)
deriving DecidableEq, Repr

namespace Tokens

/-- Reads tokens from a place on. -/
def scan : Nat → Location → Text → Tokens
  | _, _, [] => { tokens := [], stop := none }
  | 0, loc, c :: _ => { tokens := [], stop := some (loc, c) }
  | fuel + 1, loc, c :: rest =>
    match Lexeme.next? (c :: rest) with
    | none => { tokens := [], stop := some (loc, c) }
    | some (kind, n) =>
      let lexeme := (c :: rest).take n
      let after := scan fuel (Location.after loc lexeme) ((c :: rest).drop n)
      match kind with
      | none => after
      | some kind => { after with tokens := ⟨kind, lexeme, loc⟩ :: after.tokens }

/-- The tokens of a source text. -/
def ofText (source : Text) : Tokens := scan source.length Location.origin source

end Tokens

end HostBindings.Source

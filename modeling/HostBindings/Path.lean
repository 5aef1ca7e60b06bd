import HostBindings.Text.Utf8

/-!
Paths in a tree of files.
-/

namespace HostBindings

/-- A path by its parts. Empty parts and parts that stay in place are left out when a path is
read; a part that climbs is kept, since what it leaves may be missing. -/
structure Path where
  /-- The slashes in front of a path that starts at the root: one, or two if just two were
  written. -/
  root : Text := []
  parts : List Text
deriving DecidableEq, Repr

namespace Path

/-- The part that climbs to the directory above. -/
def climb : Text := ".."

/-- Whether a part of a written path counts. -/
def isPart (part : Text) : Bool := part != [] && part != "."

/-- The root that a written path names by its slashes in front. -/
def rootOf (t : Text) : Text :=
  let slashes := t.takeWhile (· == CodePoint.ofChar '/')
  if slashes.length ≤ 2 then slashes else "/"

def ofText (t : Text) : Path := { root := rootOf t, parts := (t.split '/').filter isPart }

/-- The path as it is written; one without root and parts is the directory itself. -/
def toText (p : Path) : Text :=
  if p.root.isEmpty && p.parts.isEmpty then "." else p.root ++ Text.join "/" p.parts

/-- Whether the path starts at the root. -/
def isAbsolute (p : Path) : Bool := !p.root.isEmpty

/-- The path of parts below this one. -/
def below (p : Path) (parts : List Text) : Path := { p with parts := p.parts ++ parts }

/-- The path of a name below this one; an empty name stays in place. -/
def child (p : Path) (name : Text) : Path := p.below ([name].filter isPart)

/-- The path without its last part. -/
def parent (p : Path) : Path := { p with parts := p.parts.dropLast }

/-- The last part. -/
def name (p : Path) : Text := p.parts.getLastD []

/-- The surrogates that stand for single bytes which are no text. -/
def isLooseByte (c : CodePoint) : Bool := 0xDC80 ≤ c.val && c.val ≤ 0xDCFF

/-- Whether every code point of the path has bytes. -/
def isEncodable (t : Text) : Bool := t.all fun c => !c.isSurrogate || isLooseByte c

/-- The number of bytes of a name. -/
def byteCount (t : Text) : Nat :=
  t.foldl (fun count c =>
    count + if isLooseByte c then 1 else (Text.Utf8.encodeOne c).length) 0

/-- The largest number of bytes of a part. -/
def maxPartBytes : Nat := 255

/-- The largest number of bytes of a path. -/
def maxBytes : Nat := 4095

end Path

end HostBindings

import HostBindings.Identifier

/-!
Module specifiers as Rust paths, relative to the unit that imports them.
-/

namespace HostBindings.Specifier

/-- File endings that a specifier may write and a module name leaves out. -/
def extensions : List Text := [".d.ts", ".ts", ".js"]

/-- A segment without its file ending; a segment that is nothing else is kept. -/
def stem (segment : Text) : Text :=
  match extensions.find? fun ending =>
      segment.endsWith ending && ending.length < segment.length with
  | some ending => segment.take (segment.length - ending.length)
  | none => segment

/-- Path segments of a specifier's segments. Each unit is a module of its own, so `.` already
leaves it; the first `..` leaves the unit and its directory, each further one only a directory. -/
def pathOf (suffix : Text) (climbed : Bool) : List Text → List Text
  | [] => []
  | segment :: rest =>
    if segment = [] then pathOf suffix climbed rest
    else if segment = "." then "super" :: pathOf suffix climbed rest
    else if segment = ".." then
      if climbed then "super" :: pathOf suffix true rest
      else "super" :: "super" :: pathOf suffix true rest
    else Identifier.scopeName suffix (stem segment) :: pathOf suffix climbed rest

/-- The Rust path of the module that a specifier denotes. -/
def path (suffix specifier : Text) : List Text := pathOf suffix false (specifier.split '/')

/-- Whether a specifier names a file rather than a package. -/
def isRelative (specifier : Text) : Bool :=
  specifier = "." || specifier = ".." || specifier.startsWith "./" || specifier.startsWith "../"

end HostBindings.Specifier

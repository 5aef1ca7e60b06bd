import HostBindings.Text

/-!
Line ends. A file may end its lines by a line feed, a carriage return or both; a text has line
feeds only.
-/

namespace HostBindings.Text

/-- Drops line feeds that directly follow a carriage return and makes the latter line feeds;
`afterReturn` tells whether the previous one was a carriage return. -/
def unifyFrom (afterReturn : Bool) : Text → Text
  | [] => []
  | c :: rest =>
    if c = '\r' then '\n' :: unifyFrom true rest
    else if c = '\n' && afterReturn then unifyFrom false rest
    else c :: unifyFrom false rest

/-- Every line end becomes one line feed. -/
def unifyLineEnds (t : Text) : Text := unifyFrom false t

end HostBindings.Text

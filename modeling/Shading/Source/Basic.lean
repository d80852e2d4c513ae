import Shading.Source.Line

/-!
# The code of a source

A source is reduced to its code: block comments and doubled exclamation marks are taken
out, then the lines are read in order, and the lines of code, trimmed, are joined again.
-/

namespace Shading.Source

/-- The lines of a source, without block comments and doubled exclamation marks. -/
def rawLines (source : Text) : List Text :=
  (Text.replaceAll ['!', '!'] [] (dropBlockComments source)).splitOn '\n'

/-- The lines of a source as read, up to the first malformed one. -/
def lines (source : Text) : List Line :=
  Line.readAll [] (rawLines source)

/-- The code of a source, or the fault of its first malformed line. -/
def code (source : Text) : Except Fault Text :=
  (Line.codes (lines source)).map fun codes => ['\n'].intercalate codes

/-- What reading a source reports. -/
def events (source : Text) : List Event :=
  (lines source).filterMap Line.event?

end Shading.Source

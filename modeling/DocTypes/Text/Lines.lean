import DocTypes.Text.Blank

set_option autoImplicit false

/-!
# Lines

A line ends at a line feed or at the end of the text; a carriage return right before the line feed
belongs to the ending. No empty line follows the last ending.
-/

namespace DocTypes.Text

def consToFirst (c : Char) : List Text → List Text
  | [] => [[c]]
  | line :: later => (c :: line) :: later

def lines : Text → List Text
  | [] => []
  | c :: rest =>
    if c = '\n' then [] :: lines rest
    else if c = '\r' ∧ rest.head? = some '\n' then lines rest
    else consToFirst c (lines rest)

end DocTypes.Text

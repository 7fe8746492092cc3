import DocTypes.Bracket
import DocTypes.Text.Lines
import DocTypes.Text.Start

set_option autoImplicit false

/-!
# Doc comments

A doc comment is a summary, a blank line and a body. A line of the body declares the type of a name
when it starts with the name, a space and the type in round brackets, and goes on with a colon. The
last declaration of a name counts.
-/

namespace DocTypes.DocComment

/-- The lines after the first blank one. -/
def body (doc : Text) : List Text :=
  ((Text.lines doc).dropWhile fun line => Text.trim line ≠ []).drop 1

def declaredIn? (name line : Text) : Option Text :=
  match Text.after? (name ++ [' ', '(']) (Text.trimStart line) with
  | none => none
  | some rest =>
    match Bracket.cut? [.round] rest with
    | some (type, ':' :: _) => some (Text.trim type)
    | _ => none

/-- The type declared for a name. -/
def declared? (doc name : Text) : Option Text :=
  ((body doc).filterMap (declaredIn? name)).getLast?

def returnNames : List Text := ["return".toList, "returns".toList]

/-- The type declared for what is returned. -/
def returned? (doc : Text) : Option Text := returnNames.findSome? (declared? doc)

end DocTypes.DocComment

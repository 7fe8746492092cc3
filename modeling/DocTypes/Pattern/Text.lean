import DocTypes.Pattern
import DocTypes.Text.Numeral

set_option autoImplicit false

/-!
# Text of a pattern

The canonical text of a pattern is an expression for it, with one way of setting blanks. The tree of
a pattern has one line for each construct, two blanks further in for each level.
-/

namespace DocTypes.Pattern

mutual

def text : Pattern → Text
  | any => []
  | unresolved name => name
  | union alternatives => ['|'].intercalate (texts alternatives)
  | list element => '[' :: (element.text ++ [']'])
  | tuple items => '(' :: ([',', ' '].intercalate (texts items) ++ [')'])
  | set element => '<' :: (element.text ++ ['>'])
  | map key value => '{' :: (key.text ++ ':' :: ' ' :: value.text ++ ['}'])
  | record fields => '{' :: ([',', ' '].intercalate (fieldTexts fields) ++ ['}'])
  | named name _ => name
termination_by structural pattern => pattern

def texts : List Pattern → List Text
  | [] => []
  | pattern :: more => pattern.text :: texts more
termination_by structural patterns => patterns

def fieldTexts : List (Text × Pattern) → List Text
  | [] => []
  | (name, pattern) :: more => (name ++ ':' :: ' ' :: pattern.text) :: fieldTexts more
termination_by structural fields => fields

end

theorem texts_eq_map (patterns : List Pattern) : texts patterns = patterns.map text := by
  induction patterns with
  | nil => rfl
  | cons pattern more ih => simp [texts, ih]

theorem fieldTexts_eq_map (fields : List (Text × Pattern)) :
    fieldTexts fields = fields.map fun field => field.1 ++ ':' :: ' ' :: field.2.text := by
  induction fields with
  | nil => rfl
  | cons field more ih => simp [fieldTexts, ih]

/-- A line of a tree, `depth` levels in. -/
def treeLine (depth : Nat) (content : Text) : Text :=
  List.replicate (2 * depth) ' ' ++ content ++ ['\n']

def typesText (types : TypeSet) : Text :=
  '{' :: ([',', ' '].intercalate (types.members.map TypeRef.text) ++ ['}'])

mutual

def tree (depth : Nat) : Pattern → Text
  | any => treeLine depth "any".toList
  | unresolved name => treeLine depth ("any (unresolved ".toList ++ name ++ [')'])
  | union alternatives => treeLine depth "union".toList ++ trees (depth + 1) alternatives
  | list element => treeLine depth "list".toList ++ element.tree (depth + 1)
  | tuple items =>
    treeLine depth ("tuple/".toList ++ Text.ofNat items.length) ++ trees (depth + 1) items
  | set element => treeLine depth "set".toList ++ element.tree (depth + 1)
  | map key value =>
    treeLine depth "dict".toList ++ key.tree (depth + 1) ++ value.tree (depth + 1)
  | record fields => treeLine depth "record".toList ++ fieldTrees (depth + 1) fields
  | named name types =>
    treeLine depth ("named ".toList ++ name ++ " = ".toList ++ typesText types)
termination_by structural pattern => pattern

def trees (depth : Nat) : List Pattern → Text
  | [] => []
  | pattern :: more => pattern.tree depth ++ trees depth more
termination_by structural patterns => patterns

def fieldTrees (depth : Nat) : List (Text × Pattern) → Text
  | [] => []
  | (name, pattern) :: more =>
    treeLine depth ('.' :: name) ++ pattern.tree (depth + 1) ++ fieldTrees depth more
termination_by structural fields => fields

end

end DocTypes.Pattern

import DocTypes.Binary64.Decimal
import DocTypes.Text.Quoted
import DocTypes.Value

set_option autoImplicit false

/-!
# Text of a value

The text that shows a value to a reader: members between commas, strings and bytes in quotes, and a
name in angle brackets for what has no literal form.
-/

namespace DocTypes.Value

def commaSeparated (parts : List Text) : Text := [',', ' '].intercalate parts

mutual

def text : Value → Text
  | null => "None".toList
  | bool true => "True".toList
  | bool false => "False".toList
  | int n => Text.ofInt n.toInt
  | float x => x.text
  | str s => Text.quoted s
  | bytes b => Text.quotedBytes b
  | list items => '[' :: (commaSeparated (texts items) ++ [']'])
  | tuple items =>
    '(' :: (commaSeparated (texts items) ++ if items.length = 1 then [',', ')'] else [')'])
  | set [] => "set()".toList
  | set (member :: members) => '{' :: (commaSeparated (member.text :: texts members) ++ ['}'])
  | dict entries => '{' :: (commaSeparated (entryTexts entries) ++ ['}'])
  | function name => "<function ".toList ++ name ++ ['>']
  | method name => "<method ".toList ++ name ++ ['>']
  | object type => '<' :: (type.path ++ " object>".toList)
termination_by structural value => value

def texts : List Value → List Text
  | [] => []
  | value :: more => value.text :: texts more
termination_by structural values => values

def entryTexts : List (Value × Value) → List Text
  | [] => []
  | (key, value) :: more => (key.text ++ ':' :: ' ' :: value.text) :: entryTexts more
termination_by structural entries => entries

end

theorem texts_eq_map (values : List Value) : texts values = values.map text := by
  induction values with
  | nil => rfl
  | cons value more ih => simp [texts, ih]

def entryText (entry : Value × Value) : Text := entry.1.text ++ ':' :: ' ' :: entry.2.text

theorem entryTexts_eq_map (entries : List (Value × Value)) :
    entryTexts entries = entries.map entryText := by
  induction entries with
  | nil => rfl
  | cons entry more ih => simp [entryTexts, entryText, ih]

theorem text_int (n : Int64) : (int n).text = Text.ofInt n.toInt := rfl

theorem text_list (items : List Value) :
    (list items).text = '[' :: (commaSeparated (items.map text) ++ [']']) := by
  rw [← texts_eq_map]
  rfl

theorem text_tuple (items : List Value) :
    (tuple items).text = '(' :: (commaSeparated (items.map text) ++
      if items.length = 1 then [',', ')'] else [')']) := by
  rw [← texts_eq_map]
  rfl

theorem text_set (member : Value) (members : List Value) :
    (set (member :: members)).text =
      '{' :: (commaSeparated ((member :: members).map text) ++ ['}']) := by
  rw [← texts_eq_map]
  rfl

theorem text_dict (entries : List (Value × Value)) :
    (dict entries).text = '{' :: (commaSeparated (entries.map entryText) ++ ['}']) := by
  rw [← entryTexts_eq_map]
  rfl

end DocTypes.Value

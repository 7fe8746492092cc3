import DocTypes.Text.Numeral

set_option autoImplicit false

/-!
# Quoted texts

A text stands in single quotes with the quote, the backslash, the line feed and the tab escaped, or
as it is between backticks. A run of bytes stands in single quotes after a `b`, with every byte
outside printable ASCII written in hexadecimal, but for the tab and the line ends.
-/

namespace DocTypes.Text

def escapeChar (c : Char) : Text :=
  if c = '\'' then ['\\', '\'']
  else if c = '\\' then ['\\', '\\']
  else if c = '\n' then ['\\', 'n']
  else if c = '\t' then ['\\', 't']
  else [c]

def quoted (text : Text) : Text := '\'' :: (text.flatMap escapeChar ++ ['\''])

/-- The form in which messages quote a text. -/
def inTicks (text : Text) : Text := "`".toList ++ text ++ "`".toList

def escapeByte (byte : UInt8) : Text :=
  if byte = 9 then ['\\', 't']
  else if byte = 10 then ['\\', 'n']
  else if byte = 13 then ['\\', 'r']
  else if byte = 34 then ['\\', '"']
  else if byte = 39 then ['\\', '\'']
  else if byte = 92 then ['\\', '\\']
  else if 32 ≤ byte ∧ byte < 127 then [Char.ofNat byte.toNat]
  else '\\' :: 'x' :: ofNatHex 2 byte.toNat

def quotedBytes (bytes : List UInt8) : Text := 'b' :: '\'' :: (bytes.flatMap escapeByte ++ ['\''])

end DocTypes.Text

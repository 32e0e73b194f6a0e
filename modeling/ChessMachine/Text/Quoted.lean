import ChessMachine.Text.Hidden

/-!
# Quoted text

Messages show the text they complain about between quotes. The quote in use and the backslash
are escaped, and so is every character that would not show on its own.

## Main definitions

* `quoted` — a text between double quotes.
* `quotedChar` — a character between single quotes.
* `quotedList` — a list of quoted texts between brackets.
-/
namespace ChessMachine.Text

/-- What stands for `c` between two characters `quote`. -/
def escape (quote c : Char) : List Char :=
  if c = quote || c = '\\' then ['\\', c]
  else if c = '\t' then ['\\', 't']
  else if c = '\n' then ['\\', 'n']
  else if c = '\r' then ['\\', 'r']
  else if c = '\x00' then ['\\', '0']
  else if isHidden c then ['\\', 'u', '\x7b'] ++ Nat.toDigits 16 c.toNat ++ ['\x7d']
  else [c]

def quoted (text : String) : String :=
  String.ofList ('"' :: text.toList.flatMap (escape '"') ++ ['"'])

def quotedChar (c : Char) : String := String.ofList ('\'' :: escape '\'' c ++ ['\''])

def quotedList (texts : List String) : String :=
  "[" ++ String.intercalate ", " (texts.map quoted) ++ "]"

end ChessMachine.Text

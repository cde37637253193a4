import WordLang.Text.Unprintable

/-!
# Quoted text

Listings show a text between quotes on one line. Tabs, line ends, quotes, backslashes and the
null character have short escapes; any other unprintable character is shown by its code point.

## Main definitions

* `quoteChar c`: how a character is shown
* `quoted text`: a text between quotes
-/

namespace WordLang.Text

/-- How a quoted text shows a character. -/
def quoteChar (c : Char) : List Char :=
  if c = '\t' then ['\\', 't']
  else if c = '\r' then ['\\', 'r']
  else if c = '\n' then ['\\', 'n']
  else if c = '\\' then ['\\', '\\']
  else if c = '"' then ['\\', '"']
  else if c.toNat = 0 then ['\\', '0']
  else if isUnprintable c then ['\\', 'u', '\x7b'] ++ Nat.toDigits 16 c.toNat ++ ['\x7d']
  else [c]

/-- A text between quotes. -/
def quoted (text : String) : String :=
  String.ofList ('"' :: text.toList.flatMap quoteChar ++ ['"'])

end WordLang.Text

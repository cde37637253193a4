/-!
# Text literals of assembly text

A text literal stands between backquotes on one line. Backslashes, quotes, line ends and tabs have
short escapes; any other control character is given by two hexadecimal digits.
-/

namespace WordLang.Assembly

/-- Two hexadecimal digits for a number below 256. -/
def hexByte (n : Nat) : List Char := [Nat.digitChar (n / 16), Nat.digitChar (n % 16)]

/-- How a text literal shows a character. -/
def literalChar (c : Char) : List Char :=
  if c = '\\' then ['\\', '\\']
  else if c = '\x60' then ['\\', '\x60']
  else if c = '"' then ['\\', '"']
  else if c = '\n' then ['\\', 'n']
  else if c = '\t' then ['\\', 't']
  else if c.toNat < 0x20 ∨ c.toNat = 0x7f then '\\' :: 'x' :: hexByte c.toNat
  else [c]

/-- A text literal. -/
def literal (text : List Char) : List Char := '\x60' :: text.flatMap literalChar ++ ['\x60']

end WordLang.Assembly

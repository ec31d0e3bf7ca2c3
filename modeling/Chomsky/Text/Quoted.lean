import Chomsky.Text.Printable

/-!
# Quoted text

A quoted text stands between two equal quotes. Inside, the quote itself, the
backslash, tab, line feed, carriage return and NUL are written as short escapes.
Any other character without a glyph of its own is written as its number in lower
case hexadecimal digits between braces after `\u`.
-/

namespace Chomsky.Text

/-- The escape that names a character by its number. -/
def numberEscape (c : Char) : List Char :=
  "\\u\x7b".toList ++ Nat.toDigits 16 c.toNat ++ ['\x7d']

/-- The written form of one character between the given quotes. -/
def quoteChar (quote c : Char) : List Char :=
  if c = '\x00' then ['\\', '0']
  else if c = '\t' then ['\\', 't']
  else if c = '\r' then ['\\', 'r']
  else if c = '\n' then ['\\', 'n']
  else if c = '\\' || c = quote then ['\\', c]
  else if isExtender c || !isPrintable c then numberEscape c
  else [c]

/-- Characters between the given quotes. -/
def quoteWith (quote : Char) (cs : List Char) : String :=
  String.ofList (quote :: cs.flatMap (quoteChar quote) ++ [quote])

/-- A text between double quotes. -/
def quote (text : String) : String := quoteWith '"' text.toList

/-- A character between single quotes. -/
def quoteSingle (c : Char) : String := quoteWith '\'' [c]

/-- A list of texts in square brackets, each of them quoted. -/
def quoteList (texts : List String) : String :=
  "[" ++ ", ".intercalate (texts.map quote) ++ "]"

end Chomsky.Text

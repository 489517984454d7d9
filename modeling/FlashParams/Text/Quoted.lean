import FlashParams.Number.Numeral
import FlashParams.Text.Printable

/-!
# Quoted text in diagnostics

A diagnostic shows a text literal between double quotes so that its ends and its blanks can be seen.
Inside, the quote and the backslash are escaped, the four common controls have short escapes, and
any other character that is not shown as itself (`isShown`) appears as its code point in hexadecimal
between braces. An apostrophe needs no escape, since the quotes are double.
-/

set_option autoImplicit false

namespace FlashParams.Text

def quoteChar (c : Char) : String :=
  if c = '\x00' then "\\0"
  else if c = '\t' then "\\t"
  else if c = '\r' then "\\r"
  else if c = '\n' then "\\n"
  else if c = '"' then "\\\""
  else if c = '\\' then "\\\\"
  else if isShown c then String.singleton c
  else "\\u\x7b" ++ Numeral.hexLower c.toNat ++ "\x7d"

def quoted (s : String) : String :=
  "\"" ++ String.join (s.toList.map quoteChar) ++ "\""

end FlashParams.Text

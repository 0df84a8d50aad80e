import Provenance.Text.Hidden

/-!
# Quoted text

How a message shows a text it could not read: in double quotes, with the quote, the backslash and
the common controls escaped. Every other character without a form of its own is written by its code
point.
-/

namespace Provenance.Text.Quoted

/-- The written form of one character. -/
def escape (c : Char) : List Char :=
  match c.toNat with
  | 0x00 => ['\\', '0']
  | 0x09 => ['\\', 't']
  | 0x0A => ['\\', 'n']
  | 0x0D => ['\\', 'r']
  | 0x22 => ['\\', '"']
  | 0x5C => ['\\', '\\']
  | code =>
    if isHidden c then "\\u\x7b".toList ++ Nat.toDigits 16 code ++ "\x7d".toList else [c]

/-- The text in quotes. -/
def quote (text : String) : String :=
  String.ofList ('"' :: text.toList.flatMap escape ++ ['"'])

end Provenance.Text.Quoted

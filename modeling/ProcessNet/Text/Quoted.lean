import ProcessNet.Text.Unprintable
import ProcessNet.Text.GraphemeExtend

/-!
Quoted text, as identifiers and labels appear in listings: between double quotes, with a backslash
before a quote or a backslash, short escapes for newline, return, tab and the null character, and the
code point in braces for whatever would be invisible or would attach to its neighbour. The fillers of
Hangul count as invisible, though they are letters, and the half-width voicing marks of Katakana do
not count as attached, since each takes a place of its own. The apostrophe stands for itself.
-/

namespace ProcessNet.Text

/-- The code point in lower-case hexadecimal without leading zeros. -/
def codePointEscape (c : Char) : List Char :=
  '\\' :: 'u' :: '\x7b' :: (Nat.toDigits 16 c.toNat ++ ['\x7d'])

def isFiller (c : Char) : Bool :=
  c = '\u115f' || c = '\u1160' || c = '\u3164' || c = '\uffa0'

def isHalfwidthVoicing (c : Char) : Bool := c = '\uff9e' || c = '\uff9f'

def isHidden (c : Char) : Bool :=
  isUnprintable c || isFiller c || (isGraphemeExtend c && !isHalfwidthVoicing c)

def quotedChar (c : Char) : List Char :=
  if c = '"' then ['\\', '"']
  else if c = '\\' then ['\\', '\\']
  else if c = '\n' then ['\\', 'n']
  else if c = '\r' then ['\\', 'r']
  else if c = '\t' then ['\\', 't']
  else if c = '\x00' then ['\\', '0']
  else if isHidden c then codePointEscape c
  else [c]

def quoted (s : String) : String :=
  String.ofList ('"' :: (s.toList.flatMap quotedChar ++ ['"']))

end ProcessNet.Text

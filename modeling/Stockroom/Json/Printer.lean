import Stockroom.Json.Value

/-!
The written form of JSON values: no blanks, members in their order. In a text, quotes,
backslashes and characters below U+0020 are escaped, by a letter where there is one; all other
characters stand for themselves.
-/

namespace Stockroom.Json
set_option autoImplicit false

/-- A hexadecimal digit, in lower case. -/
def hexDigit (n : Nat) : Char := if n < 10 then Char.ofNat (48 + n) else Char.ofNat (87 + n)

def escape (c : Char) : List Char :=
  if c = '"' then ['\\', '"']
  else if c = '\\' then ['\\', '\\']
  else if c = '\x08' then ['\\', 'b']
  else if c = '\x0c' then ['\\', 'f']
  else if c = '\n' then ['\\', 'n']
  else if c = '\r' then ['\\', 'r']
  else if c = '\t' then ['\\', 't']
  else if c.toNat < 32 then ['\\', 'u', '0', '0', hexDigit (c.toNat / 16), hexDigit (c.toNat % 16)]
  else [c]

def quote (s : String) : List Char := '"' :: (s.toList.flatMap escape ++ ['"'])

mutual

/-- The characters of a value. What cannot be read has no form of its own. -/
def print : Json → List Char
  | .null | .unreadable => ['n', 'u', 'l', 'l']
  | .bool true => ['t', 'r', 'u', 'e']
  | .bool false => ['f', 'a', 'l', 's', 'e']
  | .nat n => Nat.toDigits 10 n
  | .text s => quote s
  | .array [] => ['[', ']']
  | .array (x :: xs) => '[' :: (print x ++ printElements xs)
  | .object [] => ['{', '}']
  | .object ((k, x) :: ms) => '{' :: (quote k ++ ':' :: (print x ++ printMembers ms))

/-- The elements after the first, and the bracket. -/
def printElements : List Json → List Char
  | [] => [']']
  | x :: xs => ',' :: (print x ++ printElements xs)

/-- The members after the first, and the brace. -/
def printMembers : List (String × Json) → List Char
  | [] => ['}']
  | (k, x) :: ms => ',' :: (quote k ++ ':' :: (print x ++ printMembers ms))

end

def render (j : Json) : String := String.ofList j.print

end Stockroom.Json

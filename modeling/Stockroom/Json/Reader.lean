import Stockroom.Json.Value

/-!
Reading JSON text, strictly: one value, blanks around it and between its parts, and nothing else.
Each part takes characters from the front and hands on the rest.
-/

namespace Stockroom.Json
set_option autoImplicit false

def isBlank (c : Char) : Bool := c == ' ' || c == '\n' || c == '\t' || c == '\r'

def skipBlanks (cs : List Char) : List Char := cs.dropWhile isBlank

/-! ### Numbers -/

def isDigit (c : Char) : Bool := '0' ≤ c && c ≤ '9'

def digitValue (c : Char) : Nat := c.toNat - 48

def ofDigits (ds : List Char) : Nat := ds.foldl (fun n c => 10 * n + digitValue c) 0

/-- A natural number: zero, or digits that do not begin with a zero. -/
def readNat : List Char → Option (Nat × List Char)
  | '0' :: rest => some (0, rest)
  | cs =>
    match cs.takeWhile isDigit with
    | [] => none
    | ds => some (ofDigits ds, cs.dropWhile isDigit)

def skipDigits (cs : List Char) : Option (List Char) :=
  match cs.takeWhile isDigit with
  | [] => none
  | _ => some (cs.dropWhile isDigit)

/-- A fraction, if there is one. The answer says whether there was. -/
def readFraction : List Char → Option (Bool × List Char)
  | '.' :: rest => (skipDigits rest).map fun r => (true, r)
  | cs => some (false, cs)

def skipSign : List Char → List Char
  | '+' :: rest => rest
  | '-' :: rest => rest
  | cs => cs

/-- An exponent, if there is one. The answer says whether there was. -/
def readExponent : List Char → Option (Bool × List Char)
  | 'e' :: rest => (skipDigits (skipSign rest)).map fun r => (true, r)
  | 'E' :: rest => (skipDigits (skipSign rest)).map fun r => (true, r)
  | cs => some (false, cs)

/-- A number without its sign; only a plain natural number can be read. -/
def readUnsigned (negative : Bool) (cs : List Char) : Option (Json × List Char) :=
  match readNat cs with
  | none => none
  | some (n, cs) =>
    match readFraction cs with
    | none => none
    | some (fraction, cs) =>
      match readExponent cs with
      | none => none
      | some (exponent, cs) =>
        some (if negative || fraction || exponent then .unreadable else .nat n, cs)

def readNumber : List Char → Option (Json × List Char)
  | '-' :: rest => readUnsigned true rest
  | cs => readUnsigned false cs

/-! ### Texts -/

/-- A piece of a text: a character, or half of a surrogate pair. -/
inductive Piece where
  | char (c : Char)
  | half (unit : Nat)

def hexValue (c : Char) : Option Nat :=
  if '0' ≤ c ∧ c ≤ '9' then some (c.toNat - 48)
  else if 'a' ≤ c ∧ c ≤ 'f' then some (c.toNat - 87)
  else if 'A' ≤ c ∧ c ≤ 'F' then some (c.toNat - 55)
  else none

/-- The 16-bit unit that four hexadecimal digits stand for. -/
def unitOf (a b c d : Char) : Option Nat :=
  match hexValue a, hexValue b, hexValue c, hexValue d with
  | some a, some b, some c, some d => some (((a * 16 + b) * 16 + c) * 16 + d)
  | _, _, _, _ => none

def isHigh (u : Nat) : Bool := 0xD800 ≤ u && u < 0xDC00

def isLow (u : Nat) : Bool := 0xDC00 ≤ u && u < 0xE000

def pieceOf (u : Nat) : Piece := if isHigh u || isLow u then .half u else .char (Char.ofNat u)

/-- The character that a letter after a backslash stands for. -/
def unescape (c : Char) : Option Char :=
  if c = '"' then some '"'
  else if c = '\\' then some '\\'
  else if c = '/' then some '/'
  else if c = 'b' then some '\x08'
  else if c = 'f' then some '\x0c'
  else if c = 'n' then some '\n'
  else if c = 'r' then some '\r'
  else if c = 't' then some '\t'
  else none

/-- The pieces up to the closing quote. -/
def readPieces : List Char → Option (List Piece × List Char)
  | [] => none
  | '"' :: rest => some ([], rest)
  | '\\' :: 'u' :: a :: b :: c :: d :: rest =>
    match unitOf a b c d with
    | none => none
    | some u => (readPieces rest).map fun r => (pieceOf u :: r.1, r.2)
  | '\\' :: e :: rest =>
    match unescape e with
    | none => none
    | some c => (readPieces rest).map fun r => (.char c :: r.1, r.2)
  | c :: rest =>
    if c.toNat < 32 then none else (readPieces rest).map fun r => (.char c :: r.1, r.2)

/-- The characters of some pieces, if halves come in pairs. -/
def joinPieces : List Piece → Option (List Char)
  | [] => some []
  | .char c :: rest => (joinPieces rest).map (c :: ·)
  | .half u :: .half v :: rest =>
    if isHigh u && isLow v then
      (joinPieces rest).map (Char.ofNat (0x10000 + (u - 0xD800) * 0x400 + (v - 0xDC00)) :: ·)
    else none
  | .half _ :: _ => none

/-- A text after its opening quote; nothing is inside if it holds half of a pair. -/
def readText (cs : List Char) : Option (Option String × List Char) :=
  (readPieces cs).map fun r => ((joinPieces r.1).map String.ofList, r.2)

def ofText : Option String → Json
  | some s => .text s
  | none => .unreadable

/-! ### Values -/

/-- Members whose keys can all be read. -/
def readable : List (Option String × Json) → Option (List (String × Json))
  | [] => some []
  | (none, _) :: _ => none
  | (some k, x) :: ms => (readable ms).map ((k, x) :: ·)

def ofMembers (ms : List (Option String × Json)) : Json :=
  match readable ms with
  | some ms => .object ms
  | none => .unreadable

/-- A key and the colon after it. -/
def readKey (cs : List Char) : Option (Option String × List Char) :=
  match skipBlanks cs with
  | '"' :: rest =>
    match readText rest with
    | none => none
    | some (key, rest) =>
      match skipBlanks rest with
      | ':' :: rest => some (key, rest)
      | _ => none
  | _ => none

mutual

/-- A value, with blanks before it. -/
def readValue : (fuel : Nat) → List Char → Option (Json × List Char)
  | 0, _ => none
  | fuel + 1, cs =>
    match skipBlanks cs with
    | 'n' :: 'u' :: 'l' :: 'l' :: rest => some (.null, rest)
    | 't' :: 'r' :: 'u' :: 'e' :: rest => some (.bool true, rest)
    | 'f' :: 'a' :: 'l' :: 's' :: 'e' :: rest => some (.bool false, rest)
    | '"' :: rest => (readText rest).map fun r => (ofText r.1, r.2)
    | '[' :: rest =>
      match skipBlanks rest with
      | ']' :: rest => some (.array [], rest)
      | rest =>
        match readValue fuel rest with
        | none => none
        | some (x, rest) => (readElements fuel rest).map fun r => (.array (x :: r.1), r.2)
    | '{' :: rest =>
      match skipBlanks rest with
      | '}' :: rest => some (.object [], rest)
      | rest =>
        match readKey rest with
        | none => none
        | some (k, rest) =>
          match readValue fuel rest with
          | none => none
          | some (x, rest) => (readMembers fuel rest).map fun r => (ofMembers ((k, x) :: r.1), r.2)
    | rest => readNumber rest

/-- The elements after the first, and the bracket. -/
def readElements : (fuel : Nat) → List Char → Option (List Json × List Char)
  | 0, _ => none
  | fuel + 1, cs =>
    match skipBlanks cs with
    | ']' :: rest => some ([], rest)
    | ',' :: rest =>
      match readValue fuel rest with
      | none => none
      | some (x, rest) => (readElements fuel rest).map fun r => (x :: r.1, r.2)
    | _ => none

/-- The members after the first, and the brace. -/
def readMembers : (fuel : Nat) → List Char → Option (List (Option String × Json) × List Char)
  | 0, _ => none
  | fuel + 1, cs =>
    match skipBlanks cs with
    | '}' :: rest => some ([], rest)
    | ',' :: rest =>
      match readKey rest with
      | none => none
      | some (k, rest) =>
        match readValue fuel rest with
        | none => none
        | some (x, rest) => (readMembers fuel rest).map fun r => ((k, x) :: r.1, r.2)
    | _ => none

end

/-- The value that a text holds. Each level of reading takes a character at least, so the length
of the text is fuel enough. -/
def read (s : String) : Option Json :=
  match readValue (s.toList.length + 1) s.toList with
  | some (j, rest) => if skipBlanks rest = [] then some j else none
  | none => none

end Stockroom.Json

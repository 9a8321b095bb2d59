/-!
JSON values, as far as stored text needs them. Numbers are natural numbers. What is sound JSON
but can be read as nothing here still has to be passed over where its place does not matter: a
number with a sign, a fraction or an exponent, a text with half of a surrogate pair, an object
with such a text as a key.
-/

namespace Stockroom
set_option autoImplicit false

inductive Json where
  | null
  | bool (b : Bool)
  | nat (n : Nat)
  | text (s : String)
  | array (elements : List Json)
  /-- Members in the order of writing; a key may occur more than once. -/
  | object (members : List (String × Json))
  /-- Sound, but nothing that can be read. -/
  | unreadable
deriving Repr, Inhabited

namespace Json

/-- What is said about a key: nothing, one value, or more than one. -/
inductive Found where
  | missing
  | one (value : Json)
  | several

/-- Look for a key among members. -/
def field (key : String) (members : List (String × Json)) : Found :=
  match members.filter fun m => m.1 = key with
  | [] => .missing
  | [m] => .one m.2
  | _ => .several

end Json

end Stockroom

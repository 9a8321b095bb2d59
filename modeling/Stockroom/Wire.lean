import Stockroom.Json.Value
import Stockroom.Weight

/-!
Values that can be kept as JSON. Writing may fail for a value; reading fails for everything that
is not written like a value of the type. A record is written as an object and may also be read
from an array of its fields in order.
-/

namespace Stockroom
set_option autoImplicit false

/-- How values of a type are written and read. -/
class Wire (V : Type) where
  encode : V → Option Json
  decode : Json → Option V

namespace Wire

instance : Wire String where
  encode s := some (.text s)
  decode
    | .text s => some s
    | _ => none

/-- A natural number below a bound. -/
def decodeBelow (bound : Nat) : Json → Option Nat
  | .nat n => if n < bound then some n else none
  | _ => none

instance : Wire UInt64 where
  encode w := some (.nat w.toNat)
  decode j := (decodeBelow UInt64.size j).map Nat.toUInt64

def decodeAll {α : Type} (f : Json → Option α) : List Json → Option (List α)
  | [] => some []
  | x :: xs =>
    match f x with
    | none => none
    | some a => (decodeAll f xs).map (a :: ·)

instance : Wire (List UInt8) where
  encode bytes := some (.array (bytes.map fun b => .nat b.toNat))
  decode
    | .array xs => decodeAll (fun j => (decodeBelow 256 j).map Nat.toUInt8) xs
    | _ => none

/-- A value that may be absent, written as null. -/
def decodeOption {α : Type} (f : Json → Option α) : Json → Option (Option α)
  | .null => some none
  | j => (f j).map some

/-- A field that must be there once. -/
def required {α : Type} (f : Json → Option α) : Json.Found → Option α
  | .one j => f j
  | _ => none

/-- A field that may be there once. -/
def optional {α : Type} (f : Json → Option α) : Json.Found → Option (Option α)
  | .missing => some none
  | .one j => decodeOption f j
  | .several => none

end Wire

structure Session where
  user : String
  roles : List String
  expiresIn : Option UInt32
deriving DecidableEq, Repr, Inhabited

namespace Session

/-- A session weighs its texts. -/
instance : Weighted Session :=
  ⟨fun s => (s.roles.foldl (fun n role => n + role.utf8ByteSize) s.user.utf8ByteSize).toUInt64⟩

def decodeUser : Json → Option String := Wire.decode

def decodeRoles : Json → Option (List String)
  | .array xs => Wire.decodeAll Wire.decode xs
  | _ => none

def decodeExpiry (j : Json) : Option UInt32 := (Wire.decodeBelow UInt32.size j).map Nat.toUInt32

def assemble (user : Option String) (roles : Option (List String))
    (expiresIn : Option (Option UInt32)) : Option Session :=
  match user, roles, expiresIn with
  | some user, some roles, some expiresIn => some ⟨user, roles, expiresIn⟩
  | _, _, _ => none

instance : Wire Session where
  encode s :=
    some (.object [("user", .text s.user), ("roles", .array (s.roles.map .text)),
      ("expires_in", match s.expiresIn with | some n => .nat n.toNat | none => .null)])
  decode
    | .object ms =>
      assemble (Wire.required decodeUser (Json.field "user" ms))
        (Wire.required decodeRoles (Json.field "roles" ms))
        (Wire.optional decodeExpiry (Json.field "expires_in" ms))
    | .array [user, roles, expiresIn] =>
      assemble (decodeUser user) (decodeRoles roles) (Wire.decodeOption decodeExpiry expiresIn)
    | _ => none

end Session

/-- A number that can be written only below one thousand, and read always. -/
structure Limited where
  number : UInt64
deriving DecidableEq, Repr, Inhabited

namespace Limited

instance : Weighted Limited := {}

instance : Wire Limited where
  encode p := if p.number < 1000 then some (.nat p.number.toNat) else none
  decode j := ((Wire.decode j : Option UInt64)).map Limited.mk

end Limited

end Stockroom

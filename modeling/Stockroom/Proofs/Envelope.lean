import Stockroom.Envelope
import Stockroom.Proofs.Json.RoundTrip

/-! An envelope can be opened again: the text that it is written as reads back as the envelope. -/

namespace Stockroom
set_option autoImplicit false

/-- What is written reads back. -/
class Wire.Lawful (V : Type) [Wire V] : Prop where
  readable : ∀ (v : V) (j : Json), Wire.encode v = some j → j.Readable
  decode_encode : ∀ (v : V) (j : Json), Wire.encode v = some j → Wire.decode j = some v

namespace Wire

theorem decodeBelow_nat {n bound : Nat} (h : n < bound) : decodeBelow bound (.nat n) = some n := by
  rw [decodeBelow, if_pos h]

theorem decodeAll_map {α : Type} {f : Json → Option α} {g : α → Json} (h : ∀ a, f (g a) = some a)
    (as : List α) : decodeAll f (as.map g) = some as := by
  induction as with
  | nil => rfl
  | cons a as ih =>
    rw [List.map_cons, decodeAll, h]
    simp only [ih, Option.map_some]

theorem elementsReadable_map {α : Type} (g : α → Json) (h : ∀ a, (g a).Readable) (as : List α) :
    Json.ElementsReadable (as.map g) := by
  induction as with
  | nil => trivial
  | cons a as ih => exact ⟨h a, ih⟩

instance : Lawful String where
  readable s j h := by
    obtain rfl := Option.some.inj h
    trivial
  decode_encode s j h := by
    obtain rfl := Option.some.inj h
    rfl

theorem decode_nat_toNat (w : UInt64) : (Wire.decode (.nat w.toNat) : Option UInt64) = some w := by
  change (decodeBelow UInt64.size (.nat w.toNat)).map Nat.toUInt64 = some w
  rw [decodeBelow_nat w.toNat_lt_size, Option.map_some]
  exact congrArg some (UInt64.ofNat_toNat)

instance : Lawful UInt64 where
  readable w j h := by
    obtain rfl := Option.some.inj h
    trivial
  decode_encode w j h := by
    obtain rfl := Option.some.inj h
    exact decode_nat_toNat w

instance : Lawful (List UInt8) where
  readable bytes j h := by
    obtain rfl := Option.some.inj h
    exact elementsReadable_map (fun b : UInt8 => .nat b.toNat) (fun _ => trivial) bytes
  decode_encode bytes j h := by
    obtain rfl := Option.some.inj h
    apply decodeAll_map
    intro b
    rw [decodeBelow_nat b.toNat_lt]
    exact congrArg some (UInt8.ofNat_toNat)

instance : Lawful Session where
  readable s j h := by
    obtain rfl := Option.some.inj h
    refine ⟨trivial, elementsReadable_map .text (fun _ => trivial) s.roles, ?_, trivial⟩
    cases s.expiresIn <;> trivial
  decode_encode s j h := by
    obtain rfl := Option.some.inj h
    obtain ⟨user, roles, expiresIn⟩ := s
    have hroles : Session.decodeRoles (.array (roles.map .text)) = some roles :=
      decodeAll_map (g := .text) (fun _ => rfl) roles
    cases expiresIn with
    | none =>
      change Session.assemble (some user) (Session.decodeRoles (.array (roles.map .text)))
        (some none) = _
      rw [hroles]
      rfl
    | some n =>
      change Session.assemble (some user) (Session.decodeRoles (.array (roles.map .text)))
        (((decodeBelow UInt32.size (.nat n.toNat)).map Nat.toUInt32).map some) = _
      rw [hroles, decodeBelow_nat n.toNat_lt_size]
      exact congrArg (fun n => some (Session.mk user roles (some n))) UInt32.ofNat_toNat

theorem encode_limited {p : Limited} {j : Json} (h : Wire.encode p = some j) :
    j = .nat p.number.toNat := by
  change (if p.number < 1000 then some (Json.nat p.number.toNat) else none) = some j at h
  split at h
  · exact (Option.some.inj h).symm
  · cases h

instance : Lawful Limited where
  readable p j h := by
    rw [encode_limited h]
    trivial
  decode_encode p j h := by
    rw [encode_limited h]
    exact congrArg (Option.map Limited.mk) (decode_nat_toNat p.number)

end Wire

namespace Envelope

variable {V : Type} [Wire V] [Wire.Lawful V]

theorem decode_encode {e : Envelope V} {text : String} (h : e.encode = some text) :
    decode text = some e := by
  obtain ⟨j, hj, rfl⟩ := Option.map_eq_some_iff.mp h
  have hvalue := Wire.Lawful.decode_encode e.value j hj
  have hreadable := Wire.Lawful.readable e.value j hj
  obtain ⟨value, expiresAt⟩ := e
  rw [decode]
  cases expiresAt with
  | none =>
    rw [Json.read_render (j := .object [("value", j)]) ⟨hreadable, trivial⟩]
    change assemble (Wire.decode j) (some none) = _
    rw [hvalue]
    rfl
  | some n =>
    rw [Json.read_render (j := .object [("value", j), ("expires_at", .nat n.toNat)])
      ⟨hreadable, trivial, trivial⟩]
    change assemble (Wire.decode j) ((Wire.decode (.nat n.toNat)).map some) = _
    rw [hvalue, Wire.decode_nat_toNat]
    rfl

end Envelope

end Stockroom

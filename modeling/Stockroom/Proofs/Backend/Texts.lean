import Stockroom.Proofs.Backend.Reliable

/-! The texts that a store of two tiers writes: every one of them can be opened again, says until
when it is good, and tells the values of a type apart. -/

namespace Stockroom
set_option autoImplicit false

/-! ### Types of values -/

namespace Wire

/-- The types whose values can always be written. -/
inductive Kind where
  | text
  | number
  | bytes
  | session
deriving DecidableEq, Repr

namespace Kind

def Value : Kind → Type
  | text => String
  | number => UInt64
  | bytes => List UInt8
  | session => Session

instance (kind : Kind) : Wire kind.Value :=
  match kind with
  | text => inferInstanceAs (Wire String)
  | number => inferInstanceAs (Wire UInt64)
  | bytes => inferInstanceAs (Wire (List UInt8))
  | session => inferInstanceAs (Wire Session)

instance (kind : Kind) : Lawful kind.Value :=
  match kind with
  | text => inferInstanceAs (Lawful String)
  | number => inferInstanceAs (Lawful UInt64)
  | bytes => inferInstanceAs (Lawful (List UInt8))
  | session => inferInstanceAs (Lawful Session)

theorem exists_encode {kind : Kind} (v : kind.Value) : ∃ j, Wire.encode v = some j := by
  cases kind <;> exact ⟨_, rfl⟩

end Kind

end Wire

/-! ### Texts of envelopes -/

namespace Envelope

variable {V : Type} [Wire V]

/-- The members of the object that an envelope is written as. -/
def members (value : Json) : Option UInt64 → List (String × Json)
  | none => [("value", value)]
  | some n => [("value", value), ("expires_at", .nat n.toNat)]

theorem encode_eq {e : Envelope V} {j : Json} (h : Wire.encode e.value = some j) :
    e.encode = some (Json.object (members j e.expiresAt)).render := by
  rw [encode, h]
  cases e.expiresAt <;> rfl

theorem read_render_members {j : Json} (h : j.Readable) (expiresAt : Option UInt64) :
    Json.read (Json.object (members j expiresAt)).render =
      some (.object (members j expiresAt)) := by
  apply Json.read_render
  cases expiresAt with
  | none => exact ⟨h, trivial⟩
  | some n => exact ⟨h, trivial, trivial⟩

/-- A text belongs to one envelope only. -/
theorem eq_of_encode [Wire.Lawful V] {e e' : Envelope V} {text : String}
    (h : e.encode = some text) (h' : e'.encode = some text) : e = e' :=
  Option.some.inj ((decode_encode h).symm.trans (decode_encode h'))

/-- The deadline is there just in case the value has a lifetime. -/
theorem field_deadline (j : Json) (wall : UInt64) (ttl : Duration) :
    Json.field "expires_at" (members j (deadline wall ttl)) =
      if ttl.isZero then .missing
      else .one (.nat (min (wall.toNat + ttl.millis) (UInt64.size - 1))) := by
  unfold deadline
  split
  · rfl
  · have hsize : min (wall.toNat + ttl.millis) (UInt64.size - 1) < UInt64.size := by
      simp only [UInt64.size]
      omega
    have hnat := UInt64.toNat_ofNat_of_lt' hsize
    exact congrArg (fun n => Json.Found.one (.nat n)) hnat

end Envelope

/-! ### What is written -/

namespace Tiered

theorem open?_eq_ite {V : Type} [Wire V] [Wire.Lawful V] {v : V} {ttl : Duration} {text : String}
    {written : UInt64} (h : (wrap written v ttl).encode = some text) (wall : UInt64) :
    open? wall text = .ok (if ttl.isZero = true ∨
      wall.toNat ≤ min (written.toNat + ttl.millis) (UInt64.size - 1) then some v else none) := by
  rw [open?_wrap h]
  cases hstale : (wrap written v ttl).stale wall with
  | false => rw [if_pos (stale_wrap.mp hstale), if_neg Bool.false_ne_true]
  | true =>
    have hnot := fun hgood => Bool.false_ne_true ((stale_wrap.mpr hgood).symm.trans hstale)
    rw [if_neg hnot, if_pos rfl]

/-- The text that is stored for a value gives it back up to the last millisecond of its lifetime,
and nothing afterwards. -/
theorem texts_round_trip {σ : Type} (kind : Wire.Kind) (t : Tiered σ kind.Value)
    (far : Backend σ String) (key : String) (v : kind.Value) (ttl : Duration) (s : σ) :
    let last := min ((t.wall s).toNat + ttl.millis) (UInt64.size - 1)
    (∃ text,
      { t with far := some far }.set key v ttl s =
        t.setFar far (namespacedKey t.space key) text v ttl s ∧
      (∀ wall, open? wall text =
        .ok (if ttl.isZero = true ∨ wall.toNat ≤ last then some v else none)) ∧
      ∃ members, Json.read text = some (.object members) ∧
        Json.field "expires_at" members =
          if ttl.isZero then .missing else .one (.nat last)) ∧
    ∀ (deadline : Option UInt64) (w w' : kind.Value),
      (Envelope.mk w deadline).encode = (Envelope.mk w' deadline).encode ↔ w = w' := by
  intro last
  constructor
  · obtain ⟨j, hj⟩ := Wire.Kind.exists_encode v
    have htext := Envelope.encode_eq (e := wrap (t.wall s) v ttl) hj
    have hread := Envelope.read_render_members (Wire.Lawful.readable v j hj)
      (Envelope.deadline (t.wall s) ttl)
    refine ⟨_, ?_, open?_eq_ite htext, _, hread, Envelope.field_deadline j (t.wall s) ttl⟩
    simp only [Tiered.set, htext]
    rfl
  · intro deadline w w'
    constructor
    · intro he
      obtain ⟨j, hj⟩ := Wire.Kind.exists_encode w
      have htext := Envelope.encode_eq (e := ⟨w, deadline⟩) hj
      exact congrArg Envelope.value (Envelope.eq_of_encode htext (he.symm.trans htext))
    · rintro rfl
      rfl

end Tiered

end Stockroom

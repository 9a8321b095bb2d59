/-!
What a value costs against a byte budget when no weigher is configured: texts and byte buffers
weigh their length, everything else weighs one.
-/

namespace Stockroom
set_option autoImplicit false

/-- Values with a default weight. -/
class Weighted (V : Type) where
  weight : V → UInt64 := fun _ => 1

export Weighted (weight)

/-- A text weighs its length in UTF-8. -/
instance : Weighted String := ⟨fun s => s.utf8ByteSize.toUInt64⟩

instance : Weighted (List UInt8) := ⟨fun bytes => bytes.length.toUInt64⟩

instance : Weighted UInt64 := {}

instance : Weighted Bool := {}

instance : Weighted Char := {}

instance : Weighted Int := {}

instance : Weighted Float := {}

end Stockroom

/-!
Qualified keys. A key is put into a namespace by writing the namespace in braces before it;
the empty namespace leaves keys as they are.
-/

namespace Stockroom
set_option autoImplicit false

/-- The key `key` of the namespace `space`. -/
def namespacedKey (space key : String) : String :=
  if space = "" then key else "\x7b" ++ space ++ "\x7d" ++ key

/-- The name of the inner space begins with the outer space and its closing brace. -/
def Encloses (outer inner : String) : Prop := (outer ++ "\x7d").toList <+: inner.toList

instance (outer inner : String) : Decidable (Encloses outer inner) :=
  inferInstanceAs (Decidable (_ <+: _))

/-- No key of the one space is a key of the other. -/
def Apart (m n : String) : Prop := ∀ j k, namespacedKey m j ≠ namespacedKey n k

theorem namespacedKey_empty (key : String) : namespacedKey "" key = key := rfl

theorem namespacedKey_of_ne {space : String} (h : space ≠ "") (key : String) :
    namespacedKey space key = "\x7b" ++ space ++ "\x7d" ++ key := by
  simp [namespacedKey, h]

end Stockroom

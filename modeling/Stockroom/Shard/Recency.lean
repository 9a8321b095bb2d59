import Stockroom.Shard.Basic

/-!
The recency list of a partition: what was written and is still kept, from the least to the most
recently used, and the operations on it said in one line each. This is what `Shard` keeps in two
maps and a counter; nothing here knows of stamps or deadlines.
-/

namespace Stockroom
set_option autoImplicit false

/-- A write as it is remembered: what was written under which key, when, and for how long. -/
structure Written (V : Type) where
  key : Key
  value : Option V
  ttl : Duration
  since : Instant
  weight : UInt64

namespace Written

variable {V : Type}

/-- A write with a lifetime has expired when more than that has passed. -/
def Expired (w : Written V) (now : Instant) : Prop :=
  0 < w.ttl.nanos ∧ w.since.nanos + w.ttl.nanos < now.nanos

instance (w : Written V) (now : Instant) : Decidable (w.Expired now) :=
  inferInstanceAs (Decidable (_ ∧ _))

/-- What a reader gets to see at `now`. -/
def view (w : Written V) (now : Instant) : Snapshot V where
  value := w.value
  ttl := w.ttl
  remaining :=
    if w.ttl.nanos = 0 then none else some ⟨w.since.nanos + w.ttl.nanos - now.nanos⟩

end Written

/-- Writes that are kept, least recently used first. -/
abbrev Recency (V : Type) := List (Written V)

namespace Recency

variable {V : Type}

/-- The exact total weight. -/
def weight (l : Recency V) : Nat := l.foldr (fun w total => w.weight.toNat + total) 0

def find? (l : Recency V) (key : Key) : Option (Written V) := List.find? (fun w => w.key = key) l

def without (l : Recency V) (key : Key) : Recency V := l.filter fun w => w.key ≠ key

/-- Drop from the front while the total weight exceeds `capacity`; zero is no bound. -/
def trim (capacity : Nat) : Recency V → Recency V
  | [] => []
  | w :: l => if 0 < capacity ∧ capacity < weight (w :: l) then trim capacity l else w :: l

/-- Drop what was written under the key, append the new write, and trim. -/
def insert (capacity : Nat) (l : Recency V) (w : Written V) : Insertion × Recency V :=
  let longer := l.without w.key ++ [w]
  (⟨(l.find? w.key).isSome, longer.length - (trim capacity longer).length⟩, trim capacity longer)

def get (l : Recency V) (key : Key) (now : Instant) : Lookup V × Recency V :=
  match l.find? key with
  | none => (.miss, l)
  | some w =>
    if w.Expired now then (.expired, l.without key)
    else (.hit (w.view now), l.without key ++ [w])

def contains (l : Recency V) (key : Key) (now : Instant) : Bool :=
  (l.find? key).any fun w => !decide (w.Expired now)

def remove (l : Recency V) (key : Key) : Bool × Recency V :=
  ((l.find? key).isSome, l.without key)

def clear (l : Recency V) : Nat × Recency V := (l.length, [])

@[simp] theorem weight_nil : weight ([] : Recency V) = 0 := rfl

@[simp] theorem weight_cons (w : Written V) (l : Recency V) :
    weight (w :: l) = w.weight.toNat + weight l := rfl

@[simp] theorem weight_append (l m : Recency V) : weight (l ++ m) = weight l + weight m := by
  induction l with
  | nil => exact (Nat.zero_add _).symm
  | cons w l ih => rw [List.cons_append, weight_cons, weight_cons, ih, Nat.add_assoc]

theorem trim_length_le (capacity : Nat) (l : Recency V) : (trim capacity l).length ≤ l.length := by
  induction l with
  | nil => exact Nat.le_refl _
  | cons w l ih =>
    unfold trim
    split
    · exact Nat.le_succ_of_le ih
    · exact Nat.le_refl _

/-- What is left after trimming fits the budget. -/
theorem weight_trim_le {capacity : Nat} (h : 0 < capacity) (l : Recency V) :
    (trim capacity l).weight ≤ capacity := by
  induction l with
  | nil => exact Nat.zero_le _
  | cons w l ih =>
    unfold trim
    split
    · exact ih
    · omega

end Recency

end Stockroom

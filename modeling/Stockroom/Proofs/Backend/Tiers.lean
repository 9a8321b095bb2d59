import Stockroom.Backend.Outage
import Stockroom.Proofs.Cache.Contents
import Stockroom.Proofs.Envelope

/-! What one request to a store of two tiers does to its local cache and to its remote store. -/

namespace Stockroom
set_option autoImplicit false

theorem namespacedKey_inj {space key key' : String} :
    namespacedKey space key = namespacedKey space key' ↔ key = key' := by
  constructor
  · intro h
    by_cases hspace : space = ""
    · rw [hspace] at h
      exact h
    · rw [namespacedKey_of_ne hspace, namespacedKey_of_ne hspace] at h
      exact String.append_right_inj _ |>.mp h
  · rintro rfl
    rfl

namespace Tiered

variable {V : Type} {space : String} {now : Instant} {wall : UInt64} {c : Cache V} {r : Remote}

/-! ### The two tiers -/

def nearAt (space : String) (c : Cache V) (key : String) : Option (Entry V) :=
  c.peek? (namespacedKey space key)

def farAt (space : String) (r : Remote) (key : String) : Option String :=
  (r.content.get? (namespacedKey space key)).map Prod.fst

theorem nearAt_value? (h : c.Unbounded) (key key' : String) :
    nearAt space (c.value? now (namespacedKey space key)).2 key' =
      if key = key' then c.live? now (namespacedKey space key) else nearAt space c key' := by
  rw [nearAt, Cache.value?, Cache.peek?_lookup h.shards]
  simp only [namespacedKey_inj]
  rfl

theorem nearAt_delete (h : c.Unbounded) (key key' : String) :
    nearAt space (c.delete (namespacedKey space key)).2 key' =
      if key = key' then none else nearAt space c key' := by
  rw [nearAt, Cache.peek?_delete h.shards]
  simp only [namespacedKey_inj]
  rfl

theorem nearAt_forfeit (h : c.Unbounded) (key key' : String) :
    nearAt space (c.forfeit (namespacedKey space key)) key' =
      if key = key' then none else nearAt space c key' := by
  rw [nearAt, Cache.peek?_forfeit h.shards]
  simp only [namespacedKey_inj]
  rfl

theorem nearAt_put (h : c.Unbounded) {c' : Cache V} {key : String} {value : V} {ttl : Duration}
    (hput : c.put now (namespacedKey space key) value ttl = (none, c')) :
    ∃ e weight, Entry.at? now (some value) ttl weight = some e ∧
      ∀ key', nearAt space c' key' = if key = key' then some e else nearAt space c key' := by
  obtain ⟨-, e, weight, he, hpeek⟩ := Cache.peek?_put h hput
  refine ⟨e, weight, he, fun key' => ?_⟩
  rw [nearAt, hpeek]
  simp only [namespacedKey_inj]
  rfl

theorem farAt_set (hmode : r.mode = .up) (key key' text : String) (ttl : Duration) :
    farAt space (Remote.set (namespacedKey space key) text ttl r).2 key' =
      if key = key' then some text else farAt space r key' := by
  rw [farAt, Remote.set, Remote.log, hmode]
  simp only [Table.get?_insert, namespacedKey_inj, eq_comm (a := key')]
  split <;> rfl

theorem del_of_down (hmode : r.mode = .down) (full : String) :
    (Remote.del full r).2 = r.log (.del full) := by
  rw [Remote.del, Remote.log, hmode]

theorem farAt_del (hmode : r.mode ≠ .down) (key key' : String) :
    farAt space (Remote.del (namespacedKey space key) r).2 key' =
      if key = key' then none else farAt space r key' := by
  have hcontent : (Remote.del (namespacedKey space key) r).2.content =
      r.content.erase (namespacedKey space key) := by
    rw [Remote.del, Remote.log]
    cases hm : r.mode with
    | down => exact absurd hm hmode
    | up | reject => rfl
  rw [farAt, hcontent]
  split
  · rename_i he
    rw [← he, Table.get?_erase_self]
    rfl
  · rename_i hne
    rw [Table.get?_erase_of_ne _ fun h => hne (namespacedKey_inj.mp h).symm]
    rfl

/-! ### What the tiers answer -/

theorem prepare_pair (call : Call V) :
    call.prepare (pair now wall c r) =
      pair (now.advance call.pause) call.wall c { r with mode := call.mode } := rfl

theorem near_get_pair (full : String) :
    (ofPair space).near.get full (pair now wall c r) =
      (.ok (c.value? now full).1, pair now wall (c.value? now full).2 r) := rfl

theorem near_set_pair (full : String) (value : V) (ttl : Duration) :
    (ofPair space).near.set full value ttl (pair now wall c r) =
      match c.put now full value ttl with
      | (some crash, c') => (.error (.crashed crash), pair now wall c' r)
      | (none, c') => (.ok true, pair now wall c' r) := rfl

theorem near_del_pair (full : String) :
    (ofPair space).near.del full (pair now wall c r) =
      (.ok (c.delete full).1, pair now wall (c.delete full).2 r) := rfl

theorem far_get_pair (full : String) :
    (Backend.remote (Depot.remote 0)).get full (pair now wall c r) =
      ((Remote.get full r).1, pair now wall c (Remote.get full r).2) := rfl

theorem far_set_pair (full text : String) (ttl : Duration) :
    (Backend.remote (Depot.remote 0)).set full text ttl (pair now wall c r) =
      ((Remote.set full text ttl r).1, pair now wall c (Remote.set full text ttl r).2) := rfl

theorem far_del_pair (full : String) :
    (Backend.remote (Depot.remote 0)).del full (pair now wall c r) =
      ((Remote.del full r).1, pair now wall c (Remote.del full r).2) := rfl

theorem space_ofPair : (ofPair space : Tiered (Depot V) V).space = space := rfl

theorem far_ofPair :
    (ofPair space : Tiered (Depot V) V).far = some (.remote (Depot.remote 0)) := rfl

theorem wall_pair : (ofPair space : Tiered (Depot V) V).wall (pair now wall c r) = wall := rfl

/-! ### One request -/

variable [Wire V]

theorem get_hit {key : String} {v : V} (h : (c.value? now (namespacedKey space key)).1 = some v) :
    (ofPair space).get key (pair now wall c r) =
      (.ok (some v), pair now wall (c.value? now (namespacedKey space key)).2 r) := by
  rw [Tiered.get]
  simp only [space_ofPair, near_get_pair, h]

theorem get_miss {key : String} (h : (c.value? now (namespacedKey space key)).1 = none) :
    (ofPair space).get key (pair now wall c r) =
      (if r.mode = .down then .ok none
        else match farAt space r key with
          | none => .ok none
          | some text => open? wall text,
      pair now wall (c.value? now (namespacedKey space key)).2
        (r.log (.get (namespacedKey space key)))) := by
  rw [Tiered.get]
  simp only [space_ofPair, near_get_pair, far_ofPair, h]
  rw [getFar, far_get_pair, farAt, Remote.get, Remote.log]
  cases r.mode with
  | down => rfl
  | up | reject => cases r.content.get? (namespacedKey space key) <;> rfl

theorem set_of_encode_eq_none {key : String} {value : V} {ttl : Duration}
    (h : (wrap wall value ttl).encode = none) :
    (ofPair space).set key value ttl (pair now wall c r) =
      (.error (.failed .codec), pair now wall c r) := by
  rw [Tiered.set]
  simp only [far_ofPair, wall_pair, h]

/-- The remote store accepts the write, and the local cache drops what it has. -/
theorem set_of_up {key text : String} {value : V} {ttl : Duration}
    (h : (wrap wall value ttl).encode = some text) (hmode : r.mode = .up) :
    (ofPair space).set key value ttl (pair now wall c r) =
      (.ok true, pair now wall (c.delete (namespacedKey space key)).2
        (Remote.set (namespacedKey space key) text ttl r).2) := by
  have hset : (Remote.set (namespacedKey space key) text ttl r).1 = .ok true := by
    rw [Remote.set, Remote.log, hmode]
  rw [Tiered.set]
  simp only [far_ofPair, wall_pair, h]
  rw [setFar, far_set_pair, space_ofPair]
  simp only [hset, near_del_pair]

/-- The remote store does not accept the write, and the local cache takes it. -/
theorem set_of_not_up {key text : String} {value : V} {ttl : Duration}
    (h : (wrap wall value ttl).encode = some text) (hmode : r.mode ≠ .up) :
    (ofPair space).set key value ttl (pair now wall c r) =
      match c.put now (namespacedKey space key) value ttl with
      | (some crash, c') =>
        (.error (.crashed crash), pair now wall c' (r.log (.set (namespacedKey space key))))
      | (none, c') => (.ok true, pair now wall c' (r.log (.set (namespacedKey space key)))) := by
  have hset : ((Remote.set (namespacedKey space key) text ttl r).1 = .ok false ∨
      (Remote.set (namespacedKey space key) text ttl r).1 = .error Remote.refused) ∧
      (Remote.set (namespacedKey space key) text ttl r).2 =
        r.log (.set (namespacedKey space key)) := by
    rw [Remote.set, Remote.log]
    cases hm : r.mode with
    | up => exact absurd hm hmode
    | down => exact ⟨.inr rfl, rfl⟩
    | reject => exact ⟨.inl rfl, rfl⟩
  rw [Tiered.set]
  simp only [far_ofPair, wall_pair, h]
  rw [setFar, far_set_pair, space_ofPair, hset.2]
  rcases hset.1 with h | h
  · rw [h]
    exact near_set_pair _ value ttl
  · rw [h]
    exact near_set_pair _ value ttl

omit [Wire V] in
theorem del_pair (key : String) :
    (ofPair space).del key (pair now wall c r) =
      (.ok ((c.delete (namespacedKey space key)).1 ||
          r.mode != .down && r.content.contains (namespacedKey space key)),
        pair now wall (c.delete (namespacedKey space key)).2
          (Remote.del (namespacedKey space key) r).2) := by
  rw [Tiered.del]
  simp only [near_del_pair, far_ofPair, far_del_pair, space_ofPair]
  rw [Remote.del, Remote.log]
  cases r.mode with
  | down => simp [Remote.refused]
  | up | reject => rfl

end Tiered

end Stockroom

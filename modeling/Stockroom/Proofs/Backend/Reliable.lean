import Mathlib.Data.List.Induction
import Stockroom.Backend.Desk
import Stockroom.Proofs.Backend.Tiers

/-! A store of two tiers before a store of texts that never fails: it is a map whose entries have
lifetimes, and its local cache has no part in it. -/

namespace Stockroom
set_option autoImplicit false

/-! ### A cache that nothing is written to -/

namespace Cache

variable {V : Type} {c : Cache V}

def Empty (c : Cache V) : Prop := ∀ s ∈ c.shards, s.slots = ∅

theorem Empty.shard (h : c.Empty) (name : String) : (c.shard name).slots = ∅ := by
  rw [Cache.shard, Array.getD_eq_getD_getElem?]
  cases hs : c.shards[c.shardIndex name]? with
  | none => rfl
  | some s => exact h s (Array.mem_of_getElem? hs)

theorem Empty.setShard (h : c.Empty) (name : String) {s : Shard V} (hs : s.slots = ∅) :
    (c.setShard name s).Empty := by
  intro x hx
  rcases Array.mem_or_eq_of_mem_setIfInBounds hx with hx | rfl
  · exact h x hx
  · exact hs

theorem empty_new (config : Config V) : (new config).Empty := by
  intro s hs
  rw [(Array.mem_replicate.mp hs).2]
  rfl

theorem Empty.value? (h : c.Empty) (now : Instant) (name : String) :
    (c.value? now name).1 = none ∧ (c.value? now name).2.Empty := by
  have hget : (c.shard name).get (c.key name) now = (.miss, c.shard name) := by
    simp [Shard.get, h.shard name]
  rw [Cache.value?, lookup, hget]
  exact ⟨rfl, Empty.setShard (c := { c with counters := _ }) h name (h.shard name)⟩

theorem Empty.delete (h : c.Empty) (name : String) :
    (c.delete name).1 = false ∧ (c.delete name).2.Empty := by
  have hremove : (c.shard name).remove (c.key name) = (false, c.shard name) := by
    simp [Shard.remove, h.shard name]
  rw [Cache.delete, hremove]
  exact ⟨rfl, Empty.setShard (c := { c with counters := _ }) h name (h.shard name)⟩

theorem Empty.size (h : c.Empty) : c.size = 0 := by
  rw [size_eq_total]
  apply total_eq_zero
  intro s hs
  rw [Shard.size, h s (Array.mem_toList_iff.mp hs)]
  rfl

end Cache

/-! ### Envelopes -/

namespace Tiered

variable {V : Type} [Wire V] {value : V} {ttl : Duration} {written read : UInt64} {text : String}

omit [Wire V] in
theorem stale_wrap : (wrap written value ttl).stale read = false ↔
    ttl.isZero = true ∨ read.toNat ≤ min (written.toNat + ttl.millis) (UInt64.size - 1) := by
  unfold Envelope.stale wrap Envelope.deadline
  cases hzero : ttl.isZero with
  | true => simp
  | false =>
    have hsize : min (written.toNat + ttl.millis) (UInt64.size - 1) < UInt64.size := by
      simp only [UInt64.size]
      omega
    simp only [Bool.false_eq_true, if_false, decide_eq_false_iff_not, false_or, UInt64.lt_iff_toNat_lt,
      Nat.toUInt64_eq, UInt64.toNat_ofNat_of_lt' hsize, Nat.not_lt]

theorem open?_wrap [Wire.Lawful V] (h : (wrap written value ttl).encode = some text) :
    open? read text = .ok (if (wrap written value ttl).stale read then none else some value) := by
  rw [open?, Envelope.decode_encode h]
  rfl

theorem isSome_encode_wrap (written : UInt64) (value : V) (ttl : Duration) :
    (wrap written value ttl).encode.isSome = (Wire.encode value).isSome := by
  rw [Envelope.encode, Option.isSome_map]
  rfl

end Tiered

namespace Desk

variable {τ V : Type} [Wire V] {space : String} {far : Backend τ String} {up : τ → Prop}
  {content : τ → String → Option String} {visits : List (Visit V)} {v : Visit V} {d : Desk τ V}

/-! ### What is kept -/

/-- The text that a visit leaves under the key that it changes. -/
def Visit.text? (v : Visit V) : Option String :=
  match v.request with
  | .set _ value ttl => (Tiered.wrap v.wall value ttl).encode
  | _ => none

/-- The store of texts holds what the last change of each key left. -/
structure Keeps (space : String) (up : τ → Prop) (content : τ → String → Option String)
    (visits : List (Visit V)) (d : Desk τ V) : Prop where
  empty : d.near.Empty
  up : up d.far
  content : ∀ key,
    content d.far (namespacedKey space key) = (lastChange? key visits).bind Visit.text?

theorem lastChange?_append (key : String) (visits : List (Visit V)) (v : Visit V) :
    lastChange? key (visits ++ [v]) =
      if v.changes key then some v else lastChange? key visits := by
  rw [lastChange?, lastChange?, List.filter_append, List.filter_singleton]
  cases v.changes key <;> simp

/-- A visit that changes one key. -/
theorem Keeps.change (h : Keeps space up content visits d) {d' : Desk τ V} {key : String}
    {text : Option String} (hv : ∀ k, v.changes k = (key == k)) (htext : v.text? = text)
    (hempty : d'.near.Empty) (hup : up d'.far)
    (hcontent : ∀ other, content d'.far other =
      if namespacedKey space key = other then text else content d.far other) :
    Keeps space up content (visits ++ [v]) d' where
  empty := hempty
  up := hup
  content k := by
    rw [hcontent, lastChange?_append, hv]
    by_cases hk : key = k
    · simp [hk, htext]
    · simp [hk, namespacedKey_inj, h.content k]

/-- A visit that changes no key. -/
theorem Keeps.ignore (h : Keeps space up content visits d) {d' : Desk τ V}
    (hv : ∀ k, v.changes k = false) (hempty : d'.near.Empty) (hup : up d'.far)
    (hcontent : content d'.far = content d.far) :
    Keeps space up content (visits ++ [v]) d' where
  empty := hempty
  up := hup
  content k := by
    rw [hcontent, h.content, lastChange?_append, hv]
    rfl

/-! ### One request -/

section
variable {key full text : String} {value : V} {ttl : Duration}

omit [Wire V] in
theorem near_get_of_empty (h : d.near.Empty) (full : String) :
    (tiered space (some far)).near.get full d =
      (.ok none, { d with near := (d.near.value? d.now full).2 }) := by
  change (Except.ok (d.near.value? d.now full).1, _) = _
  rw [(h.value? d.now full).1]
  rfl

omit [Wire V] in
theorem near_del_of_empty (h : d.near.Empty) (full : String) :
    (tiered space (some far)).near.del full d =
      (.ok false, { d with near := (d.near.delete full).2 }) := by
  change (Except.ok (d.near.delete full).1, _) = _
  rw [(h.delete full).1]
  rfl

theorem get_of_empty (hfar : far.Faithful up content) (hempty : d.near.Empty) (hup : up d.far) :
    (tiered space (some far)).get key d =
      (match content d.far (namespacedKey space key) with
        | none => .ok none
        | some text => Tiered.open? d.wall text,
      { d with
        near := (d.near.value? d.now (namespacedKey space key)).2
        far := (far.get (namespacedKey space key) d.far).2 }) := by
  have hget := (hfar.get (namespacedKey space key) d.far hup).1
  have hspace : (tiered space (some far) : Tiered (Desk τ V) V).space = space := rfl
  have hsome : (tiered space (some far) : Tiered (Desk τ V) V).far = some (far.on texts) := rfl
  simp only [Tiered.get, hspace, hsome, near_get_of_empty hempty, Tiered.getFar, Backend.on, Act.on,
    texts, hget]
  cases content d.far (namespacedKey space key) <;> rfl

theorem set_of_encode (hfar : far.Faithful up content) (hup : up d.far)
    (h : (Tiered.wrap d.wall value ttl).encode = some text) :
    (tiered space (some far)).set key value ttl d =
      (.ok true, { d with
        near := (d.near.delete (namespacedKey space key)).2
        far := (far.set (namespacedKey space key) text ttl d.far).2 }) := by
  have hset := (hfar.set (namespacedKey space key) text ttl d.far hup).1
  have hspace : (tiered space (some far) : Tiered (Desk τ V) V).space = space := rfl
  have hsome : (tiered space (some far) : Tiered (Desk τ V) V).far = some (far.on texts) := rfl
  have hwall : (tiered space (some far) : Tiered (Desk τ V) V).wall d = d.wall := rfl
  simp only [Tiered.set, hsome, hwall, h, Tiered.setFar, hspace, Backend.on, Act.on, texts, hset]
  rfl

theorem set_of_encode_eq_none (h : (Tiered.wrap d.wall value ttl).encode = none) :
    (tiered space (some far)).set key value ttl d = (.error (.failed .codec), d) := by
  have hsome : (tiered space (some far) : Tiered (Desk τ V) V).far = some (far.on texts) := rfl
  have hwall : (tiered space (some far) : Tiered (Desk τ V) V).wall d = d.wall := rfl
  simp only [Tiered.set, hsome, hwall, h]

omit [Wire V] in
theorem del_of_empty (hfar : far.Faithful up content) (hempty : d.near.Empty) (hup : up d.far) :
    (tiered space (some far)).del key d =
      (.ok (content d.far (namespacedKey space key)).isSome, { d with
        near := (d.near.delete (namespacedKey space key)).2
        far := (far.del (namespacedKey space key) d.far).2 }) := by
  have hdel := (hfar.del (namespacedKey space key) d.far hup).1
  have hspace : (tiered space (some far) : Tiered (Desk τ V) V).space = space := rfl
  have hsome : (tiered space (some far) : Tiered (Desk τ V) V).far = some (far.on texts) := rfl
  simp only [Tiered.del, hspace, hsome, near_del_of_empty hempty, Backend.on, Act.on, texts, hdel,
    Bool.false_or]

end

/-- What a visit is answered, and what is kept after it. -/
theorem Keeps.serve (hfar : far.Faithful up content) (h : Keeps space up content visits d)
    (v : Visit V) :
    Keeps space up content (visits ++ [v]) (serve space (some far) v d).2 ∧
      (serve space (some far) v d).1 =
        match v.request with
        | .get key => .get key (match (lastChange? key visits).bind Visit.text? with
            | none => .ok none
            | some text => Tiered.open? v.wall text)
        | .set key value ttl => .set key value ttl
            (if (Wire.encode value).isSome then .ok true else .error (.failed .codec))
        | .del key => .del key (.ok ((lastChange? key visits).bind Visit.text?).isSome) := by
  obtain ⟨request, pause, wall⟩ := v
  have hempty : (d.await pause wall).near.Empty := h.empty
  have hup : up (d.await pause wall).far := h.up
  rw [Desk.serve]
  cases request with
  | get key =>
    obtain ⟨-, hup', hcontent⟩ := hfar.get (namespacedKey space key) d.far hup
    simp only [Backend.serve, Backend.tiered, get_of_empty hfar hempty hup]
    refine ⟨h.ignore (fun _ => rfl) (h.empty.value? _ _).2 hup' hcontent, ?_⟩
    rw [← h.content key]
    rfl
  | set key value ttl =>
    simp only [Backend.serve, Backend.tiered]
    cases hencode : (Tiered.wrap wall value ttl).encode with
    | none =>
      have hnone := hencode ▸ (Tiered.isSome_encode_wrap wall value ttl).symm
      rw [set_of_encode_eq_none (d := d.await pause wall) hencode, hnone]
      refine ⟨h.ignore (fun _ => ?_) h.empty h.up rfl, rfl⟩
      simp [Visit.changes, hnone]
    | some text =>
      have hsome := hencode ▸ (Tiered.isSome_encode_wrap wall value ttl).symm
      obtain ⟨-, hup', hcontent⟩ := hfar.set (namespacedKey space key) text ttl d.far hup
      rw [set_of_encode (d := d.await pause wall) hfar hup hencode, hsome]
      refine ⟨h.change (fun _ => ?_) hencode (h.empty.delete _).2 hup' hcontent, rfl⟩
      simp [Visit.changes, hsome]
  | del key =>
    obtain ⟨-, hup', hcontent⟩ := hfar.del (namespacedKey space key) d.far hup
    simp only [Backend.serve, Backend.tiered, del_of_empty hfar hempty hup]
    refine ⟨h.change (fun _ => rfl) rfl (h.empty.delete _).2 hup' hcontent, ?_⟩
    rw [← h.content key]
    rfl

theorem keeps_serveAll (hfar : far.Faithful up content) (h : Keeps space up content [] d)
    (visits : List (Visit V)) :
    Keeps space up content visits (serveAll space (some far) visits d) := by
  induction visits using List.reverseRecOn with
  | nil => exact h
  | append_singleton visits v ih =>
    rw [serveAll, List.foldl_append]
    exact (ih.serve hfar v).1

/-! ### All requests -/

/-- What a visit that set a key left there can be written. -/
theorem exists_text_of_lastChange? {key : String} (h : lastChange? key visits = some v) :
    (∃ value ttl, v.request = .set key value ttl ∧ v.text?.isSome) ∨
      v.request = .del key ∧ v.text? = none := by
  have hmem := List.mem_filter.mp (List.mem_of_getLast? h)
  obtain ⟨request, pause, wall⟩ := v
  cases request with
  | get k => simp [Visit.changes] at hmem
  | set k value ttl =>
    simp only [Visit.changes, Bool.and_eq_true, beq_iff_eq] at hmem
    obtain ⟨-, rfl, hsome⟩ := hmem
    exact Or.inl ⟨value, ttl, rfl, (Tiered.isSome_encode_wrap _ _ _).trans hsome⟩
  | del k =>
    simp only [Visit.changes, beq_iff_eq] at hmem
    exact Or.inr ⟨congrArg _ hmem.2, rfl⟩

theorem isSome_text_iff {key : String} :
    ((lastChange? key visits).bind Visit.text?).isSome = true ↔
      ∃ value ttl wall, SetLast visits key value ttl wall := by
  constructor
  · intro h
    cases hlast : lastChange? key visits with
    | none => simp [hlast] at h
    | some v =>
      obtain ⟨request, pause, wall⟩ := v
      rcases exists_text_of_lastChange? hlast with ⟨value, ttl, rfl, -⟩ | ⟨-, hnone⟩
      · exact ⟨value, ttl, wall, pause, hlast⟩
      · simp [hlast, hnone] at h
  · rintro ⟨value, ttl, wall, pause, hlast⟩
    rcases exists_text_of_lastChange? hlast with ⟨-, -, -, hsome⟩ | ⟨hdel, -⟩
    · simpa [hlast] using hsome
    · cases hdel

/-- What is read is what the key was set to last, unless its lifetime is over. -/
theorem open?_lastChange? [Wire.Lawful V] (visits : List (Visit V)) (key : String)
    (wall : UInt64) :
    ∃ found, (match (lastChange? key visits).bind Visit.text? with
        | none => .ok none
        | some text => Tiered.open? wall text) = Except.ok found ∧
      ∀ value : V, found = some value ↔ ∃ ttl written, SetLast visits key value ttl written ∧
        (ttl.isZero = true ∨
          wall.toNat ≤ min (written.toNat + ttl.millis) (UInt64.size - 1)) := by
  cases hlast : lastChange? key visits with
  | none =>
    refine ⟨none, rfl, fun value => ?_⟩
    simp [SetLast, hlast]
  | some v =>
    obtain ⟨request, pause, written⟩ := v
    rcases exists_text_of_lastChange? hlast with ⟨value, ttl, rfl, hsome⟩ | ⟨hdel, hnone⟩
    · obtain ⟨text, htext⟩ := Option.isSome_iff_exists.mp hsome
      refine ⟨if (Tiered.wrap written value ttl).stale wall then none else some value, ?_, ?_⟩
      · rw [Option.bind_some, htext]
        exact Tiered.open?_wrap htext
      · intro value'
        constructor
        · intro hfound
          rw [Option.ite_none_left_eq_some, Bool.not_eq_true, Tiered.stale_wrap] at hfound
          obtain rfl := Option.some.inj hfound.2
          exact ⟨ttl, written, ⟨pause, hlast⟩, hfound.1⟩
        · rintro ⟨ttl', written', ⟨pause', hlast'⟩, hwithin⟩
          cases hlast.symm.trans hlast'
          rw [Option.ite_none_left_eq_some, Bool.not_eq_true, Tiered.stale_wrap]
          exact ⟨hwithin, rfl⟩
    · refine ⟨none, ?_, fun value => ?_⟩
      · rw [Option.bind_some, hnone]
      · cases hdel
        simp [SetLast, hlast]

/-- Before a store of texts that never fails, the two tiers are a map whose entries have lifetimes,
and nothing is ever in the local cache. -/
theorem answers_like_map [Wire.Lawful V] (hfar : far.Faithful up content) (space : String)
    (config : Cache.Config V) {s : τ} (hup : up s)
    (hempty : ∀ key, content s (namespacedKey space key) = none) (visits : List (Visit V))
    (v : Visit V) :
    let d := serveAll space (some far) visits { near := .new config, far := s }
    let answer := (serve space (some far) v d).1
    d.near.size = 0 ∧
    match v.request with
    | .set key value ttl =>
      ((Wire.encode value).isSome = true → answer = .set key value ttl (.ok true)) ∧
        ((Wire.encode value).isSome = false →
          answer = .set key value ttl (.error (.failed .codec)))
    | .get key => ∃ found, answer = .get key (.ok found) ∧
        ∀ value, found = some value ↔ ∃ ttl written, SetLast visits key value ttl written ∧
          (ttl.isZero = true ∨
            v.wall.toNat ≤ min (written.toNat + ttl.millis) (UInt64.size - 1))
    | .del key => ∃ was, answer = .del key (.ok was) ∧
        (was = true ↔ ∃ value ttl written, SetLast visits key value ttl written) := by
  intro d answer
  have hstart : Keeps (V := V) space up content [] { near := .new config, far := s } :=
    ⟨Cache.empty_new config, hup, fun key => hempty key⟩
  have hkeeps : Keeps space up content visits d := keeps_serveAll hfar hstart visits
  have hanswer := (hkeeps.serve hfar v).2
  refine ⟨hkeeps.empty.size, ?_⟩
  obtain ⟨request, pause, wall⟩ := v
  cases request with
  | get key =>
    obtain ⟨found, hfound, hiff⟩ := open?_lastChange? visits key wall
    exact ⟨found, hanswer.trans (congrArg _ hfound), hiff⟩
  | set key value ttl =>
    constructor
    · intro hsome
      refine hanswer.trans ?_
      simp [hsome]
    · intro hnone
      refine hanswer.trans ?_
      simp [hnone]
  | del key => exact ⟨_, hanswer, isSome_text_iff⟩

/-- A remote store is such a store of texts while it is up. -/
theorem faithful_remote : (Backend.remote Part.whole).Faithful (fun r => r.mode = .up)
    (fun r key => (r.content.get? key).map Prod.fst) where
  get key r hup := by
    simp [Backend.remote, Act.on, Part.whole, Remote.get, Remote.log, hup]
  set key text ttl r hup := by
    refine ⟨?_, ?_, fun other => ?_⟩
    all_goals simp only [Backend.remote, Act.on, Part.whole, Remote.set, Remote.log, hup, id]
    simp only [Table.get?_insert, eq_comm (a := other)]
    split <;> rfl
  del key r hup := by
    refine ⟨?_, ?_, fun other => ?_⟩
    all_goals simp only [Backend.remote, Act.on, Part.whole, Remote.del, Remote.log, hup, id]
    · rw [Table.contains, Option.isSome_map]
    · by_cases hkey : key = other
      · simp [hkey]
      · simp [hkey, Table.get?_erase_of_ne _ (Ne.symm hkey)]

/-- The value 1, to be kept for a millisecond and a half from the millisecond 1000 on. -/
def shortlived : List (Visit UInt64) := [{ request := .set "k" 1 ⟨1500000⟩, wall := 1000 }]

theorem answers_like_map_shortlived :
    let d := serveAll "n" (some (.remote .whole)) shortlived { near := .new .weighed, far := {} }
    (serve "n" (some (.remote .whole)) { request := .get "k", wall := 1001 } d).1 =
        .get "k" (.ok (some 1)) ∧
      (serve "n" (some (.remote .whole)) { request := .get "k", wall := 1002 } d).1 =
        .get "k" (.ok none) ∧
      (serve "n" (some (.remote .whole)) { request := .del "k", wall := 1002 } d).1 =
        .del "k" (.ok true) := by
  intro d
  have hmap := answers_like_map faithful_remote "n" .weighed (s := {}) rfl (fun _ => rfl) shortlived
  obtain ⟨-, found, hfound, hiff⟩ := hmap { request := .get "k", wall := 1001 }
  obtain ⟨-, late, hlate, hiff'⟩ := hmap { request := .get "k", wall := 1002 }
  obtain ⟨-, was, hwas, hset⟩ := hmap { request := .del "k", wall := 1002 }
  have hlast : SetLast shortlived "k" 1 ⟨1500000⟩ 1000 := ⟨.zero, rfl⟩
  refine ⟨?_, ?_, ?_⟩
  · rw [← (hiff 1).mpr ⟨_, _, hlast, Or.inr (by decide)⟩]
    exact hfound
  · cases late with
    | none => exact hlate
    | some value =>
      obtain ⟨ttl, written, ⟨pause, hsame⟩, hwithin⟩ := (hiff' value).mp rfl
      cases hsame
      exact absurd hwithin (by decide)
  · rw [← hset.mpr ⟨_, _, _, hlast⟩]
    exact hwas

end Desk

end Stockroom

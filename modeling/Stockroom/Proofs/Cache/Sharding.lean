import Stockroom.Cache.Errands
import Stockroom.Proofs.Cache.Edits

/-! How many partitions a cache has, and which of them a name is kept in, cannot be seen from
outside; and a cache with a budget answers like one without, but that it may have forgotten what
it was told. Of two caches that run the same errands, what one holds is compared with what the
other holds name by name. -/

namespace Stockroom.Cache
set_option autoImplicit false

variable {V : Type} {c c' d d' : Cache V}

/-- The same writes make the same entries. -/
structure Config.Akin (config config' : Config V) : Prop where
  weigh : config'.weigh = config.weigh
  defaultTtl : config'.defaultTtl = config.defaultTtl

theorem entry_congr (h : c.config.Akin d.config) (now : Instant) (name : String)
    (value : Option V) (ttl : Duration) : d.entry now name value ttl = c.entry now name value ttl := by
  cases value with
  | none => rfl
  | some v =>
    simp only [entry, Config.weightOf]
    rw [h.weigh]

/-! ### Two caches without a bound -/

/-- Two caches without a bound that hold the same. -/
structure Alike (c d : Cache V) : Prop where
  left : c.Unbounded
  right : d.Unbounded
  config : c.config.Akin d.config
  entries : ∀ name, d.peek? name = c.peek? name
  size : d.size = c.size
  used : d.usedBytes = c.usedBytes
  counters : d.counters.ofEntries = c.counters.ofEntries

theorem alike_store : c.store.Alike d.store ↔ c.Alike d := by
  constructor
  · intro h
    exact ⟨⟨h.left.shards, h.left.capacity⟩, ⟨h.right.shards, h.right.capacity⟩,
      ⟨h.config.weigh, h.config.defaultTtl⟩, h.entries, h.size, h.used, h.counters⟩
  · intro h
    exact ⟨⟨h.left.shards, h.left.capacity⟩, ⟨h.right.shards, h.right.capacity⟩,
      ⟨h.config.weigh, h.config.defaultTtl⟩, h.entries, h.size, h.used, h.counters⟩

theorem ofEntries_countLookup (n : Counters) (l : Lookup V) :
    (countLookup n l).ofEntries = countLookup n.ofEntries l := by
  cases l <;> rfl

theorem live?_congr {now : Instant} {name : String} (h : d.peek? name = c.peek? name) :
    d.live? now name = c.live? now name := by
  rw [live?, live?, h]

namespace Alike

/-- The same edit on both sides, with the same counts. -/
theorem edit (h : c.Alike d) {name : String} {e : Option (Entry V)} (hc : c.Edit c' name e)
    (hd : d.Edit d' name e) (hleft : c'.Unbounded) (hright : d'.Unbounded)
    (hconfig : c'.config.Akin d'.config)
    (hcounters : d'.counters.ofEntries = c'.counters.ofEntries) : c'.Alike d' where
  left := hleft
  right := hright
  config := hconfig
  entries name' := by rw [hd.entries, hc.entries, h.entries]
  size := by
    have hsize := hd.size
    rw [h.entries, h.size, ← hc.size] at hsize
    exact Nat.add_right_cancel hsize
  used := by
    have hused := hd.used
    rw [h.entries, h.used, ← hc.used] at hused
    exact (UInt64.add_left_inj _).mp hused
  counters := hcounters

theorem lookup (h : c.Alike d) (now : Instant) (name : String) :
    (c.lookup now name).2.Alike (d.lookup now name).2 := by
  refine h.edit (edit_lookup h.left.shards now name) ?_ (unbounded_lookup h.left now name)
    (unbounded_lookup h.right now name) h.config ?_
  · rw [← live?_congr (h.entries name)]
    exact edit_lookup h.right.shards now name
  · rw [counters_lookup, counters_lookup, ofEntries_countLookup, ofEntries_countLookup, h.counters,
      h.entries]

theorem delete (h : c.Alike d) (name : String) : (c.delete name).2.Alike (d.delete name).2 := by
  refine h.edit (edit_delete h.left.shards name) (edit_delete h.right.shards name)
    (unbounded_delete h.left name) (unbounded_delete h.right name) h.config ?_
  rw [counters_delete, counters_delete, h.entries]
  exact congrArg (fun n : Counters => { n with
    removals := n.removals + if (c.peek? name).isSome then 1 else 0 }) h.counters

theorem add (h : c.Alike d) (name : String) (e : Entry V) : (c.add name e).Alike (d.add name e) := by
  refine h.edit (edit_add h.left name e) (edit_add h.right name e) (unbounded_add h.left name e)
    (unbounded_add h.right name e) h.config ?_
  rw [counters_add h.left, counters_add h.right, h.entries]
  exact congrArg (countInsertion · _) h.counters

theorem forfeit (h : c.Alike d) (name : String) : (c.forfeit name).Alike (d.forfeit name) :=
  h.edit (edit_forfeit h.left.shards name) (edit_forfeit h.right.shards name)
    (unbounded_forfeit h.left name) (unbounded_forfeit h.right name) h.config h.counters

theorem purge (h : c.Alike d) : c.purge.Alike d.purge where
  left := unbounded_purge h.left
  right := unbounded_purge h.right
  config := h.config
  entries name := (peek?_purge d name).trans (peek?_purge c name).symm
  size := (size_purge d).trans (size_purge c).symm
  used := (usedBytes_purge d).trans (usedBytes_purge c).symm
  counters := by
    change { d.counters.ofEntries with removals := d.counters.ofEntries.removals + d.size } = _
    rw [h.counters, h.size]
    rfl

theorem carry (h : c.Alike d) (now : Instant) {deed : Option (Deed V)}
    (hdeed : ∀ i, deed ≠ some (.purgeShard i)) : (c.carry now deed).Alike (d.carry now deed) := by
  rcases deed with _ | name | ⟨name, e⟩ | name | name | _ | index
  · exact h
  · exact h.lookup now name
  · exact h.add name e
  · exact h.forfeit name
  · exact h.delete name
  · exact h.purge
  · exact absurd rfl (hdeed index)

theorem new {config config' : Config V} (h : config.Akin config') (hc : config.capacity = 0)
    (hd : config'.capacity = 0) : (Cache.new config).Alike (Cache.new config') where
  left := unbounded_new hc
  right := unbounded_new hd
  config := h
  entries name := (peek?_new config' name).trans (peek?_new config name).symm
  size := (size_new config').trans (size_new config).symm
  used := (usedBytes_new config').trans (usedBytes_new config).symm
  counters := rfl

end Alike

/-! ### A cache beside one without a bound -/

/-- The first has no bound; the second holds nothing but what the first holds. -/
structure Covers (c d : Cache V) : Prop where
  unbounded : c.Unbounded
  shards : 0 < d.shards.size
  config : c.config.Akin d.config
  entries : ∀ name e, d.peek? name = some e → c.peek? name = some e

theorem covers_store : c.store.Covers d.store ↔ c.Covers d := by
  constructor
  · intro h
    exact ⟨⟨h.unbounded.shards, h.unbounded.capacity⟩, h.shards,
      ⟨h.config.weigh, h.config.defaultTtl⟩, h.entries⟩
  · intro h
    exact ⟨⟨h.unbounded.shards, h.unbounded.capacity⟩, h.shards,
      ⟨h.config.weigh, h.config.defaultTtl⟩, h.entries⟩

namespace Covers

theorem live? (h : c.Covers d) {now : Instant} {name : String} {e : Entry V}
    (he : d.live? now name = some e) : c.live? now name = some e := by
  obtain ⟨hpeek, hlive⟩ := Option.filter_eq_some_iff.mp he
  exact Option.filter_eq_some_iff.mpr ⟨h.entries name e hpeek, hlive⟩

theorem lookup (h : c.Covers d) (now : Instant) (name : String) :
    (c.lookup now name).2.Covers (d.lookup now name).2 where
  unbounded := unbounded_lookup h.unbounded now name
  shards := Nat.lt_of_lt_of_eq h.shards (size_shards_carry d now (some (.look name))).symm
  config := h.config
  entries name' e he := by
    rw [peek?_lookup h.shards] at he
    rw [peek?_lookup h.unbounded.shards]
    split at he
    · rename_i hname
      rw [if_pos hname]
      exact h.live? he
    · rename_i hname
      rw [if_neg hname]
      exact h.entries name' e he

theorem delete (h : c.Covers d) (name : String) :
    (c.delete name).2.Covers (d.delete name).2 where
  unbounded := unbounded_delete h.unbounded name
  shards := Nat.lt_of_lt_of_eq h.shards (size_shards_carry d .start (some (.delete name))).symm
  config := h.config
  entries name' e he := by
    rw [peek?_delete h.shards] at he
    rw [peek?_delete h.unbounded.shards]
    split at he
    · cases he
    · rename_i hname
      rw [if_neg hname]
      exact h.entries name' e he

theorem add (h : c.Covers d) (name : String) (e : Entry V) :
    (c.add name e).Covers (d.add name e) where
  unbounded := unbounded_add h.unbounded name e
  shards := Nat.lt_of_lt_of_eq h.shards (size_shards_carry d .start (some (.write name e))).symm
  config := h.config
  entries name' e' he := by
    have hadd := peek?_of_add h.shards he
    rw [peek?_add h.unbounded]
    split at hadd <;> rename_i hname
    · rw [if_pos hname, hadd]
    · rw [if_neg hname]
      exact h.entries name' e' hadd

theorem forfeit (h : c.Covers d) (name : String) : (c.forfeit name).Covers (d.forfeit name) where
  unbounded := unbounded_forfeit h.unbounded name
  shards := Nat.lt_of_lt_of_eq h.shards (size_shards_carry d .start (some (.forfeit name))).symm
  config := h.config
  entries name' e he := by
    rw [peek?_forfeit h.shards] at he
    rw [peek?_forfeit h.unbounded.shards]
    split at he
    · cases he
    · rename_i hname
      rw [if_neg hname]
      exact h.entries name' e he

theorem purge (h : c.Covers d) : c.purge.Covers d.purge where
  unbounded := unbounded_purge h.unbounded
  shards := Nat.lt_of_lt_of_eq h.shards (size_shards_carry d .start (some .purge)).symm
  config := h.config
  entries name e he := by
    rw [peek?_purge] at he
    cases he

theorem carry (h : c.Covers d) (now : Instant) {deed : Option (Deed V)}
    (hdeed : ∀ i, deed ≠ some (.purgeShard i)) : (c.carry now deed).Covers (d.carry now deed) := by
  rcases deed with _ | name | ⟨name, e⟩ | name | name | _ | index
  · exact h
  · exact h.lookup now name
  · exact h.add name e
  · exact h.forfeit name
  · exact h.delete name
  · exact h.purge
  · exact absurd rfl (hdeed index)

theorem new {config config' : Config V} (h : config.Akin config') (hc : config.capacity = 0) :
    (Cache.new config).Covers (Cache.new config') where
  unbounded := unbounded_new hc
  shards := (size_shards_new config').symm ▸ Sharding.count_pos _ _
  config := h
  entries name e he := by
    rw [peek?_new] at he
    cases he

end Covers

/-! ### Errands -/

namespace World

variable {w v : World V} {inRuntime : Bool} {op : Op V} {n k : Nat}

/-- What a set value weighs, if its write comes to an entry. -/
def weightOf? (w : World V) : Op V → Nat
  | .set name value _ => (w.cache.config.weigh name value).toOption.elim 0 UInt64.toNat
  | _ => 0

theorem weight_eq {name : String} {value : V} {ttl : Duration} {e : Entry V} {time : Option Duration}
    (h : w.cache.entry w.now name (some value) ttl = .ok e) :
    w.weightOf? (.set name value time) = e.weight.toNat := by
  have hweight : w.cache.config.weigh name value = .ok e.weight := weightOf_of_entry h
  rw [weightOf?, hweight]
  rfl

theorem weight_deed?_le (w : World V) (op : Op V) : Deed.weight (op.deed? w) ≤ w.weightOf? op := by
  cases op with
  | set name value time =>
    change Deed.weight (w.writing? name (some value) (time.getD w.cache.config.defaultTtl)) ≤ _
    cases he : w.cache.entry w.now name (some value) (time.getD w.cache.config.defaultTtl) with
    | error crash =>
      rw [writing?_of_error he]
      exact Nat.zero_le _
    | ok e =>
      rw [writing?_of_ok he, weight_eq he]
      split
      · exact Nat.le_refl _
      · exact Nat.zero_le _
  | _ => exact Nat.le_refl _

theorem spare_perform (inRuntime : Bool) (op : Op V) (h : w.cache.Spare (w.weightOf? op + n)) :
    (w.perform inRuntime op).2.cache.Spare n := by
  have hcarry := h.carry w.now (w.admits_deed? (some op) none none) (w.weight_deed?_le op)
  have hshards : (w.perform inRuntime op).2.cache.store.shards =
      (w.cache.carry w.now (op.deed? w)).store.shards := by rw [store_perform]
  exact hcarry.of_shards hshards

/-- The answer to a write that has room: it crashes, or it is done. -/
theorem reply_set {name : String} {value : V} {ttl : Option Duration}
    (h : w.cache.Spare (w.weightOf? (.set name value ttl) + n)) (inRuntime : Bool) :
    (w.perform inRuntime (.set name value ttl)).1 =
      (w.cache.entry w.now name (some value) (ttl.getD w.cache.config.defaultTtl)).map
        fun _ => .done := by
  rw [perform_set]
  rcases w.write_cases name (some value) (ttl.getD w.cache.config.defaultTtl) true inRuntime with
    ⟨crash, he, hw⟩ | ⟨e, he, hfits, -⟩ | ⟨e, he, -, hw⟩
  · rw [hw, he]
    rfl
  · have hle : e.weight.toNat ≤ w.weightOf? (.set name value ttl) := Nat.le_of_eq (weight_eq he).symm
    exact absurd (h.fits (Nat.le_add_right_of_le hle) name) hfits
  · rw [hw, he]
    rfl

theorem deed?_congr (hnow : v.now = w.now) (h : w.cache.config.Akin v.cache.config)
    (hw : w.cache.Spare (w.weightOf? op + n)) (hv : v.cache.Spare (v.weightOf? op + k)) :
    op.deed? v = op.deed? w := by
  cases op with
  | set name value ttl =>
    have hentry : v.cache.entry v.now name (some value) (ttl.getD v.cache.config.defaultTtl) =
        w.cache.entry w.now name (some value) (ttl.getD w.cache.config.defaultTtl) := by
      rw [hnow, entry_congr h, h.defaultTtl]
    change v.writing? name (some value) _ = w.writing? name (some value) _
    cases he : w.cache.entry w.now name (some value) (ttl.getD w.cache.config.defaultTtl) with
    | error crash => rw [writing?_of_error he, writing?_of_error (hentry.trans he)]
    | ok e =>
      have hle : e.weight.toNat ≤ w.weightOf? (.set name value ttl) := Nat.le_of_eq (weight_eq he).symm
      have hle' : e.weight.toNat ≤ v.weightOf? (.set name value ttl) :=
        Nat.le_of_eq (weight_eq (hentry.trans he)).symm
      have hfits := hw.fits (Nat.le_add_right_of_le hle) name
      have hfits' := hv.fits (Nat.le_add_right_of_le hle') name
      rw [writing?_of_ok he, writing?_of_ok (hentry.trans he), if_pos hfits, if_pos hfits']
  | _ => rfl

theorem deed?_ne_purgeShard (hop : ∀ i, op ≠ .purgeShard i) (i : Nat) :
    op.deed? w ≠ some (.purgeShard i) := by
  cases op with
  | purgeShard index => exact absurd rfl (hop index)
  | set name value ttl =>
    change w.writing? _ _ _ ≠ _
    unfold writing?
    split
    · split <;> (intro he; cases he)
    · intro he
      cases he
  | _ => intro he; cases he

theorem alike_perform (hnow : v.now = w.now) (h : w.cache.Alike v.cache)
    (hw : w.cache.Spare (w.weightOf? op + n)) (hv : v.cache.Spare (v.weightOf? op + k))
    (hop : ∀ i, op ≠ .purgeShard i) :
    (w.perform inRuntime op).2.cache.Alike (v.perform inRuntime op).2.cache := by
  apply alike_store.mp
  rw [store_perform, store_perform, hnow, deed?_congr hnow h.config hw hv]
  exact alike_store.mpr (h.carry w.now (deed?_ne_purgeShard hop))

theorem covers_perform (hnow : v.now = w.now) (h : w.cache.Covers v.cache)
    (hw : w.cache.Spare (w.weightOf? op + n)) (hv : v.cache.Spare (v.weightOf? op + k))
    (hop : ∀ i, op ≠ .purgeShard i) :
    (w.perform inRuntime op).2.cache.Covers (v.perform inRuntime op).2.cache := by
  apply covers_store.mp
  rw [store_perform, store_perform, hnow, deed?_congr hnow h.config hw hv]
  exact covers_store.mpr (h.carry w.now (deed?_ne_purgeShard hop))

/-- The clock moves when time passes, and with nothing else. -/
theorem now_serve (w : World V) (e : Errand V) :
    (w.serve e).2.now =
      match e with
      | .advance time => w.now.advance time
      | _ => w.now := by
  cases e with
  | set name value ttl inRuntime => exact (calm_perform w inRuntime (.set name value ttl)).now
  | _ => rfl

theorem config_serve (w : World V) (e : Errand V) :
    (w.serve e).2.cache.config = w.cache.config := by
  have hperform (inRuntime : Bool) (op : Op V) :
      (w.perform inRuntime op).2.cache.config = w.cache.config := by
    have hstore := congrArg Cache.config (store_perform w inRuntime op)
    exact hstore.trans (config_carry w.cache w.now (op.deed? w))
  cases e with
  | len | size | advance _ => rfl
  | _ => exact hperform _ _

/-- An errand takes up what its value weighs. -/
theorem spare_serve {e : Errand V} (h : w.cache.Spare (e.weight w.cache.config.weigh + n)) :
    (w.serve e).2.cache.Spare n := by
  have hzero {n : Nat} (h : w.cache.Spare (0 + n)) : w.cache.Spare n := Nat.zero_add n ▸ h
  cases e with
  | len | size | advance _ => exact hzero h
  | set name value ttl inRuntime => exact spare_perform inRuntime (.set name value ttl) h
  | get name => exact spare_perform true (.get name) h
  | contains name => exact spare_perform true (.contains name) h
  | delete name => exact spare_perform true (.delete name) h
  | purge => exact spare_perform true .purge h

theorem alike_serve (hnow : v.now = w.now) (h : w.cache.Alike v.cache) {e : Errand V}
    (hw : w.cache.Spare (e.weight w.cache.config.weigh + n))
    (hv : v.cache.Spare (e.weight v.cache.config.weigh + k)) :
    (v.serve e).1 = (w.serve e).1 ∧ (w.serve e).2.cache.Alike (v.serve e).2.cache := by
  cases e with
  | set name value ttl inRuntime =>
    refine ⟨?_, alike_perform hnow h hw hv fun _ he => by cases he⟩
    rw [serve, serve, reply_set hw, reply_set hv, hnow, entry_congr h.config, h.config.defaultTtl]
  | get name =>
    refine ⟨?_, alike_perform hnow h hw hv fun _ he => by cases he⟩
    simp only [serve, perform, lookup_fst, hnow, live?_congr (h.entries name)]
  | contains name =>
    refine ⟨?_, h⟩
    simp only [serve, perform, contains_eq, hnow, live?_congr (h.entries name)]
  | delete name =>
    refine ⟨?_, alike_perform hnow h hw hv fun _ he => by cases he⟩
    simp only [serve, perform, delete_fst, h.entries name]
  | purge => exact ⟨rfl, alike_perform hnow h hw hv fun _ he => by cases he⟩
  | len =>
    refine ⟨?_, h⟩
    rw [serve, serve, h.size]
  | size =>
    refine ⟨?_, h⟩
    rw [serve, serve, hw.totalBytes, hv.totalBytes, h.used]
  | advance time => exact ⟨rfl, h⟩

theorem covers_serve (hnow : v.now = w.now) (h : w.cache.Covers v.cache) {e : Errand V}
    (hw : w.cache.Spare (e.weight w.cache.config.weigh + n))
    (hv : v.cache.Spare (e.weight v.cache.config.weigh + k)) :
    e.MayLose (w.serve e).1 (v.serve e).1 ∧ (w.serve e).2.cache.Covers (v.serve e).2.cache := by
  cases e with
  | set name value ttl inRuntime =>
    refine ⟨?_, covers_perform hnow h hw hv fun _ he => by cases he⟩
    rw [Errand.MayLose, serve, serve, reply_set hw, reply_set hv, hnow, entry_congr h.config,
      h.config.defaultTtl]
  | get name =>
    refine ⟨?_, covers_perform hnow h hw hv fun _ he => by cases he⟩
    simp only [Errand.MayLose, serve, perform, lookup_fst, hnow]
    cases he : v.cache.live? w.now name with
    | none => exact Or.inr rfl
    | some e => rw [h.live? he]; exact Or.inl rfl
  | contains name =>
    refine ⟨?_, h⟩
    simp only [Errand.MayLose, serve, perform, contains_eq, hnow]
    cases he : v.cache.live? w.now name with
    | none => intro he; cases he
    | some e => rw [h.live? he]; exact id
  | delete name =>
    refine ⟨?_, covers_perform hnow h hw hv fun _ he => by cases he⟩
    simp only [Errand.MayLose, serve, perform, delete_fst]
    cases he : v.cache.peek? name with
    | none => intro he; cases he
    | some e => rw [h.entries name e he]; exact id
  | purge => exact ⟨rfl, covers_perform hnow h hw hv fun _ he => by cases he⟩
  | len => exact ⟨trivial, h⟩
  | size => exact ⟨trivial, h⟩
  | advance time => exact ⟨rfl, h⟩

theorem now_serve_congr (hnow : v.now = w.now) (e : Errand V) :
    (v.serve e).2.now = (w.serve e).2.now := by
  rw [now_serve, now_serve, hnow]

/-- What is left of the errands has room after the first. -/
theorem spare_rest {e : Errand V} {errands : List (Errand V)}
    (h : w.cache.Spare (Errand.weights w.cache.config.weigh (e :: errands))) :
    (w.serve e).2.cache.Spare (Errand.weights (w.serve e).2.cache.config.weigh errands) := by
  rw [config_serve]
  exact spare_serve h

theorem alike_serveAll (hnow : v.now = w.now) (h : w.cache.Alike v.cache)
    {errands : List (Errand V)} (hw : w.cache.Spare (Errand.weights w.cache.config.weigh errands))
    (hv : v.cache.Spare (Errand.weights v.cache.config.weigh errands)) :
    (v.serveAll errands).1 = (w.serveAll errands).1 ∧
      (w.serveAll errands).2.cache.Alike (v.serveAll errands).2.cache := by
  induction errands generalizing w v with
  | nil => exact ⟨rfl, h⟩
  | cons e errands ih =>
    obtain ⟨hreply, hcache⟩ := alike_serve hnow h hw hv
    obtain ⟨hreplies, hlast⟩ := ih (now_serve_congr hnow e) hcache (spare_rest hw) (spare_rest hv)
    exact ⟨congrArg₂ List.cons hreply hreplies, hlast⟩

theorem covers_serveAll (hnow : v.now = w.now) (h : w.cache.Covers v.cache)
    {errands : List (Errand V)} (hw : w.cache.Spare (Errand.weights w.cache.config.weigh errands))
    (hv : v.cache.Spare (Errand.weights v.cache.config.weigh errands)) {i : Nat} {e : Errand V}
    (he : errands[i]? = some e) :
    ∃ full answer, (w.serveAll errands).1[i]? = some full ∧
      (v.serveAll errands).1[i]? = some answer ∧ e.MayLose full answer := by
  induction errands generalizing w v i with
  | nil => cases he
  | cons first errands ih =>
    obtain ⟨hreply, hcache⟩ := covers_serve hnow h hw hv
    cases i with
    | zero =>
      cases he
      exact ⟨_, _, rfl, rfl, hreply⟩
    | succ i => exact ih (now_serve_congr hnow first) hcache (spare_rest hw) (spare_rest hv) he

end World

/-- As long as a word counts all that is set, two caches with the same default lifetime and weigher
give the same answers without a budget, and one with a budget only forgets. -/
theorem sharding_invisible (config config' : Config V) (hcapacity : config.capacity = 0)
    (hweigh : config'.weigh = config.weigh) (httl : config'.defaultTtl = config.defaultTtl)
    (errands : List (Errand V)) (hweights : Errand.weights config.weigh errands < UInt64.size) :
    let full := (World.new config).serveAll errands
    let other := (World.new config').serveAll errands
    (config'.capacity = 0 → other.1 = full.1 ∧
      other.2.cache.counters.ofEntries = full.2.cache.counters.ofEntries) ∧
    ∀ (i : Nat) (e : Errand V), errands[i]? = some e → ∃ x y, full.1[i]? = some x ∧
      other.1[i]? = some y ∧ e.MayLose x y := by
  have hakin : config.Akin config' := ⟨hweigh, httl⟩
  have hw : (Cache.new config).Spare (Errand.weights config.weigh errands) := .new hweights
  have hv : (Cache.new config').Spare (Errand.weights config'.weigh errands) :=
    .new (hweigh ▸ hweights)
  refine ⟨fun hcapacity' => ?_, fun i e he => ?_⟩
  · have h := World.alike_serveAll (w := .new config) (v := .new config') rfl
      (Alike.new hakin hcapacity hcapacity') hw hv
    exact ⟨h.1, h.2.counters⟩
  · exact World.covers_serveAll (w := .new config) (v := .new config') rfl
      (Covers.new hakin hcapacity) hw hv he

/-- Two values are written, the first is read, checked for the second and deleted, the second is read
when it has expired, and what is left is counted and weighed. -/
def keptOrForgotten : List (Errand Nat) :=
  [.set "a" 1, .set "b" 2, .get "a", .contains "b", .delete "a", .advance (.ofSeconds 301),
    .get "b", .len, .size]

/-- With four partitions for one the answers stay as they are; with room for a single entry the first
value is found or forgotten. -/
theorem sharding_invisible_forgetting :
    let config : Config Nat := { shards := some 1, weigh := fun _ _ => .ok 1 }
    let full := (World.new config).serveAll keptOrForgotten
    let spread := (World.new { config with shards := some 4 }).serveAll keptOrForgotten
    let small := (World.new { config with capacity := 1 }).serveAll keptOrForgotten
    Errand.weights config.weigh keptOrForgotten < UInt64.size ∧
      spread.1 = full.1 ∧ full.1[2]? = some (.ok (.found (some (some 1)))) ∧
      ∃ y, small.1[2]? = some y ∧
        (y = .ok (.found (some (some 1))) ∨ y = .ok (.found none)) := by
  intro config full spread small
  have hweights : Errand.weights config.weigh keptOrForgotten < UInt64.size := by decide
  have hspread := (sharding_invisible config { config with shards := some 4 } rfl rfl rfl
    keptOrForgotten hweights).1 rfl
  have hfull : full.1[2]? = some (.ok (.found (some (some 1)))) := by decide +kernel
  obtain ⟨x, y, hx, hy, hlose⟩ := (sharding_invisible config { config with capacity := 1 } rfl rfl
    rfl keptOrForgotten hweights).2 2 (.get "a") rfl
  obtain rfl := Option.some.inj (hx.symm.trans hfull)
  exact ⟨hweights, hspread.1, hfull, y, hy, hlose⟩

end Stockroom.Cache

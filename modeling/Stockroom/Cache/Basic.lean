import Stockroom.Cache.Config
import Stockroom.Cache.Metrics
import Stockroom.Flight.Registry
import Stockroom.Shard.Basic

/-!
The store of a cache: its partitions, its counters, the registry of its loads and the permits
for background saves. Everything here happens at one instant and waits for nothing. A write crashes
before it has changed anything, or because its weight does not fit beside that of the other entries;
otherwise it takes effect as a whole.
-/

namespace Stockroom
set_option autoImplicit false

structure Cache (V : Type) where
  config : Cache.Config V
  shards : Array (Shard V)
  counters : Counters := {}
  flights : Registry V := {}
  /-- Permits for saves that nobody holds. -/
  permits : Nat

namespace Cache

variable {V : Type}

/-- An empty cache; the budget is split evenly. -/
def new (config : Config V) : Cache V where
  config := config
  shards := .replicate config.shardCount
    (.new (Sharding.budget config.capacity config.shardCount))
  permits := config.persistLimit

/-- Build a cache. This crashes if more saves may be outstanding than there can be permits. -/
def build (config : Config V) : Except Crash (Cache V) :=
  if config.persistLimit ≤ Config.permitBound then .ok (new config) else .error .tooManyPermits

theorem build_eq_ok_iff {config : Config V} {c : Cache V} :
    build config = .ok c ↔ config.persistLimit ≤ Config.permitBound ∧ c = new config := by
  unfold build
  split
  · rename_i h; simp [h, eq_comm]
  · rename_i h; simp [h]

/-! ### Partitions -/

def shardCount (c : Cache V) : Nat := c.shards.size

def key (c : Cache V) (name : String) : Key := ⟨c.config.hash name, name⟩

/-- The partition that a name is kept in. -/
def shardIndex (c : Cache V) (name : String) : Nat :=
  Sharding.index (c.config.hash name) c.shards.size

def shard (c : Cache V) (name : String) : Shard V :=
  c.shards.getD (c.shardIndex name) (.new 0)

/-- The cache with the partition of `name` replaced. Operations do this last, when nothing else
holds the array, so that it is changed in place. -/
def setShard (c : Cache V) (name : String) (s : Shard V) : Cache V :=
  let i := c.shardIndex name
  { c with shards := c.shards.setIfInBounds i s }

def peek? (c : Cache V) (name : String) : Option (Entry V) := (c.shard name).peek? (c.key name)

/-- The number of entries, including expired ones that nobody has read since. -/
def size (c : Cache V) : Nat := c.shards.foldl (fun n s => n + s.size) 0

/-- The entries of one partition; none for an index out of range. -/
def shardSize (c : Cache V) (index : Nat) : Nat := (c.shards[index]?.map Shard.size).getD 0

/-- What a 64-bit word can tell of the total weight. -/
def usedBytes (c : Cache V) : UInt64 := c.shards.foldl (fun n s => n + s.usedBytes) 0

/-- The total weight. To ask for it crashes if a word cannot count it. -/
def totalBytes (c : Cache V) : Except Crash UInt64 :=
  if c.shards.foldl (fun n s => n + s.usedBytes.toNat) 0 < UInt64.size then .ok c.usedBytes
  else .error .weightOverflow

def metrics (c : Cache V) : Metrics := c.counters.record c.size c.usedBytes c.config.capacity

/-- The metrics as they are asked for. Working out the total weight may crash. -/
def report (c : Cache V) : Except Crash Metrics := c.totalBytes.map fun _ => c.metrics

/-! ### Reading and removing -/

def countLookup (n : Counters) : Lookup V → Counters
  | .hit _ => { n with hits := n.hits + 1 }
  | .expired => { n with expirations := n.expirations + 1, misses := n.misses + 1 }
  | .miss => { n with misses := n.misses + 1 }

def lookup (c : Cache V) (now : Instant) (name : String) : Option (Snapshot V) × Cache V :=
  let r := (c.shard name).get (c.key name) now
  (r.1.found?, { c with counters := countLookup c.counters r.1 }.setShard name r.2)

/-- Whether a live entry is there; nothing is counted and recency stays as it is. -/
def contains (c : Cache V) (now : Instant) (name : String) : Bool :=
  (c.shard name).contains (c.key name) now

def isLoading (c : Cache V) (name : String) : Bool := c.flights.contains name

def delete (c : Cache V) (name : String) : Bool × Cache V :=
  let r := (c.shard name).remove (c.key name)
  let removals := c.counters.removals + if r.1 then 1 else 0
  (r.1, { c with counters.removals := removals }.setShard name r.2)

/-- Empty one partition. The answer is the number of entries dropped, none for an index out of
range. -/
def purgeShard (c : Cache V) (index : Nat) : Nat × Cache V :=
  match c.shards[index]? with
  | none => (0, c)
  | some s =>
    let r := s.clear
    (r.1, { c with
      shards := c.shards.setIfInBounds index r.2
      counters.removals := c.counters.removals + r.1 })

def purge (c : Cache V) : Cache V :=
  { c with
    shards := c.shards.map fun s => s.clear.2
    counters.removals := c.counters.removals + c.size }

/-! ### Writing -/

def countInsertion (n : Counters) (i : Insertion) : Counters :=
  { n with
    updates := n.updates + if i.replaced then 1 else 0
    inserts := n.inserts + if i.replaced then 0 else 1
    evictions := n.evictions + i.evicted }

/-- The entry that a write is to add. There is none, and the write crashes, if the weigher does or
if the deadline cannot be represented. -/
def entry (c : Cache V) (now : Instant) (name : String) (value : Option V) (ttl : Duration) :
    Except Crash (Entry V) :=
  match c.config.weightOf name value with
  | .error crash => .error crash
  | .ok weight =>
    match Entry.at? now value ttl weight with
    | none => .error .deadlineOverflow
    | some e => .ok e

/-- Add an entry to its partition and count what that did. If it does not fit there this crashes;
the old entry of the name is gone then, and nothing is counted. -/
def insert (c : Cache V) (name : String) (e : Entry V) : Option Crash × Cache V :=
  match (c.shard name).insert (c.key name) e with
  | (.ok i, s) => (none, { c with counters := countInsertion c.counters i }.setShard name s)
  | (.error crash, s) => (some crash, c.setShard name s)

/-- Write a value, or that there is none. -/
def write (c : Cache V) (now : Instant) (name : String) (value : Option V) (ttl : Duration) :
    Option Crash × Cache V :=
  match c.entry now name value ttl with
  | .error crash => (some crash, c)
  | .ok e => c.insert name e

/-! ### The two ways of an insertion -/

/-- The entry fits into its partition, in the place of the old one. -/
def Fits (c : Cache V) (name : String) (e : Entry V) : Prop := (c.shard name).Fits (c.key name) e

instance (c : Cache V) (name : String) (e : Entry V) : Decidable (c.Fits name e) :=
  inferInstanceAs (Decidable (Shard.Fits _ _ _))

/-- Whether the entry that a write would add at this instant does not fit. -/
def Outgrown (c : Cache V) (now : Instant) (name : String) (value : Option V) (ttl : Duration) :
    Prop := ∃ e, c.entry now name value ttl = .ok e ∧ ¬ c.Fits name e

/-- What an insertion of an entry that fits makes of the cache. -/
def add (c : Cache V) (name : String) (e : Entry V) : Cache V :=
  let r := (c.shard name).place (c.key name) e
  { c with counters := countInsertion c.counters r.1 }.setShard name r.2

/-- What an insertion leaves that crashes. -/
def forfeit (c : Cache V) (name : String) : Cache V :=
  c.setShard name ((c.shard name).forfeit (c.key name))

theorem insert_of_fits {c : Cache V} {name : String} {e : Entry V} (h : c.Fits name e) :
    c.insert name e = (none, c.add name e) := by
  unfold insert
  rw [Shard.insert_of_fits h]
  rfl

theorem insert_of_not_fits {c : Cache V} {name : String} {e : Entry V} (h : ¬ c.Fits name e) :
    c.insert name e = (some .weightOverflow, c.forfeit name) := by
  unfold insert
  rw [Shard.insert_of_not_fits h]
  rfl

/-- A write crashes before it changes anything, or it makes an insertion, which goes one of its two
ways. -/
theorem write_cases (c : Cache V) (now : Instant) (name : String) (value : Option V)
    (ttl : Duration) :
    (∃ crash, c.entry now name value ttl = .error crash ∧
        c.write now name value ttl = (some crash, c)) ∨
    (∃ e, c.entry now name value ttl = .ok e ∧ ¬ c.Fits name e ∧
        c.write now name value ttl = (some .weightOverflow, c.forfeit name)) ∨
    ∃ e, c.entry now name value ttl = .ok e ∧ c.Fits name e ∧
        c.write now name value ttl = (none, c.add name e) := by
  unfold write
  cases c.entry now name value ttl with
  | error crash => exact .inl ⟨crash, rfl, rfl⟩
  | ok e =>
    by_cases hfits : c.Fits name e
    · exact .inr (.inr ⟨e, rfl, hfits, insert_of_fits hfits⟩)
    · exact .inr (.inl ⟨e, rfl, hfits, insert_of_not_fits hfits⟩)

/-! ### Permits for saves -/

/-- Ask for a background save. The answer says whether one starts; without a free permit, or outside
the runtime that saves run in, the request is dropped and counted. -/
def requestSave (c : Cache V) (inRuntime : Bool) : Bool × Cache V :=
  if !c.config.persists then (false, c)
  else if c.permits = 0 || !inRuntime then
    (false, { c with counters.persistDropped := c.counters.persistDropped + 1 })
  else (true, { c with permits := c.permits - 1 })

/-- A save has ended and gives its permit back. -/
def endSave (c : Cache V) : Cache V := { c with permits := c.permits + 1 }

end Cache

end Stockroom

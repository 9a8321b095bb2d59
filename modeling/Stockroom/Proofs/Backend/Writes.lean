import Stockroom.Backend.Writes
import Stockroom.Proofs.Backend.Reliable

/-! What a write to a store of two tiers leaves, whatever becomes of it at the store of texts. The
value can be read at once. -/

namespace Stockroom
set_option autoImplicit false

namespace Cache

variable {V : Type} {c c' : Cache V} {now : Instant} {name : String} {v : V} {ttl : Duration}

/-- A write whose deadline can be represented crashes if the weigher does, and if its entry does not
fit. -/
theorem weigh_of_put_crash {crash : Crash} (httl : (now.after? ttl).isSome)
    (h : c.put now name v ttl = (some crash, c')) :
    c.config.weigh name v = .error crash ∧ c' = c ∨
      c.Outgrown now name (some v) ttl ∧ crash = .weightOverflow ∧ c' = c.forfeit name := by
  unfold put at h
  rcases c.write_cases now name (some v) ttl with
    ⟨other, hentry, hw⟩ | ⟨e, hentry, hfits, hw⟩ | ⟨e, -, -, hw⟩ <;> rw [hw] at h <;> cases h
  · obtain ⟨deadline, hdeadline⟩ := Option.isSome_iff_exists.mp httl
    unfold entry Entry.at? at hentry
    rw [hdeadline] at hentry
    split at hentry
    · rename_i hweigh
      cases hentry
      exact .inl ⟨hweigh, rfl⟩
    · cases hentry
  · exact .inr ⟨⟨e, hentry, hfits⟩, rfl, rfl⟩

/-- What was just written is there. -/
theorem value?_put (h : c.Unbounded) (hput : c.put now name v ttl = (none, c')) :
    (c'.value? now name).1 = some v := by
  obtain ⟨-, e, weight, hat, hpeek⟩ := peek?_put h hput
  have hlive : e.expired now = false := by
    rw [Bool.eq_false_iff, ne_eq, Entry.expired_at?_iff hat]
    omega
  obtain ⟨deadline, -, rfl⟩ := Option.map_eq_some_iff.mp hat
  rw [value?_fst, live?, hpeek, if_pos rfl, Option.filter_some, hlive]
  rfl

theorem value?_delete (h : c.Unbounded) (now : Instant) (name : String) :
    ((c.delete name).2.value? now name).1 = none := by
  rw [value?_fst, live?, peek?_delete h.shards, if_pos rfl]
  rfl

end Cache

namespace Desk

variable {τ V : Type} [Wire V] {config : Cache.Config V} {content : τ → String → Option String}
  {space key full text : String} {far : Backend τ String} {far? : Option (Backend τ String)} {v : V}
  {ttl : Duration} {d : Desk τ V}

/-! ### One request -/

theorem get_eq (far? : Option (Backend τ String)) (d : Desk τ V) (key : String) :
    let full := namespacedKey space key
    (tiered space far?).get key d =
      match (d.near.value? d.now full).1, far? with
      | some v, _ => (.ok (some v), { d with near := (d.near.value? d.now full).2 })
      | none, none => (.ok none, { d with near := (d.near.value? d.now full).2 })
      | none, some far =>
        (match (far.get full d.far).1 with
          | .ok (some text) => Tiered.open? d.wall text
          | .error (.crashed crash) => .error (.crashed crash)
          | _ => .ok none,
        { d with near := (d.near.value? d.now full).2, far := (far.get full d.far).2 }) := by
  intro full
  have hspace : (tiered space far? : Tiered (Desk τ V) V).space = space := rfl
  have hfar : (tiered space far? : Tiered (Desk τ V) V).far = far?.map (.on texts) := rfl
  have hnear : (tiered space far? : Tiered (Desk τ V) V).near.get full d =
      (.ok (d.near.value? d.now full).1, { d with near := (d.near.value? d.now full).2 }) := rfl
  rw [Tiered.get, hspace, hfar, hnear]
  cases (d.near.value? d.now full).1 with
  | some v => rfl
  | none =>
    cases far? with
    | none => rfl
    | some far =>
      simp only [Option.map_some, Tiered.getFar, Backend.on, Act.on, texts]
      rcases (far.get full d.far).1 with (failure | crash) | _ | text <;> rfl

theorem near_get (far? : Option (Backend τ String)) (d : Desk τ V) (key : String) :
    ((tiered space far?).get key d).2.near = (d.near.value? d.now (namespacedKey space key)).2 := by
  rw [get_eq]
  cases (d.near.value? d.now (namespacedKey space key)).1 with
  | some v => rfl
  | none => cases far? <;> rfl

omit [Wire V] in
theorem near_del (far? : Option (Backend τ String)) (d : Desk τ V) (key : String) :
    ((tiered space far?).del key d).2.near = (d.near.delete (namespacedKey space key)).2 := by
  have hnear : (tiered space far? : Tiered (Desk τ V) V).near.del (namespacedKey space key) d =
      (.ok (d.near.delete (namespacedKey space key)).1,
        { d with near := (d.near.delete (namespacedKey space key)).2 }) := rfl
  have hspace : (tiered space far? : Tiered (Desk τ V) V).space = space := rfl
  have hfar : (tiered space far? : Tiered (Desk τ V) V).far = far?.map (.on texts) := rfl
  rw [Tiered.del, hspace, hnear, hfar]
  cases far? with
  | none => rfl
  | some far =>
    simp only [Option.map_some, Backend.on, Act.on, texts]
    rcases (far.del (namespacedKey space key) d.far).1 with (failure | crash) | there <;> rfl

/-- A value that can be written is offered to the store of texts first. -/
theorem set_of_text (h : (Tiered.wrap d.wall v ttl).encode = some text) :
    (tiered space (some far)).set key v ttl d =
      match (far.set (namespacedKey space key) text ttl d.far).1 with
      | .ok true => (.ok true, { d with
          near := (d.near.delete (namespacedKey space key)).2
          far := (far.set (namespacedKey space key) text ttl d.far).2 })
      | .error (.crashed crash) => (.error (.crashed crash), { d with
          far := (far.set (namespacedKey space key) text ttl d.far).2 })
      | _ => cache.set (namespacedKey space key) v ttl { d with
          far := (far.set (namespacedKey space key) text ttl d.far).2 } := by
  have hsome : (tiered space (some far) : Tiered (Desk τ V) V).far = some (far.on texts) := rfl
  have hwall : (tiered space (some far) : Tiered (Desk τ V) V).wall d = d.wall := rfl
  have hspace : (tiered space (some far) : Tiered (Desk τ V) V).space = space := rfl
  simp only [Tiered.set, hsome, hwall, h, hspace, Tiered.setFar, Backend.on, Act.on, texts]
  rcases (far.set (namespacedKey space key) text ttl d.far).1 with (failure | crash) | _ | _
  · rfl
  · rfl
  · rfl
  · rfl

/-! ### Reachable desks -/

omit [Wire V] in
theorem cache_set_eq (d : Desk τ V) (full : String) (v : V) (ttl : Duration) :
    cache.set full v ttl d = match d.near.put d.now full v ttl with
      | (some crash, near) => (.error (.crashed crash), { d with near })
      | (none, near) => (.ok true, { d with near }) := rfl

omit [Wire V] in
theorem unbounded_cache_set (h : d.near.Unbounded) (full : String) (v : V) (ttl : Duration) :
    (cache.set full v ttl d).2.near.Unbounded := by
  rw [cache_set_eq]
  split
  · rename_i hput
    rcases Cache.put_eq_some hput with rfl | ⟨-, rfl⟩
    · exact h
    · exact Cache.unbounded_forfeit h full
  · rename_i hput
    exact (Cache.peek?_put h hput).1

theorem unbounded_set (h : d.near.Unbounded) (key : String) (v : V) (ttl : Duration) :
    ((tiered space far?).set key v ttl d).2.near.Unbounded := by
  cases far? with
  | none => exact unbounded_cache_set h _ v ttl
  | some far =>
    cases hencode : (Tiered.wrap d.wall v ttl).encode with
    | none =>
      rw [set_of_encode_eq_none hencode]
      exact h
    | some text =>
      rw [set_of_text hencode]
      split
      · exact Cache.unbounded_delete h _
      · exact h
      · have hleft : { d with
            far := (far.set (namespacedKey space key) text ttl d.far).2 }.near.Unbounded := h
        exact unbounded_cache_set hleft _ v ttl

/-- No desk that is come to from a local cache without a bound has a bound. -/
theorem Reached.unbounded (hd : Reached config d) (hconfig : config.capacity = 0) :
    d.near.Unbounded := by
  induction hd with
  | start now wall far => exact Cache.unbounded_new hconfig
  | asked before space far request ih =>
    cases request with
    | get key =>
      change ((tiered space far).get key _).2.near.Unbounded
      rw [near_get]
      exact Cache.unbounded_lookup ih _ _
    | set key v ttl => exact unbounded_set ih key v ttl
    | del key =>
      change ((tiered space far).del key _).2.near.Unbounded
      rw [near_del]
      exact Cache.unbounded_delete ih _
  | await before pause wall ih => exact ih
  | near before deed ih => exact Cache.unbounded_carry ih _ _
  | far before far ih => exact ih

/-! ### One write -/

/-- The ways in which a write can go: the value cannot be written; the store of texts accepts it;
the local cache takes it; the weigher of the local cache crashes; the entry does not fit there. -/
inductive Goes (content : τ → String → Option String) (far? : Option (Backend τ String))
    (full : String) (v : V) (ttl : Duration) (d : Desk τ V) :
    Except Fault Bool × Desk τ V → Prop where
  | unwritable : far?.isSome → Wire.encode v = none →
      Goes content far? full v ttl d (.error (.failed .codec), d)
  | accepted (far : Backend τ String) (text : String) (left : τ) : far ∈ far? →
      (Tiered.wrap d.wall v ttl).encode = some text → content left full = some text →
      (∀ other, other ≠ full → content left other = content d.far other) →
      Goes content far? full v ttl d
        (.ok true, { d with near := (d.near.delete full).2, far := left })
  | kept (left : τ) (near : Cache V) : (far?.isSome → (Wire.encode v).isSome) →
      (∀ other, other ≠ full → content left other = content d.far other) →
      d.near.put d.now full v ttl = (none, near) →
      Goes content far? full v ttl d (.ok true, { d with near, far := left })
  | crashed (left : τ) (crash : Crash) : (far?.isSome → (Wire.encode v).isSome) →
      (∀ other, other ≠ full → content left other = content d.far other) →
      d.near.config.weigh full v = .error crash →
      Goes content far? full v ttl d (.error (.crashed crash), { d with far := left })
  | outgrown (left : τ) : (far?.isSome → (Wire.encode v).isSome) →
      (∀ other, other ≠ full → content left other = content d.far other) →
      d.near.Outgrown d.now full (some v) ttl →
      Goes content far? full v ttl d (.error (.crashed .weightOverflow),
        { d with near := d.near.forfeit full, far := left })

theorem goes_cache_set {left : τ} (httl : (d.now.after? ttl).isSome)
    (hwritten : far?.isSome → (Wire.encode v).isSome)
    (hsame : ∀ other, other ≠ full → content left other = content d.far other) :
    Goes content far? full v ttl d (cache.set full v ttl { d with far := left }) := by
  rw [cache_set_eq]
  split
  · rename_i hput
    rcases Cache.weigh_of_put_crash httl hput with ⟨hweigh, rfl⟩ | ⟨houtgrown, rfl, rfl⟩
    · exact .crashed left _ hwritten hsame hweigh
    · exact .outgrown left hwritten hsame houtgrown
  · rename_i near hput
    exact .kept left near hwritten hsame hput

theorem goes_set (hfar : ∀ far ∈ far?, far.Takes content) (key : String) (v : V)
    (httl : (d.now.after? ttl).isSome) :
    Goes content far? (namespacedKey space key) v ttl d ((tiered space far?).set key v ttl d) := by
  cases far? with
  | none => exact @goes_cache_set _ _ _ content _ none v ttl d d.far httl nofun fun _ _ => rfl
  | some far =>
    have htakes := hfar far rfl
    have hsome := Tiered.isSome_encode_wrap d.wall v ttl
    cases hencode : (Tiered.wrap d.wall v ttl).encode with
    | none =>
      rw [set_of_encode_eq_none hencode]
      rw [hencode] at hsome
      have hnone := Option.isSome_eq_false_iff.mp hsome.symm
      exact .unwritable rfl (Option.isNone_iff_eq_none.mp hnone)
    | some text =>
      rw [hencode] at hsome
      have hothers := htakes.others (namespacedKey space key) text ttl d.far
      rw [set_of_text hencode]
      split
      · rename_i hanswer
        exact .accepted far text _ rfl hencode (htakes.accepted _ _ _ _ hanswer) hothers
      · rename_i crash hanswer
        exact absurd hanswer (htakes.not_crashed _ _ _ _ crash)
      · exact goes_cache_set httl (fun _ => hsome.symm) hothers

/-! ### What a write leaves -/

namespace Goes

variable {r : Except Fault Bool × Desk τ V}

theorem failed_iff (h : Goes content far? full v ttl d r) (failure : Failure) :
    r.1 = .error (.failed failure) ↔
      failure = .codec ∧ far?.isSome ∧ Wire.encode v = none := by
  have hno (hwritten : far?.isSome → (Wire.encode v).isSome) :
      ¬(failure = .codec ∧ far?.isSome ∧ Wire.encode v = none) := fun ⟨_, hsome, hnone⟩ => by
    have hwritten := hwritten hsome
    rw [hnone] at hwritten
    cases hwritten
  cases h with
  | unwritable hsome hnone =>
    constructor
    · rintro ⟨⟩
      exact ⟨rfl, hsome, hnone⟩
    · rintro ⟨rfl, -⟩
      rfl
  | accepted far text left hfar hencode =>
    have hwritten := (congrArg Option.isSome hencode).symm.trans (Tiered.isSome_encode_wrap _ _ _)
    exact ⟨nofun, fun hfailed => absurd hfailed (hno fun _ => hwritten.symm)⟩
  | kept left near hwritten => exact ⟨nofun, fun hfailed => absurd hfailed (hno hwritten)⟩
  | crashed left crash hwritten => exact ⟨nofun, fun hfailed => absurd hfailed (hno hwritten)⟩
  | outgrown left hwritten => exact ⟨nofun, fun hfailed => absurd hfailed (hno hwritten)⟩

theorem eq_of_failed (h : Goes content far? full v ttl d r) {failure : Failure}
    (hfailed : r.1 = .error (.failed failure)) : r.2 = d := by
  cases h with
  | unwritable => rfl
  | accepted => cases hfailed
  | kept => cases hfailed
  | crashed => cases hfailed
  | outgrown => cases hfailed

theorem answers (h : Goes content far? full v ttl d r) :
    r.1 = .ok true ∨ r.1 = .error (.failed .codec) ∨
      (∃ crash, d.near.config.weigh full v = .error crash ∧ r.1 = .error (.crashed crash)) ∨
      d.near.Outgrown d.now full (some v) ttl ∧ r.1 = .error (.crashed .weightOverflow) := by
  cases h with
  | unwritable => exact .inr (.inl rfl)
  | accepted => exact .inl rfl
  | kept => exact .inl rfl
  | crashed left crash _ _ hweigh => exact .inr (.inr (.inl ⟨crash, hweigh, rfl⟩))
  | outgrown left _ _ houtgrown => exact .inr (.inr (.inr ⟨houtgrown, rfl⟩))

theorem sameBut (h : Goes content far? full v ttl d r) (hd : d.near.Unbounded) :
    SameBut content full d r.2 := by
  cases h with
  | unwritable => exact ⟨rfl, rfl, fun _ _ => rfl, fun _ _ => rfl⟩
  | accepted far text left _ _ _ hsame =>
    refine ⟨rfl, rfl, fun other hne => ?_, hsame⟩
    exact (Cache.peek?_delete hd.shards _ _).trans (if_neg hne.symm)
  | kept left near _ hsame hput =>
    obtain ⟨-, e, weight, -, hpeek⟩ := Cache.peek?_put hd hput
    exact ⟨rfl, rfl, fun other hne => (hpeek other).trans (if_neg hne.symm), hsame⟩
  | crashed left crash _ hsame => exact ⟨rfl, rfl, fun _ _ => rfl, hsame⟩
  | outgrown left _ hsame =>
    refine ⟨rfl, rfl, fun other hne => ?_, hsame⟩
    exact (Cache.peek?_forfeit hd.shards _ _).trans (if_neg hne.symm)

/-- Whichever tier took the value, it is read from there. -/
theorem visible (h : Goes content far? (namespacedKey space key) v ttl d r) (hd : d.near.Unbounded)
    (hcodec : ∀ text, (Tiered.wrap d.wall v ttl).encode = some text →
      Envelope.decode text = some (Tiered.wrap d.wall v ttl))
    (hread : ∀ far ∈ far?, (far.get (namespacedKey space key) r.2.far).1 =
      .ok (content r.2.far (namespacedKey space key))) (hok : r.1 = .ok true) :
    ((tiered space far?).get key r.2).1 = .ok (some v) := by
  cases h with
  | unwritable => cases hok
  | accepted far text left hfar hencode hcontent =>
    have hmiss := Cache.value?_delete hd d.now (namespacedKey space key)
    have hfound := (hread far hfar).trans (congrArg Except.ok hcontent)
    have hgood : (Tiered.wrap d.wall v ttl).stale d.wall = false := by
      have hwall := d.wall.toNat_lt_size
      exact Tiered.stale_wrap.mpr (.inr (by omega))
    rw [Option.mem_def.mp hfar, get_eq]
    simp only [hmiss, hfound, Tiered.open?, hcodec text hencode, hgood]
    rfl
  | kept left near _ _ hput =>
    rw [get_eq]
    simp only [Cache.value?_put hd hput]
  | crashed => cases hok
  | outgrown => cases hok

end Goes

/-- A write that neither fails to be encoded nor crashes is accepted, whatever the store of texts
does, touches no other key, and is what is read next. -/
theorem write_visible (hconfig : config.capacity = 0) (hd : Reached config d) (space : String)
    (hfar : ∀ far ∈ far?, far.Takes content) (key : String) (v : V)
    (httl : (d.now.after? ttl).isSome) :
    let full := namespacedKey space key
    let r := (tiered space far?).set key v ttl d
    (∀ failure, r.1 = .error (.failed failure) ↔
      failure = .codec ∧ far?.isSome ∧ Wire.encode v = none) ∧
    (∀ failure, r.1 = .error (.failed failure) → r.2 = d) ∧
    (r.1 = .ok true ∨ r.1 = .error (.failed .codec) ∨
      (∃ crash, d.near.config.weigh full v = .error crash ∧ r.1 = .error (.crashed crash)) ∨
      d.near.Outgrown d.now full (some v) ttl ∧ r.1 = .error (.crashed .weightOverflow)) ∧
    SameBut content full d r.2 ∧
    ((∀ text, (Tiered.wrap d.wall v ttl).encode = some text →
        Envelope.decode text = some (Tiered.wrap d.wall v ttl)) →
      (∀ far ∈ far?, (far.get full r.2.far).1 = .ok (content r.2.far full)) →
      r.1 = .ok true → ((tiered space far?).get key r.2).1 = .ok (some v)) := by
  intro full r
  have hunbounded := hd.unbounded hconfig
  have hgoes : Goes content far? full v ttl d r := goes_set hfar key v httl
  exact ⟨hgoes.failed_iff, fun _ => hgoes.eq_of_failed, hgoes.answers, hgoes.sameBut hunbounded,
    fun hcodec hread => hgoes.visible hunbounded hcodec hread⟩

/-- What is held under the keys of a remote store. -/
def held? (r : Remote) (key : String) : Option String := (r.content.get? key).map Prod.fst

/-- A remote store takes what it accepts, however it behaves. -/
theorem takes_remote : (Backend.remote Part.whole).Takes held? where
  not_crashed key text ttl r crash := by
    simp only [Backend.remote, Act.on, Part.whole, Remote.set, Remote.log, id]
    cases r.mode <;> simp [Remote.refused]
  accepted key text ttl r hanswer := by
    cases hmode : r.mode with
    | up =>
      exact ((faithful_remote.set key text ttl r hmode).2.2 key).trans (if_pos rfl)
    | down =>
      simp [Backend.remote, Act.on, Part.whole, Remote.set, Remote.log, hmode] at hanswer
    | reject =>
      simp [Backend.remote, Act.on, Part.whole, Remote.set, Remote.log, hmode] at hanswer
  others key text ttl r other hne := by
    cases hmode : r.mode with
    | up =>
      exact ((faithful_remote.set key text ttl r hmode).2.2 other).trans (if_neg hne.symm)
    | down | reject =>
      simp [Backend.remote, Act.on, Part.whole, Remote.set, Remote.log, hmode, held?]

/-- A remote store that took the number 1 and turned the number 2 down, so that the local cache has
another number than the remote store. -/
def divided : Desk Remote UInt64 :=
  let store := Backend.tiered (tiered "n" (some (.remote .whole)))
  let d := (store.serve (.set "k" 1 ⟨60000000000⟩) ⟨.start, 1000, .new .weighed, {}⟩).2
  let d := { d with far := { d.far with mode := .reject } }
  let d := (store.serve (.set "k" 2 ⟨60000000000⟩) d).2
  { d with far := { d.far with mode := .up } }

theorem write_visible_divided :
    (divided.near.value? divided.now (namespacedKey "n" "k")).1 = some 2 ∧
    (held? divided.far (namespacedKey "n" "k")).isSome ∧
    let r := (tiered "n" (some (.remote .whole))).set "k" 3 ⟨60000000000⟩ divided
    r.1 = .ok true ∧ ((tiered "n" (some (.remote .whole))).get "k" r.2).1 = .ok (some 3) := by
  refine ⟨by decide, by decide, ?_⟩
  intro r
  have hreached : Reached .weighed divided :=
    .far (.asked (.far (.asked (.start _ _ _) _ _ _) _) _ _ _) _
  have hfar : ∀ far ∈ some (Backend.remote Part.whole), far.Takes held? := by
    rintro far ⟨⟩
    exact takes_remote
  have httl : (divided.now.after? ⟨60000000000⟩).isSome := by decide
  obtain ⟨hfailed, -, hanswers, -, hvisible⟩ := write_visible rfl hreached "n" hfar "k" 3 httl
  have hok : r.1 = .ok true := by
    rcases hanswers with hok | hcodec | ⟨crash, hweigh, -⟩ | ⟨-, hcrash⟩
    · exact hok
    · exact absurd ((hfailed .codec).mp hcodec).2.2 nofun
    · cases hweigh
    · exact absurd hcrash (by decide)
  refine ⟨hok, hvisible (fun _ => Envelope.decode_encode) ?_ hok⟩
  rintro far ⟨⟩
  rfl

/-- A cache that weighs its values by what they are holds one value, and there is no store of
texts. -/
def laden : Desk Unit UInt64 :=
  ((Backend.tiered (tiered "n" none)).serve (.set "a" 5 .zero)
    ⟨.start, 0, .new { shards := some 1, weigh := fun _ v => .ok v }, ()⟩).2

/-- A value that can be written and weighed is not accepted. -/
theorem not_accepted_laden :
    Reached { shards := some 1, weigh := fun _ v => .ok v } laden ∧
      (laden.now.after? .zero).isSome ∧
      (Wire.encode (18446744073709551615 : UInt64)).isSome ∧
      ((tiered "n" none).set "b" 18446744073709551615 .zero laden).1 =
        .error (.crashed .weightOverflow) :=
  ⟨.asked (.start _ _ _) _ _ _, rfl, rfl, rfl⟩

end Desk

end Stockroom

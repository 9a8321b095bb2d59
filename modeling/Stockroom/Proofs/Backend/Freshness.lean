import Mathlib.Data.List.Induction
import Stockroom.Proofs.Backend.Tiers

/-! What a store of two tiers serves when its remote store may fail. Each tier knows only of the
writes that it took part in: an older value comes back from the remote store when the local copy of
a newer one has expired, or when a deletion did not get through. -/

namespace Stockroom
set_option autoImplicit false

namespace Tiered

variable {V : Type}

/-! ### Histories -/

section
variable {events : List (Event V)} {e : Event V} {key : String}

theorem changes_append_of_not (h : e.changes key = false) :
    changes key (events ++ [e]) = changes key events := by
  rw [changes, List.filter_append, List.filter_singleton, h]
  exact List.append_nil _

theorem changes_append (hkey : ∀ k, e.changes k = decide (key = k)) (k : String) :
    changes k (events ++ [e]) = if key = k then changes k events ++ [e] else changes k events := by
  split
  · rename_i he
    rw [changes, List.filter_append, List.filter_singleton, hkey, decide_eq_true he]
    rfl
  · rename_i hne
    exact changes_append_of_not ((hkey k).trans (decide_eq_false hne))

end

namespace Event

/-- The event is a write that put `entry` into the local cache. -/
def Left (x : Event V) (key : String) (entry : Entry V) : Prop :=
  ∃ value ttl accepted weight, x.deed = .set key value ttl (.ok accepted) ∧
    Entry.at? x.now (some value) ttl weight = some entry

/-- The event is a write of what `text` holds. -/
def Wrote [Wire V] (x : Event V) (key text : String) : Prop :=
  ∃ value ttl accepted wall, x.deed = .set key value ttl (.ok accepted) ∧
    (wrap wall value ttl).encode = some text

/-- The event is a write that failed. -/
def Failed (x : Event V) : Prop := ∃ key value ttl fault, x.deed = .set key value ttl (.error fault)

theorem Failed.gone {x : Event V} (h : x.Failed) (now : Instant) : x.Gone now := by
  obtain ⟨key, value, ttl, fault, hdeed⟩ := h
  rw [Gone, hdeed]
  trivial

theorem Gone.mono {x : Event V} {now later : Instant} (h : x.Gone now) (hle : now ≤ later) :
    x.Gone later := by
  unfold Gone at h ⊢
  split
  · rename_i hdeed
    rw [hdeed] at h
    exact ⟨h.1, Nat.lt_of_lt_of_le h.2 hle⟩
  · trivial

theorem Left.gone {x : Event V} {key : String} {entry : Entry V} (h : x.Left key entry)
    {now : Instant} (hexpired : entry.expired now = true) : x.Gone now := by
  obtain ⟨value, ttl, accepted, weight, hdeed, hentry⟩ := h
  rw [Gone, hdeed]
  exact (Entry.expired_at?_iff hentry).mp hexpired

end Event

variable [Wire V]

/-- What the tiers hold after some events. The local cache has what the last change left that the
remote store missed, and the remote store what one of the changes wrote. -/
structure Kept (events : List (Event V)) (now : Instant) (near : String → Option (Entry V))
    (far : String → Option String) : Prop where
  left : ∀ key entry, near key = some entry → ∃ older x newer,
    changes key events = older ++ x :: newer ∧ x.missed = true ∧ x.Left key entry ∧
    ∀ y ∈ newer, y.missed = true ∧ y.Failed
  gone : ∀ key x, (changes key events).getLast? = some x → x.missed = true → near key = none →
    x.Gone now
  wrote : ∀ key text, far key = some text → ∃ older w newer,
    changes key events = older ++ w :: newer ∧ w.Wrote key text ∧ ∀ x ∈ newer, x.missed = true

namespace Kept

variable {events : List (Event V)} {now : Instant} {near near' : String → Option (Entry V)}
  {far far' : String → Option String} {e : Event V}

theorem later (h : Kept events now near far) {later : Instant} (hle : now ≤ later) :
    Kept events later near far :=
  { h with gone := fun key x hlast hmissed hnone => (h.gone key x hlast hmissed hnone).mono hle }

/-- Where the entry of the local cache has expired, the last change is gone. -/
theorem gone_of_expired (h : Kept events now near far) {key : String} {entry : Entry V}
    (hentry : near key = some entry) (hexpired : entry.expired now = true) {x : Event V}
    (hlast : (changes key events).getLast? = some x) : x.Gone now := by
  obtain ⟨older, y, newer, hchanges, -, hleft, hnewer⟩ := h.left key entry hentry
  rw [hchanges, List.getLast?_append_cons] at hlast
  rcases List.mem_cons.mp (List.mem_of_getLast? hlast) with rfl | hx
  · exact hleft.gone hexpired
  · exact (hnewer x hx).2.gone now

/-- Reading may remove entries that have expired. -/
theorem look (h : Kept events now near far)
    (hnear : ∀ key, near' key = near key ∨
      near' key = none ∧ ∃ entry, near key = some entry ∧ entry.expired now = true) :
    Kept events now near' far where
  left key entry hentry := by
    rcases hnear key with he | ⟨hnone, -⟩
    · exact h.left key entry (he ▸ hentry)
    · rw [hnone] at hentry
      cases hentry
  gone key x hlast hmissed hnone := by
    rcases hnear key with he | ⟨-, entry, hentry, hexpired⟩
    · exact h.gone key x hlast hmissed (he ▸ hnone)
    · exact h.gone_of_expired hentry hexpired hlast
  wrote := h.wrote

/-- An event that changed nothing. -/
theorem ignore (h : Kept events now near far) (hnone : ∀ key, e.changes key = false) :
    Kept (events ++ [e]) now near far where
  left key entry hentry := by
    rw [changes_append_of_not (hnone key)]
    exact h.left key entry hentry
  gone key x hlast := by
    rw [changes_append_of_not (hnone key)] at hlast
    exact h.gone key x hlast
  wrote key text htext := by
    rw [changes_append_of_not (hnone key)]
    exact h.wrote key text htext

/-- A write that failed and left both tiers as they were. -/
theorem fail (h : Kept events now near far) (hfailed : e.Failed) (hmissed : e.missed = true) :
    Kept (events ++ [e]) now near far := by
  have happend (key : String) : changes key (events ++ [e]) = changes key events ∨
      changes key (events ++ [e]) = changes key events ++ [e] := by
    cases he : e.changes key with
    | false => exact .inl (changes_append_of_not he)
    | true => exact .inr (by rw [changes, List.filter_append, List.filter_singleton, he]; rfl)
  have hmem {newer : List (Event V)} {p : Event V → Prop} (hnewer : ∀ y ∈ newer, p y) (he : p e) :
      ∀ y ∈ newer ++ [e], p y := fun y hy =>
    (List.mem_append.mp hy).elim (hnewer y) fun hy => List.mem_singleton.mp hy ▸ he
  constructor
  · intro key entry hentry
    obtain ⟨older, x, newer, hchanges, hx, hleft, hnewer⟩ := h.left key entry hentry
    rcases happend key with he | he <;> rw [he, hchanges]
    · exact ⟨older, x, newer, rfl, hx, hleft, hnewer⟩
    · exact ⟨older, x, newer ++ [e], by simp, hx, hleft, hmem hnewer ⟨hmissed, hfailed⟩⟩
  · intro key x hlast hx hnone
    rcases happend key with he | he <;> rw [he] at hlast
    · exact h.gone key x hlast hx hnone
    · rw [List.getLast?_concat] at hlast
      exact Option.some.inj hlast ▸ hfailed.gone now
  · intro key text htext
    obtain ⟨older, w, newer, hchanges, hw, hnewer⟩ := h.wrote key text htext
    rcases happend key with he | he <;> rw [he, hchanges]
    · exact ⟨older, w, newer, rfl, hw, hnewer⟩
    · exact ⟨older, w, newer ++ [e], by simp, hw, hmem hnewer hmissed⟩

/-- An event that changed one key, for which the tiers hold `entry` and `text` afterwards. -/
theorem change {key : String} {entry : Option (Entry V)} (text : Option String)
    (h : Kept events now near far) (hkey : ∀ k, e.changes k = decide (key = k))
    (hnear : ∀ k, near' k = if key = k then entry else near k)
    (hfar : ∀ k, far' k = if key = k then text else far k)
    (hleft : ∀ x, entry = some x → e.missed = true ∧ e.Left key x)
    (hgone : e.missed = true → entry = none → e.Gone now)
    (hwrote : ∀ x, text = some x → e.Wrote key x ∨ far key = some x ∧ e.missed = true) :
    Kept (events ++ [e]) now near' far' where
  left k x hx := by
    rw [hnear] at hx
    rw [changes_append hkey]
    split at hx
    · rename_i he
      obtain ⟨hmissed, hleft⟩ := hleft x hx
      rw [if_pos he]
      exact ⟨changes k events, e, [], rfl, hmissed, he ▸ hleft, nofun⟩
    · rename_i hne
      rw [if_neg hne]
      exact h.left k x hx
  gone k x hlast hmissed hnone := by
    rw [hnear] at hnone
    rw [changes_append hkey] at hlast
    split at hnone
    · rename_i he
      rw [if_pos he, List.getLast?_concat] at hlast
      obtain rfl := Option.some.inj hlast
      exact hgone hmissed hnone
    · rename_i hne
      rw [if_neg hne] at hlast
      exact h.gone k x hlast hmissed hnone
  wrote k x hx := by
    rw [hfar] at hx
    rw [changes_append hkey]
    split at hx
    · rename_i he
      subst he
      rw [if_pos rfl]
      rcases hwrote x hx with hw | ⟨hbefore, hmissed⟩
      · exact ⟨changes key events, e, [], rfl, hw, nofun⟩
      · obtain ⟨older, w, newer, heq, hw, hnewer⟩ := h.wrote key x hbefore
        refine ⟨older, w, newer ++ [e], ?_, hw, ?_⟩
        · rw [heq, List.append_assoc, List.cons_append]
        · intro y hy
          rcases List.mem_append.mp hy with hy | hy
          · exact hnewer y hy
          · rw [List.mem_singleton.mp hy]
            exact hmissed
    · rename_i hne
      rw [if_neg hne]
      exact h.wrote k x hx

end Kept

/-! ### One request -/

/-- A depot of a cache without a bound and one remote store, which hold what the events left. -/
def Holds (space : String) (events : List (Event V)) (d : Depot V) : Prop :=
  ∃ now wall c r, d = pair now wall c r ∧ c.Unbounded ∧
    Kept events now (nearAt space c) (farAt space r)

section
variable {space : String} {events : List (Event V)} {now : Instant} {wall : UInt64} {c : Cache V}
  {r : Remote}

theorem Kept.value? (hk : Kept events now (nearAt space c) (farAt space r)) (h : c.Unbounded)
    (key : String) :
    Kept events now (nearAt space (c.value? now (namespacedKey space key)).2) (farAt space r) := by
  apply hk.look
  intro key'
  rw [nearAt_value? h]
  split
  · rename_i he
    rw [← he, Cache.live?, nearAt]
    cases c.peek? (namespacedKey space key) with
    | none => exact .inl rfl
    | some entry =>
      rw [Option.filter_some]
      cases hexpired : entry.expired now with
      | false => exact .inl rfl
      | true => exact .inr ⟨rfl, entry, rfl, hexpired⟩
  · exact .inl rfl

theorem holds_get (h : c.Unbounded) (hk : Kept events now (nearAt space c) (farAt space r))
    (key : String) :
    Holds space
      (events ++ [⟨.get key ((ofPair space).get key (pair now wall c r)).1, now, r.mode⟩])
      ((ofPair space).get key (pair now wall c r)).2 := by
  have hlooked := hk.value? h key
  cases hnear : (c.value? now (namespacedKey space key)).1 with
  | some v =>
    rw [get_hit hnear]
    exact ⟨_, _, _, _, rfl, Cache.unbounded_lookup h _ _, hlooked.ignore fun _ => rfl⟩
  | none =>
    rw [get_miss hnear]
    exact ⟨_, _, _, _, rfl, Cache.unbounded_lookup h _ _, hlooked.ignore fun _ => rfl⟩

theorem holds_set (h : c.Unbounded) (hk : Kept events now (nearAt space c) (farAt space r))
    (key : String) (value : V) (ttl : Duration) :
    Holds space
      (events ++ [⟨.set key value ttl ((ofPair space).set key value ttl (pair now wall c r)).1,
        now, r.mode⟩])
      ((ofPair space).set key value ttl (pair now wall c r)).2 := by
  cases hencode : (wrap wall value ttl).encode with
  | none =>
    rw [set_of_encode_eq_none hencode]
    exact ⟨_, _, _, _, rfl, h, hk.ignore fun _ => rfl⟩
  | some text =>
    by_cases hmode : r.mode = .up
    · rw [set_of_up hencode hmode]
      refine ⟨_, _, _, _, rfl, Cache.unbounded_delete h _, ?_⟩
      refine hk.change (some text) (fun _ => rfl) (nearAt_delete h key)
        (fun k => farAt_set hmode key k text ttl) nofun ?_ ?_
      · intro hmissed
        rw [hmode] at hmissed
        cases hmissed
      · rintro x ⟨⟩
        exact .inl ⟨value, ttl, true, wall, rfl, hencode⟩
    · have hmissed : (r.mode != .up) = true := bne_iff_ne.mpr hmode
      rw [set_of_not_up hencode hmode]
      split
      · rename_i crash c' hput
        rcases Cache.put_eq_some hput with rfl | ⟨rfl, rfl⟩
        · exact ⟨_, _, _, _, rfl, h, hk.fail ⟨key, value, ttl, _, rfl⟩ hmissed⟩
        · refine ⟨_, _, _, _, rfl, Cache.unbounded_forfeit h _, ?_⟩
          refine hk.change (farAt space r key) (fun k => ?_) (nearAt_forfeit h key) (fun k => ?_)
            nofun (fun _ _ => trivial) fun x hx => .inr ⟨hx, hmissed⟩
          · exact (Bool.and_true _).trans rfl
          · split
            · rename_i hkey
              rw [← hkey]
              rfl
            · rfl
      · rename_i c' hput
        obtain ⟨e, weight, he, hnear⟩ := nearAt_put h hput
        refine ⟨_, _, _, _, rfl, (Cache.peek?_put h hput).1, ?_⟩
        refine hk.change (farAt space r key) (fun _ => rfl) hnear ?_ ?_ nofun ?_
        · intro k
          split
          · rename_i hkey
            rw [← hkey]
            rfl
          · rfl
        · rintro x ⟨⟩
          exact ⟨hmissed, value, ttl, true, weight, rfl, he⟩
        · exact fun x hx => .inr ⟨hx, hmissed⟩

theorem holds_del (h : c.Unbounded) (hk : Kept events now (nearAt space c) (farAt space r))
    (key : String) :
    Holds space
      (events ++ [⟨.del key ((ofPair space).del key (pair now wall c r)).1, now, r.mode⟩])
      ((ofPair space).del key (pair now wall c r)).2 := by
  rw [del_pair]
  refine ⟨_, _, _, _, rfl, Cache.unbounded_delete h _, ?_⟩
  by_cases hmode : r.mode = .down
  · have hmissed : (r.mode == .down) = true := beq_iff_eq.mpr hmode
    rw [del_of_down hmode]
    refine hk.change (farAt space r key) (fun _ => rfl) (nearAt_delete h key) ?_ nofun
      (fun _ _ => trivial) fun x hx => .inr ⟨hx, hmissed⟩
    intro k
    split
    · rename_i hkey
      rw [← hkey]
      rfl
    · rfl
  · exact hk.change none (fun _ => rfl) (nearAt_delete h key) (farAt_del hmode key) nofun
      (fun _ _ => trivial) nofun

/-- Time passes, and the remote store behaves in another way; what the tiers hold stays. -/
theorem Holds.prepare {d : Depot V} (hd : Holds space events d) (call : Call V) :
    ∃ now wall c r, call.prepare d = pair now wall c r ∧ r.mode = call.mode ∧ c.Unbounded ∧
      Kept events now (nearAt space c) (farAt space r) := by
  obtain ⟨now, wall, c, r, rfl, h, hk⟩ := hd
  exact ⟨_, _, _, _, prepare_pair call, rfl, h, hk.later (Nat.le_add_right _ _)⟩

theorem holds_serve {d : Depot V} (hd : Holds space events d) (call : Call V) :
    Holds space (events ++ [(serve space call d).1]) (serve space call d).2 := by
  obtain ⟨now, wall, c, r, hprepare, hmode, h, hk⟩ := hd.prepare call
  unfold serve
  rw [hprepare, ← hmode]
  cases call.request with
  | get key => exact holds_get h hk key
  | set key value ttl => exact holds_set h hk key value ttl
  | del key => exact holds_del h hk key

/-! ### What a read serves -/

variable {key : String} {v : V}

omit [Wire V] in
theorem Event.Left.sets {x : Event V} {entry : Entry V} (h : x.Left key entry) :
    ∃ value, entry.value = some value ∧ x.Sets key value := by
  obtain ⟨value, ttl, accepted, weight, hdeed, hentry⟩ := h
  obtain ⟨deadline, -, rfl⟩ := Option.map_eq_some_iff.mp hentry
  exact ⟨value, rfl, ttl, accepted, hdeed⟩

theorem open?_of_encode [Wire.Lawful V] {value : V} {text : String} {written : UInt64}
    {ttl : Duration} (hencode : (wrap written value ttl).encode = some text)
    (hopen : open? wall text = .ok (some v)) : v = value := by
  rw [open?, Envelope.decode_encode hencode] at hopen
  simp only [Except.ok.injEq, Option.ite_none_left_eq_some] at hopen
  exact (Option.some.inj hopen.2).symm

/-- The local cache serves the value of the last change. -/
theorem Kept.standing_near (hk : Kept events now (nearAt space c) (farAt space r))
    (hnear : (c.value? now (namespacedKey space key)).1 = some v) :
    Standing events now key v := by
  rw [Cache.value?_fst] at hnear
  obtain ⟨entry, hlive, hvalue⟩ := Option.bind_eq_some_iff.mp hnear
  obtain ⟨older, x, newer, hchanges, -, hleft, hnewer⟩ :=
    hk.left key entry (Option.filter_eq_some_iff.mp hlive).1
  obtain ⟨value, hentry, hsets⟩ := hleft.sets
  obtain rfl : v = value := Option.some.inj (hvalue.symm.trans hentry)
  exact ⟨older, x, newer, hchanges, hsets, fun y hy => (hnewer y hy).1, fun y hy =>
    (hnewer y (List.mem_of_getLast? hy)).2.gone now⟩

/-- The remote store serves the value of the last change that it took part in. -/
theorem Kept.standing_far [Wire.Lawful V] (hk : Kept events now (nearAt space c) (farAt space r))
    (hnear : (c.value? now (namespacedKey space key)).1 = none) {text : String}
    (hfar : farAt space r key = some text) (hopen : open? wall text = .ok (some v)) :
    Standing events now key v := by
  obtain ⟨older, w, newer, hchanges, ⟨value, ttl, accepted, written, hdeed, hencode⟩, hmissed⟩ :=
    hk.wrote key text hfar
  obtain rfl := open?_of_encode hencode hopen
  refine ⟨older, w, newer, hchanges, ⟨ttl, accepted, hdeed⟩, hmissed, fun x hx => ?_⟩
  have hlast : (changes key events).getLast? = some x := by
    rw [hchanges, List.getLast?_append, List.getLast?_cons, hx]
    rfl
  cases hentry : nearAt space c key with
  | none => exact hk.gone key x hlast (hmissed x (List.mem_of_getLast? hx)) hentry
  | some entry =>
    obtain ⟨_, _, _, -, -, hleft, -⟩ := hk.left key entry hentry
    refine hk.gone_of_expired hentry ?_ hlast
    obtain ⟨value, hvalue, -⟩ := hleft.sets
    rw [nearAt] at hentry
    rw [Cache.value?_fst, Cache.live?, hentry, Option.filter_some] at hnear
    cases hexpired : entry.expired now with
    | true => rfl
    | false =>
      rw [hexpired] at hnear
      cases hvalue.symm.trans hnear

theorem standing_get [Wire.Lawful V] (hk : Kept events now (nearAt space c) (farAt space r))
    (hget : ((ofPair space).get key (pair now wall c r)).1 = .ok (some v)) :
    Standing events now key v := by
  cases hnear : (c.value? now (namespacedKey space key)).1 with
  | some value =>
    rw [get_hit hnear] at hget
    obtain rfl := Option.some.inj (Except.ok.inj hget)
    exact hk.standing_near hnear
  | none =>
    rw [get_miss hnear] at hget
    dsimp only at hget
    split at hget
    · cases hget
    · split at hget
      · cases hget
      · rename_i text hfar
        exact hk.standing_far hnear hfar hget

theorem standing_serve [Wire.Lawful V] {d : Depot V} (hd : Holds space events d) {call : Call V}
    (hget : (serve space call d).1.deed = .get key (.ok (some v))) :
    Standing events (serve space call d).1.now key v := by
  obtain ⟨now, wall, c, r, hprepare, -, -, hk⟩ := hd.prepare call
  unfold serve at hget ⊢
  rw [hprepare] at hget ⊢
  cases hrequest : call.request with
  | get k =>
    rw [hrequest] at hget
    obtain ⟨rfl, hanswer⟩ := Deed.get.inj hget
    exact standing_get hk hanswer
  | set k value ttl =>
    rw [hrequest] at hget
    cases hget
  | del k =>
    rw [hrequest] at hget
    cases hget

end

/-! ### All requests -/

section
variable {space : String} {config : Cache.Config V}

theorem run_append (calls : List (Call V)) (call : Call V) :
    run space config (calls ++ [call]) =
      ((run space config calls).1 ++ [(serve space call (run space config calls).2).1],
        (serve space call (run space config calls).2).2) := by
  rw [run, List.foldl_append]
  rfl

theorem holds_run (hcapacity : config.capacity = 0) (calls : List (Call V)) :
    Holds space (run space config calls).1 (run space config calls).2 := by
  induction calls using List.reverseRecOn with
  | nil =>
    refine ⟨_, _, _, _, rfl, Cache.unbounded_new hcapacity, ?_⟩
    exact {
      left := fun key entry hentry => by
        rw [nearAt, Cache.peek?_new] at hentry
        cases hentry
      gone := nofun
      wrote := nofun }
  | append_singleton calls call ih =>
    rw [run_append]
    exact holds_serve ih call

/-- A value that is served was written, and whatever changed its key since, the remote store missed;
the last such change stored nothing or has expired. -/
theorem serves_standing [Wire.Lawful V] (hcapacity : config.capacity = 0) (calls : List (Call V))
    {before after : List (Event V)} {e : Event V} {key : String} {v : V}
    (hrun : (run space config calls).1 = before ++ e :: after)
    (hget : e.deed = .get key (.ok (some v))) : Standing before e.now key v := by
  induction calls using List.reverseRecOn generalizing after with
  | nil => cases before <;> cases hrun
  | append_singleton calls call ih =>
    rw [run_append] at hrun
    rcases List.eq_nil_or_concat after with rfl | ⟨after, last, rfl⟩
    · obtain ⟨rfl, he⟩ := List.append_inj' hrun rfl
      obtain rfl := List.head_eq_of_cons_eq he
      exact standing_serve (holds_run hcapacity calls) hget
    · rw [List.concat_eq_append, ← List.cons_append, ← List.append_assoc] at hrun
      exact ih (List.append_inj_left' hrun rfl)

end

/-- The remote store takes the value 1, which never expires, and turns the value 2 down. -/
def superseded : List (Call UInt64) :=
  [{ request := .set "k" 1 .zero }, { request := .set "k" 2 (.ofSeconds 10), mode := .reject },
    { request := .get "k" }, { request := .get "k", pause := .ofSeconds 11 }]

/-- What happens until the local copy of the value 2 has expired. -/
def supersededBefore : List (Event UInt64) :=
  [⟨.set "k" 1 .zero (.ok true), .start, .up⟩,
    ⟨.set "k" 2 (.ofSeconds 10) (.ok true), .start, .reject⟩,
    ⟨.get "k" (.ok (some 2)), .start, .up⟩]

set_option maxRecDepth 10000 in
/-- Then the value 1 is back. -/
theorem run_superseded : (run "n" .weighed superseded).1 =
    supersededBefore ++ [⟨.get "k" (.ok (some 1)), ⟨11000000000⟩, .up⟩] := rfl

theorem serves_standing_superseded :
    (Cache.Config.weighed : Cache.Config UInt64).capacity = 0 ∧
      (run "n" .weighed superseded).1 =
        supersededBefore ++ [⟨.get "k" (.ok (some 1)), ⟨11000000000⟩, .up⟩] ∧
      Standing supersededBefore ⟨11000000000⟩ "k" 1 :=
  ⟨rfl, run_superseded, serves_standing rfl superseded run_superseded rfl⟩

/-- What is served is not always what the last change of the key wrote. -/
theorem not_serves_last : ¬ ∀ (calls : List (Call UInt64)) (before : List (Event UInt64))
    (e : Event UInt64) (after : List (Event UInt64)) (key : String) (v : UInt64),
    (run "n" .weighed calls).1 = before ++ e :: after → e.deed = .get key (.ok (some v)) →
    ∃ x, (changes key before).getLast? = some x ∧ x.Sets key v := by
  intro h
  obtain ⟨x, hx, ttl, accepted, hdeed⟩ := h superseded _ _ [] "k" 1 run_superseded rfl
  obtain rfl := Option.some.inj hx
  cases hdeed

end Tiered

end Stockroom

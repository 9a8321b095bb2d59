import Stockroom.Cache.Dampening
import Stockroom.Proofs.Cache.Contents
import Stockroom.Proofs.Cache.Publishing

/-! The clock never goes back, and what an unbounded cache keeps under a name stays there until its
lifetime is over, unless it is disturbed. Whoever asks for it in the meantime hits it. -/

namespace Stockroom.Cache
set_option autoImplicit false

variable {V : Type}

/-! ### The clock -/

namespace World

variable {w w' : World V}

theorem Passes.now {h : Hand V} {offer : Option (String × Loader V)} {r : Option (Running V)}
    (hp : Passes h offer w w' r) : w'.now = w.now := by
  cases hp with
  | closes hc hl hclose =>
    refine Eq.trans ?_ hc.now
    cases hclose <;> cases hl <;> rfl
  | ends call p hc hcall hcaller hp => exact hc.now

theorem now_effect {command : Command V} (h : ∀ d, command ≠ .advance d) :
    (w.effect command).now = w.now := by
  cases command with
  | perform op inRuntime =>
    rw [effect_perform]
    exact (calm_perform w inRuntime op).now
  | advance d => exact absurd rfl (h d)
  | _ => rfl

end World

namespace Moment

variable {m : Moment V}

theorem Sound.now_step (h : m.Sound) {move : Move V} (hmove : ∀ d, move ≠ .outside (.advance d)) :
    (m.step move).world.now = m.world.now := by
  change (m.next move).1.now = _
  obtain ⟨w, running, ended⟩ := m
  cases running with
  | some r =>
    cases move with
    | goOn => exact (World.passes_carryOut h.flying r).now
    | _ => rfl
  | none =>
    cases move with
    | outside command => exact World.now_effect fun d he => hmove d (congrArg _ he)
    | wake i =>
      simp only [next, World.wakeAt]
      split <;> rfl
    | run i =>
      simp only [next, World.enterAt]
      split
      · exact (World.passes_enter _ _).now
      · rfl
    | _ => rfl

theorem Sound.now_le_step (h : m.Sound) (move : Move V) :
    m.world.now.nanos ≤ (m.step move).world.now.nanos := by
  by_cases hmove : ∀ d, move ≠ .outside (.advance d)
  · exact Nat.le_of_eq (congrArg Instant.nanos (h.now_step hmove).symm)
  · obtain ⟨d, hd⟩ := not_forall.mp hmove
    rw [not_not.mp hd]
    obtain ⟨w, running, ended⟩ := m
    cases running with
    | some r => exact Nat.le_refl _
    | none => exact Nat.le_add_right _ _

theorem Sound.now_le_run (h : m.Sound) (moves : List (Move V)) :
    m.world.now.nanos ≤ (m.run moves).world.now.nanos := by
  induction moves generalizing m with
  | nil => exact Nat.le_refl _
  | cons move moves ih => exact Nat.le_trans (h.now_le_step move) (ih (h.step move))

end Moment

/-! ### Entries that stay -/

variable {c : Cache V} {name : String} {e : Entry V} {now : Instant}

theorem live?_of_peek? (he : c.peek? name = some e) (hlive : e.expired now = false) :
    c.live? now name = some e := by
  rw [live?, he, Option.filter_some, hlive]
  rfl

theorem peek?_purgeShard {index : Nat} (h : index ≠ c.shardIndex name) :
    (c.purgeShard index).2.peek? name = c.peek? name := by
  unfold purgeShard
  split
  · rfl
  · rename_i s hs
    have hindex : ({ c with
        shards := c.shards.setIfInBounds index s.clear.2
        counters.removals := c.counters.removals + s.clear.1 } : Cache V).shardIndex name =
        c.shardIndex name := by
      rw [shardIndex, Array.size_setIfInBounds]
      rfl
    rw [peek?, shard, hindex, Array.getD_eq_getD_getElem?, Array.getElem?_setIfInBounds_ne h,
      ← Array.getD_eq_getD_getElem?]
    rfl

theorem peek?_carry (h : c.Unbounded) (he : c.peek? name = some e) (hlive : e.expired now = false)
    {deed : Option (Deed V)} (hdeed : ∀ d, deed = some d → ¬ d.Disturbs c name) :
    (c.carry now deed).peek? name = some e := by
  rcases deed with _ | n | ⟨n, e'⟩ | n | n | _ | index
  · exact he
  · change (c.lookup now n).2.peek? name = _
    rw [peek?_lookup h.shards]
    split
    · rename_i hname
      exact hname ▸ live?_of_peek? he hlive
    · exact he
  · have hne : n ≠ name := hdeed _ rfl
    change (c.add n e').peek? name = _
    rw [peek?_add h, if_neg hne]
    exact he
  · have hne : n ≠ name := hdeed _ rfl
    change (c.forfeit n).peek? name = _
    rw [peek?_forfeit h.shards, if_neg hne]
    exact he
  · have hne : n ≠ name := hdeed _ rfl
    change (c.delete n).2.peek? name = _
    rw [peek?_delete h.shards, if_neg hne]
    exact he
  · exact absurd trivial (hdeed _ rfl)
  · exact (peek?_purgeShard (hdeed _ rfl)).trans he

theorem unbounded_store : c.store.Unbounded ↔ c.Unbounded :=
  ⟨fun h => ⟨h.shards, h.capacity⟩, fun h => ⟨h.shards, h.capacity⟩⟩

theorem expired_eq_false_of_le {now later : Instant} (h : now.nanos ≤ later.nanos)
    (hlive : e.expired later = false) : e.expired now = false := by
  rw [Bool.eq_false_iff, ne_eq, e.expired_iff] at hlive ⊢
  omega

namespace Moment

variable {m : Moment V}

theorem unbounded_run (h : m.world.cache.Unbounded) (moves : List (Move V)) :
    (m.run moves).world.cache.Unbounded :=
  kept_run (fun _ => unbounded_store) (fun _ now d _ hc => unbounded_carry hc now d) h moves

/-- An entry stays until it has expired. -/
theorem Sound.peek?_run (h : m.Sound) (hunbounded : m.world.cache.Unbounded)
    (he : m.world.cache.peek? name = some e) {moves : List (Move V)}
    (hundisturbed : m.Undisturbed name moves) (hlive : e.expired (m.run moves).world.now = false) :
    (m.run moves).world.cache.peek? name = some e := by
  induction moves generalizing m with
  | nil => exact he
  | cons move moves ih =>
    have hnow := expired_eq_false_of_le (h.now_le_run (move :: moves)) hlive
    refine ih (h.step move) (unbounded_run hunbounded [move]) ?_ hundisturbed.2 hlive
    exact kept_step (P := fun c => c.peek? name = some e) (fun _ => Iff.rfl) move
      (peek?_carry hunbounded he hnow hundisturbed.1)

end Moment

/-! ### Whoever asks for what is kept hits it -/

theorem lookup_of_live (he : c.live? now name = some e) :
    (c.lookup now name).1 = some (e.snapshot now) := by
  rw [lookup_fst, he]
  rfl

theorem World.getOrLoad_of_hit {w : World V} {found : Snapshot V}
    (h : (w.cache.lookup w.now name).1 = some found) (loader : Loader V) :
    w.getOrLoad name loader = (.hit found.value,
      World.considerRefresh { w with cache := (w.cache.lookup w.now name).2 } name found loader) := by
  rw [getOrLoad_eq, h]

namespace Moment

variable {m : Moment V} {found : Snapshot V}

theorem next_run_of_hit {i caller : Nat} {loader : Loader V} {token : Option String}
    (hnone : m.running = none)
    (hready : m.world.ready[i]? = some (.request caller name loader token))
    (hfound : (m.world.cache.lookup m.world.now name).1 = some found) :
    m.next (.run i) = ((World.considerRefresh
      { m.world with
        ready := m.world.ready.eraseIdx i
        cache := (m.world.cache.lookup m.world.now name).2 }
      name found loader).finish caller (.ok found.value), none) := by
  have hget := World.getOrLoad_of_hit
    (w := { m.world with ready := m.world.ready.eraseIdx i }) hfound loader
  simp only [next, hnone, World.enterAt, hready, World.enter, hget]

theorem next_goOn_of_hit {r : Running V} {tag : Option String} {loader rest : Script V}
    (hr : m.running = some r) (hscript : r.script = .fetch name tag loader rest)
    (hfound : (m.world.cache.lookup m.world.now name).1 = some found) :
    m.next .goOn = (World.considerRefresh
      { m.world with cache := (m.world.cache.lookup m.world.now name).2 } name found ⟨tag, loader⟩,
      some { r with script := rest, last := found.value }) := by
  have hget := World.getOrLoad_of_hit hfound ⟨tag, loader⟩
  simp only [next, hr, World.carryOut, hscript, hget]

end Moment

end Stockroom.Cache

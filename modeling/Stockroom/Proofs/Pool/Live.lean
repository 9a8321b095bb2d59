import Mathlib.Data.List.Basic
import Stockroom.Proofs.Pool.Lending

/-! What a pool counts as live. A resource is given up without a look at whether it was destroyed,
so pending close may hold destroyed ones; it holds none but those that were given up late. -/

namespace Stockroom.Pool
set_option autoImplicit false

theorem Sets.pendingClose_receive (sets : Sets) (maxSize : Nat) (r : ResourceId) :
    (sets.receive maxSize r).sets.pendingClose = sets.pendingClose := by
  unfold Sets.receive
  repeat' split
  all_goals rfl

theorem Sets.live_eq_length (s : Sets) : s.stats.live = s.members.length := by
  simp only [Sets.stats, Stats.live, Sets.members, Sets.active, Table.keys, Table.size,
    List.length_append, List.length_map]

theorem Stock.filter_isDestroyed_eq_nil {s : Stock} {l : List ResourceId}
    (h : ∀ r ∈ l, s.isDestroyed r = false) : l.filter s.isDestroyed = [] := by
  rw [List.filter_eq_nil_iff]
  intro r hr
  rw [h r hr]
  exact Bool.false_ne_true

theorem Sets.pendingClose_checkOut? {s u : Sets} {r : ResourceId}
    (h : s.checkOut? = some (r, u)) : u.pendingClose = s.pendingClose := by
  rw [(eq_of_checkOut? h).2]

/-- Three instructions change what is pending close: one that gives up, closing, and a sweep. -/
theorem Instr.Leads.waiting {now : Instant} {s : State} {i : Instr} {e : Effect}
    (h : i.Leads now s e) :
    e.state.sets.pendingClose = s.sets.pendingClose ∨
    (∃ r, i = .dispose r .delayed ∧ s.sets.closed = false ∧
      e = { state := { s with sets := s.sets.giveUp r now } }) ∨
    i = .close ∧ e.state.sets = .shut ∨
    i = .sweep ∧ e.state = { s with sets := (s.sets.takeDue s.limits.maxUsage now).2 } := by
  cases h with
  | checkOut purpose r sets _ hout =>
    rw [state_grant]
    exact Or.inl (Sets.pendingClose_checkOut? hout)
  | enroll purpose r _ =>
    rw [state_grant]
    exact Or.inl (Sets.enroll_pendingClose _ _ _)
  | keep r d sets _ hreceive | leave r d sets _ hreceive =>
    have hsame := s.sets.pendingClose_receive s.limits.maxSize r
    rw [hreceive] at hsame
    exact Or.inl hsame
  | giveUp r hopen => exact Or.inr (Or.inl ⟨r, rfl, hopen, rfl⟩)
  | close => exact Or.inr (Or.inr (Or.inl ⟨rfl, rfl⟩))
  | exchange old new sets hreplace => exact Or.inl (Sets.replace?_perm hreplace).2.2
  | sweep => exact Or.inr (Or.inr (Or.inr ⟨rfl, rfl⟩))
  | _ => exact Or.inl rfl

/-- Only giving up puts a resource into pending close. -/
theorem Instr.Leads.pendingClose {now : Instant} {s : State} {i : Instr} {e : Effect}
    (h : i.Leads now s e) {r : ResourceId} (hr : r ∈ e.state.sets.pendingClose.keys) :
    r ∈ s.sets.pendingClose.keys ∨ i = .dispose r .delayed ∧ s.sets.closed = false := by
  rcases h.waiting with hsame | ⟨x, rfl, hopen, rfl⟩ | ⟨rfl, hshut⟩ | ⟨rfl, he⟩
  · exact Or.inl (hsame ▸ hr)
  · rw [Sets.giveUp_keys] at hr
    rcases List.mem_append.mp hr with hr | hr
    · exact Or.inl (List.mem_of_mem_filter hr)
    · rw [List.mem_singleton.mp hr]
      exact Or.inr ⟨rfl, hopen⟩
  · rw [hshut] at hr
    cases hr
  · rw [he] at hr
    exact Or.inl ((List.filter_sublist.map Prod.fst).subset hr)

/-- What comes into pending close in a turn is given up in it. -/
theorem Job.Moves.pendingClose {mayCrash : Callback → Prop} {now : Instant} {s : State} {j : Job}
    {next : State × Job} (h : j.Moves mayCrash now s next) {r : ResourceId}
    (hr : r ∈ next.1.sets.pendingClose.keys) :
    r ∈ s.sets.pendingClose.keys ∨ r ∈ j.gaveUp next.2 ∧ s.sets.closed = false := by
  rcases h.cases with rfl | ⟨i, rest, e, htodo, hleads, rfl⟩ | ⟨he, -⟩
  · exact Or.inl hr
  · refine (hleads.pendingClose hr).imp_right ?_
    rintro ⟨rfl, hopen⟩
    refine ⟨?_, hopen⟩
    have hend : (j.follow rest e).2.todo = rest := by
      cases hleads with
      | giveUpClosed _ hclosed =>
        rw [hopen] at hclosed
        cases hclosed
      | giveUp => rfl
    have hne : j ≠ (j.follow rest e).2 := by
      intro he
      have hself := congrArg Job.todo he
      rw [hend, htodo] at hself
      exact List.cons_ne_self _ _ hself
    simp only [Job.gaveUp, htodo, if_neg hne, List.mem_singleton]
  · rw [he] at hr
    exact Or.inl hr

namespace Traffic

variable {mayCrash : Callback → Prop} {t u : Traffic} {path : List (Traffic × Traffic)}

/-- What is pending close was given up late, or it is neither destroyed nor going to be. -/
def Pending (path : List (Traffic × Traffic)) (t : Traffic) : Prop :=
  ∀ r ∈ t.state.sets.pendingClose.keys,
    r ∈ late path ∨ t.state.stock.isDestroyed r = false ∧ r ∉ t.condemned

namespace Pending

theorem proceed {before after : List Job} {j : Job} {next : State × Job} (h : Pending path t)
    (howned : t.Owned) (hjobs : t.jobs = before ++ j :: after)
    (hmoves : j.Moves mayCrash t.now t.state next) :
    Pending (path ++ [(t, t.proceed before after next)]) (t.proceed before after next) := by
  have hj := howned.sound.orderly j (Sound.mem_jobs hjobs)
  have hu := howned.proceed hjobs hmoves
  intro r hr
  have hmem : r ∈ (t.proceed before after next).state.sets.members :=
    Sets.mem_members.mpr (Or.inr hr)
  have hkept : t.state.stock.isDestroyed r = false → r ∉ t.condemned →
      (t.proceed before after next).state.stock.isDestroyed r = false ∧
        r ∉ (t.proceed before after next).condemned := by
    intro halive hnot
    constructor
    · by_contra hdestroyed
      rw [Bool.not_eq_false] at hdestroyed
      have hlt := hu.known r (hu.members hmem)
      rcases (destroyed_cases hj hjobs hmoves hlt hdestroyed).2 with hbefore | hcondemned
      · rw [halive] at hbefore
        cases hbefore
      · exact hnot hcondemned
    · intro hcondemned
      rcases howned.condemned_proceed hjobs hmoves hcondemned with hbefore | hout
      · exact hnot hbefore
      · exact hout hmem
  rw [late, List.flatMap_append, List.flatMap_singleton, List.mem_append]
  rcases hmoves.pendingClose hr with hbefore | ⟨hgaveUp, hopen⟩
  · rcases h r hbefore with hlate | ⟨halive, hnot⟩
    · exact Or.inl (Or.inl hlate)
    · exact Or.inr (hkept halive hnot)
  · by_cases hlate : t.state.stock.isDestroyed r = true ∨ r ∈ t.condemned
    · refine Or.inl (Or.inr (List.mem_filter.mpr ⟨?_, ?_⟩))
      · rw [between_proceed Job.gaveUp_self hjobs]
        exact hgaveUp
      · rw [hopen, Bool.not_false, Bool.true_and, Bool.or_eq_true, List.contains_iff_mem]
        exact hlate
    · obtain ⟨halive, hnot⟩ := not_or.mp hlate
      exact Or.inr (hkept (Bool.eq_false_iff.mpr halive) hnot)

theorem of_next (h : Pending path t) (howned : t.Owned) (hnext : Next mayCrash t u)
    (hown : t.Undisturbed u) : Pending (path ++ [(t, u)]) u := by
  have hlate : ∀ r ∈ late path, r ∈ late (path ++ [(t, u)]) := by
    intro r hr
    rw [late, List.flatMap_append]
    exact List.mem_append_left _ hr
  rcases next_cases hnext with ⟨op, hop, rfl⟩ | ⟨before, after, j, next, hjobs, hmoves, rfl⟩ |
    ⟨later, stock, hlength, hdestroyed, rfl⟩
  · intro r hr
    refine (h r hr).imp (hlate r) fun ⟨halive, hnot⟩ => ⟨halive, fun hr => hnot ?_⟩
    obtain ⟨k, hk, hr⟩ := mem_condemned.mp hr
    rcases List.mem_append.mp hk with hk | hk
    · exact mem_condemned.mpr ⟨k, hk, hr⟩
    · rw [List.mem_singleton.mp hk, op.condemned_job] at hr
      cases hr
  · exact h.proceed howned hjobs hmoves
  · intro r hr
    refine (h r hr).imp (hlate r) fun ⟨halive, hnot⟩ => ⟨?_, hnot⟩
    have hmade := howned.members (Sets.mem_members.mpr (Or.inr hr))
    exact (isDestroyed_of_undisturbed hown rfl r hmade).trans halive

theorem of_run {name : String} {limits : Limits} {destructs : Bool} {stock : Stock}
    (h : Run mayCrash (.new name limits destructs stock) path t) : Pending path t := by
  induction h with
  | refl => exact nofun
  | next hrun hnext hown ih => exact ih.of_next (Lendable.of_run hrun).1 hnext hown

end Pending

/-- Of the resources a pool has made, those in its sets are those that were not destroyed, and some
that were. -/
theorem length_members_add (howned : t.Owned)
    (hkept : ∀ r ∈ t.made, t.state.stock.isDestroyed r = false → r ∈ t.state.sets.members) :
    t.state.sets.members.length + (t.made.filter t.state.stock.isDestroyed).length =
      t.made.length + (t.state.sets.members.filter t.state.stock.isDestroyed).length := by
  have halive : (t.state.sets.members.filter fun r => !t.state.stock.isDestroyed r).Perm
      (t.made.filter fun r => !t.state.stock.isDestroyed r) := by
    rw [List.perm_ext_iff_of_nodup (howned.sound.members.filter _) (howned.nodup.filter _)]
    intro r
    rw [List.mem_filter, List.mem_filter, Bool.not_eq_true']
    constructor
    · exact fun h => ⟨howned.members h.1, h.2⟩
    · exact fun h => ⟨hkept r h.1 h.2, h.2⟩
  have hmembers := t.state.sets.members.length_eq_length_filter_add t.state.stock.isDestroyed
  have hmade := t.made.length_eq_length_filter_add t.state.stock.isDestroyed
  have hlength := halive.length_eq
  omega

theorem late_of_destroyed (hlendable : t.Lendable) (hpending : Pending path t)
    {p : Place} {r : ResourceId} (hr : r ∈ t.state.sets.content p)
    (hdestroyed : t.state.stock.isDestroyed r = true) : p = .pendingClose ∧ r ∈ late path := by
  have hnot : r ∉ t.state.sets.active := by
    intro hactive
    rw [hlendable.active r hactive] at hdestroyed
    cases hdestroyed
  rw [Sets.mem_active] at hnot
  cases p with
  | idle => exact absurd (Or.inl hr) hnot
  | checkedOut => exact absurd (Or.inr (Or.inl hr)) hnot
  | overflow => exact absurd (Or.inr (Or.inr hr)) hnot
  | pendingClose =>
    refine ⟨rfl, (hpending r hr).resolve_right ?_⟩
    intro h
    rw [h.1] at hdestroyed
    cases hdestroyed

/-- While no operation is in progress, the sets hold all that was not destroyed. -/
theorem Sound.mem_members_of_quiet (h : t.Sound) (hquiet : t.Quiet) {r : ResourceId}
    (hmade : r ∈ t.made) (hr : t.state.stock.isDestroyed r = false) :
    r ∈ t.state.sets.members := by
  refine (h.accounted r hmade hr).resolve_right ?_
  rintro ⟨j, hj, hcarries⟩
  rw [Job.carries, hquiet j hj] at hcarries
  cases hcarries

/-- Of all that is in the sets, only what was given up late may have been destroyed. This alone
makes the count of live resources exceed the number of those that were made and not destroyed. -/
theorem live_add_destroyed (hsafe : ∀ r, ¬ mayCrash (.destructor r)) {name : String}
    {limits : Limits} {destructs : Bool} {stock : Stock}
    (h : Run mayCrash (.new name limits destructs stock) path t) :
    (∀ p r, r ∈ t.state.sets.content p → t.state.stock.isDestroyed r = true →
      p = .pendingClose ∧ r ∈ late path) ∧
    (t.Quiet → t.state.sets.stats.live + (t.made.filter t.state.stock.isDestroyed).length =
      t.made.length + (t.state.sets.pendingClose.keys.filter t.state.stock.isDestroyed).length) ∧
    (t.Quiet → late path = [] →
      (∀ p r, r ∈ t.state.sets.content p → t.state.stock.isDestroyed r = false) ∧
      t.state.sets.stats.live + (t.made.filter t.state.stock.isDestroyed).length =
        t.made.length) := by
  obtain ⟨howned, hlendable⟩ := Lendable.of_run h
  have hlate : ∀ p r, r ∈ t.state.sets.content p → t.state.stock.isDestroyed r = true →
      p = .pendingClose ∧ r ∈ late path := fun _ _ =>
    late_of_destroyed hlendable (Pending.of_run h)
  have hcount : t.Quiet →
      t.state.sets.stats.live + (t.made.filter t.state.stock.isDestroyed).length =
        t.made.length +
          (t.state.sets.pendingClose.keys.filter t.state.stock.isDestroyed).length := by
    intro hquiet
    have hsound := Sound.of_reachable hsafe (h.reachable (.new name limits destructs stock))
    have hlength := length_members_add howned fun _ => hsound.mem_members_of_quiet hquiet
    rw [Sets.members, List.filter_append, Stock.filter_isDestroyed_eq_nil hlendable.active,
      List.nil_append] at hlength
    rw [Sets.live_eq_length]
    exact hlength
  refine ⟨hlate, hcount, fun hquiet hnone => ?_⟩
  have halive : ∀ p r, r ∈ t.state.sets.content p → t.state.stock.isDestroyed r = false := by
    intro p r hr
    by_contra hdestroyed
    rw [Bool.not_eq_false] at hdestroyed
    have hmem := (hlate p r hr hdestroyed).2
    rw [hnone] at hmem
    cases hmem
  refine ⟨halive, ?_⟩
  have hnone : t.state.sets.pendingClose.keys.filter t.state.stock.isDestroyed = [] :=
    Stock.filter_isDestroyed_eq_nil (halive .pendingClose)
  rw [hcount hquiet, hnone]
  rfl

/-- An overflow resource was destroyed when it was passed back, and then given up. -/
def givenUpLate : Traffic where
  state := {
    name := "pool"
    limits := ⟨1, .zero⟩
    sets := { idle := [0], pendingClose := Table.empty.insert 1 .start }
    stock := [⟨"pool", 0, .start, .start, false⟩, ⟨"pool", 1, .start, .start, true⟩] }
  jobs := [⟨[], .got 0⟩, ⟨[], .got 1⟩, ⟨[], .done⟩, ⟨[], .done⟩, ⟨[], .done⟩]
  handles := [1, 0]
  made := [0, 1]

theorem run_givenUpLate : ∃ path,
    Run (fun _ => False) (.new "pool" ⟨1, .zero⟩ true []) path givenUpLate ∧ late path = [1] := by
  have h : Run (fun _ => False) (.new "pool" ⟨1, .zero⟩ true []) [] _ := .refl
  replace h := h.next (.start .get nofun) (by decide)
  replace h := h.next (.step [] [] _ rfl) (by decide)
  replace h := h.next (.reply [] [] _ (.make .keep) .ok rfl rfl nofun) (by decide)
  replace h := h.next (.step [] [] _ rfl) (by decide)
  replace h := h.next (.start .get nofun) (by decide)
  replace h := h.next (.step [_] [] _ rfl) (by decide)
  replace h := h.next (.reply [_] [] _ (.make .keep) .ok rfl rfl nofun) (by decide)
  replace h := h.next (.step [_] [] _ rfl) (by decide)
  replace h := h.next (.start (.put 0) (by decide)) (by decide)
  replace h := h.next (.step [_, _] [] _ rfl) (by decide)
  replace h := h.next (.start (.put 1) (by decide)) (by decide)
  replace h := h.next (.step [_, _, _] [] _ rfl) (by decide)
  replace h := h.next (.step [_, _, _] [] _ rfl) (by decide)
  replace h := h.next (.step [_, _, _] [] _ rfl) (by decide)
  replace h := h.next (.reply [_, _, _] [] _ (.destructor 1) .ok rfl rfl nofun) (by decide)
  replace h := h.next (.start (.discard 1) (by decide)) (by decide)
  replace h := h.next (.step [_, _, _, _] [] _ rfl) (by decide)
  replace h := h.next (.step [_, _, _, _] [] _ rfl) (by decide)
  exact ⟨_, h, rfl⟩

theorem live_add_destroyed_given_up_late : ∃ path,
    Run (fun _ => False) (.new "pool" ⟨1, .zero⟩ true []) path givenUpLate ∧ givenUpLate.Quiet ∧
      1 ∈ late path ∧ givenUpLate.state.sets.stats.live + 1 = 2 + 1 := by
  have hquiet : givenUpLate.Quiet := by
    unfold Quiet
    decide
  obtain ⟨path, h, -⟩ := run_givenUpLate
  obtain ⟨hlate, hcount, -⟩ := live_add_destroyed nofun h
  exact ⟨path, h, hquiet, (hlate .pendingClose 1 List.mem_cons_self rfl).2, hcount hquiet⟩

/-- A destroyed resource can be in a set while no operation is in progress. -/
theorem exists_destroyed_pendingClose : ∃ path t,
    Run (fun _ => False) (.new "pool" ⟨1, .zero⟩ true []) path t ∧ t.Quiet ∧
      1 ∈ t.state.sets.content .pendingClose ∧ t.state.stock.isDestroyed 1 = true ∧
      t.made.length = 2 ∧ (t.made.filter t.state.stock.isDestroyed).length = 1 ∧
      t.state.sets.stats.live = 2 := by
  obtain ⟨path, h, -⟩ := run_givenUpLate
  refine ⟨path, givenUpLate, h, ?_, List.mem_cons_self, rfl, rfl, rfl, rfl⟩
  unfold Quiet
  decide

end Traffic

end Stockroom.Pool

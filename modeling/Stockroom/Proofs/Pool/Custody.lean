import Stockroom.Proofs.Pool.Turns

/-! No resource is in two sets, and none gets lost: whatever the factory made is in a set or was
destroyed once no operation is in progress. -/

namespace Stockroom.Pool
set_option autoImplicit false

namespace Operation

theorem orderly_job (op : Operation) : Orderly op.job.todo := by
  cases op with
  | discard r => exact .leaving r [] nofun
  | _ => exact .one nofun nofun

theorem fresh_job (op : Operation) : op.job.fresh = [] := by cases op <;> rfl

theorem mentions_job (op : Operation) : op.job.mentions ⊆ op.handles := by
  cases op <;> simp [Operation.job, Operation.handles, Job.mentions, Job.get, Job.put, Job.discard,
    Job.exec, Job.close, Job.checkIdle, Job.reclaimOverdue, Job.sweepPendingClose,
    Instr.mentions, Result.gives]

theorem job_ne_dispose (op : Operation) (r : ResourceId) (d : Disposal)
    (rest : List Instr) : op.job.todo ≠ .dispose r d :: rest := by
  cases op <;> exact nofun

end Operation

theorem Instr.fresh_subset_carries (i : Instr) : i.fresh ⊆ i.carries := by
  cases i <;> first | exact List.Subset.refl _ | exact List.nil_subset _

namespace Traffic

variable {t : Traffic}

/-- Resources that have just been made. -/
def fresh (t : Traffic) : List ResourceId := t.jobs.flatMap Job.fresh

/-- Resources that a set, a user or an instruction may come back to. -/
def seen (t : Traffic) : List ResourceId :=
  t.state.sets.members ++ t.handles ++ t.jobs.flatMap Job.mentions

structure Sound (t : Traffic) : Prop where
  orderly : ∀ j ∈ t.jobs, Orderly j.todo
  members : t.state.sets.members.Nodup
  /-- What is to be disposed of is in no set but perhaps pending close. -/
  away : ∀ j ∈ t.jobs, ∀ r d rest, j.todo = .dispose r d :: rest → r ∉ t.state.sets.active
  fresh : t.fresh.Nodup
  made : ∀ r ∈ t.fresh, r < t.state.stock.length
  seen : ∀ r ∈ t.seen, r < t.state.stock.length ∧ r ∉ t.fresh
  known : ∀ r ∈ t.made, r < t.state.stock.length
  /-- A resource that is in no set is on its way in some job. -/
  accounted : ∀ r ∈ t.made, t.state.stock.isDestroyed r = false →
    r ∈ t.state.sets.members ∨ ∃ j ∈ t.jobs, r ∈ j.carries

theorem mem_seen {r : ResourceId} :
    r ∈ t.seen ↔ r ∈ t.state.sets.members ∨ r ∈ t.handles ∨ ∃ j ∈ t.jobs, r ∈ j.mentions := by
  simp only [seen, List.mem_append, List.mem_flatMap, or_assoc]

theorem mem_fresh {r : ResourceId} : r ∈ t.fresh ↔ ∃ j ∈ t.jobs, r ∈ j.fresh := List.mem_flatMap

theorem sound_new (name : String) (limits : Limits) (destructs : Bool) (stock : Stock) :
    Sound (.new name limits destructs stock) where
  orderly := nofun
  members := List.nodup_nil
  away := nofun
  fresh := List.nodup_nil
  made := nofun
  seen := nofun
  known := nofun
  accounted := nofun

namespace Sound

theorem start (h : t.Sound) (op : Operation) (hop : ∀ r ∈ op.handles, r ∈ t.handles) :
    Sound { t with jobs := t.jobs ++ [op.job] } := by
  have hfresh : Traffic.fresh { t with jobs := t.jobs ++ [op.job] } = t.fresh := by
    simp only [Traffic.fresh, List.flatMap_append, List.flatMap_cons, op.fresh_job,
      List.flatMap_nil, List.append_nil]
  constructor
  · intro j hj
    rcases List.mem_append.mp hj with hj | hj
    · exact h.orderly j hj
    · exact List.mem_singleton.mp hj ▸ op.orderly_job
  · exact h.members
  · intro j hj r d rest htodo
    rcases List.mem_append.mp hj with hj | hj
    · exact h.away j hj r d rest htodo
    · obtain rfl := List.mem_singleton.mp hj
      exact absurd htodo (op.job_ne_dispose r d rest)
  · exact hfresh ▸ h.fresh
  · exact hfresh ▸ h.made
  · intro r hr
    rw [hfresh]
    apply h.seen
    rw [mem_seen] at hr ⊢
    rcases hr with hr | hr | ⟨j, hj, hr⟩
    · exact Or.inl hr
    · exact Or.inr (Or.inl hr)
    · rcases List.mem_append.mp hj with hj | hj
      · exact Or.inr (Or.inr ⟨j, hj, hr⟩)
      · obtain rfl := List.mem_singleton.mp hj
        exact Or.inr (Or.inl (hop r (op.mentions_job hr)))
  · exact h.known
  · intro r hmade hr
    refine (h.accounted r hmade hr).imp_right ?_
    rintro ⟨j, hj, hcarries⟩
    exact ⟨j, List.mem_append_left _ hj, hcarries⟩

variable {before after : List Job} {j : Job} {next : State × Job}

theorem mem_jobs (hjobs : t.jobs = before ++ j :: after) : j ∈ t.jobs := by
  rw [hjobs]
  exact List.mem_append_right _ List.mem_cons_self

theorem eq_or_mem_jobs (hjobs : t.jobs = before ++ j :: after) {k l : Job}
    (hk : k ∈ before ++ l :: after) : k = l ∨ k ∈ t.jobs := by
  rw [hjobs]
  rcases List.mem_append.mp hk with hk | hk
  · exact Or.inr (List.mem_append_left _ hk)
  · rcases List.mem_cons.mp hk with rfl | hk
    · exact Or.inl rfl
    · exact Or.inr (List.mem_append_right _ (List.mem_cons_of_mem _ hk))

/-- What a job may come back to after its turn was there before, or was made for it. -/
theorem seen_proceed (hjobs : t.jobs = before ++ j :: after)
    (hturn : Turn t.state j next.1 next.2) {r : ResourceId}
    (hr : r ∈ (t.proceed before after next).seen) : r ∈ t.seen ∨ r ∈ j.fresh := by
  have hj := mem_jobs hjobs
  have hmentions : r ∈ next.2.mentions → r ∈ t.seen ∨ r ∈ j.fresh := by
    intro hr
    rcases hturn.mentions r hr with hr | hr | hr
    · exact Or.inl (mem_seen.mpr (Or.inl hr))
    · exact Or.inl (mem_seen.mpr (Or.inr (Or.inr ⟨j, hj, hr⟩)))
    · exact Or.inr hr
  rcases mem_seen.mp hr with hr | hr | ⟨k, hk, hr⟩
  · rcases hturn.sets.members r hr with hr | hr | hr
    · exact Or.inl (mem_seen.mpr (Or.inl hr))
    · exact Or.inl (mem_seen.mpr (Or.inr (Or.inr ⟨j, hj, hr⟩)))
    · exact Or.inr hr
  · rcases List.mem_append.mp hr with hr | hr
    · exact hmentions (next.2.gives_subset hr)
    · exact Or.inl (mem_seen.mpr (Or.inr (Or.inl hr)))
  · rcases eq_or_mem_jobs hjobs hk with rfl | hk
    · exact hmentions hr
    · exact Or.inl (mem_seen.mpr (Or.inr (Or.inr ⟨k, hk, hr⟩)))

/-- Resources that have just been made for other jobs. -/
def others (before after : List Job) : List ResourceId :=
  before.flatMap Job.fresh ++ after.flatMap Job.fresh

theorem fresh_jobs (hjobs : t.jobs = before ++ j :: after) :
    t.fresh.Perm (j.fresh ++ others before after) := by
  rw [Traffic.fresh, hjobs, List.flatMap_append, List.flatMap_cons]
  exact List.perm_append_comm_assoc _ _ _

theorem others_subset (hjobs : t.jobs = before ++ j :: after) : others before after ⊆ t.fresh :=
  fun _ hr => (fresh_jobs hjobs).symm.subset (List.mem_append_right _ hr)

/-- Of the new resources, those of the other jobs stay; this job has used up its own, or it has
none and is given the next of the stock. -/
theorem fresh_proceed (hturn : Turn t.state j next.1 next.2) :
    (t.proceed before after next).fresh.Perm (others before after) ∨
      next.1.stock.length = t.state.stock.length + 1 ∧
        (t.proceed before after next).fresh.Perm
          (t.state.stock.length :: others before after) := by
  have hnew : (t.proceed before after next).fresh.Perm
      (next.2.fresh ++ others before after) := fresh_jobs rfl
  rcases hturn.fresh with ⟨-, he⟩ | ⟨hstock, he, -⟩
  · rw [he] at hnew
    exact Or.inl hnew
  · rw [he] at hnew
    exact Or.inr ⟨hstock, hnew⟩

theorem length_le_of_turn (hturn : Turn t.state j next.1 next.2) :
    t.state.stock.length ≤ next.1.stock.length := by
  rcases hturn.fresh with ⟨he, -⟩ | ⟨he, -⟩ <;> omega

theorem mem_others (hturn : Turn t.state j next.1 next.2) {r : ResourceId}
    (hlt : r < t.state.stock.length) (hr : r ∈ (t.proceed before after next).fresh) :
    r ∈ others before after := by
  rcases fresh_proceed hturn with hnew | ⟨-, hnew⟩
  · exact hnew.subset hr
  · rcases List.mem_cons.mp (hnew.subset hr) with rfl | hr
    · exact absurd hlt (Nat.lt_irrefl _)
    · exact hr

theorem away_proceed (h : t.Sound) (hjobs : t.jobs = before ++ j :: after)
    (hturn : Turn t.state j next.1 next.2) {k : Job} (hk : k ∈ before ++ next.2 :: after)
    {r : ResourceId} {d : Disposal} {rest : List Instr} (htodo : k.todo = .dispose r d :: rest) :
    r ∉ next.1.sets.active := by
  rcases eq_or_mem_jobs hjobs hk with rfl | hk
  · exact hturn.away r d rest htodo
  · intro hactive
    rcases hturn.sets.active r hactive with hactive | hfresh
    · exact h.away k hk r d rest htodo hactive
    · have hseen : r ∈ t.seen := by
        refine mem_seen.mpr (Or.inr (Or.inr ⟨k, hk, List.mem_append_left _ ?_⟩))
        rw [htodo]
        exact List.mem_cons_self
      exact (h.seen r hseen).2 (mem_fresh.mpr ⟨j, mem_jobs hjobs, hfresh⟩)

/-- What was made before this turn is still in a set, or on its way. -/
theorem accounted_proceed (h : t.Sound) (hjobs : t.jobs = before ++ j :: after)
    (hturn : Turn t.state j next.1 next.2) {r : ResourceId}
    (hmade : r ∈ t.made) (hr : next.1.stock.isDestroyed r = false) :
    r ∈ next.1.sets.members ∨ ∃ k ∈ before ++ next.2 :: after, r ∈ k.carries := by
  have hbefore : t.state.stock.isDestroyed r = false := by
    by_contra hdestroyed
    rw [Bool.not_eq_false] at hdestroyed
    exact Bool.false_ne_true (hr.symm.trans (hturn.destroyed r (h.known r hmade) hdestroyed))
  have hturned : r ∈ next.1.sets.members ∨ r ∈ next.2.carries →
      r ∈ next.1.sets.members ∨ ∃ k ∈ before ++ next.2 :: after, r ∈ k.carries :=
    Or.imp_right fun hr => ⟨next.2, List.mem_append_right _ List.mem_cons_self, hr⟩
  rcases h.accounted r hmade hbefore with hmem | ⟨k, hk, hcarries⟩
  · exact hturned (hturn.sets.covers r hmem)
  · rw [hjobs] at hk
    rcases List.mem_append.mp hk with hk | hk
    · exact Or.inr ⟨k, List.mem_append_left _ hk, hcarries⟩
    · rcases List.mem_cons.mp hk with rfl | hk
      · exact hturned (hturn.carried r hcarries hr)
      · exact Or.inr ⟨k, List.mem_append_right _ (List.mem_cons_of_mem _ hk), hcarries⟩

/-- What was made in this turn is on its way in its job. -/
theorem carried_of_made (hturn : Turn t.state j next.1 next.2) {r : ResourceId}
    (hle : t.state.stock.length ≤ r) (hlt : r < next.1.stock.length) : r ∈ next.2.carries := by
  rcases hturn.fresh with ⟨hstock, -⟩ | ⟨hstock, he, -⟩
  · exact absurd (hstock ▸ hlt) (Nat.not_lt.mpr hle)
  · rw [hstock] at hlt
    obtain rfl : r = t.state.stock.length := Nat.le_antisymm (Nat.le_of_lt_succ hlt) hle
    have hfresh : t.state.stock.length ∈ next.2.fresh := he ▸ List.mem_cons_self
    obtain ⟨i, hi, hfresh⟩ := List.mem_flatMap.mp hfresh
    exact List.mem_flatMap.mpr ⟨i, hi, i.fresh_subset_carries hfresh⟩

theorem mem_made_proceed (hturn : Turn t.state j next.1 next.2) {r : ResourceId}
    (hr : r ∈ (t.proceed before after next).made) :
    r ∈ t.made ∨ t.state.stock.length ≤ r ∧ r < next.1.stock.length := by
  refine (List.mem_append.mp hr).imp_right fun hr => ?_
  obtain ⟨hle, hlt⟩ := List.mem_range'_1.mp hr
  rw [Nat.add_sub_cancel' (length_le_of_turn hturn)] at hlt
  exact ⟨hle, hlt⟩

theorem proceed (h : t.Sound) (hjobs : t.jobs = before ++ j :: after)
    (hturn : Turn t.state j next.1 next.2) : (t.proceed before after next).Sound := by
  have hlength := length_le_of_turn hturn
  have hapart := List.nodup_append.mp ((fresh_jobs hjobs).nodup_iff.mp h.fresh)
  constructor
  · intro k hk
    rcases eq_or_mem_jobs hjobs hk with rfl | hk
    · exact hturn.orderly
    · exact h.orderly k hk
  · exact hturn.sets.nodup
  · exact fun k hk r d rest htodo => away_proceed h hjobs hturn hk htodo
  · rcases fresh_proceed hturn with hnew | ⟨-, hnew⟩
    · exact hnew.nodup_iff.mpr hapart.2.1
    · refine hnew.nodup_iff.mpr (List.nodup_cons.mpr ⟨fun hr => ?_, hapart.2.1⟩)
      exact Nat.lt_irrefl _ (h.made _ (others_subset hjobs hr))
  · intro r hr
    rcases fresh_proceed hturn with hnew | ⟨hstock, hnew⟩
    · exact Nat.lt_of_lt_of_le (h.made r (others_subset hjobs (hnew.subset hr))) hlength
    · rcases List.mem_cons.mp (hnew.subset hr) with rfl | hr
      · exact Nat.lt_of_lt_of_eq (Nat.lt_succ_self _) hstock.symm
      · exact Nat.lt_of_lt_of_le (h.made r (others_subset hjobs hr)) hlength
  · intro r hr
    rcases seen_proceed hjobs hturn hr with hr | hr
    · obtain ⟨hlt, hnot⟩ := h.seen r hr
      refine ⟨Nat.lt_of_lt_of_le hlt hlength, fun hf => hnot ?_⟩
      exact others_subset hjobs (mem_others hturn hlt hf)
    · have hlt := h.made r (mem_fresh.mpr ⟨j, mem_jobs hjobs, hr⟩)
      refine ⟨Nat.lt_of_lt_of_le hlt hlength, fun hf => ?_⟩
      exact hapart.2.2 r hr r (mem_others hturn hlt hf) rfl
  · intro r hmade
    rcases mem_made_proceed hturn hmade with hmade | ⟨-, hlt⟩
    · exact Nat.lt_of_lt_of_le (h.known r hmade) hlength
    · exact hlt
  · intro r hmade hr
    rcases mem_made_proceed hturn hmade with hmade | ⟨hle, hlt⟩
    · exact accounted_proceed h hjobs hturn hmade hr
    · refine Or.inr ⟨next.2, List.mem_append_right _ List.mem_cons_self, ?_⟩
      exact carried_of_made hturn hle hlt

/-- Whatever other pools do to the stock. -/
theorem elsewhere (h : t.Sound) {stock : Stock} (hlength : t.state.stock.length ≤ stock.length)
    (hdestroyed : ∀ r < t.state.stock.length, t.state.stock.isDestroyed r = true →
      stock.isDestroyed r = true) : Sound { t with state := { t.state with stock } } where
  orderly := h.orderly
  members := h.members
  away := h.away
  fresh := h.fresh
  made r hr := Nat.lt_of_lt_of_le (h.made r hr) hlength
  seen r hr := ⟨Nat.lt_of_lt_of_le (h.seen r hr).1 hlength, (h.seen r hr).2⟩
  known r hr := Nat.lt_of_lt_of_le (h.known r hr) hlength
  accounted r hmade hr := by
    refine h.accounted r hmade ?_
    by_contra hbefore
    rw [Bool.not_eq_false] at hbefore
    exact Bool.false_ne_true (hr.symm.trans (hdestroyed r (h.known r hmade) hbefore))

variable {mayCrash : Callback → Prop}

theorem of_next (hsafe : ∀ r, ¬ mayCrash (.destructor r)) (h : t.Sound) {u : Traffic}
    (hnext : Next mayCrash t u) : u.Sound := by
  have hfresh : ∀ {before after : List Job} {j : Job}, t.jobs = before ++ j :: after →
      (j.fresh ++ t.state.sets.members).Nodup := by
    intro before after j hjobs
    refine List.nodup_append.mpr ⟨?_, h.members, ?_⟩
    · exact (List.nodup_append.mp ((fresh_jobs hjobs).nodup_iff.mp h.fresh)).1
    · rintro r hr _ hmem rfl
      exact (h.seen r (mem_seen.mpr (Or.inl hmem))).2 (mem_fresh.mpr ⟨j, mem_jobs hjobs, hr⟩)
  cases hnext with
  | start op hop => exact h.start op hop
  | step before after j hjobs =>
    have hj := mem_jobs hjobs
    exact h.proceed hjobs (j.turn_step t.now (h.orderly j hj) (hfresh hjobs) (h.away j hj))
  | reply before after j callback r hjobs hwaits hcrash =>
    refine h.proceed hjobs
      (j.turn_reply t.now r (h.orderly j (mem_jobs hjobs)) h.members hwaits ?_)
    rintro text he x rfl
    exact hsafe x (hcrash text he)
  | drop before after j r hjobs hwaits =>
    exact h.proceed hjobs (j.turn_unwind (h.orderly j (mem_jobs hjobs)) h.members hwaits)
  | pass later => exact { h with }
  | elsewhere stock hlength hdestroyed => exact h.elsewhere hlength hdestroyed

theorem of_reachable (hsafe : ∀ r, ¬ mayCrash (.destructor r)) (h : Reachable mayCrash t) :
    t.Sound := by
  induction h with
  | new name limits destructs stock => exact sound_new name limits destructs stock
  | next _ hnext ih => exact ih.of_next hsafe hnext

end Sound

/-- Sets are disjoint at every moment, and nothing leaks: when no operation is in progress, each
resource that the factory has made and that was not destroyed is in exactly one place. -/
theorem custody {mayCrash : Callback → Prop} (hsafe : ∀ r, ¬ mayCrash (.destructor r))
    (h : Reachable mayCrash t) :
    (∀ r p q, r ∈ t.state.sets.content p → r ∈ t.state.sets.content q → p = q) ∧
    (t.Quiet → ∀ r ∈ t.made, t.state.stock.isDestroyed r = false →
      ∃! p, r ∈ t.state.sets.content p) := by
  have hsound := Sound.of_reachable hsafe h
  constructor
  · exact fun r p q => Sets.place_unique hsound.members
  · intro hquiet r hmade hr
    have hmem : r ∈ t.state.sets.members := by
      refine (hsound.accounted r hmade hr).resolve_right ?_
      rintro ⟨j, hj, hcarries⟩
      rw [Job.carries, hquiet j hj] at hcarries
      cases hcarries
    obtain ⟨p, hp⟩ := Sets.mem_members_iff.mp hmem
    exact ⟨p, hp, fun q hq => Sets.place_unique hsound.members hq hp⟩

/-- A body gets another resource, gives it up at once, and crashes. -/
def crashingBody : Traffic where
  state := {
    name := "pool"
    limits := ⟨1, .zero⟩
    sets := { idle := [0], pendingClose := Table.empty.insert 1 .start }
    stock := [⟨"pool", 0, .start, .start, false⟩, ⟨"pool", 1, .start, .start, false⟩] }
  jobs := [⟨[], .crashed ⟨""⟩⟩, ⟨[], .got 1⟩, ⟨[], .done⟩]
  handles := [1, 0]
  made := [0, 1]

theorem reachable_crashingBody : Reachable (· = .body 0) crashingBody := by
  have h : Reachable (· = .body 0) (.new "pool" ⟨1, .zero⟩ true []) := .new _ _ _ _
  have hlent : Reachable (· = .body 0) { crashingBody with
      state.sets := { checkedOut := [0] }
      state.stock := [⟨"pool", 0, .start, .start, false⟩]
      jobs := [⟨[.call (.body 0), .giveBack 0], .done⟩]
      handles := [0]
      made := [0] } := by
    replace h := h.next (.start .exec nofun)
    replace h := h.next (.step [] [] _ rfl)
    replace h := h.next (.reply [] [] _ (.make .lend) .ok rfl rfl nofun)
    replace h := h.next (.step [] [] _ rfl)
    exact h
  have hgot : Reachable (· = .body 0) { crashingBody with
      state.sets := { checkedOut := [0], overflow := [1] }
      jobs := [⟨[.call (.body 0), .giveBack 0], .done⟩, ⟨[], .got 1⟩] } := by
    replace h := hlent.next (.start .get nofun)
    replace h := h.next (.step [_] [] _ rfl)
    replace h := h.next (.reply [_] [] _ (.make .keep) .ok rfl rfl nofun)
    replace h := h.next (.step [_] [] _ rfl)
    exact h
  have hdiscarded : Reachable (· = .body 0) { crashingBody with
      state.sets := { checkedOut := [0], pendingClose := Table.empty.insert 1 .start }
      jobs := [⟨[.call (.body 0), .giveBack 0], .done⟩, ⟨[], .got 1⟩, ⟨[], .done⟩] } := by
    replace h := hgot.next (.start (.discard 1) (by decide))
    replace h := h.next (.step [_, _] [] _ rfl)
    replace h := h.next (.step [_, _] [] _ rfl)
    exact h
  replace h := hdiscarded.next
    (.reply [] [_, _] _ (.body 0) (.crash "") rfl rfl fun _ _ => rfl)
  replace h := h.next (.step [] [_, _] _ rfl)
  replace h := h.next (.step [] [_, _] _ rfl)
  exact h

theorem custody_crashing_body :
    Reachable (· = .body 0) crashingBody ∧ crashingBody.Quiet ∧
      ∀ r ∈ [0, 1], ∃! p, r ∈ crashingBody.state.sets.content p := by
  have hquiet : crashingBody.Quiet := by
    unfold Quiet
    decide
  refine ⟨reachable_crashingBody, hquiet, fun r hr => ?_⟩
  refine (custody nofun reachable_crashingBody).2 hquiet r hr ?_
  rcases List.mem_cons.mp hr with rfl | hr
  · rfl
  · rw [List.mem_singleton.mp hr]
    rfl

end Traffic

end Stockroom.Pool

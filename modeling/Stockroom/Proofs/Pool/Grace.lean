import Stockroom.Proofs.Pool.Live
import Stockroom.Proofs.Pool.Origins

/-! A resource that was given up is left alone for as long as it may be in use. Only closing, giving
it up again, or a sweep after that time ends its wait. -/

namespace Stockroom.Pool
set_option autoImplicit false

namespace Sets

theorem get?_giveUp (s : Sets) (x r : ResourceId) (now : Instant) :
    (s.giveUp x now).pendingClose.get? r =
      if r = x then some now else s.pendingClose.get? r := by
  rw [giveUp, Table.get?_insert]

theorem get?_takeDue (s : Sets) (limit : Duration) (now : Instant) (r : ResourceId) :
    (s.takeDue limit now).2.pendingClose.get? r =
      (s.pendingClose.get? r).filter fun since => !isOver limit since now := by
  apply Option.ext
  intro since
  rw [takeDue, Table.get?_filter_eq_some_iff, Option.filter_eq_some_iff]

end Sets

/-- A resource changes when it is destroyed, or checked out from among the idle ones. -/
theorem Instr.Leads.stock_getElem? {now : Instant} {s : State} {i : Instr} {e : Effect}
    (h : i.Leads now s e) {r : ResourceId} (hr : r < s.stock.length) :
    e.state.stock[r]? = s.stock[r]? ∨ i = .destroy r ∨ r ∈ s.sets.idle := by
  cases h with
  | checkOut purpose x sets _ hout =>
    rw [state_grant]
    change (s.stock.touch x now)[r]? = _ ∨ _
    by_cases he : x = r
    · subst he
      exact Or.inr (Or.inr (List.mem_of_getLast? (Sets.eq_of_checkOut? hout).1))
    · exact Or.inl (List.getElem?_modify_ne _ _ he)
  | enroll purpose x _ =>
    rw [state_grant]
    exact Or.inl rfl
  | destroy x _ =>
    by_cases he : x = r
    · subst he
      exact Or.inr (Or.inl rfl)
    · exact Or.inl (List.getElem?_modify_ne _ _ he)
  | made purpose => exact Or.inl (List.getElem?_append_left hr)
  | madeInstead old => exact Or.inl (List.getElem?_append_left hr)
  | _ => exact Or.inl rfl

namespace Traffic

variable {mayCrash : Callback → Prop} {t u v : Traffic} {before after : List Job} {j : Job}
  {next : State × Job} {path : List (Traffic × Traffic)} {i : Nat} {r : ResourceId}
  {since : Instant}

/-! ### One step -/

theorem mem_pendingClose (hr : t.since? r = some since) : r ∈ t.state.sets.pendingClose.keys :=
  List.mem_map_of_mem (Table.mem_of_get? hr)

/-- The job at this place does something to what is pending close. -/
inductive Stirs (i : Nat) (t u : Traffic) : Prop where
  | closes : Does i .close t u → u.state.sets = .shut → Stirs i t u
  | givesUp (r : ResourceId) : Does i (.dispose r .delayed) t u →
      u.state = { t.state with sets := t.state.sets.giveUp r t.now } → Stirs i t u
  | sweeps : Does i .sweep t u →
      u.state = { t.state with sets := (t.state.sets.takeDue t.state.limits.maxUsage t.now).2 } →
      Stirs i t u

/-- What is pending close stays so, with the same times, unless a job does something to it. -/
theorem waiting_or_stirs (hnext : Next mayCrash t u) :
    u.state.sets.pendingClose = t.state.sets.pendingClose ∨ ∃ i, Stirs i t u := by
  rcases next_cases hnext with ⟨op, -, rfl⟩ | ⟨before, after, j, next, hjobs, hmoves, rfl⟩ |
    ⟨later, stock, -, -, rfl⟩
  · exact Or.inl rfl
  · rcases hmoves.cases with rfl | ⟨instr, rest, e, htodo, hleads, rfl⟩ | ⟨he, -⟩
    · exact Or.inl rfl
    · have hdoes := fun hcall => does_proceed hjobs hmoves htodo hcall
      rcases hleads.waiting with hsame | ⟨x, rfl, hopen, rfl⟩ | ⟨rfl, hshut⟩ | ⟨rfl, he⟩
      · exact Or.inl hsame
      · exact Or.inr ⟨_, .givesUp x (hdoes nofun) rfl⟩
      · exact Or.inr ⟨_, .closes (hdoes nofun) hshut⟩
      · exact Or.inr ⟨_, .sweeps (hdoes nofun) he⟩
    · refine Or.inl ?_
      change next.1.sets.pendingClose = _
      rw [he]
  · exact Or.inl rfl

/-- What is pending close has the time at which it was given up last. -/
theorem since_or_givesUp (hnext : Next mayCrash t u) (hr : u.since? r = some since) :
    t.since? r = some since ∨ since = t.now ∧ ∃ i, Does i (.dispose r .delayed) t u := by
  rcases waiting_or_stirs hnext with hsame | ⟨i, hstirs⟩
  · rw [since?, hsame] at hr
    exact Or.inl hr
  · cases hstirs with
    | closes hdoes hshut =>
      rw [since?, hshut] at hr
      cases hr
    | givesUp x hdoes hstate =>
      rw [since?, hstate, Sets.get?_giveUp] at hr
      split at hr
      · rename_i he
        subst he
        exact Or.inr ⟨(Option.some.inj hr).symm, i, hdoes⟩
      · exact Or.inl hr
    | sweeps hdoes hstate =>
      rw [since?, hstate, Sets.get?_takeDue] at hr
      exact Or.inl (Option.filter_eq_some_iff.mp hr).1

/-- What is pending close stays so until it is closed, given up again or swept. -/
theorem since_cases (hnext : Next mayCrash t u) (hr : t.since? r = some since) :
    u.since? r = some since ∨ ∃ i, Does i .close t u ∨
      Does i (.dispose r .delayed) t u ∧
        u.state = { t.state with sets := t.state.sets.giveUp r t.now } ∨
      Does i .sweep t u ∧ t.isOver since = true := by
  rcases waiting_or_stirs hnext with hsame | ⟨i, hstirs⟩
  · rw [since?, hsame]
    exact Or.inl hr
  · cases hstirs with
    | closes hdoes _ => exact Or.inr ⟨i, Or.inl hdoes⟩
    | givesUp x hdoes hstate =>
      by_cases he : r = x
      · subst he
        exact Or.inr ⟨i, Or.inr (Or.inl ⟨hdoes, hstate⟩)⟩
      · refine Or.inl ?_
        rw [since?, hstate, Sets.get?_giveUp, if_neg he]
        exact hr
    | sweeps hdoes hstate =>
      cases hover : t.isOver since with
      | true => exact Or.inr ⟨i, Or.inr (Or.inr ⟨hdoes, rfl⟩)⟩
      | false =>
        refine Or.inl ?_
        rw [since?, hstate, Sets.get?_takeDue]
        exact Option.filter_eq_some_iff.mpr ⟨hr, by rw [← isOver, hover]; rfl⟩

/-- What is pending close is not lent. -/
theorem Owned.unlent (howned : t.Owned) (hnext : Next mayCrash t u)
    (hr : t.since? r = some since) : r ∉ between Job.handedOut t u := by
  have hpending := mem_pendingClose hr
  intro hout
  rcases next_cases hnext with ⟨op, hop, rfl⟩ | ⟨before, after, j, next, hjobs, hmoves, rfl⟩ |
    ⟨later, stock, hlength, hdestroyed, he⟩
  · rw [between_of_jobs_append Job.handedOut_self rfl] at hout
    cases hout
  · rw [between_proceed Job.handedOut_self hjobs] at hout
    have hactive := hmoves.handedOut (howned.sound.orderly j (Sound.mem_jobs hjobs)) hout
    rcases howned.active_proceed hjobs hmoves hactive with hactive | hfresh
    · exact Sets.not_pendingClose_of_active howned.sound.members hactive hpending
    · have hmember := Sets.mem_members.mpr (Or.inr hpending)
      exact (howned.sound.seen r (mem_seen.mpr (Or.inl hmember))).2 hfresh
  · rw [between_of_jobs_eq Job.handedOut_self (by rw [he])] at hout
    cases hout

/-- What is pending close stays what it is, unless the job that goes on was told to destroy it. -/
theorem Owned.untouched_or_destroys (howned : t.Owned) (hnext : Next mayCrash t u)
    (hown : t.Undisturbed u) (hr : t.since? r = some since) :
    u.state.stock[r]? = t.state.stock[r]? ∨ ∃ i, Does i (.destroy r) t u := by
  have hpending := mem_pendingClose hr
  have hmade : r ∈ t.made := howned.members (Sets.mem_members.mpr (Or.inr hpending))
  rcases next_cases hnext with ⟨op, hop, rfl⟩ | ⟨before, after, j, next, hjobs, hmoves, rfl⟩ |
    ⟨later, stock, hlength, -, rfl⟩
  · exact Or.inl rfl
  · rcases hmoves.cases with rfl | ⟨instr, rest, e, htodo, hleads, rfl⟩ | ⟨hsame, -⟩
    · exact Or.inl rfl
    · rcases hleads.stock_getElem? (howned.known r hmade) with hsame | rfl | hidle
      · exact Or.inl hsame
      · exact Or.inr ⟨_, does_proceed hjobs hmoves htodo nofun⟩
      · have hactive := Sets.mem_active.mpr (Or.inl hidle)
        exact absurd hpending (Sets.not_pendingClose_of_active howned.sound.members hactive)
    · refine Or.inl ?_
      change next.1.stock[r]? = _
      rw [hsame]
  · exact Or.inl (hown rfl r hmade)

section
variable {name : String} {limits : Limits} {destructs : Bool} {stock : Stock} {instr : Instr}
  {path' : List (Traffic × Traffic)}

theorem Does.exists_startedAs (h : Run mayCrash (.new name limits destructs stock) path t)
    (hdoes : Does i instr t u) : ∃ op : Operation, StartedAs path i op ∧ op.Issues instr := by
  obtain ⟨j, rest, hj, htodo, -⟩ := hdoes
  obtain ⟨op, hstarted, hpursues⟩ := Traffic.exists_startedAs h hj
  exact ⟨op, hstarted, hpursues.issues instr (htodo ▸ List.mem_cons_self)⟩

theorem Does.givesUp (h : Run mayCrash (.new name limits destructs stock) path t)
    (hdoes : Does i (.dispose r .delayed) t u) : GivesUp path i r t u := by
  obtain ⟨op, hstarted, rfl | rfl⟩ := hdoes.exists_startedAs h
  · exact ⟨Or.inl hstarted, hdoes⟩
  · exact ⟨Or.inr hstarted, hdoes⟩

theorem GivesUp.append (h : GivesUp path i r t u) (path' : List (Traffic × Traffic)) :
    GivesUp (path ++ path') i r t u :=
  ⟨h.1.imp (fun h => h.append path') fun h => h.append path', h.2⟩

/-- What is pending close was given up at the time that it has, and has stayed so since. -/
theorem exists_givesUp (h : Run mayCrash (.new name limits destructs stock) path t)
    (hr : t.since? r = some since) :
    ∃ before p after i, path = before ++ p :: after ∧ GivesUp path i r p.1 p.2 ∧
      p.1.now = since ∧ ∀ q ∈ after, q.2.since? r = some since := by
  induction h with
  | refl => cases hr
  | @next path t u hrun hnext hown ih =>
    rcases since_or_givesUp hnext hr with hbefore | ⟨rfl, i, hdoes⟩
    · obtain ⟨before, p, after, i, rfl, hgives, hnow, hsince⟩ := ih hbefore
      refine ⟨before, p, after ++ [(t, u)], i, by simp, hgives.append _, hnow, fun q hq => ?_⟩
      rcases List.mem_append.mp hq with hq | hq
      · exact hsince q hq
      · rw [List.mem_singleton.mp hq]
        exact hr
    · exact ⟨path, (t, u), [], i, rfl, (hdoes.givesUp hrun).append _, rfl, nofun⟩

/-! ### Sweeps -/

/-- What a sweep took is destroyed, or the sweep has yet to destroy it, and nothing else. -/
structure Clears (i : Nat) (due : List ResourceId) (t : Traffic) : Prop where
  made : due ⊆ t.made
  job : ∃ j, t.jobs[i]? = some j ∧
    (∀ k ∈ j.todo, ∃ r ∈ due, k = .destroy r ∨ k = .call (.destructor r)) ∧
    ∀ r ∈ due, t.state.stock.isDestroyed r = true ∨ .destroy r ∈ j.todo

/-- A job that only destroys drops nothing that it is to destroy. -/
theorem destroys_moves (hsafe : ∀ r, ¬ mayCrash (.destructor r)) {now : Instant} {s : State}
    {due : List ResourceId} (hmoves : j.Moves mayCrash now s next)
    (hj : ∀ k ∈ j.todo, ∃ r ∈ due, k = .destroy r ∨ k = .call (.destructor r)) :
    (∀ k ∈ next.2.todo, ∃ r ∈ due, k = .destroy r ∨ k = .call (.destructor r)) ∧
    ∀ r, .destroy r ∈ j.todo →
      next.1.stock.isDestroyed r = true ∨ .destroy r ∈ next.2.todo := by
  have hcalls : ∀ callback, j.waitsFor = some callback → ∃ r, callback = .destructor r := by
    intro callback hwaits
    obtain ⟨rest, htodo⟩ := Job.todo_of_waitsFor hwaits
    obtain ⟨x, -, he | he⟩ := hj (.call callback) (htodo ▸ List.mem_cons_self)
    · cases he
    · exact ⟨x, Instr.call.inj he⟩
  rcases hmoves.cases_of_destructors hsafe hcalls with rfl | ⟨i, rest, e, htodo, hleads, rfl⟩
  · exact ⟨hj, fun r hr => Or.inr hr⟩
  · have hrest : ∀ k ∈ rest, ∃ r ∈ due, k = .destroy r ∨ k = .call (.destructor r) :=
      fun k hk => hj k (htodo ▸ List.mem_cons_of_mem i hk)
    have hlater : ∀ r, .destroy r ∈ j.todo → .destroy r = i ∨ .destroy r ∈ rest := fun r hr =>
      List.mem_cons.mp (htodo ▸ hr)
    obtain ⟨x, hx, rfl | rfl⟩ := hj i (htodo ▸ List.mem_cons_self)
    · cases hleads with
      | destroyed _ hdestroyed =>
        refine ⟨hrest, fun r hr => (hlater r hr).imp_left fun he => ?_⟩
        obtain rfl := Instr.destroy.inj he
        exact hdestroyed
      | destroy _ _ =>
        refine ⟨fun k hk => ?_, fun r hr => (hlater r hr).imp ?_ (List.mem_append_right _)⟩
        · rcases List.mem_append.mp hk with hk | hk
          · dsimp only at hk
            split at hk
            · exact ⟨x, hx, Or.inr (List.mem_singleton.mp hk)⟩
            · cases hk
          · exact hrest k hk
        · intro he
          obtain rfl := Instr.destroy.inj he
          exact (Stock.isDestroyed_markDestroyed ..).trans (by simp)
    · cases hleads with
      | destructor => exact ⟨hrest, fun r hr => Or.inr ((hlater r hr).resolve_left nofun)⟩

theorem Clears.of_next (hsafe : ∀ r, ¬ mayCrash (.destructor r)) {due : List ResourceId}
    (h : Clears i due t) (howned : t.Owned) (hnext : Next mayCrash t u) : Clears i due u := by
  obtain ⟨hmade, j, hj, hdestroys, hdue⟩ := h
  rcases next_cases hnext with ⟨op, hop, rfl⟩ | ⟨before, after, k, next, hjobs, hmoves, rfl⟩ |
    ⟨later, stock, hlength, hdestroyed, rfl⟩
  · refine ⟨hmade, j, ?_, hdestroys, hdue⟩
    rw [List.getElem?_append_left (List.getElem?_eq_some_iff.mp hj).1]
    exact hj
  · have hstays : ∀ r ∈ due, t.state.stock.isDestroyed r = true →
        next.1.stock.isDestroyed r = true := fun r hr =>
      howned.destroyed_proceed hjobs hmoves (howned.known r (hmade hr))
    refine ⟨fun r hr => List.mem_append_left _ (hmade hr), ?_⟩
    by_cases hi : before.length = i
    · subst hi
      obtain rfl := Option.some.inj ((getElem?_of_jobs hjobs).symm.trans hj)
      obtain ⟨hnextdestroys, hkept⟩ := destroys_moves hsafe hmoves hdestroys
      refine ⟨next.2, by rw [getElem?_proceed hjobs, if_pos rfl], hnextdestroys, fun r hr => ?_⟩
      exact (hdue r hr).elim (fun h => Or.inl (hstays r hr h)) (hkept r)
    · refine ⟨j, by rw [getElem?_proceed hjobs, if_neg hi]; exact hj, hdestroys, fun r hr => ?_⟩
      exact (hdue r hr).imp_left (hstays r hr)
  · refine ⟨hmade, j, hj, hdestroys, fun r hr => (hdue r hr).imp_left fun h => ?_⟩
    exact hdestroyed r (howned.known r (hmade hr)) h

theorem Clears.mem_of_does {due : List ResourceId} (h : Clears i due t)
    (hdoes : Does i (.destroy r) t u) : r ∈ due := by
  obtain ⟨j, rest, hj, htodo, -⟩ := hdoes
  obtain ⟨k, hk, honly, -⟩ := h.job
  obtain rfl := Option.some.inj (hj.symm.trans hk)
  obtain ⟨x, hx, he | he⟩ := honly (.destroy r) (htodo ▸ List.mem_cons_self)
  · exact Instr.destroy.inj he ▸ hx
  · cases he

theorem Clears.of_run (hsafe : ∀ r, ¬ mayCrash (.destructor r)) {due : List ResourceId}
    (h : Clears i due t) (howned : t.Owned) (hrun : Run mayCrash t path u) :
    u.Owned ∧ Clears i due u ∧ ∀ p ∈ path, ∀ r, Does i (.destroy r) p.1 p.2 → r ∈ due := by
  induction hrun with
  | refl => exact ⟨howned, h, nofun⟩
  | next _ hnext _ ih =>
    obtain ⟨howned, hclears, hbefore⟩ := ih
    refine ⟨howned.of_next hnext, hclears.of_next hsafe howned hnext, fun p hp => ?_⟩
    rcases List.mem_append.mp hp with hp | hp
    · exact hbefore p hp
    · rw [List.mem_singleton.mp hp]
      exact fun r => hclears.mem_of_does

/-- A sweep takes what has waited too long, and is to destroy it. -/
theorem Does.clears (h : Run mayCrash (.new name limits destructs stock) path t)
    (hnext : Next mayCrash t u) (hdoes : Does i .sweep t u) :
    u.state = { t.state with sets := (t.state.sets.takeDue t.state.limits.maxUsage t.now).2 } ∧
      Clears i (t.state.sets.takeDue t.state.limits.maxUsage t.now).1 u := by
  have howned := (Lendable.of_run h).1
  obtain ⟨before, after, j, rest, hjobs, rfl, htodo, rfl⟩ := hdoes.exists_proceed hnext nofun
  obtain ⟨op, -, hpursues⟩ := Traffic.exists_startedAs h (getElem?_of_jobs hjobs)
  have hrest := hpursues.sweep (htodo ▸ List.mem_cons_self)
  rw [htodo] at hrest
  obtain ⟨-, rfl⟩ := List.cons.inj hrest
  have hafter : (j.follow [] (Instr.sweep.run t.now t.state)).2.todo =
      (t.state.sets.takeDue t.state.limits.maxUsage t.now).1.map .destroy := List.append_nil _
  refine ⟨rfl, ?_, (j.follow [] (Instr.sweep.run t.now t.state)).2, ?_, ?_, ?_⟩
  · intro r hr
    exact List.mem_append_left _ (howned.members (Sets.takeDue_subset _ _ _ hr))
  · rw [getElem?_proceed hjobs, if_pos rfl]
  · intro k hk
    rw [hafter] at hk
    obtain ⟨r, hr, rfl⟩ := List.mem_map.mp hk
    exact ⟨r, hr, Or.inl rfl⟩
  · intro r hr
    rw [hafter]
    exact Or.inr (List.mem_map_of_mem hr)

theorem Does.sweeps (hsafe : ∀ r, ¬ mayCrash (.destructor r))
    (h : Run mayCrash (.new name limits destructs stock) path t) (hnext : Next mayCrash t u)
    (hdoes : Does i .sweep t u) : Sweeps mayCrash i t u := by
  obtain ⟨hstate, hclears⟩ := hdoes.clears h hnext
  have howned := (Lendable.of_run h).1.of_next hnext
  constructor
  · intro r
    rw [since?, hstate]
    exact Sets.get?_takeDue ..
  · rw [hstate]
    rfl
  · intro path' v hrun p hp r hdestroys
    have hdue := (hclears.of_run hsafe howned hrun).2.2 p hp r hdestroys
    exact Sets.mem_takeDue.mp hdue
  · intro path' v j hrun hj hend r since hr hover
    obtain ⟨-, hcleared, -⟩ := hclears.of_run hsafe howned hrun
    obtain ⟨k, hk, -, hdue⟩ := hcleared.job
    obtain rfl := Option.some.inj (hj.symm.trans hk)
    refine (hdue r (Sets.mem_takeDue.mpr ⟨since, hr, hover⟩)).resolve_right ?_
    rw [hend]
    exact List.not_mem_nil

/-! ### Waiting -/

theorem Waits.append (h : Waits path r since t u) (path' : List (Traffic × Traffic)) :
    Waits (path ++ path') r since t u where
  pending := h.pending
  unlent := h.unlent
  untouched := h.untouched.imp_right fun ⟨i, htook, hdoes⟩ => ⟨i, htook.append path', hdoes⟩

theorem Released.append (h : Released path r since t u) (path' : List (Traffic × Traffic)) :
    Released (path ++ path') r since t u := by
  cases h with
  | closed i hstarted hdoes => exact .closed i (hstarted.append path') hdoes
  | renewed i hstarted hdoes hstate => exact .renewed i (hstarted.append path') hdoes hstate
  | swept i hstarted hdoes hover => exact .swept i (hstarted.append path') hdoes hover

/-- Whatever comes between, a resource that is pending close stays what it is, unless it was given
up when its destruction had been settled. -/
theorem late_or_untouched (h : Run mayCrash (.new name limits destructs stock) path t)
    (hnext : Next mayCrash t u) (hown : t.Undisturbed u) (hr : t.since? r = some since) :
    r ∈ late path ∨ u.state.stock[r]? = t.state.stock[r]? := by
  rcases Pending.of_run h r (mem_pendingClose hr) with hlate | ⟨-, hnot⟩
  · exact Or.inl hlate
  · refine Or.inr (((Lendable.of_run h).1.untouched_or_destroys hnext hown hr).resolve_right ?_)
    rintro ⟨i, j, rest, hj, htodo, -⟩
    have hcondemned : r ∈ j.condemned :=
      List.mem_flatMap.mpr ⟨.destroy r, htodo ▸ List.mem_cons_self, List.mem_cons_self⟩
    exact hnot (mem_condemned.mpr ⟨j, List.mem_of_getElem? hj, hcondemned⟩)

/-- Whatever comes between, only closing, a sweep, or giving up ends the wait of a resource. -/
theorem waits_or_givesUp (h : Run mayCrash (.new name limits destructs stock) path t)
    (hnext : Next mayCrash t u) (hr : t.since? r = some since) :
    u.since? r = some since ∨ Released path r since t u ∨
      ∃ i, StartedAs path i .reclaim ∧ Does i (.dispose r .delayed) t u ∧
        u.state = { t.state with sets := t.state.sets.giveUp r t.now } := by
  rcases since_cases hnext hr with hstays | ⟨i, hdoes | ⟨hdoes, hstate⟩ | ⟨hdoes, hover⟩⟩
  · exact Or.inl hstays
  · obtain ⟨op, hstarted, rfl⟩ := hdoes.exists_startedAs h
    exact Or.inr (Or.inl (.closed i hstarted hdoes))
  · obtain ⟨op, hstarted, rfl | rfl⟩ := hdoes.exists_startedAs h
    · exact Or.inr (Or.inl (.renewed i hstarted hdoes hstate))
    · exact Or.inr (Or.inr ⟨i, hstarted, hdoes, hstate⟩)
  · obtain ⟨op, hstarted, rfl⟩ := hdoes.exists_startedAs h
    exact Or.inr (Or.inl (.swept i hstarted hdoes hover))

/-- Where nothing comes between, a resource waits on, or it is released. -/
theorem Untangled.waits_or_released (hun : Untangled path t)
    (h : Run mayCrash (.new name limits destructs stock) path t) (hnext : Next mayCrash t u)
    (hown : t.Undisturbed u) (hr : t.since? r = some since) :
    Waits path r since t u ∨ Released path r since t u := by
  have howned := (Lendable.of_run h).1
  have hmember : r ∈ t.state.sets.members :=
    Sets.mem_members.mpr (Or.inr (mem_pendingClose hr))
  have hopen : t.state.sets.closed = false := by
    by_contra hclosed
    rw [howned.shut (Bool.not_eq_false _ ▸ hclosed)] at hmember
    cases hmember
  rcases waits_or_givesUp h hnext hr with hstays | hreleased | ⟨i, -, hdoes, hstate⟩
  · refine Or.inl ⟨hstays, howned.unlent hnext hr, ?_⟩
    refine (howned.untouched_or_destroys hnext hown hr).imp_right fun ⟨i, hdoes⟩ => ?_
    obtain ⟨j, rest, hj, htodo, -⟩ := id hdoes
    exact ⟨i, (htodo ▸ hun hopen i j hj).took_of_mem hmember, hdoes⟩
  · exact Or.inr hreleased
  · obtain ⟨j, rest, hj, htodo, -⟩ := id hdoes
    exact Or.inr (.renewed i ((htodo ▸ hun hopen i j hj).discard_of_mem hmember) hdoes hstate)

/-- So a resource waits throughout a run, or until it is released. -/
theorem waits_until_released (h : Run mayCrash (.new name limits destructs stock) path t)
    (hrun : Run mayCrash t path' u) (hun : ∀ p ∈ path ++ path', p.1.Uninterrupted p.2)
    (hr : t.since? r = some since) :
    ((∀ p ∈ path', Waits (path ++ path') r since p.1 p.2) ∧ u.since? r = some since) ∨
      ∃ before p after, path' = before ++ p :: after ∧
        (∀ q ∈ before, Waits (path ++ path') r since q.1 q.2) ∧
        Released (path ++ path') r since p.1 p.2 := by
  induction hrun with
  | refl => exact Or.inl ⟨nofun, hr⟩
  | @next path' u v hrun hnext hown ih =>
    rw [← List.append_assoc] at hun ⊢
    have hbefore : ∀ p ∈ path ++ path', p.1.Uninterrupted p.2 := fun p hp =>
      hun p (List.mem_append_left _ hp)
    rcases ih hbefore with ⟨hwaits, hpending⟩ | ⟨before, p, after, he, hwaits, hreleased⟩
    · have hwhole := h.trans hrun
      rcases (Untangled.of_run hwhole hbefore).waits_or_released hwhole hnext hown hpending with
        hlast | hreleased
      · refine Or.inl ⟨fun p hp => ?_, hlast.pending⟩
        rcases List.mem_append.mp hp with hp | hp
        · exact (hwaits p hp).append _
        · rw [List.mem_singleton.mp hp]
          exact hlast.append _
      · exact Or.inr ⟨path', (u, v), [], rfl, fun q hq => (hwaits q hq).append _,
          hreleased.append _⟩
    · refine Or.inr ⟨before, p, after ++ [(u, v)], by rw [he]; simp, ?_, hreleased.append _⟩
      exact fun q hq => (hwaits q hq).append _

/-- A resource that is pending close stays as it is from the time at which it was given up until it
is closed, given up again, or swept when it has waited too long. -/
theorem pending_until_released (hsafe : ∀ r, ¬ mayCrash (.destructor r))
    (h : Run mayCrash (.new name limits destructs stock) path t) :
    (∀ r since, t.since? r = some since →
      ∃ before p after i, path = before ++ p :: after ∧ GivesUp path i r p.1 p.2 ∧
        p.1.now = since ∧ ∀ q ∈ after, q.2.since? r = some since) ∧
    (∀ u r since, Next mayCrash t u → t.Undisturbed u → t.since? r = some since →
      r ∉ between Job.handedOut t u ∧ (r ∈ late path ∨ u.state.stock[r]? = t.state.stock[r]?) ∧
        (u.since? r = some since ∨ Released path r since t u ∨
          ∃ i, StartedAs path i .reclaim ∧ Does i (.dispose r .delayed) t u ∧
            u.state = { t.state with sets := t.state.sets.giveUp r t.now })) ∧
    (∀ u i, Next mayCrash t u → Does i .sweep t u → Sweeps mayCrash i t u) ∧
    ∀ path' u, Run mayCrash t path' u → (∀ p ∈ path ++ path', p.1.Uninterrupted p.2) →
      ∀ r since, t.since? r = some since →
        (∀ p ∈ path', Waits (path ++ path') r since p.1 p.2) ∨
          ∃ before p after, path' = before ++ p :: after ∧
            (∀ q ∈ before, Waits (path ++ path') r since q.1 q.2) ∧
            Released (path ++ path') r since p.1 p.2 := by
  have howned := (Lendable.of_run h).1
  refine ⟨fun r since => exists_givesUp h, ?_, fun u i hnext hdoes => hdoes.sweeps hsafe h hnext, ?_⟩
  · intro u r since hnext hown hr
    exact ⟨howned.unlent hnext hr, late_or_untouched h hnext hown hr, waits_or_givesUp h hnext hr⟩
  · intro path' u hrun hun r since hr
    exact (waits_until_released h hrun hun hr).imp_left And.left

end

/-- The one resource that was made is discarded. -/
def discarded : Traffic where
  state := {
    name := "pool"
    limits := ⟨1, .zero⟩
    sets := { pendingClose := Table.empty.insert 0 .start }
    stock := [⟨"pool", 0, .start, .start, false⟩] }
  jobs := [⟨[], .got 0⟩, ⟨[], .done⟩]
  handles := [0]
  made := [0]

/-- It was passed back, to no effect, and a sweep is about to begin a moment later. -/
def overdue : Traffic :=
  { discarded with now := ⟨1⟩, jobs := discarded.jobs ++ [⟨[], .done⟩, .sweepPendingClose] }

def swept : Traffic :=
  { overdue with
    state := { overdue.state with sets := {} }
    jobs := discarded.jobs ++ [⟨[], .done⟩, ⟨[.destroy 0], .done⟩] }

def cleared : Traffic :=
  { swept with
    state := { swept.state with stock := [⟨"pool", 0, .start, .start, true⟩] }
    jobs := discarded.jobs ++ [⟨[], .done⟩, ⟨[], .done⟩] }

theorem run_discarded : ∃ path,
    Run (fun _ => False) (.new "pool" ⟨1, .zero⟩ true []) path discarded ∧
      ∀ p ∈ path, p.1.Uninterrupted p.2 := by
  have h : Run (fun _ => False) (.new "pool" ⟨1, .zero⟩ true []) [] _ := .refl
  replace h := h.next (.start .get nofun) (by decide)
  replace h := h.next (.step [] [] _ rfl) (by decide)
  replace h := h.next (.reply [] [] _ (.make .keep) .ok rfl rfl nofun) (by decide)
  replace h := h.next (.step [] [] _ rfl) (by decide)
  replace h := h.next (.start (.discard 0) (by decide)) (by decide)
  replace h := h.next (.step [_] [] _ rfl) (by decide)
  replace h := h.next (.step [_] [] _ rfl) (by decide)
  exact ⟨_, h, by decide⟩

theorem run_overdue : ∃ path,
    Run (fun _ => False) discarded path overdue ∧ ∀ p ∈ path, p.1.Uninterrupted p.2 := by
  have h : Run (fun _ => False) discarded [] _ := .refl
  replace h := h.next (.start (.put 0) (by decide)) (by decide)
  replace h := h.next (.step [_, _] [] _ rfl) (by decide)
  replace h := h.next (.pass ⟨1⟩ (by decide)) (by decide)
  replace h := h.next (.start .sweep nofun) (by decide)
  exact ⟨_, h, by decide⟩

theorem run_cleared : ∃ path,
    Run (fun _ => False) swept path cleared ∧ ∀ p ∈ path, p.1.Uninterrupted p.2 := by
  have h : Run (fun _ => False) swept [] _ := .refl
  replace h := h.next (.step [_, _, _] [] _ rfl) (by decide)
  replace h := h.next (.reply [_, _, _] [] _ (.destructor 0) .ok rfl rfl nofun) (by decide)
  exact ⟨_, h, by decide⟩

theorem pending_until_released_swept : ∃ path path',
    Run (fun _ => False) (.new "pool" ⟨1, .zero⟩ true []) path discarded ∧
    Run (fun _ => False) discarded path' cleared ∧
    (∃ before p after i, path = before ++ p :: after ∧ GivesUp path i 0 p.1 p.2 ∧
      p.1.now = .start) ∧
    Sweeps (fun _ => False) 3 overdue swept ∧
    ∃ before p after, path' = before ++ p :: after ∧
      (∀ q ∈ before, Waits (path ++ path') 0 .start q.1 q.2) ∧
      Released (path ++ path') 0 .start p.1 p.2 := by
  obtain ⟨path, h, hun⟩ := run_discarded
  obtain ⟨path₁, h₁, hun₁⟩ := run_overdue
  obtain ⟨path₂, h₂, hun₂⟩ := run_cleared
  have hsweep : Next (fun _ => False) overdue swept :=
    .step (discarded.jobs ++ [⟨[], .done⟩]) [] .sweepPendingClose rfl
  have hdoes : Does 3 .sweep overdue swept := ⟨_, _, rfl, rfl, by decide⟩
  have hrun := (h₁.next hsweep (by decide)).trans h₂
  have hwhole : ∀ p ∈ path ++ (path₁ ++ [(overdue, swept)] ++ path₂), p.1.Uninterrupted p.2 := by
    simp only [List.forall_mem_append, List.forall_mem_singleton]
    exact ⟨hun, ⟨hun₁, by decide⟩, hun₂⟩
  obtain ⟨hgiven, -, -, huntil⟩ := pending_until_released nofun h
  obtain ⟨-, -, hsweeps, -⟩ := pending_until_released nofun (h.trans h₁)
  obtain ⟨before, p, after, i, hpath, hgives, hnow, -⟩ := hgiven 0 .start rfl
  refine ⟨path, _, h, hrun, ⟨before, p, after, i, hpath, hgives, hnow⟩, hsweeps _ 3 hsweep hdoes, ?_⟩
  refine (huntil _ _ hrun hwhole 0 .start rfl).resolve_left fun hwaits => ?_
  cases (hwaits (overdue, swept) (by simp)).pending

end Traffic

end Stockroom.Pool

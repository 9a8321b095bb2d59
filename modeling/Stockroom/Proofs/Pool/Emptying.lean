import Stockroom.Pool.Emptying
import Stockroom.Proofs.Pool.Checking

/-! What becomes of resources that are taken out of the sets together. They are destroyed in turn,
each of them once, up to the first whose destructor crashes; the rest are dropped. -/

namespace Stockroom.Pool
set_option autoImplicit false

/-! ### Closing and sweeping stand alone -/

/-- It empties sets. -/
def Instr.Empties : Instr → Prop
  | .close | .sweep => True
  | _ => False

section
variable {mayCrash : Callback → Prop} {now : Instant} {s : State} {i k : Instr} {e : Effect}
  {j : Job} {next : State × Job}

theorem Instr.Leads.empties_not_mem_next (h : i.Leads now s e) (hk : k.Empties) : k ∉ e.next := by
  intro hmem
  cases h with
  | checkOut purpose | enroll purpose =>
    cases purpose with
    | keep => cases hmem
    | lend => rcases List.mem_pair.mp hmem with rfl | rfl <;> exact hk
  | destroy r _ =>
    dsimp only at hmem
    split at hmem
    · rw [List.mem_singleton.mp hmem] at hk
      exact hk
    · cases hmem
  | close | inspect | sweep | reclaim =>
    obtain ⟨x, -, rfl⟩ := List.mem_map.mp hmem
    exact hk
  | claimClosed | keep | giveUp | destroyed | withdraw | closeClosed | notMade | notMadeInstead
  | healthy | destructor | bodyDone | bodyFailed => cases hmem
  | _ =>
    rw [List.mem_singleton.mp hmem] at hk
    exact hk

/-- A job that is to empty sets has nothing else to do. -/
def Job.Lone (j : Job) : Prop := ∀ k ∈ j.todo, k.Empties → j.todo = [k]

theorem Operation.lone_job (op : Operation) : op.job.Lone := by
  intro k hk hempties
  cases op with
  | discard r => rcases List.mem_pair.mp hk with rfl | rfl <;> exact hempties.elim
  | _ => rw [List.mem_singleton.mp hk]; rfl

theorem Job.Moves.lone (h : j.Moves mayCrash now s next) (hj : j.Lone) : next.2.Lone := by
  intro k hk hempties
  rcases h.cases with rfl | ⟨i, rest, e, htodo, hleads, rfl⟩ | ⟨-, hunwound⟩
  · exact hj k hk hempties
  · have hrest := (List.mem_append.mp hk).resolve_left (hleads.empties_not_mem_next hempties)
    have hsame := hj k (htodo ▸ List.mem_cons_of_mem i hrest) hempties
    rw [htodo] at hsame
    rw [(List.cons.inj hsame).2] at hrest
    cases hrest
  · obtain ⟨-, r, rfl⟩ := hunwound.todo k hk
    exact hempties.elim

theorem Traffic.Reachable.lone {t : Traffic} (h : Reachable mayCrash t) : ∀ j ∈ t.jobs, j.Lone := by
  induction h with
  | new => exact nofun
  | next _ hnext ih =>
    rcases next_cases hnext with ⟨op, -, rfl⟩ | ⟨before, after, j, next, hjobs, hmoves, rfl⟩ |
      ⟨later, stock, -, -, rfl⟩
    · intro j hj
      rcases List.mem_append.mp hj with hj | hj
      · exact ih j hj
      · rw [List.mem_singleton.mp hj]
        exact op.lone_job
    · intro k hk
      rcases Sound.eq_or_mem_jobs hjobs hk with rfl | hk
      · exact hmoves.lone (ih j (Sound.mem_jobs hjobs))
      · exact ih k hk
    · exact ih

end

/-! ### One resource after the other -/

theorem Job.exists_crashed (j : Job) (text : String) :
    ∃ crash, (j.crash text).result = .crashed crash := by
  unfold Job.crash
  split
  · rename_i crash hresult
    exact ⟨crash, hresult⟩
  · exact ⟨_, rfl⟩

/-- How far a job has come that is to destroy what is `due`: what is `done` is destroyed, or its
destructor is running, or has crashed, which was the end of the job. -/
inductive Clearing (mayCrash : Callback → Prop) (due done : List ResourceId) (j : Job) : Prop where
  | goesOn (left : List ResourceId) : due = done ++ left → j.todo = left.map .destroy →
      Clearing mayCrash due done j
  | waits (r : ResourceId) (left : List ResourceId) : done.getLast? = some r → due = done ++ left →
      j.todo = .call (.destructor r) :: left.map .destroy → Clearing mayCrash due done j
  | stopped (r : ResourceId) (lost : List ResourceId) (crash : Crash) : done.getLast? = some r →
      mayCrash (.destructor r) → due = done ++ lost → j.todo = [] → j.result = .crashed crash →
      Clearing mayCrash due done j

namespace Clearing

variable {mayCrash : Callback → Prop} {now : Instant} {s : State} {j : Job} {next : State × Job}
  {due done : List ResourceId}

/-- The job goes on to the next resource, waits, or ends with the crash of a destructor. -/
theorem moves (h : Clearing mayCrash due done j) (hmoves : j.Moves mayCrash now s next) :
    ∃ more, Clearing mayCrash due (done ++ more) next.2 ∧
      (∀ r ∈ more, next.1.stock.isDestroyed r = true) ∧
      ∀ r rest, j.todo = .destroy r :: rest → r ∈ done ++ more := by
  have hbody : ∀ r x, Callback.destructor r ≠ .body x := nofun
  have hloan : ∀ r x, Instr.destroy r ≠ .giveBack x := nofun
  have hended (hend : j.todo = []) : ∃ more, Clearing mayCrash due (done ++ more) next.2 ∧
      (∀ r ∈ more, next.1.stock.isDestroyed r = true) ∧
      ∀ r rest, j.todo = .destroy r :: rest → r ∈ done ++ more := by
    rw [hmoves.ended hend]
    refine ⟨[], (List.append_nil done).symm ▸ h, List.forall_mem_nil _, fun r rest htodo => ?_⟩
    cases hend.symm.trans htodo
  cases id h with
  | goesOn left hdue htodo =>
    cases left with
    | nil => exact hended htodo
    | cons r left =>
      rw [List.map_cons] at htodo
      obtain ⟨-, -, hnext, hdestroyed⟩ := run_destroy now s r
      rw [hmoves.eq_follow htodo nofun]
      have hdue : due = done ++ [r] ++ left := by rw [hdue, List.append_assoc]; rfl
      refine ⟨[r], ?_, fun x hx => ?_, fun x rest hx => ?_⟩
      · rcases hnext with hnext | hnext
        · refine .goesOn left hdue ?_
          rw [Job.follow, hnext]
          rfl
        · refine .waits r left List.getLast?_concat hdue ?_
          rw [Job.follow, hnext]
          rfl
      · rw [List.mem_singleton.mp hx]
        exact (hdestroyed r).trans (by simp)
      · cases htodo.symm.trans hx
        exact List.mem_append_right _ List.mem_cons_self
  | waits r left hlast hdue htodo =>
    have hno : ∀ x rest, j.todo = .destroy x :: rest → x ∈ done ++ [] := by
      intro x rest hx
      cases htodo.symm.trans hx
    rcases hmoves.eq_reply htodo (hbody r) with rfl | ⟨reply, hcrash, rfl⟩
    · exact ⟨[], (List.append_nil done).symm ▸ h, List.forall_mem_nil _, hno⟩
    · refine ⟨[], ?_, List.forall_mem_nil _, hno⟩
      rw [List.append_nil, Job.reply, htodo]
      cases reply with
      | crash text =>
        obtain ⟨crash, hresult⟩ := Job.exists_crashed { j with todo := left.map .destroy } text
        have hend := Job.crash_todo_map hloan left j.result text
        exact .stopped r left crash hlast (hcrash text rfl) hdue hend hresult
      | _ => exact .goesOn left hdue rfl
  | stopped r lost crash _ _ _ hend => exact hended hend

/-- When the job has ended, what is left was dropped in the crash of a destructor. -/
theorem of_ended (h : Clearing mayCrash due done j) (hend : j.todo = []) :
    ∃ lost, due = done ++ lost ∧ (lost ≠ [] → ∃ r crash, done.getLast? = some r ∧
      mayCrash (.destructor r) ∧ j.result = .crashed crash) := by
  cases h with
  | goesOn left hdue htodo =>
    obtain rfl := List.map_eq_nil_iff.mp (htodo.symm.trans hend)
    exact ⟨[], hdue, fun hne => absurd rfl hne⟩
  | waits r left _ _ htodo => cases htodo.symm.trans hend
  | stopped r lost crash hlast hmay hdue _ hresult =>
    exact ⟨lost, hdue, fun _ => ⟨r, crash, hlast, hmay, hresult⟩⟩

end Clearing

namespace Traffic

variable {mayCrash : Callback → Prop} {t u v : Traffic} {path later : List (Traffic × Traffic)}
  {i : Nat} {due done : List ResourceId}

/-- The job at this place is to destroy what is `due`, and has come so far with it. -/
structure Disposes (mayCrash : Callback → Prop) (i : Nat) (due done : List ResourceId)
    (t : Traffic) : Prop where
  made : due ⊆ t.made
  destroyed : ∀ r ∈ done, t.state.stock.isDestroyed r = true
  job : ∃ j, t.jobs[i]? = some j ∧ Clearing mayCrash due done j

namespace Disposes

theorem mem_due (h : Disposes mayCrash i due done t) : done ⊆ due := by
  obtain ⟨j, -, hclearing⟩ := h.job
  intro r hr
  cases hclearing with
  | goesOn _ hdue | waits _ _ _ hdue | stopped _ _ _ _ _ hdue =>
    rw [hdue]
    exact List.mem_append_left _ hr

theorem of_next (h : Disposes mayCrash i due done t) (howned : t.Owned)
    (hnext : Next mayCrash t u) : ∃ more, Disposes mayCrash i due (done ++ more) u ∧
      ∀ r, Does i (.destroy r) t u → r ∈ done ++ more := by
  obtain ⟨hmade, hdestroyed, j, hj, hclearing⟩ := id h
  have hknown : ∀ r ∈ done, r < t.state.stock.length := fun r hr =>
    howned.known r (hmade (h.mem_due hr))
  by_cases hsame : u.jobs[i]? = some j
  · have hno : ∀ r, ¬ Does i (.destroy r) t u := by
      rintro r ⟨k, rest, hk, -, hne⟩
      obtain rfl := Option.some.inj (hj.symm.trans hk)
      exact hne hsame
    refine ⟨[], ?_, fun r hdoes => absurd hdoes (hno r)⟩
    rw [List.append_nil]
    refine ⟨List.Subset.trans hmade (made_subset_of_next hnext), fun r hr => ?_, j, hsame,
      hclearing⟩
    exact howned.destroyed_of_next hnext (hknown r hr) (hdestroyed r hr)
  · obtain ⟨before, after, next, hjobs, rfl, hmoves, rfl⟩ := moves_of_ne hnext hj hsame
    obtain ⟨more, hclearing', hmore, hdoes⟩ := hclearing.moves hmoves
    refine ⟨more, ⟨fun r hr => List.mem_append_left _ (hmade hr), fun r hr => ?_, next.2, ?_,
      hclearing'⟩, ?_⟩
    · rcases List.mem_append.mp hr with hr | hr
      · exact howned.destroyed_proceed hjobs hmoves (hknown r hr) (hdestroyed r hr)
      · exact hmore r hr
    · rw [getElem?_proceed hjobs, if_pos rfl]
    · rintro r ⟨k, rest, hk, htodo, -⟩
      obtain rfl := Option.some.inj (hj.symm.trans hk)
      exact hdoes r rest htodo

theorem of_run (h : Disposes mayCrash i due done t) (howned : t.Owned)
    (hrun : Run mayCrash t later u) : u.Owned ∧ ∃ more, Disposes mayCrash i due (done ++ more) u ∧
      ∀ p ∈ later, ∀ r, Does i (.destroy r) p.1 p.2 → r ∈ done ++ more := by
  induction hrun with
  | refl => exact ⟨howned, [], (List.append_nil done).symm ▸ h, nofun⟩
  | next _ hnext _ ih =>
    obtain ⟨howned, more, hdisposes, hbefore⟩ := ih
    obtain ⟨further, hdisposes', hlast⟩ := hdisposes.of_next howned hnext
    rw [List.append_assoc] at hdisposes' hlast
    refine ⟨howned.of_next hnext, more ++ further, hdisposes', fun p hp r hdoes => ?_⟩
    rcases List.mem_append.mp hp with hp | hp
    · rw [← List.append_assoc]
      exact List.mem_append_left _ (hbefore p hp r hdoes)
    · rw [List.mem_singleton.mp hp] at hdoes
      exact hlast r hdoes

end Disposes

/-! ### Closing and sweeping -/

section
variable {name : String} {limits : Limits} {destructs : Bool} {stock : Stock} {j : Job}

theorem Empties.subset (h : Empties i t u due) : due ⊆ t.state.sets.members := by
  cases h with
  | close => exact List.Subset.refl _
  | sweep => exact Sets.takeDue_subset _ _ _

theorem Empties.nodup (h : Empties i t u due) (howned : t.Owned) : due.Nodup := by
  cases h with
  | close => exact howned.sound.members
  | sweep =>
    have hkeys := (List.nodup_append.mp howned.sound.members).2.1
    exact hkeys.sublist (List.filter_sublist.map Prod.fst)

/-- The destructor of what was destroyed was invoked once. -/
theorem count_invoked (h : Run mayCrash (.new name limits destructs stock) path t) {r : ResourceId}
    (hmade : r ∈ t.made) (hr : t.state.stock.isDestroyed r = true) :
    (invoked path).count r = if destructs then 1 else 0 := by
  have hlogged := Logged.of_run h
  have hdestructs : t.state.destructs = destructs := destructs_of_run h
  split
  · rename_i hyes
    refine List.count_eq_one_of_mem hlogged.nodup ((hlogged.mem_iff r).mpr ?_)
    exact ⟨hmade, hr, hdestructs.trans hyes⟩
  · rename_i hno
    refine List.count_eq_zero.mpr fun hmem => hno ?_
    exact hdestructs.symm.trans ((hlogged.mem_iff r).mp hmem).2.2

/-- A job that empties sets has only to see to what it took. -/
theorem Does.exists_lone {k : Instr} (hdoes : Does i k t u) (hreach : Reachable mayCrash t)
    (hnext : Next mayCrash t u) (hk : k.Empties) (hcall : ∀ callback, k ≠ .call callback) :
    ∃ before after j, t.jobs = before ++ j :: after ∧ before.length = i ∧
      u = t.proceed before after (j.follow [] (k.run t.now t.state)) := by
  obtain ⟨before, after, j, rest, hjobs, hi, htodo, hu⟩ := hdoes.exists_proceed hnext hcall
  have hlone := hreach.lone j (Sound.mem_jobs hjobs) k (htodo ▸ List.mem_cons_self) hk
  rw [htodo] at hlone
  obtain ⟨-, rfl⟩ := List.cons.inj hlone
  exact ⟨before, after, j, hjobs, hi, hu⟩

theorem Disposes.start {before after : List Job} {e : Effect}
    (hjobs : t.jobs = before ++ j :: after) (hmade : due ⊆ t.made)
    (he : e.next = due.map .destroy) :
    Disposes mayCrash before.length due [] (t.proceed before after (j.follow [] e)) where
  made := List.Subset.trans hmade (List.subset_append_left _ _)
  destroyed := nofun
  job := by
    refine ⟨(j.follow [] e).2, by rw [getElem?_proceed hjobs, if_pos rfl], .goesOn due rfl ?_⟩
    rw [Job.follow, he, List.append_nil]

theorem run_close (hopen : t.state.sets.closed = false) :
    Instr.close.run t.now t.state =
      { state := { t.state with sets := t.state.sets.close.2 }
        next := t.state.sets.close.1.map .destroy } := by
  rw [Instr.run, hopen]
  rfl

/-- What is taken out of the sets is in no set any more, and the job is to destroy it. -/
theorem Empties.disposes (h : Empties i t u due) (hreach : Reachable mayCrash t) (howned : t.Owned)
    (hnext : Next mayCrash t u) :
    (∀ r ∈ due, r ∉ u.state.sets.members) ∧ Disposes mayCrash i due [] u := by
  have hmade : due ⊆ t.made := fun r hr => howned.members (h.subset hr)
  cases h with
  | close hopen hdoes =>
    obtain ⟨before, after, j, hjobs, rfl, rfl⟩ := hdoes.exists_lone hreach hnext trivial nofun
    rw [run_close hopen]
    exact ⟨fun _ _ => List.not_mem_nil, .start hjobs hmade rfl⟩
  | sweep hdoes =>
    obtain ⟨before, after, j, hjobs, rfl, rfl⟩ := hdoes.exists_lone hreach hnext trivial nofun
    exact ⟨fun r hr => Sets.takeDue_not_mem howned.sound.members hr, .start hjobs hmade rfl⟩

/-- A close or a sweep destroys what it took out of the sets, up to the first destructor that
crashes, and never comes back to the others. -/
theorem destroys_until_crash (h : Run mayCrash (.new name limits destructs stock) path t)
    (hnext : Next mayCrash t u) (hown : t.Undisturbed u) (hempties : Empties i t u due)
    (hrun : Run mayCrash u later v) (hj : v.jobs[i]? = some j) (hend : j.todo = []) :
    (∀ r ∈ due, r ∈ t.state.sets.members ∧ r ∉ u.state.sets.members) ∧
    ∃ done lost, due = done ++ lost ∧
      (∀ r ∈ done, v.state.stock.isDestroyed r = true ∧
        (invoked (path ++ (t, u) :: later)).count r = if destructs then 1 else 0) ∧
      (∀ r ∈ lost, ∀ p ∈ later, ¬ Does i (.destroy r) p.1 p.2) ∧
      (lost ≠ [] → ∃ r crash, done.getLast? = some r ∧ mayCrash (.destructor r) ∧
        j.result = .crashed crash) := by
  have howned := (Lendable.of_run h).1
  have hreach := h.reachable (.new name limits destructs stock)
  obtain ⟨hout, hstart⟩ := hempties.disposes hreach howned hnext
  obtain ⟨-, done, hdisposes, hdoes⟩ := hstart.of_run (howned.of_next hnext) hrun
  obtain ⟨k, hk, hclearing⟩ := hdisposes.job
  obtain rfl := Option.some.inj (hj.symm.trans hk)
  obtain ⟨lost, hdue, hcrash⟩ := hclearing.of_ended hend
  refine ⟨fun r hr => ⟨hempties.subset hr, hout r hr⟩, _, lost, hdue, fun r hr => ?_,
    fun r hr p hp hdestroys => ?_, hcrash⟩
  · have hdestroyed := hdisposes.destroyed r hr
    have hwhole : Run mayCrash (.new name limits destructs stock) (path ++ (t, u) :: later) v := by
      rw [← List.singleton_append, ← List.append_assoc]
      exact (h.next hnext hown).trans hrun
    exact ⟨hdestroyed, count_invoked hwhole (hdisposes.made (hdisposes.mem_due hr)) hdestroyed⟩
  · have hnodup := hdue ▸ hempties.nodup howned
    exact (List.nodup_append.mp hnodup).2.2 r (hdoes p hp r hdestroys) r hr rfl

end

/-- Three resources were given up at the start. Their time is over, and a sweep is to begin. -/
def threeGivenUp : Traffic where
  state := {
    name := "pool"
    limits := ⟨3, .zero⟩
    sets := { pendingClose :=
      ((Table.empty.insert 0 .start).insert 1 .start).insert 2 .start }
    stock := [⟨"pool", 0, .start, .start, false⟩, ⟨"pool", 1, .start, .start, false⟩,
      ⟨"pool", 2, .start, .start, false⟩] }
  now := ⟨1⟩
  jobs := [⟨[], .got 0⟩, ⟨[], .got 1⟩, ⟨[], .got 2⟩, ⟨[], .done⟩, ⟨[], .done⟩, ⟨[], .done⟩,
    ⟨[.sweep], .done⟩]
  handles := [2, 1, 0]
  made := [0, 1, 2]

/-- The sweep has taken them. -/
def threeTaken : Traffic :=
  { threeGivenUp with
    state := { threeGivenUp.state with sets := {} }
    jobs := threeGivenUp.jobs.take 6 ++ [⟨[.destroy 0, .destroy 1, .destroy 2], .done⟩] }

/-- The second destructor has crashed. -/
def sweepCutShort : Traffic :=
  { threeGivenUp with
    state := { threeGivenUp.state with
      sets := {}
      stock := [⟨"pool", 0, .start, .start, true⟩, ⟨"pool", 1, .start, .start, true⟩,
        ⟨"pool", 2, .start, .start, false⟩] }
    jobs := threeGivenUp.jobs.take 6 ++ [⟨[], .crashed ⟨"boom"⟩⟩] }

theorem run_threeGivenUp : ∃ path,
    Run (· = .destructor 1) (.new "pool" ⟨3, .zero⟩ true []) path threeGivenUp := by
  have h : Run (· = .destructor 1) (.new "pool" ⟨3, .zero⟩ true []) [] _ := .refl
  replace h := h.next (.start .get nofun) (by decide)
  replace h := h.next (.step [] [] _ rfl) (by decide)
  replace h := h.next (.reply [] [] _ (.make .keep) .ok rfl rfl nofun) (by decide)
  replace h := h.next (.step [] [] _ rfl) (by decide)
  replace h := h.next (.start .get nofun) (by decide)
  replace h := h.next (.step [_] [] _ rfl) (by decide)
  replace h := h.next (.reply [_] [] _ (.make .keep) .ok rfl rfl nofun) (by decide)
  replace h := h.next (.step [_] [] _ rfl) (by decide)
  replace h := h.next (.start .get nofun) (by decide)
  replace h := h.next (.step [_, _] [] _ rfl) (by decide)
  replace h := h.next (.reply [_, _] [] _ (.make .keep) .ok rfl rfl nofun) (by decide)
  replace h := h.next (.step [_, _] [] _ rfl) (by decide)
  replace h := h.next (.start (.discard 0) (by decide)) (by decide)
  replace h := h.next (.step [_, _, _] [] _ rfl) (by decide)
  replace h := h.next (.step [_, _, _] [] _ rfl) (by decide)
  replace h := h.next (.start (.discard 1) (by decide)) (by decide)
  replace h := h.next (.step [_, _, _, _] [] _ rfl) (by decide)
  replace h := h.next (.step [_, _, _, _] [] _ rfl) (by decide)
  replace h := h.next (.start (.discard 2) (by decide)) (by decide)
  replace h := h.next (.step [_, _, _, _, _] [] _ rfl) (by decide)
  replace h := h.next (.step [_, _, _, _, _] [] _ rfl) (by decide)
  replace h := h.next (.pass ⟨1⟩ (by decide)) (by decide)
  replace h := h.next (.start .sweep nofun) (by decide)
  exact ⟨_, h⟩

theorem run_sweepCutShort : ∃ later,
    Run (· = .destructor 1) threeTaken later sweepCutShort := by
  have h : Run (· = .destructor 1) threeTaken [] _ := .refl
  replace h := h.next (.step [_, _, _, _, _, _] [] _ rfl) (by decide)
  replace h := h.next (.reply [_, _, _, _, _, _] [] _ (.destructor 0) .ok rfl rfl nofun) (by decide)
  replace h := h.next (.step [_, _, _, _, _, _] [] _ rfl) (by decide)
  replace h := h.next (.reply [_, _, _, _, _, _] [] _ (.destructor 1) (.crash "boom") rfl rfl
    fun _ _ => rfl) (by decide)
  exact ⟨_, h⟩

theorem destroys_until_crash_sweepCutShort : ∃ path later done lost,
    Run (· = .destructor 1) (.new "pool" ⟨3, .zero⟩ true []) path threeGivenUp ∧
      Next (· = .destructor 1) threeGivenUp threeTaken ∧
      Run (· = .destructor 1) threeTaken later sweepCutShort ∧
      [0, 1, 2] = done ++ lost ∧ lost ≠ [] ∧ done.getLast? = some 1 ∧
      ∀ r ∈ done, (invoked (path ++ (threeGivenUp, threeTaken) :: later)).count r = 1 := by
  obtain ⟨path, h⟩ := run_threeGivenUp
  obtain ⟨later, h'⟩ := run_sweepCutShort
  have hnext : Next (· = .destructor 1) threeGivenUp threeTaken :=
    @Next.step _ threeGivenUp [_, _, _, _, _, _] [] _ rfl
  have hempties : Empties 6 threeGivenUp threeTaken [0, 1, 2] :=
    .sweep ⟨_, _, rfl, rfl, by decide⟩
  obtain ⟨-, done, lost, hdue, hdone, -, hcrash⟩ :=
    destroys_until_crash h hnext (by decide) hempties h' (j := ⟨[], .crashed ⟨"boom"⟩⟩) rfl rfl
  have hlost : lost ≠ [] := by
    rintro rfl
    rw [List.append_nil] at hdue
    have hdestroyed := (hdone 2 (hdue ▸ by decide)).1
    exact absurd hdestroyed (by decide)
  obtain ⟨r, crash, hlast, hr, -⟩ := hcrash hlost
  obtain rfl := Callback.destructor.inj hr
  exact ⟨path, later, done, lost, h, hnext, h', hdue, hlost, hlast, fun r hr => (hdone r hr).2⟩

/-- Two resources are idle, and the pool is about to be closed. -/
def twoBeforeClose : Traffic where
  state := {
    name := "pool"
    limits := ⟨2, .zero⟩
    sets := { idle := [0, 1] }
    stock := [⟨"pool", 0, .start, .start, false⟩, ⟨"pool", 1, .start, .start, false⟩] }
  jobs := [⟨[], .got 0⟩, ⟨[], .got 1⟩, ⟨[], .done⟩, ⟨[], .done⟩, ⟨[.close], .done⟩]
  handles := [1, 0]
  made := [0, 1]

/-- The pool is closed; both are still to be destroyed. -/
def twoTakenByClose : Traffic :=
  { twoBeforeClose with
    state := { twoBeforeClose.state with sets := { closed := true } }
    jobs := twoBeforeClose.jobs.take 4 ++ [⟨[.destroy 0, .destroy 1], .done⟩] }

/-- The first destructor has crashed, and closing the pool has ended with that. -/
def closeCutShort : Traffic :=
  { twoTakenByClose with
    state := { twoTakenByClose.state with
      stock := [⟨"pool", 0, .start, .start, true⟩, ⟨"pool", 1, .start, .start, false⟩] }
    jobs := twoBeforeClose.jobs.take 4 ++ [⟨[], .crashed ⟨"boom"⟩⟩] }

/-- A resource that closing the pool took out of the sets is not destroyed although the job has
ended: its destructor was not invoked, and it is in no set from which it ever would be. -/
theorem exists_dropped_in_close : ∃ path later,
    Run (· = .destructor 0) (.new "pool" ⟨2, .zero⟩ true []) path twoBeforeClose ∧
      Next (· = .destructor 0) twoBeforeClose twoTakenByClose ∧
      Empties 4 twoBeforeClose twoTakenByClose [0, 1] ∧
      Run (· = .destructor 0) twoTakenByClose later closeCutShort ∧
      closeCutShort.jobs[4]? = some ⟨[], .crashed ⟨"boom"⟩⟩ ∧
      closeCutShort.state.stock.isDestroyed 1 = false ∧
      1 ∉ invoked (path ++ (twoBeforeClose, twoTakenByClose) :: later) ∧
      closeCutShort.state.sets.members = [] := by
  have h : Run (· = .destructor 0) (.new "pool" ⟨2, .zero⟩ true []) [] _ := .refl
  replace h := h.next (.start .get nofun) (by decide)
  replace h := h.next (.step [] [] _ rfl) (by decide)
  replace h := h.next (.reply [] [] _ (.make .keep) .ok rfl rfl nofun) (by decide)
  replace h := h.next (.step [] [] _ rfl) (by decide)
  replace h := h.next (.start .get nofun) (by decide)
  replace h := h.next (.step [_] [] _ rfl) (by decide)
  replace h := h.next (.reply [_] [] _ (.make .keep) .ok rfl rfl nofun) (by decide)
  replace h := h.next (.step [_] [] _ rfl) (by decide)
  replace h := h.next (.start (.put 0) (by decide)) (by decide)
  replace h := h.next (.step [_, _] [] _ rfl) (by decide)
  replace h := h.next (.start (.put 1) (by decide)) (by decide)
  replace h := h.next (.step [_, _, _] [] _ rfl) (by decide)
  replace h := h.next (.start .close nofun) (by decide)
  have hnext : Next (· = .destructor 0) twoBeforeClose twoTakenByClose :=
    @Next.step _ twoBeforeClose [_, _, _, _] [] _ rfl
  have h' : Run (· = .destructor 0) twoTakenByClose [] _ := .refl
  replace h' := h'.next (.step [_, _, _, _] [] _ rfl) (by decide)
  replace h' := h'.next (.reply [_, _, _, _] [] _ (.destructor 0) (.crash "boom") rfl rfl
    fun _ _ => rfl) (by decide)
  have hempties : Empties 4 twoBeforeClose twoTakenByClose [0, 1] :=
    .close rfl ⟨_, _, rfl, rfl, by decide⟩
  exact ⟨_, _, h, hnext, hempties, h', rfl, rfl, by decide, rfl⟩

end Traffic

end Stockroom.Pool

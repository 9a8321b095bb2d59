import Stockroom.Proofs.Pool.Chores

/-! Maintenance bounds how long a resource is lent or waits for its destruction. What a chore finds
too old it deals with before time passes, and what it finds young enough does not get too old until
it is due again. -/

namespace Stockroom.Pool
set_option autoImplicit false

theorem Job.mem_fresh_of_enroll {j : Job} {purpose : Purpose} {r : ResourceId}
    (h : .enroll purpose r ∈ j.todo) : r ∈ j.fresh :=
  List.mem_flatMap.mpr ⟨_, h, List.mem_cons_self⟩

namespace Traffic

variable {mayCrash : Callback → Prop} {t u : Traffic} {before after : List Job} {j : Job}
  {next : State × Job} {path : List (Traffic × Traffic)} {r : ResourceId} {since : Instant}
  {chore : Chore}

/-! ### One step -/

theorem Owned.open_of_next (h : t.Owned) (hnext : Next mayCrash t u)
    (hopen : u.state.sets.closed = false) : t.state.sets.closed = false := by
  rcases next_cases hnext with ⟨op, -, rfl⟩ | ⟨before, after, j, next, hjobs, hmoves, rfl⟩ |
    ⟨later, stock, -, -, rfl⟩
  · exact hopen
  · by_contra hclosed
    have hshut := hmoves.sets (h.shut (Bool.not_eq_false _ ▸ hclosed))
    change next.1.sets.closed = false at hopen
    rw [hshut] at hopen
    cases hopen
  · exact hopen

theorem limits_of_next (hnext : Next mayCrash t u) : u.state.limits = t.state.limits := by
  rcases next_cases hnext with ⟨op, -, rfl⟩ | ⟨before, after, j, next, hjobs, hmoves, rfl⟩ |
    ⟨later, stock, -, -, rfl⟩
  · rfl
  · rcases hmoves.cases with rfl | ⟨i, rest, e, -, hleads, rfl⟩ | ⟨he, -⟩
    · rfl
    · change e.state.limits = t.state.limits
      cases hleads with
      | checkOut purpose | enroll purpose => rw [state_grant]
      | _ => rfl
    · exact congrArg State.limits he
  · rfl

/-- Jobs of an open pool have to do what they can be left with, and a resource that is not lent yet
is new. -/
structure Tidy (t : Traffic) : Prop where
  apt : ∀ j ∈ t.jobs, j.Apt
  new : ∀ j ∈ t.jobs, ∀ purpose r, .enroll purpose r ∈ j.todo →
    t.state.stock.lastUsed r = t.now

theorem Tidy.proceed (h : t.Tidy) (howned : t.Owned) (hjobs : t.jobs = before ++ j :: after)
    (hmoves : j.Moves mayCrash t.now t.state next) (hopen : next.1.sets.closed = false) :
    (t.proceed before after next).Tidy := by
  have hj := Sound.mem_jobs hjobs
  constructor
  · intro k hk
    rcases Sound.eq_or_mem_jobs hjobs hk with rfl | hk
    · exact hmoves.apt (h.apt j hj) hopen
    · exact h.apt k hk
  · intro k hk purpose r hr
    change next.1.stock.lastUsed r = t.now
    have hold : ∀ k ∈ t.jobs, .enroll purpose r ∈ k.todo → next.1.stock.lastUsed r = t.now := by
      intro k hk hr
      have hused := h.new k hk purpose r hr
      have hfresh := mem_fresh.mpr ⟨k, hk, Job.mem_fresh_of_enroll hr⟩
      rcases hmoves.cases with rfl | ⟨i, rest, e, -, hleads, rfl⟩ | ⟨he, -⟩
      · exact hused
      · rcases hleads.lastUsed (howned.known r (howned.fresh hfresh)) with hsame | ⟨-, -, hnow⟩
        · exact hsame.trans hused
        · exact hnow
      · rw [he]
        exact hused
    rcases Sound.eq_or_mem_jobs hjobs hk with rfl | hk
    · rcases hmoves.cases with rfl | ⟨i, rest, e, htodo, hleads, rfl⟩ | ⟨-, hunwound⟩
      · exact hold _ hj hr
      · rcases List.mem_append.mp hr with hr | hr
        · exact hleads.lastUsed_of_enroll hr
        · exact hold j hj (htodo ▸ List.mem_cons_of_mem i hr)
      · obtain ⟨-, x, he⟩ := hunwound.todo _ hr
        cases he
    · exact hold k hk hr

theorem Tidy.start (h : t.Tidy) (op : Operation) : Tidy { t with jobs := t.jobs ++ [op.job] } where
  apt j hj := by
    rcases List.mem_append.mp hj with hj | hj
    · exact h.apt j hj
    · rw [List.mem_singleton.mp hj]
      exact op.apt_job
  new j hj purpose r hr := by
    rcases List.mem_append.mp hj with hj | hj
    · exact h.new j hj purpose r hr
    · rw [List.mem_singleton.mp hj] at hr
      have hfresh := Job.mem_fresh_of_enroll hr
      rw [op.fresh_job] at hfresh
      cases hfresh

theorem Undisturbed.lastUsed (h : t.Undisturbed u) (hjobs : t.jobs = u.jobs) (hr : r ∈ t.made) :
    u.state.stock.lastUsed r = t.state.stock.lastUsed r := by
  rw [Stock.lastUsed, h hjobs r hr]
  rfl

theorem Tidy.of_next (h : t.Tidy) (howned : t.Owned) (hnext : Next mayCrash t u)
    (hown : t.Undisturbed u) (hnow : u.now = t.now) (hopen : u.state.sets.closed = false) :
    u.Tidy := by
  rcases next_cases hnext with ⟨op, -, rfl⟩ | ⟨before, after, j, next, hjobs, hmoves, rfl⟩ |
    ⟨later, stock, -, -, rfl⟩
  · exact h.start op
  · exact h.proceed howned hjobs hmoves hopen
  · refine ⟨h.apt, fun j hj purpose r hr => ?_⟩
    have hfresh := mem_fresh.mpr ⟨j, hj, Job.mem_fresh_of_enroll hr⟩
    have hnew := h.new j hj purpose r hr
    exact (hown.lastUsed rfl (howned.fresh hfresh)).trans (hnew.trans hnow.symm)

/-- Following an instruction hands a lent resource out now, or leaves it as it was. -/
theorem Tidy.since?_follow (h : t.Tidy) (howned : t.Owned) (hjobs : t.jobs = before ++ j :: after)
    {i : Instr} {rest : List Instr} {e : Effect} (htodo : j.todo = i :: rest)
    (hleads : i.Leads t.now t.state e)
    (hmoves : j.Moves mayCrash t.now t.state (j.follow rest e))
    (hr : Chore.reclaim.since? e.state r = some since) :
    (i.Alone ∧ r ∈ e.gives) ∧ since = t.now ∨
      ¬ (i.Alone ∧ r ∈ e.gives) ∧ Chore.reclaim.since? t.state r = some since := by
  obtain ⟨hlent, hused⟩ := Chore.since?_reclaim.mp hr
  have hknown : r < t.state.stock.length := by
    refine howned.known r ?_
    rcases howned.active_proceed hjobs hmoves (Sets.lent_subset_active hlent) with hactive | hfresh
    · exact howned.members (Sets.mem_members.mpr (Or.inl hactive))
    · exact howned.fresh hfresh
  by_cases hgive : i.Alone ∧ r ∈ e.gives
  · refine Or.inl ⟨hgive, hused.symm.trans ?_⟩
    rcases hleads.gives_alone hgive.1 hgive.2 hknown with hnow | ⟨⟨purpose, rfl⟩, hstock⟩
    · exact hnow
    · rw [hstock]
      exact h.new j (Sound.mem_jobs hjobs) purpose r (htodo ▸ List.mem_cons_self)
  · have hbefore := (hleads.lent hlent).resolve_right hgive
    have hsame := (hleads.lastUsed hknown).resolve_right fun hnow => hgive ⟨hnow.1, hnow.2.1⟩
    exact Or.inr ⟨hgive, Chore.since?_reclaim.mpr ⟨hbefore, hsame.symm.trans hused⟩⟩

/-- A lent resource was handed out when it is said to have been used. -/
theorem Tidy.handedOut (h : t.Tidy) (howned : t.Owned) (hnext : Next mayCrash t u)
    (hown : t.Undisturbed u) (hr : Chore.reclaim.since? u.state r = some since) :
    r ∈ between Job.handedOut t u ∧ since = t.now ∨
      r ∉ between Job.handedOut t u ∧ Chore.reclaim.since? t.state r = some since := by
  rcases next_cases hnext with ⟨op, -, rfl⟩ | ⟨before, after, j, next, hjobs, hmoves, rfl⟩ |
    ⟨later, stock, -, -, rfl⟩
  · refine Or.inr ⟨?_, hr⟩
    rw [between_of_jobs_append Job.handedOut_self rfl]
    exact List.not_mem_nil
  · rw [between_proceed Job.handedOut_self hjobs]
    change Chore.reclaim.since? next.1 r = some since at hr
    have hj := Sound.mem_jobs hjobs
    rcases hmoves.cases with rfl | ⟨i, rest, e, htodo, hleads, rfl⟩ | ⟨he, hunwound⟩
    · rw [Job.handedOut_self]
      exact Or.inr ⟨List.not_mem_nil, hr⟩
    · rw [Job.mem_handedOut_follow (h.apt j hj) (howned.sound.orderly j hj) htodo hleads]
      exact h.since?_follow howned hjobs htodo hleads hmoves hr
    · exact Or.inr ⟨hunwound.not_mem_handedOut, he ▸ hr⟩
  · obtain ⟨hlent, hused⟩ := Chore.since?_reclaim.mp hr
    have hactive : r ∈ t.state.sets.active := Sets.lent_subset_active hlent
    have hmade := howned.members (Sets.mem_members.mpr (Or.inl hactive))
    refine Or.inr ⟨fun hout => ?_,
      Chore.since?_reclaim.mpr ⟨hlent, (hown.lastUsed rfl hmade).symm.trans hused⟩⟩
    have hnone : between Job.handedOut t { t with now := later, state := { t.state with stock } } =
        [] := between_of_jobs_eq Job.handedOut_self rfl
    rw [hnone] at hout
    cases hout

/-- No resource has an age that it did not have before, unless it comes to it now. -/
theorem Tidy.since?_cases (h : t.Tidy) (howned : t.Owned) (hnext : Next mayCrash t u)
    (hown : t.Undisturbed u) (hr : chore.since? u.state r = some since) :
    chore.since? t.state r = some since ∨ since = t.now := by
  cases chore with
  | check => cases hr
  | reclaim => exact (h.handedOut howned hnext hown hr).symm.imp And.right And.right
  | sweep => exact (since_or_givesUp hnext hr).imp_right And.left

/-- The job that is about to deal with a resource goes on to, or the resource is young enough. -/
theorem Tidy.attended (h : t.Tidy) (howned : t.Owned) (hnext : Next mayCrash t u)
    (hopen : u.state.sets.closed = false) (hj : j ∈ t.jobs) (hattends : chore.Attends r j)
    (hbefore : chore.since? t.state r = some since)
    (hafter : chore.since? u.state r = some since) :
    (∃ k ∈ u.jobs, chore.Attends r k) ∨
      t.now.nanos ≤ since.nanos + t.state.limits.maxUsage.nanos := by
  rcases next_cases hnext with ⟨op, -, rfl⟩ | ⟨before, after, l, next, hjobs, hmoves, rfl⟩ |
    ⟨later, stock, -, -, rfl⟩
  · exact Or.inl ⟨j, List.mem_append_left _ hj, hattends⟩
  · have hl := Sound.mem_jobs hjobs
    rw [hjobs] at hj
    rcases List.mem_append.mp hj with hj | hj
    · exact Or.inl ⟨j, List.mem_append_left _ hj, hattends⟩
    · rcases List.mem_cons.mp hj with rfl | hj
      · have hnodup := Sets.active_nodup howned.sound.members
        refine (hattends.moves (h.apt _ hl) hnodup hmoves hopen hbefore hafter).imp_left ?_
        exact fun hnext => ⟨next.2, List.mem_append_right _ List.mem_cons_self, hnext⟩
      · exact Or.inl ⟨j, List.mem_append_right _ (List.mem_cons_of_mem _ hj), hattends⟩
  · exact Or.inl ⟨j, hj, hattends⟩

/-- What is given up has waited since now. -/
theorem since?_of_does {i : Nat} (howned : t.Owned) (hnext : Next mayCrash t u)
    (hdoes : Does i (.dispose r .delayed) t u) (hr : u.since? r = some since) : since = t.now := by
  obtain ⟨before, after, j, rest, -, -, -, rfl⟩ := hdoes.exists_proceed hnext nofun
  change (Instr.run t.now t.state (.dispose r .delayed)).state.sets.pendingClose.get? r = _ at hr
  rw [Instr.run] at hr
  split at hr
  · rename_i hclosed
    rw [howned.shut hclosed] at hr
    cases hr
  · rw [Sets.get?_giveUp, if_pos rfl] at hr
    exact (Option.some.inj hr).symm

theorem exists_lastGivenUp {name : String} {limits : Limits} {destructs : Bool} {stock : Stock}
    (h : Run mayCrash (.new name limits destructs stock) path t) (hr : t.since? r = some since) :
    ∃ p, LastGivenUp path r p ∧ p.1.now = since := by
  induction h with
  | refl => cases hr
  | @next path t u hrun hnext hown ih =>
    by_cases hgives : ∃ i, Does i (.dispose r .delayed) t u
    · obtain ⟨i, hdoes⟩ := hgives
      have hnow := since?_of_does (Lendable.of_run hrun).1 hnext hdoes hr
      exact ⟨(t, u), ⟨path, [], rfl, ⟨i, (hdoes.givesUp hrun).append _⟩, nofun⟩, hnow.symm⟩
    · have hbefore := (since_or_givesUp hnext hr).resolve_right fun h => hgives h.2
      obtain ⟨p, ⟨before, after, rfl, ⟨i, hdoes⟩, hlast⟩, hnow⟩ := ih hbefore
      refine ⟨p, ⟨before, after ++ [(t, u)], by simp, ⟨i, hdoes.append _⟩, fun q hq => ?_⟩, hnow⟩
      rcases List.mem_append.mp hq with hq | hq
      · exact hlast q hq
      · rw [List.mem_singleton.mp hq]
        exact hgives

/-! ### Tickers -/

/-- The ticker is due within a period. What its chore looks after will not be too old by then, or
the chore has just begun and is about to deal with it. -/
structure Keeps (t : Traffic) (k : Ticker) : Prop where
  now_le : t.now ≤ k.due
  due_le : k.due.nanos ≤ t.now.nanos + k.period.nanos
  ages : ∀ r since, k.chore.since? t.state r = some since →
    k.due.nanos ≤ since.nanos + t.state.limits.maxUsage.nanos + k.period.nanos ∨
      t.now.nanos + k.period.nanos = k.due.nanos ∧ ∃ j ∈ t.jobs, k.chore.Attends r j

variable {k : Ticker} {tickers : List Ticker}

theorem Keeps.of_next (h : t.Keeps k) (htidy : t.Tidy) (howned : t.Owned)
    (hnext : Next mayCrash t u) (hown : t.Undisturbed u) (hnow : u.now = t.now)
    (hopen : u.state.sets.closed = false) : u.Keeps k where
  now_le := hnow ▸ h.now_le
  due_le := hnow ▸ h.due_le
  ages r since hr := by
    rw [hnow, limits_of_next hnext]
    have hdue := h.due_le
    rcases htidy.since?_cases howned hnext hown hr with hbefore | rfl
    · rcases h.ages r since hbefore with hyoung | ⟨hticked, j, hj, hattends⟩
      · exact Or.inl hyoung
      · refine (htidy.attended howned hnext hopen hj hattends hbefore hr).symm.imp ?_ ?_
        · intro hyoung
          omega
        · exact fun hattended => ⟨hticked, hattended⟩
    · exact Or.inl (by omega)

/-- Other jobs in progress do no harm. -/
theorem Keeps.begin (h : t.Keeps k) (chore : Chore) : (t.begin chore).Keeps k where
  now_le := h.now_le
  due_le := h.due_le
  ages r since hr := (h.ages r since hr).imp_right fun ⟨hticked, j, hj, hattends⟩ =>
    ⟨hticked, j, List.mem_append_left _ hj, hattends⟩

theorem Keeps.tick (h : t.Keeps k) (hdue : k.due ≤ t.now) : (t.begin k.chore).Keeps k.ticked := by
  have hle := Instant.le_def.mp h.now_le
  have hge := Instant.le_def.mp hdue
  have hticked : k.ticked.due.nanos = k.due.nanos + k.period.nanos := rfl
  have hperiod : k.ticked.period = k.period := rfl
  have hnow : (t.begin k.chore).now = t.now := rfl
  refine ⟨?_, ?_, fun r since hr => Or.inr ⟨?_, k.chore.job, ?_, Chore.attends_job hr⟩⟩
  · rw [Instant.le_def, hticked, hnow]
    omega
  · rw [hticked, hperiod, hnow]
    omega
  · rw [hticked, hperiod, hnow]
    omega
  · exact List.mem_append_right _ (List.mem_singleton_self _)

theorem Keeps.young (h : t.Keeps k) (htidy : t.Tidy) (hidle : ∀ j ∈ t.jobs, ¬ j.Busy)
    (hr : k.chore.since? t.state r = some since) :
    k.due.nanos ≤ since.nanos + t.state.limits.maxUsage.nanos + k.period.nanos :=
  (h.ages r since hr).resolve_right fun ⟨_, j, hj, hattends⟩ =>
    hidle j hj (hattends.busy (htidy.apt j hj))

theorem Keeps.pass (h : t.Keeps k) (htidy : t.Tidy) (hidle : ∀ j ∈ t.jobs, ¬ j.Busy)
    {later : Instant} (hlater : t.now ≤ later) (hdue : later ≤ k.due) :
    Keeps { t with now := later } k where
  now_le := hdue
  due_le := Nat.le_trans h.due_le (Nat.add_le_add_right hlater _)
  ages _ _ hr := Or.inl (h.young htidy hidle hr)

/-! ### Runs -/

namespace Tended

variable {name : String} {config : Config} {stock : Stock} {built : Instant}

theorem next_begin (t : Traffic) (chore : Chore) : Next mayCrash t (t.begin chore) := by
  cases chore with
  | check => exact .start .check nofun
  | reclaim => exact .start .reclaim nofun
  | sweep => exact .start .sweep nofun

theorem run (h : Tended mayCrash name config stock built path t tickers) :
    Run mayCrash (.new name config.limits config.destructs stock) path t := by
  induction h with
  | built => exact Run.refl.next (.pass built (Nat.zero_le _)) fun _ _ _ => rfl
  | next _ hnext hown _ ih => exact ih.next hnext hown
  | tick before after k _ _ _ ih => exact ih.next (next_begin _ _) fun _ _ _ => rfl
  | pass later _ hlater _ _ ih => exact ih.next (.pass later hlater) fun _ _ _ => rfl

/-- Tickers keep their chores and their periods. -/
theorem exists_ticker {period : Duration}
    (h : Tended mayCrash name config stock built path t tickers)
    (hk : ∃ k ∈ config.tickers 0 built, k.chore = chore ∧ k.period = period) :
    ∃ k ∈ tickers, k.chore = chore ∧ k.period = period := by
  induction h with
  | built => exact hk
  | next _ _ _ _ ih => exact ih
  | tick before after m _ _ _ ih =>
    obtain ⟨l, hl, hsame⟩ := ih
    rcases List.mem_append.mp hl with hl | hl
    · exact ⟨l, List.mem_append_left _ hl, hsame⟩
    · rcases List.mem_cons.mp hl with rfl | hl
      · exact ⟨l.ticked, List.mem_append_right _ List.mem_cons_self, hsame⟩
      · exact ⟨l, List.mem_append_right _ (List.mem_cons_of_mem _ hl), hsame⟩
  | pass _ _ _ _ _ ih => exact ih

theorem limits_eq (h : Tended mayCrash name config stock built path t tickers) :
    t.state.limits = config.limits := by
  induction h with
  | built => rfl
  | next _ hnext _ _ ih => exact (limits_of_next hnext).trans ih
  | tick _ _ _ _ _ _ ih => exact ih
  | pass _ _ _ _ _ ih => exact ih

theorem keeps (h : Tended mayCrash name config stock built path t tickers)
    (hopen : t.state.sets.closed = false) : t.Tidy ∧ ∀ k ∈ tickers, t.Keeps k := by
  induction h with
  | built =>
    refine ⟨⟨nofun, nofun⟩, fun k hk => ?_⟩
    have hdue := Config.due_of_mem hk
    have hnone : ∀ r, k.chore.since? (builtAt name config stock built).state r = none := by
      intro r
      cases k.chore <;> rfl
    refine ⟨?_, ?_, fun r since hr => ?_⟩
    · rw [hdue]
      exact Nat.le_add_right _ _
    · rw [hdue]
      exact Nat.le_refl _
    · rw [hnone] at hr
      cases hr
  | @next path t u tickers h hnext hown hnow ih =>
    have howned := (Lendable.of_run h.run).1
    obtain ⟨htidy, hkeeps⟩ := ih (howned.open_of_next hnext hopen)
    exact ⟨htidy.of_next howned hnext hown hnow hopen,
      fun k hk => (hkeeps k hk).of_next htidy howned hnext hown hnow hopen⟩
  | @tick path t before after k h _ hdue ih =>
    obtain ⟨htidy, hkeeps⟩ := ih hopen
    have howned := (Lendable.of_run h.run).1
    have hbegin : Next mayCrash t (t.begin k.chore) := next_begin t k.chore
    refine ⟨htidy.of_next howned hbegin (fun _ _ _ => rfl) rfl hopen, fun l hl => ?_⟩
    rcases List.mem_append.mp hl with hl | hl
    · exact (hkeeps l (List.mem_append_left _ hl)).begin _
    · rcases List.mem_cons.mp hl with rfl | hl
      · exact (hkeeps k (List.mem_append_right _ List.mem_cons_self)).tick hdue
      · exact (hkeeps l (List.mem_append_right _ (List.mem_cons_of_mem _ hl))).begin _
  | @pass path t tickers later h hlater hidle hdue ih =>
    obtain ⟨htidy, hkeeps⟩ := ih hopen
    refine ⟨⟨htidy.apt, fun j hj purpose r hr => ?_⟩, fun k hk =>
      (hkeeps k hk).pass htidy hidle hlater (hdue hopen k hk).2⟩
    refine absurd ⟨List.ne_nil_of_mem hr, ?_⟩ (hidle j hj)
    rw [Job.waitsFor, ((htidy.apt j hj).alone _ hr trivial).1]

/-- A lent resource has the time at which it was handed out last. -/
theorem lastHandedOut (h : Tended mayCrash name config stock built path t tickers)
    (hopen : t.state.sets.closed = false) (hr : Chore.reclaim.since? t.state r = some since) :
    ∃ p, LastHandedOut path r p ∧ p.1.now = since := by
  have hstep {path : List (Traffic × Traffic)} {t u : Traffic}
      (hbefore : Chore.reclaim.since? t.state r = some since →
        ∃ p, LastHandedOut path r p ∧ p.1.now = since)
      (hcases : r ∈ between Job.handedOut t u ∧ since = t.now ∨
        r ∉ between Job.handedOut t u ∧ Chore.reclaim.since? t.state r = some since) :
      ∃ p, LastHandedOut (path ++ [(t, u)]) r p ∧ p.1.now = since := by
    rcases hcases with ⟨hout, rfl⟩ | ⟨hnot, hsame⟩
    · exact ⟨(t, u), ⟨path, [], rfl, hout, nofun⟩, rfl⟩
    · obtain ⟨p, ⟨before, after, rfl, hout, hlast⟩, hnow⟩ := hbefore hsame
      refine ⟨p, ⟨before, after ++ [(t, u)], by simp, hout, fun q hq => ?_⟩, hnow⟩
      rcases List.mem_append.mp hq with hq | hq
      · exact hlast q hq
      · rw [List.mem_singleton.mp hq]
        exact hnot
  have hquiet {t u : Traffic} {new : List Job} (hjobs : u.jobs = t.jobs ++ new) :
      r ∉ between Job.handedOut t u := by
    rw [between_of_jobs_append Job.handedOut_self hjobs]
    exact List.not_mem_nil
  induction h with
  | built => cases hr
  | next h hnext hown hnow ih =>
    have howned := (Lendable.of_run h.run).1
    have hbefore := howned.open_of_next hnext hopen
    exact hstep (ih hbefore) ((h.keeps hbefore).1.handedOut howned hnext hown hr)
  | tick before after k h hbefore _ ih => exact hstep (ih hbefore) (Or.inr ⟨hquiet rfl, hr⟩)
  | pass later h _ _ _ ih =>
    exact hstep (ih hopen) (Or.inr ⟨hquiet (List.append_nil _).symm, hr⟩)

/-- Nothing that a chore looks after is too old where the pool is settled. -/
theorem now_lt {period : Duration} (h : Tended mayCrash name config stock built path t tickers)
    (hsettled : t.Settled tickers) (hopen : t.state.sets.closed = false)
    (hk : ∃ k ∈ config.tickers 0 built, k.chore = chore ∧ k.period = period)
    (hr : chore.since? t.state r = some since) :
    t.now.nanos < since.nanos + config.limits.maxUsage.nanos + period.nanos := by
  obtain ⟨htidy, hkeeps⟩ := h.keeps hopen
  obtain ⟨k, hmem, rfl, rfl⟩ := h.exists_ticker hk
  have hdue := Instant.lt_def.mp (hsettled.ticked k hmem)
  have hyoung := (hkeeps k hmem).young htidy hsettled.idle hr
  rw [h.limits_eq] at hyoung
  omega

/-- In a settled pool that is open, what is given up or lent is no older than the maximal usage and
one period of the chore that looks after it. -/
theorem ages_lt (hruntime : config.inRuntime = true)
    (h : Tended mayCrash name config stock built path t tickers) (hsettled : t.Settled tickers)
    (hopen : t.state.sets.closed = false) :
    (∀ r ∈ t.state.sets.pendingClose.keys, ∃ p, LastGivenUp path r p ∧
      t.now.nanos < p.1.now.nanos + config.limits.maxUsage.nanos +
        (Config.period config.sweepInterval).nanos) ∧
    (config.reclaims = true → ∀ r, r ∈ t.state.sets.checkedOut ∨ r ∈ t.state.sets.overflow →
      ∃ p, LastHandedOut path r p ∧
        t.now.nanos < p.1.now.nanos + config.limits.maxUsage.nanos +
          (Config.period config.reclaimInterval).nanos) := by
  constructor
  · intro r hr
    obtain ⟨⟨x, since⟩, hrow, rfl⟩ := List.mem_map.mp hr
    have hsince : Chore.sweep.since? t.state x = some since := Table.get?_of_mem hrow
    obtain ⟨p, hlast, rfl⟩ := exists_lastGivenUp h.run hsince
    exact ⟨p, hlast,
      h.now_lt hsettled hopen (config.exists_sweep hruntime 0 built) hsince⟩
  · intro hreclaims r hr
    have hsince : Chore.reclaim.since? t.state r = some (t.state.stock.lastUsed r) :=
      Chore.since?_reclaim.mpr ⟨List.mem_append.mpr hr, rfl⟩
    obtain ⟨p, hlast, hnow⟩ := h.lastHandedOut hopen hsince
    exact ⟨p, hlast, hnow ▸ h.now_lt hsettled hopen
      (config.exists_reclaim hruntime hreclaims 0 built) hsince⟩

end Tended

/-- One resource is lent and another one was discarded, when the first ticks find both young
enough. -/
def tended : Traffic where
  state := {
    name := "pool"
    limits := ⟨1, .ofSeconds 15⟩
    sets := { checkedOut := [0], pendingClose := Table.empty.insert 1 .start }
    stock := [⟨"pool", 0, .start, .start, false⟩, ⟨"pool", 1, .start, .start, false⟩] }
  now := ⟨10000000000⟩
  jobs := [⟨[], .got 0⟩, ⟨[], .got 1⟩, ⟨[], .done⟩, ⟨[], .done⟩, ⟨[], .done⟩]
  handles := [1, 0]
  made := [0, 1]

def tendedTickers : List Ticker :=
  [⟨0, .reclaim, ⟨20000000000⟩, .ofSeconds 10⟩, ⟨0, .sweep, ⟨20000000000⟩, .ofSeconds 10⟩]

theorem exists_tended : ∃ path, Tended (fun _ => True) "pool" { limits := ⟨1, .ofSeconds 15⟩ } []
    .start path tended tendedTickers := by
  have h : Tended (fun _ => True) "pool" { limits := ⟨1, .ofSeconds 15⟩ } [] .start _ _ _ := .built
  replace h := h.next (.start .get nofun) (by decide) rfl
  replace h := h.next (.step [] [] _ rfl) (by decide) rfl
  replace h := h.next (.reply [] [] _ (.make .keep) .ok rfl rfl nofun) (by decide) rfl
  replace h := h.next (.step [] [] _ rfl) (by decide) rfl
  replace h := h.next (.start .get nofun) (by decide) rfl
  replace h := h.next (.step [_] [] _ rfl) (by decide) rfl
  replace h := h.next (.reply [_] [] _ (.make .keep) .ok rfl rfl nofun) (by decide) rfl
  replace h := h.next (.step [_] [] _ rfl) (by decide) rfl
  replace h := h.next (.start (.discard 1) (by decide)) (by decide) rfl
  replace h := h.next (.step [_, _] [] _ rfl) (by decide) rfl
  replace h := h.next (.step [_, _] [] _ rfl) (by decide) rfl
  replace h := h.pass ⟨10000000000⟩ (by decide) (by decide) (by decide)
  replace h := Tended.tick [] [_] _ h rfl (by decide)
  replace h := Tended.tick [_] [] _ h rfl (by decide)
  replace h := h.next (.step [_, _, _] [_] _ rfl) (by decide) rfl
  replace h := h.next (.step [_, _, _, _] [] _ rfl) (by decide) rfl
  exact ⟨_, h⟩

theorem ages_lt_tended : ∃ path,
    Tended (fun _ => True) "pool" { limits := ⟨1, .ofSeconds 15⟩ } [] .start path tended
      tendedTickers ∧
    tended.Settled tendedTickers ∧
    (∃ p, LastGivenUp path 1 p ∧ tended.now.nanos < p.1.now.nanos + 15000000000 + 10000000000) ∧
    ∃ p, LastHandedOut path 0 p ∧ tended.now.nanos < p.1.now.nanos + 15000000000 + 10000000000 := by
  obtain ⟨path, h⟩ := exists_tended
  have hsettled : tended.Settled tendedTickers := ⟨by decide, by decide⟩
  obtain ⟨hpending, hlent⟩ := Tended.ages_lt rfl h hsettled rfl
  refine ⟨path, h, hsettled, hpending 1 (by decide), ?_⟩
  exact hlent rfl 0 (Or.inl (by decide))

end Traffic

end Stockroom.Pool

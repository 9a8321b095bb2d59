import Stockroom.Proofs.Pool.Lending

/-! From the moment a pool is closed nothing comes into its sets and nobody is given a resource.
What was on its way then is destroyed by the job that carries it, and jobs that are started later
make nothing. -/

namespace Stockroom.Pool
set_option autoImplicit false

/-- Instructions of a job that was started after its pool was closed. None of them takes in, makes
or lends a resource. -/
def Instr.Barren : Instr → Prop
  | .enroll _ _ | .exchange _ _ | .giveBack _ => False
  | .call callback => ∃ r, callback = .destructor r
  | _ => True

theorem Instr.Leads.barren {now : Instant} {s : State} {i : Instr} {e : Effect}
    (h : i.Leads now s e) (hs : s.sets = .shut) (hi : i.Barren) :
    (∀ k ∈ e.next, k.Barren) ∧ e.state.stock.length = s.stock.length := by
  have hclosed : s.sets.closed = true := by rw [hs]; rfl
  have hone : ∀ r, ∀ k ∈ [Instr.destroy r], k.Barren := by
    intro r k hk
    rw [List.mem_singleton.mp hk]
    trivial
  cases h with
  | checkOut _ _ _ hopen | send _ hopen | keep _ _ _ hopen | leave _ _ _ hopen | giveUp _ hopen
  | close hopen =>
    rw [hclosed] at hopen
    cases hopen
  | enrollClosed | enroll | exchange | exchangeGone | giveBack => exact hi.elim
  | made | notMade | madeInstead | notMadeInstead | healthy | unhealthy | bodyDone | bodyFailed =>
    obtain ⟨r, hr⟩ := hi
    cases hr
  | destroy r _ =>
    refine ⟨?_, Stock.length_markDestroyed _ _⟩
    intro k hk
    dsimp only at hk
    split at hk
    · rw [List.mem_singleton.mp hk]
      exact ⟨r, rfl⟩
    · cases hk
  | putClosed r _ _ | giveUpClosed r _ | dispose r => exact ⟨hone r, rfl⟩
  | inspect | sweep =>
    simp only [hs]
    exact ⟨List.forall_mem_nil _, trivial⟩
  | reclaim =>
    simp only [State.overdue, hs]
    exact ⟨List.forall_mem_nil _, trivial⟩
  | claimClosed | destroyed | withdraw | closeClosed | destructor =>
    exact ⟨List.forall_mem_nil _, rfl⟩

namespace Job

variable {mayCrash : Callback → Prop} {now : Instant} {s : State} {j : Job} {next : State × Job}

def Barren (j : Job) : Prop := ∀ i ∈ j.todo, i.Barren

theorem Barren.moves (h : j.Barren) (hs : s.sets = .shut) (hmoves : j.Moves mayCrash now s next) :
    next.2.Barren ∧ next.1.stock.length = s.stock.length := by
  rcases hmoves.cases with rfl | ⟨i, rest, e, htodo, hleads, rfl⟩ | ⟨he, hunwound⟩
  · exact ⟨h, rfl⟩
  · obtain ⟨hnext, hlength⟩ := hleads.barren hs (h i (htodo ▸ List.mem_cons_self))
    refine ⟨fun k hk => ?_, hlength⟩
    rcases List.mem_append.mp hk with hk | hk
    · exact hnext k hk
    · exact h k (htodo ▸ List.mem_cons_of_mem i hk)
  · exact ⟨fun k hk => h k (hunwound.todo k hk).1, by rw [he]⟩

/-- A get or the get of a loan, that has taken no resource from a set: it has yet to begin, or it
waits for the factory, or the pool has yet to take in what the factory made for it. -/
inductive Unserved : Job → Prop where
  | claiming (purpose : Purpose) : Unserved { todo := [.claim purpose] }
  | making (purpose : Purpose) : Unserved { todo := [.call (.make purpose)] }
  | enrolling (purpose : Purpose) (r : ResourceId) : Unserved { todo := [.enroll purpose r] }

/-- What becomes of it in a closed pool. -/
inductive Refused (mayCrash : Callback → Prop) : Job → Prop where
  | unserved {j : Job} : j.Unserved → Refused mayCrash j
  | closed (todo : List Instr) : (∀ i ∈ todo, i.Destroys) →
      Refused mayCrash { todo, result := .failed .poolClosed }
  | factoryFailed (text : String) :
      Refused mayCrash { todo := [], result := .failed (.create text) }
  | factoryCrashed (purpose : Purpose) (crash : Crash) : mayCrash (.make purpose) →
      Refused mayCrash { todo := [], result := .crashed crash }

theorem Refused.gives (h : j.Refused mayCrash) : j.gives = [] := by
  cases h with
  | unserved h => cases h <;> rfl
  | closed todo htodo =>
    rw [Job.gives]
    split
    · rename_i r hwaits
      obtain ⟨rest, he⟩ := todo_of_waitsFor hwaits
      obtain rfl : todo = _ := he
      have hcall : (Instr.call (.body r)).Destroys := htodo _ List.mem_cons_self
      exact hcall.elim
    · rfl
  | factoryFailed text => rfl
  | factoryCrashed purpose crash _ => rfl

theorem Refused.result (h : j.Refused mayCrash) (hj : j.todo = []) :
    j.result = .failed .poolClosed ∨ (∃ text, j.result = .failed (.create text)) ∨
      ∃ purpose crash, mayCrash (.make purpose) ∧ j.result = .crashed crash := by
  cases h with
  | unserved h => cases h <;> cases hj
  | closed todo htodo => exact Or.inl rfl
  | factoryFailed text => exact Or.inr (Or.inl ⟨text, rfl⟩)
  | factoryCrashed purpose crash h => exact Or.inr (Or.inr ⟨purpose, crash, h, rfl⟩)

theorem Unserved.moves (h : j.Unserved) (hs : s.sets = .shut)
    (hmoves : j.Moves mayCrash now s next) : next.2.Refused mayCrash := by
  have hclosed : s.sets.closed = true := by rw [hs]; rfl
  cases hmoves with
  | step =>
    cases h with
    | claiming purpose =>
      simp only [Job.step, Instr.run, hclosed, if_true]
      exact .closed [] (List.forall_mem_nil _)
    | making purpose => exact .unserved (.making purpose)
    | enrolling purpose r =>
      simp only [Job.step, Instr.run, hclosed, if_true]
      refine .closed [.destroy r] ?_
      intro i hi
      rw [List.mem_singleton.mp hi]
      trivial
  | reply callback r hwaits hcrash =>
    cases h with
    | claiming purpose => cases hwaits
    | enrolling purpose r => cases hwaits
    | making purpose =>
      obtain rfl := Option.some.inj hwaits
      cases r with
      | ok => exact .unserved (.enrolling purpose _)
      | fail text => exact .factoryFailed text
      | crash text => exact .factoryCrashed purpose ⟨text⟩ (hcrash text rfl)
  | drop r hwaits => cases h <;> cases hwaits

theorem Moves.ended (h : j.Moves mayCrash now s next) (hj : j.todo = []) : next.2 = j := by
  have hwaits : j.waitsFor = none := by rw [waitsFor, hj]
  cases h with
  | step => rw [Job.step, hj]
  | reply callback r h => rw [hwaits] at h; cases h
  | drop r h => rw [hwaits] at h; cases h

/-- A job that was told that the pool is closed only destroys. -/
theorem refused_of_destroys (hsafe : ∀ r, ¬ mayCrash (.destructor r)) {todo : List Instr}
    (htodo : ∀ i ∈ todo, i.Destroys)
    (hmoves : Moves mayCrash now s { todo, result := .failed .poolClosed } next) :
    next.2.Refused mayCrash := by
  cases todo with
  | nil =>
    rw [hmoves.ended rfl]
    exact .closed [] htodo
  | cons i rest =>
    have hi : i.Destroys := htodo i List.mem_cons_self
    have hrest : ∀ k ∈ rest, k.Destroys := fun k hk => htodo k (List.mem_cons_of_mem i hk)
    cases hmoves with
    | step =>
      cases i with
      | destroy r =>
        simp only [Job.step, Instr.run]
        split
        · exact .closed rest hrest
        · refine .closed _ fun k hk => ?_
          dsimp only at hk
          split at hk
          · rcases List.mem_cons.mp hk with rfl | hk
            · trivial
            · exact hrest k hk
          · exact hrest k hk
      | call callback => exact .closed _ htodo
      | _ => exact hi.elim
    | reply callback r hwaits hcrash =>
      obtain ⟨rest', he⟩ := todo_of_waitsFor hwaits
      obtain ⟨rfl, rfl⟩ := List.cons.inj he
      cases callback with
      | destructor x =>
        cases r with
        | ok => exact .closed rest hrest
        | fail text => exact .closed rest hrest
        | crash text => exact absurd (hcrash text rfl) (hsafe x)
      | _ => exact hi.elim
    | drop r hwaits =>
      obtain ⟨rest', he⟩ := todo_of_waitsFor hwaits
      obtain ⟨rfl, rfl⟩ := List.cons.inj he
      exact hi.elim

theorem Refused.moves (hsafe : ∀ r, ¬ mayCrash (.destructor r)) (h : j.Refused mayCrash)
    (hs : s.sets = .shut) (hmoves : j.Moves mayCrash now s next) : next.2.Refused mayCrash := by
  cases h with
  | unserved h => exact h.moves hs hmoves
  | closed todo htodo => exact refused_of_destroys hsafe htodo hmoves
  | factoryFailed text =>
    rw [hmoves.ended rfl]
    exact .factoryFailed text
  | factoryCrashed purpose crash h =>
    rw [hmoves.ended rfl]
    exact .factoryCrashed purpose crash h

end Job

theorem Operation.barren_job (op : Operation) : op.job.Barren := by
  intro i hi
  cases op with
  | discard r =>
    rcases List.mem_cons.mp hi with rfl | hi
    · trivial
    · rw [List.mem_singleton.mp hi]
      trivial
  | _ =>
    rw [List.mem_singleton.mp hi]
    trivial

namespace Traffic

variable {mayCrash : Callback → Prop} {t u : Traffic} {before after : List Job} {j : Job}
  {next : State × Job} {n : Nat}

theorem getElem?_of_jobs (hjobs : t.jobs = before ++ j :: after) :
    t.jobs[before.length]? = some j := by
  rw [hjobs]
  simp

theorem getElem?_proceed (hjobs : t.jobs = before ++ j :: after) (i : Nat) :
    (t.proceed before after next).jobs[i]? =
      if before.length = i then some next.2 else t.jobs[i]? := by
  have hset : (t.proceed before after next).jobs = t.jobs.set before.length next.2 := by
    rw [proceed, hjobs, List.set_append_right _ _ (Nat.le_refl _), Nat.sub_self, List.set_cons_zero]
  rw [hset, List.getElem?_set]
  split
  · rename_i hi
    rw [if_pos]
    rw [hjobs, List.length_append, List.length_cons]
    omega
  · rfl

/-- A pool closed when it had `n` jobs. They bring what they carry to its end; the later ones bring
nothing. -/
structure Settling (n : Nat) (t : Traffic) : Prop where
  sound : t.Sound
  shut : t.state.sets = .shut
  length : n ≤ t.jobs.length
  later : ∀ i j, n ≤ i → t.jobs[i]? = some j → j.Barren
  carried : ∀ r ∈ t.made, t.state.stock.isDestroyed r = false →
    ∃ i < n, ∃ j, t.jobs[i]? = some j ∧ r ∈ j.carries

namespace Settling

theorem of_closed (hsound : t.Sound) (hshut : t.state.sets = .shut) :
    Settling t.jobs.length t where
  sound := hsound
  shut := hshut
  length := Nat.le_refl _
  later i j hi hj := by
    rw [List.getElem?_eq_none hi] at hj
    cases hj
  carried r hmade hr := by
    have hno : r ∉ t.state.sets.members := by
      rw [hshut]
      exact List.not_mem_nil
    obtain ⟨j, hj, hcarries⟩ := (hsound.accounted r hmade hr).resolve_left hno
    obtain ⟨i, hi, rfl⟩ := List.getElem_of_mem hj
    exact ⟨i, hi, _, List.getElem?_eq_getElem hi, hcarries⟩

theorem start (h : Settling n t) (op : Operation) (hop : ∀ r ∈ op.handles, r ∈ t.handles) :
    Settling n { t with jobs := t.jobs ++ [op.job] } where
  sound := h.sound.start op hop
  shut := h.shut
  length := by
    rw [List.length_append]
    exact Nat.le_add_right_of_le h.length
  later i j hi hj := by
    rcases Nat.lt_or_ge i t.jobs.length with hlt | hge
    · rw [List.getElem?_append_left hlt] at hj
      exact h.later i j hi hj
    · rw [List.getElem?_append_right hge] at hj
      rw [List.mem_singleton.mp (List.mem_of_getElem? hj)]
      exact op.barren_job
  carried r hmade hr := by
    obtain ⟨i, hi, j, hj, hcarries⟩ := h.carried r hmade hr
    refine ⟨i, hi, j, ?_, hcarries⟩
    rw [List.getElem?_append_left (Nat.lt_of_lt_of_le hi h.length)]
    exact hj

theorem proceed (hsafe : ∀ r, ¬ mayCrash (.destructor r)) (h : Settling n t)
    (howned : t.Owned) (hjobs : t.jobs = before ++ j :: after)
    (hmoves : j.Moves mayCrash t.now t.state next) : Settling n (t.proceed before after next) := by
  have hturn := howned.turn_of_moves hsafe hjobs hmoves
  have hshut : next.1.sets = .shut := hmoves.sets h.shut
  have hself : (t.proceed before after next).jobs[before.length]? = some next.2 := by
    rw [getElem?_proceed hjobs, if_pos rfl]
  constructor
  · exact h.sound.proceed hjobs hturn
  · exact hshut
  · have hlength : (t.proceed before after next).jobs.length = t.jobs.length := by
      rw [Traffic.proceed, hjobs, List.length_append, List.length_append, List.length_cons,
        List.length_cons]
    rw [hlength]
    exact h.length
  · intro i k hi hk
    rw [getElem?_proceed hjobs] at hk
    split at hk
    · rename_i he
      obtain rfl := Option.some.inj hk
      exact ((h.later i j hi (he ▸ getElem?_of_jobs hjobs)).moves h.shut hmoves).1
    · exact h.later i k hi hk
  · intro r hmade hr
    change next.1.stock.isDestroyed r = false at hr
    rcases Sound.mem_made_proceed hturn hmade with hmade | ⟨hle, hlt⟩
    · have hbefore : t.state.stock.isDestroyed r = false := by
        by_contra hdestroyed
        rw [Bool.not_eq_false] at hdestroyed
        rw [hturn.destroyed r (howned.known r hmade) hdestroyed] at hr
        cases hr
      obtain ⟨i, hi, k, hk, hcarries⟩ := h.carried r hmade hbefore
      by_cases he : before.length = i
      · subst he
        obtain rfl : j = k := Option.some.inj ((getElem?_of_jobs hjobs).symm.trans hk)
        refine ⟨_, hi, next.2, hself, (hturn.carried r hcarries hr).resolve_left ?_⟩
        rw [hshut]
        exact List.not_mem_nil
      · refine ⟨i, hi, k, ?_, hcarries⟩
        rw [getElem?_proceed hjobs, if_neg he]
        exact hk
    · refine ⟨before.length, ?_, next.2, hself, Sound.carried_of_made hturn hle hlt⟩
      by_contra hge
      have hlength := ((h.later _ j (Nat.le_of_not_lt hge) (getElem?_of_jobs hjobs)).moves
        h.shut hmoves).2
      exact absurd (hlength ▸ hlt) (Nat.not_lt.mpr hle)

theorem of_next (hsafe : ∀ r, ¬ mayCrash (.destructor r)) (h : Settling n t) (howned : t.Owned)
    (hnext : Next mayCrash t u) (hown : t.Undisturbed u) : Settling n u := by
  rcases next_cases hnext with ⟨op, hop, rfl⟩ | ⟨before, after, j, next, hjobs, hmoves, rfl⟩ |
    ⟨later, stock, hlength, hdestroyed, rfl⟩
  · exact h.start op hop
  · exact h.proceed hsafe howned hjobs hmoves
  · exact { h with
      sound := { h.sound.elsewhere hlength hdestroyed with }
      carried := fun r hmade hr =>
        h.carried r hmade ((isDestroyed_of_undisturbed hown rfl r hmade).symm.trans hr) }

end Settling

/-- What every get that had no resource when the pool was closed has come to. -/
theorem refused_of_next (hsafe : ∀ r, ¬ mayCrash (.destructor r)) (hshut : t.state.sets = .shut)
    (hnext : Next mayCrash t u) {i : Nat} (hj : t.jobs[i]? = some j) (h : j.Refused mayCrash) :
    ∃ j' : Job, u.jobs[i]? = some j' ∧ j'.Refused mayCrash := by
  rcases next_cases hnext with ⟨op, hop, rfl⟩ | ⟨before, after, k, next, hjobs, hmoves, rfl⟩ |
    ⟨later, stock, hlength, hdestroyed, rfl⟩
  · refine ⟨j, ?_, h⟩
    rw [List.getElem?_append_left (List.getElem?_eq_some_iff.mp hj).1]
    exact hj
  · rw [getElem?_proceed hjobs]
    split
    · rename_i he
      subst he
      obtain rfl : k = j := Option.some.inj ((getElem?_of_jobs hjobs).symm.trans hj)
      exact ⟨next.2, rfl, h.moves hsafe hshut hmoves⟩
    · exact ⟨j, hj, h⟩
  · exact ⟨j, hj, h⟩

theorem destructs_of_run {path : List (Traffic × Traffic)} (h : Run mayCrash t path u) :
    u.state.destructs = t.state.destructs := by
  induction h with
  | refl => rfl
  | next _ hnext _ ih =>
    rcases next_cases hnext with ⟨op, -, rfl⟩ | ⟨before, after, j, next, -, hmoves, rfl⟩ |
      ⟨later, stock, -, -, rfl⟩
    · exact ih
    · exact hmoves.destructs.trans ih
    · exact ih

/-- A pool that was closed at some moment, at any later one. -/
theorem settling_of_run (hsafe : ∀ r, ¬ mayCrash (.destructor r)) {path : List (Traffic × Traffic)}
    (ht : Reachable mayCrash t) (hclosed : t.state.sets.closed = true)
    (h : Run mayCrash t path u) :
    Settling t.jobs.length u ∧ ∀ (i : Nat) (j : Job), t.jobs[i]? = some j → j.Unserved →
      ∃ j' : Job, u.jobs[i]? = some j' ∧ j'.Refused mayCrash := by
  induction h with
  | refl =>
    exact ⟨.of_closed (Sound.of_reachable hsafe ht) ((Owned.of_reachable ht).shut hclosed),
      fun i j hj hunserved => ⟨j, hj, .unserved hunserved⟩⟩
  | next hrun hnext hown ih =>
    obtain ⟨hsettling, hrefused⟩ := ih
    have howned := Owned.of_reachable (hrun.reachable ht)
    refine ⟨hsettling.of_next hsafe howned hnext hown, fun i j hj hunserved => ?_⟩
    obtain ⟨j', hj', h⟩ := hrefused i j hj hunserved
    exact refused_of_next hsafe hsettling.shut hnext hj' h

/-- Once a pool is closed, its sets stay empty and gets are refused; when all that was in progress
has ended, every resource was destroyed by one invocation of its destructor. -/
theorem closing_settles (hsafe : ∀ r, ¬ mayCrash (.destructor r)) {name : String}
    {limits : Limits} {destructs : Bool} {stock : Stock} {path path' : List (Traffic × Traffic)}
    (ht : Run mayCrash (.new name limits destructs stock) path t)
    (hclosed : t.state.sets.closed = true) (hu : Run mayCrash t path' u) :
    (u.state.sets.closed = true ∧ ∀ p, u.state.sets.content p = []) ∧
    (∀ (i : Nat) (j : Job), t.jobs[i]? = some j → j.Unserved →
      ∃ j' : Job, u.jobs[i]? = some j' ∧ j'.gives = [] ∧
      (j'.todo = [] → j'.result = .failed .poolClosed ∨
        (∃ text, j'.result = .failed (.create text)) ∨
        ∃ purpose crash, mayCrash (.make purpose) ∧ j'.result = .crashed crash)) ∧
    ((∀ j ∈ u.jobs.take t.jobs.length, j.todo = []) → ∀ r ∈ u.made,
      u.state.stock.isDestroyed r = true ∧
        (invoked (path ++ path')).count r = if destructs then 1 else 0) := by
  have hreachable := ht.reachable (.new name limits destructs stock)
  obtain ⟨hsettling, hrefused⟩ := settling_of_run hsafe hreachable hclosed hu
  have hlogged := Logged.of_run (ht.trans hu)
  refine ⟨⟨?_, ?_⟩, ?_, ?_⟩
  · rw [hsettling.shut]
    rfl
  · intro p
    rw [hsettling.shut]
    cases p <;> rfl
  · intro i j hj hunserved
    obtain ⟨j', hj', h⟩ := hrefused i j hj hunserved
    exact ⟨j', hj', h.gives, h.result⟩
  · intro hended r hmade
    have hdestroyed : u.state.stock.isDestroyed r = true := by
      by_contra halive
      rw [Bool.not_eq_true] at halive
      obtain ⟨i, hi, j, hj, hcarries⟩ := hsettling.carried r hmade halive
      have hmem : j ∈ u.jobs.take t.jobs.length := by
        apply List.mem_of_getElem? (i := i)
        rw [List.getElem?_take_of_lt hi]
        exact hj
      rw [Job.carries, hended j hmem] at hcarries
      cases hcarries
    refine ⟨hdestroyed, ?_⟩
    have hdestructs : u.state.destructs = destructs := destructs_of_run (ht.trans hu)
    split
    · rename_i h
      refine List.count_eq_one_of_mem hlogged.nodup ((hlogged.mem_iff r).mpr ?_)
      exact ⟨hmade, hdestroyed, hdestructs.trans h⟩
    · rename_i h
      refine List.count_eq_zero.mpr fun hr => h ?_
      exact hdestructs.symm.trans ((hlogged.mem_iff r).mp hr).2.2

/-- A pool was closed from within its factory, while one resource was lent. -/
def closingInFactory : Traffic where
  state := {
    name := "pool"
    limits := ⟨1, .zero⟩
    sets := { closed := true }
    stock := [⟨"pool", 0, .start, .start, false⟩] }
  jobs := [⟨[], .got 0⟩, ⟨[.call (.make .keep)], .done⟩, ⟨[.destroy 0], .done⟩]
  handles := [0]
  made := [0]

/-- The factory returned, and the lent resource was passed back. -/
def closedInFactory : Traffic where
  state := {
    name := "pool"
    limits := ⟨1, .zero⟩
    sets := { closed := true }
    stock := [⟨"pool", 0, .start, .start, true⟩, ⟨"pool", 1, .start, .start, true⟩] }
  jobs := [⟨[], .got 0⟩, ⟨[], .failed .poolClosed⟩, ⟨[], .done⟩, ⟨[], .done⟩]
  handles := [0]
  made := [0, 1]

theorem run_closingInFactory : ∃ path,
    Run (fun _ => False) (.new "pool" ⟨1, .zero⟩ true []) path closingInFactory := by
  have h : Run (fun _ => False) (.new "pool" ⟨1, .zero⟩ true []) [] _ := .refl
  replace h := h.next (.start .get nofun) (by decide)
  replace h := h.next (.step [] [] _ rfl) (by decide)
  replace h := h.next (.reply [] [] _ (.make .keep) .ok rfl rfl nofun) (by decide)
  replace h := h.next (.step [] [] _ rfl) (by decide)
  replace h := h.next (.start .get nofun) (by decide)
  replace h := h.next (.step [_] [] _ rfl) (by decide)
  replace h := h.next (.start .close nofun) (by decide)
  replace h := h.next (.step [_, _] [] _ rfl) (by decide)
  exact ⟨_, h⟩

theorem run_closedInFactory : ∃ path,
    Run (fun _ => False) closingInFactory path closedInFactory := by
  have h : Run (fun _ => False) closingInFactory [] _ := .refl
  replace h := h.next (.step [_, _] [] _ rfl) (by decide)
  replace h := h.next (.reply [_] [_] _ (.make .keep) .ok rfl rfl nofun) (by decide)
  replace h := h.next (.step [_] [_] _ rfl) (by decide)
  replace h := h.next (.step [_] [_] _ rfl) (by decide)
  replace h := h.next (.reply [_] [_] _ (.destructor 1) .ok rfl rfl nofun) (by decide)
  replace h := h.next (.reply [_, _] [] _ (.destructor 0) .ok rfl rfl nofun) (by decide)
  replace h := h.next (.start (.put 0) (by decide)) (by decide)
  replace h := h.next (.step [_, _, _] [] _ rfl) (by decide)
  replace h := h.next (.step [_, _, _] [] _ rfl) (by decide)
  exact ⟨_, h⟩

theorem closing_settles_within_factory : ∃ path path',
    Run (fun _ => False) (.new "pool" ⟨1, .zero⟩ true []) path closingInFactory ∧
      closingInFactory.state.sets.closed = true ∧
      Run (fun _ => False) closingInFactory path' closedInFactory ∧
      (∀ p, closedInFactory.state.sets.content p = []) ∧
      ∀ r ∈ [0, 1], closedInFactory.state.stock.isDestroyed r = true ∧
        (invoked (path ++ path')).count r = 1 := by
  obtain ⟨path, h⟩ := run_closingInFactory
  obtain ⟨path', h'⟩ := run_closedInFactory
  obtain ⟨⟨-, hempty⟩, -, hdestroyed⟩ := closing_settles nofun h rfl h'
  exact ⟨path, path', h, rfl, h', hempty, hdestroyed (by decide)⟩

end Traffic

end Stockroom.Pool

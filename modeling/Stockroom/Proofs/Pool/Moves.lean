import Stockroom.Pool.Runs
import Stockroom.Proofs.Pool.Custody

/-! What can happen next, in three kinds: an operation starts, a job moves, or the pool stands
still. -/

namespace Stockroom.Pool
set_option autoImplicit false

/-- What becomes of the pool when an instruction is carried out, or when the call that it makes
returns, with a case for each way through. -/
inductive Instr.Leads (now : Instant) (s : State) : Instr → Effect → Prop where
  | claimClosed (purpose : Purpose) : s.sets.closed = true →
      Leads now s (.claim purpose) { state := s, result := some (.failed .poolClosed) }
  | checkOut (purpose : Purpose) (r : ResourceId) (sets : Sets) : s.sets.closed = false →
      s.sets.checkOut? = some (r, sets) →
      Leads now s (.claim purpose)
        ({ s with sets, stock := s.stock.touch r now }.grant purpose r)
  | send (purpose : Purpose) : s.sets.closed = false →
      Leads now s (.claim purpose) { state := s, next := [.call (.make purpose)] }
  | enrollClosed (purpose : Purpose) (r : ResourceId) : s.sets.closed = true →
      Leads now s (.enroll purpose r)
        { state := s, next := [.destroy r], result := some (.failed .poolClosed) }
  | enroll (purpose : Purpose) (r : ResourceId) : s.sets.closed = false →
      Leads now s (.enroll purpose r)
        ({ s with sets := s.sets.enroll s.limits.maxSize r }.grant purpose r)
  | putClosed (r : ResourceId) (d : Disposal) : s.sets.closed = true →
      Leads now s (.put r d) { state := s, next := [.destroy r] }
  | keep (r : ResourceId) (d : Disposal) (sets : Sets) : s.sets.closed = false →
      s.sets.receive s.limits.maxSize r = .kept sets →
      Leads now s (.put r d) { state := { s with sets } }
  | leave (r : ResourceId) (d : Disposal) (sets : Sets) : s.sets.closed = false →
      s.sets.receive s.limits.maxSize r = .leaving sets →
      Leads now s (.put r d) { state := { s with sets }, next := [.dispose r d] }
  | giveUpClosed (r : ResourceId) : s.sets.closed = true →
      Leads now s (.dispose r .delayed) { state := s, next := [.destroy r] }
  | giveUp (r : ResourceId) : s.sets.closed = false →
      Leads now s (.dispose r .delayed) { state := { s with sets := s.sets.giveUp r now } }
  | dispose (r : ResourceId) :
      Leads now s (.dispose r .immediate) { state := s, next := [.destroy r] }
  | destroyed (r : ResourceId) : s.stock.isDestroyed r = true →
      Leads now s (.destroy r) { state := s }
  | destroy (r : ResourceId) : s.stock.isDestroyed r = false →
      Leads now s (.destroy r)
        { state := { s with stock := s.stock.markDestroyed r }
          next := if s.destructs then [.call (.destructor r)] else [] }
  | withdraw (r : ResourceId) :
      Leads now s (.withdraw r) { state := { s with sets := s.sets.withdraw r } }
  | closeClosed : s.sets.closed = true → Leads now s .close { state := s }
  | close : s.sets.closed = false →
      Leads now s .close
        { state := { s with sets := s.sets.close.2 }, next := s.sets.close.1.map .destroy }
  | inspect :
      Leads now s .inspect { state := s, next := s.sets.idle.map fun r => .call (.check r) }
  | exchange (old new : ResourceId) (sets : Sets) : s.sets.replace? old new = some sets →
      Leads now s (.exchange old new) { state := { s with sets }, next := [.destroy old] }
  | exchangeGone (old new : ResourceId) :
      Leads now s (.exchange old new) { state := s, next := [.destroy new] }
  | reclaim :
      Leads now s .reclaim { state := s, next := (s.overdue now).map fun r => .put r .delayed }
  | sweep :
      Leads now s .sweep
        { state := { s with sets := (s.sets.takeDue s.limits.maxUsage now).2 }
          next := (s.sets.takeDue s.limits.maxUsage now).1.map .destroy }
  | giveBack (r : ResourceId) :
      Leads now s (.giveBack r) { state := s, next := [.put r .immediate] }
  | made (purpose : Purpose) :
      Leads now s (.call (.make purpose))
        { state := (s.add now).2, next := [.enroll purpose (s.add now).1] }
  | notMade (purpose : Purpose) (text : String) :
      Leads now s (.call (.make purpose)) { state := s, result := some (.failed (.create text)) }
  | madeInstead (old : ResourceId) :
      Leads now s (.call (.makeInstead old))
        { state := (s.add now).2, next := [.exchange old (s.add now).1] }
  | notMadeInstead (old : ResourceId) : Leads now s (.call (.makeInstead old)) { state := s }
  | healthy (r : ResourceId) : Leads now s (.call (.check r)) { state := s }
  | unhealthy (r : ResourceId) :
      Leads now s (.call (.check r)) { state := s, next := [.call (.makeInstead r)] }
  | destructor (r : ResourceId) : Leads now s (.call (.destructor r)) { state := s }
  | bodyDone (r : ResourceId) :
      Leads now s (.call (.body r)) { state := s, result := some (.got r) }
  | bodyFailed (r : ResourceId) (text : String) :
      Leads now s (.call (.body r)) { state := s, result := some (.bodyFailed text) }

theorem Instr.leads_run (now : Instant) (s : State) {i : Instr}
    (hi : ∀ callback, i ≠ .call callback) : i.Leads now s (i.run now s) := by
  cases i with
  | claim purpose =>
    rw [run]
    cases hclosed : s.sets.closed with
    | true => exact .claimClosed purpose hclosed
    | false =>
      cases hout : s.sets.checkOut? with
      | none => exact .send purpose hclosed
      | some out => exact .checkOut purpose out.1 out.2 hclosed hout
  | enroll purpose r =>
    rw [run]
    cases hclosed : s.sets.closed with
    | true => exact .enrollClosed purpose r hclosed
    | false => exact .enroll purpose r hclosed
  | put r d =>
    rw [run]
    cases hclosed : s.sets.closed with
    | true => exact .putClosed r d hclosed
    | false =>
      cases hreceive : s.sets.receive s.limits.maxSize r with
      | kept sets => exact .keep r d sets hclosed hreceive
      | leaving sets => exact .leave r d sets hclosed hreceive
  | dispose r d =>
    cases d with
    | immediate => exact .dispose r
    | delayed =>
      rw [run]
      cases hclosed : s.sets.closed with
      | true => exact .giveUpClosed r hclosed
      | false => exact .giveUp r hclosed
  | destroy r =>
    rw [run]
    cases hdestroyed : s.stock.isDestroyed r with
    | true => exact .destroyed r hdestroyed
    | false => exact .destroy r hdestroyed
  | withdraw r => exact .withdraw r
  | close =>
    rw [run]
    cases hclosed : s.sets.closed with
    | true => exact .closeClosed hclosed
    | false => exact .close hclosed
  | inspect => exact .inspect
  | exchange old new =>
    rw [run]
    cases hreplace : s.sets.replace? old new with
    | none => exact .exchangeGone old new
    | some sets => exact .exchange old new sets hreplace
  | reclaim => exact .reclaim
  | sweep => exact .sweep
  | giveBack r => exact .giveBack r
  | call callback => exact absurd rfl (hi callback)

/-- No instruction has itself as the only one to follow. -/
theorem Instr.Leads.next_ne {now : Instant} {s : State} {i : Instr} {e : Effect}
    (h : i.Leads now s e) : e.next ≠ [i] := by
  cases h with
  | checkOut purpose | enroll purpose => cases purpose <;> simp [State.grant]
  | destroy r =>
    dsimp only
    split <;> simp
  | _ => simp

theorem Callback.leads_resume (now : Instant) (s : State) (callback : Callback)
    (error : Option String) :
    (Instr.call callback).Leads now s (callback.resume now s error) := by
  cases callback with
  | make purpose =>
    cases error with
    | none => exact .made purpose
    | some text => exact .notMade purpose text
  | makeInstead old =>
    cases error with
    | none => exact .madeInstead old
    | some text => exact .notMadeInstead old
  | check r =>
    cases error with
    | none => exact .healthy r
    | some text => exact .unhealthy r
  | destructor r => exact .destructor r
  | body r =>
    cases error with
    | none => exact .bodyDone r
    | some text => exact .bodyFailed r text

namespace Job

variable {mayCrash : Callback → Prop} {now : Instant} {s : State} {j : Job} {next : State × Job}

inductive Moves (mayCrash : Callback → Prop) (now : Instant) (s : State) (j : Job) :
    State × Job → Prop where
  | step : Moves mayCrash now s j (j.step now s)
  | reply (callback : Callback) (r : Reply) : j.waitsFor = some callback →
      (∀ text, r = .crash text → mayCrash callback) → Moves mayCrash now s j (j.reply now s r)
  | drop (r : ResourceId) : j.waitsFor = some (.body r) → Moves mayCrash now s j (s, j.unwind)

/-- What a crash or the drop of a loan leaves of a job. -/
structure Unwound (j j' : Job) : Prop where
  todo : ∀ i ∈ j'.todo, i ∈ j.todo ∧ ∃ r, i = .giveBack r
  result : j'.result.gives ⊆ j.result.gives

theorem mem_unwind {i : Instr} (hi : i ∈ j.unwind.todo) : i ∈ j.todo ∧ ∃ r, i = .giveBack r := by
  obtain ⟨hi, hback⟩ := List.mem_filter.mp hi
  cases i with
  | giveBack r => exact ⟨hi, r, rfl⟩
  | _ => cases hback

theorem unwound_unwind (j : Job) : j.Unwound j.unwind :=
  ⟨fun _ => mem_unwind, List.Subset.refl _⟩

theorem unwound_crash {i : Instr} {rest : List Instr} (hj : j.todo = i :: rest) (text : String) :
    j.Unwound (({ j with todo := rest } : Job).crash text) := by
  constructor
  · intro k hk
    rw [crash_todo] at hk
    obtain ⟨hk, hback⟩ := mem_unwind hk
    refine ⟨?_, hback⟩
    rw [hj]
    exact List.mem_cons_of_mem i hk
  · rw [crash_gives]
    exact List.nil_subset _

theorem reply_eq {callback : Callback} {rest : List Instr} (hj : j.todo = .call callback :: rest)
    (r : Reply) : (∃ error, j.reply now s r = j.follow rest (callback.resume now s error)) ∨
      ∃ text, r = .crash text ∧
        j.reply now s r = (s, ({ j with todo := rest } : Job).crash text) := by
  rw [reply, hj]
  cases r with
  | ok => exact Or.inl ⟨none, rfl⟩
  | fail text => exact Or.inl ⟨some text, rfl⟩
  | crash text => exact Or.inr ⟨text, rfl, rfl⟩

theorem step_of_call {callback : Callback} {rest : List Instr}
    (hj : j.todo = .call callback :: rest) (now : Instant) (s : State) : j.step now s = (s, j) := by
  rw [step, hj]
  obtain ⟨todo, result⟩ := j
  obtain rfl : todo = _ := hj
  rfl

/-- A job that waits or has ended stays as it is; else its first instruction takes effect. -/
theorem step_cases (now : Instant) (s : State) (j : Job) :
    j.step now s = (s, j) ∨
      ∃ i rest e, j.todo = i :: rest ∧ i.Leads now s e ∧ j.step now s = j.follow rest e := by
  cases htodo : j.todo with
  | nil => exact Or.inl (by rw [Job.step, htodo])
  | cons i rest =>
    by_cases hcall : ∃ callback, i = .call callback
    · obtain ⟨callback, rfl⟩ := hcall
      exact Or.inl (step_of_call htodo now s)
    · refine Or.inr ⟨i, rest, _, rfl, Instr.leads_run now s ?_, by rw [Job.step, htodo]⟩
      exact fun callback hi => hcall ⟨callback, hi⟩

/-- A job stays as it is, or its first instruction takes effect, or it is unwound. -/
theorem Moves.cases (h : j.Moves mayCrash now s next) :
    next = (s, j) ∨
      (∃ i rest e, j.todo = i :: rest ∧ i.Leads now s e ∧ next = j.follow rest e) ∨
      next.1 = s ∧ j.Unwound next.2 := by
  cases h with
  | step => exact (j.step_cases now s).imp_right Or.inl
  | reply callback r hwaits hcrash =>
    obtain ⟨rest, htodo⟩ := todo_of_waitsFor hwaits
    rcases reply_eq htodo r with ⟨error, he⟩ | ⟨text, -, he⟩
    · exact Or.inr (Or.inl ⟨_, rest, _, htodo, callback.leads_resume now s error, he⟩)
    · rw [he]
      exact Or.inr (Or.inr ⟨rfl, unwound_crash htodo text⟩)
  | drop r hwaits => exact Or.inr (Or.inr ⟨rfl, unwound_unwind j⟩)

/-- A move after which the job is as it was has changed nothing. -/
theorem Moves.state_eq (h : j.Moves mayCrash now s next) (he : next.2 = j) : next.1 = s := by
  rcases h.cases with rfl | ⟨i, rest, e, htodo, hleads, rfl⟩ | ⟨hstate, -⟩
  · rfl
  · have hnext : e.next ++ rest = [i] ++ rest := (congrArg todo he).trans htodo
    exact absurd (List.append_cancel_right hnext) hleads.next_ne
  · exact hstate

/-- A job that waits for destructors only is not unwound where these do not crash. -/
theorem Moves.cases_of_destructors (hsafe : ∀ r, ¬ mayCrash (.destructor r))
    (h : j.Moves mayCrash now s next)
    (hj : ∀ callback, j.waitsFor = some callback → ∃ r, callback = .destructor r) :
    next = (s, j) ∨
      ∃ i rest e, j.todo = i :: rest ∧ i.Leads now s e ∧ next = j.follow rest e := by
  cases h with
  | step => exact j.step_cases now s
  | reply callback r hwaits hcrash =>
    obtain ⟨x, rfl⟩ := hj callback hwaits
    obtain ⟨rest, htodo⟩ := todo_of_waitsFor hwaits
    rcases reply_eq htodo r with ⟨error, he⟩ | ⟨text, rfl, -⟩
    · exact Or.inr ⟨_, rest, _, htodo, (Callback.destructor x).leads_resume now s error, he⟩
    · exact absurd (hcrash text rfl) (hsafe x)
  | drop r hwaits =>
    obtain ⟨x, he⟩ := hj _ hwaits
    cases he

/-- A move in which no resource gets lost, or one that leaves only ends of loans. -/
theorem Moves.turn_or_unwound (h : j.Moves mayCrash now s next) (hj : Orderly j.todo)
    (hn : (j.fresh ++ s.sets.members).Nodup)
    (haway : ∀ r d rest, j.todo = .dispose r d :: rest → r ∉ s.sets.active) :
    Turn s j next.1 next.2 ∨ next.1 = s ∧ j.Unwound next.2 := by
  cases h with
  | step => exact Or.inl (j.turn_step now hj hn haway)
  | reply callback r hwaits hcrash =>
    obtain ⟨rest, htodo⟩ := todo_of_waitsFor hwaits
    rcases reply_eq htodo r with ⟨error, he⟩ | ⟨text, -, he⟩
    · rw [he]
      rw [htodo] at hj
      cases hj with
      | cons _ _ hi hrest hdestroys =>
        exact Or.inl (.of_keeps htodo hrest hdestroys
          (keeps_resume (List.nodup_append.mp hn).2.1 now callback error))
    · rw [he]
      exact Or.inr ⟨rfl, unwound_crash htodo text⟩
  | drop r hwaits => exact Or.inr ⟨rfl, unwound_unwind j⟩

theorem Moves.turn (hsafe : ∀ r, ¬ mayCrash (.destructor r)) (h : j.Moves mayCrash now s next)
    (hj : Orderly j.todo) (hn : (j.fresh ++ s.sets.members).Nodup)
    (haway : ∀ r d rest, j.todo = .dispose r d :: rest → r ∉ s.sets.active) :
    Turn s j next.1 next.2 := by
  have hmembers : s.sets.members.Nodup := (List.nodup_append.mp hn).2.1
  cases h with
  | step => exact j.turn_step now hj hn haway
  | reply callback r hwaits hcrash =>
    apply j.turn_reply now r hj hmembers hwaits
    rintro text he x rfl
    exact hsafe x (hcrash text he)
  | drop r hwaits => exact j.turn_unwind hj hmembers hwaits

end Job

namespace Traffic

variable {mayCrash : Callback → Prop} {t u v : Traffic}

theorem next_cases (h : Next mayCrash t u) :
    (∃ op : Operation, (∀ r ∈ op.handles, r ∈ t.handles) ∧
      u = { t with jobs := t.jobs ++ [op.job] }) ∨
    (∃ before after j next, t.jobs = before ++ j :: after ∧
      j.Moves mayCrash t.now t.state next ∧ u = t.proceed before after next) ∨
    ∃ later stock, t.state.stock.length ≤ stock.length ∧
      (∀ r < t.state.stock.length, t.state.stock.isDestroyed r = true →
        stock.isDestroyed r = true) ∧
      u = { t with now := later, state := { t.state with stock } } := by
  cases h with
  | start op hop => exact Or.inl ⟨op, hop, rfl⟩
  | step before after j hjobs =>
    exact Or.inr (Or.inl ⟨before, after, j, _, hjobs, .step, rfl⟩)
  | reply before after j callback r hjobs hwaits hcrash =>
    exact Or.inr (Or.inl ⟨before, after, j, _, hjobs, .reply callback r hwaits hcrash, rfl⟩)
  | drop before after j r hjobs hwaits =>
    exact Or.inr (Or.inl ⟨before, after, j, _, hjobs, .drop r hwaits, rfl⟩)
  | pass later hlater =>
    exact Or.inr (Or.inr ⟨later, _, Nat.le_refl _, fun _ _ hr => hr, rfl⟩)
  | elsewhere stock hlength hdestroyed =>
    exact Or.inr (Or.inr ⟨_, stock, hlength, hdestroyed, rfl⟩)

variable {path path' : List (Traffic × Traffic)}

theorem Run.reachable (h : Run mayCrash t path u) (ht : Reachable mayCrash t) :
    Reachable mayCrash u := by
  induction h with
  | refl => exact ht
  | next _ hnext _ ih => exact .next ih hnext

theorem Run.trans (h : Run mayCrash t path u) (h' : Run mayCrash u path' v) :
    Run mayCrash t (path ++ path') v := by
  induction h' with
  | refl => rwa [List.append_nil]
  | next _ hnext hown ih =>
    rw [← List.append_assoc]
    exact ih.next hnext hown

/-! ### What jobs do in between -/

section Between

variable {deed : Job → Job → List ResourceId}

theorem flatMap_zip_append (hself : ∀ j, deed j j = []) (jobs new : List Job) :
    ((jobs.zip (jobs ++ new)).flatMap fun p => deed p.1 p.2) = [] := by
  induction jobs with
  | nil => rfl
  | cons j jobs ih =>
    rw [List.cons_append, List.zip_cons_cons, List.flatMap_cons, ih, List.append_nil]
    exact hself j

theorem between_of_jobs_append (hself : ∀ j, deed j j = []) {new : List Job}
    (hjobs : u.jobs = t.jobs ++ new) : between deed t u = [] := by
  rw [between, hjobs]
  exact flatMap_zip_append hself t.jobs new

theorem between_of_jobs_eq (hself : ∀ j, deed j j = []) (hjobs : u.jobs = t.jobs) :
    between deed t u = [] :=
  between_of_jobs_append hself (hjobs.trans (List.append_nil t.jobs).symm)

theorem between_proceed (hself : ∀ j, deed j j = []) {before after : List Job} {j : Job}
    {next : State × Job} (hjobs : t.jobs = before ++ j :: after) :
    between deed t (t.proceed before after next) = deed j next.2 := by
  have hnone : ∀ l : List Job, ((l.zip l).flatMap fun p => deed p.1 p.2) = [] := by
    intro l
    simpa only [List.append_nil] using flatMap_zip_append hself l []
  rw [between, hjobs, proceed, List.zip_append rfl, List.flatMap_append, List.zip_cons_cons,
    List.flatMap_cons, hnone, hnone, List.append_nil, List.nil_append]

end Between

end Traffic

end Stockroom.Pool

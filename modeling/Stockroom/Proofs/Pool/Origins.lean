import Stockroom.Pool.Grace
import Stockroom.Proofs.Pool.Closing

/-! What a job can come to, by the operation that it was started as. Only sweeps keep hold of
resources while they wait for a callback. What any other job destroys or gives up it has just taken
out of the sets, unless something came between; a discard gives up its own resource. -/

namespace Stockroom.Pool
set_option autoImplicit false

/-! ### Single instructions -/

section
variable {mayCrash : Callback → Prop} {now : Instant} {s : State} {i : Instr} {e : Effect}

/-- No instruction is followed by itself. -/
theorem Instr.Leads.not_mem_next (h : i.Leads now s e) (hcall : ∀ callback, i ≠ .call callback) :
    i ∉ e.next := by
  cases h with
  | checkOut purpose | enroll purpose =>
    cases purpose <;> simp [State.grant]
  | destroy r _ =>
    dsimp only
    split <;> simp
  | made | notMade | madeInstead | notMadeInstead | healthy | unhealthy | destructor | bodyDone
  | bodyFailed => exact absurd rfl (hcall _)
  | _ => simp

namespace Job

variable {j : Job} {next : State × Job} {rest : List Instr}

/-- A job that does not wait does its first instruction. -/
theorem Moves.eq_follow (h : j.Moves mayCrash now s next) (htodo : j.todo = i :: rest)
    (hcall : ∀ callback, i ≠ .call callback) : next = j.follow rest (i.run now s) := by
  have hwaits : ∀ {callback}, j.waitsFor ≠ some callback := by
    intro callback hwaits
    obtain ⟨rest', he⟩ := todo_of_waitsFor hwaits
    rw [htodo] at he
    exact hcall callback (List.cons.inj he).1
  cases h with
  | step => rw [Job.step, htodo]
  | reply callback r hreply => exact absurd hreply hwaits
  | drop r hdrop => exact absurd hdrop hwaits

/-- A job that waits for anything but a body goes on when it is answered. -/
theorem Moves.eq_reply (h : j.Moves mayCrash now s next) {callback : Callback}
    (htodo : j.todo = .call callback :: rest) (hbody : ∀ r, callback ≠ .body r) :
    next = (s, j) ∨
      ∃ reply, (∀ text, reply = .crash text → mayCrash callback) ∧ next = j.reply now s reply := by
  have hwaits : ∀ {other}, j.waitsFor = some other → other = callback := by
    intro other hwaits
    obtain ⟨rest', he⟩ := todo_of_waitsFor hwaits
    rw [htodo] at he
    cases he
    rfl
  cases h with
  | step => exact Or.inl (step_of_call htodo now s)
  | reply other reply hreply hcrash =>
    obtain rfl := hwaits hreply
    exact Or.inr ⟨reply, hcrash, rfl⟩
  | drop r hdrop => exact absurd (hwaits hdrop).symm (hbody r)

/-- A job that has done an instruction is not what it was. -/
theorem Moves.ne (h : j.Moves mayCrash now s next) (htodo : j.todo = i :: rest)
    (hcall : ∀ callback, i ≠ .call callback) : next.2 ≠ j := by
  have hnot := (Instr.leads_run now s hcall).not_mem_next hcall
  rw [h.eq_follow htodo hcall]
  intro he
  have hsame : (i.run now s).next ++ rest = i :: rest := (congrArg Job.todo he).trans htodo
  cases hnext : (i.run now s).next with
  | nil =>
    rw [hnext, List.nil_append] at hsame
    exact List.cons_ne_self _ _ hsame.symm
  | cons k ks =>
    rw [hnext, List.cons_append] at hsame
    rw [hnext, (List.cons.inj hsame).1] at hnot
    exact hnot List.mem_cons_self

/-- A job that stays what it is changes no set. -/
theorem Moves.sets_eq (h : j.Moves mayCrash now s next) (he : next.2 = j) :
    next.1.sets = s.sets := by
  rcases h.cases with rfl | ⟨i, rest, e, htodo, hleads, rfl⟩ | ⟨hsame, -⟩
  · rfl
  · cases i with
    | call callback => cases hleads <;> rfl
    | _ => exact absurd he (h.ne htodo nofun)
  · rw [hsame]

end Job

end

/-! ### Operations and their instructions -/

/-- Instructions that one operation alone comes to are its own. -/
def Operation.Issues (op : Operation) : Instr → Prop
  | .close => op = .close
  | .sweep => op = .sweep
  | .reclaim | .put _ .delayed => op = .reclaim
  | .dispose r .delayed => op = .discard r ∨ op = .reclaim
  | _ => True

/-- What is left to do are instructions that the operation comes to; where a sweep is, nothing
else is. -/
structure Operation.Pursues (op : Operation) (todo : List Instr) : Prop where
  issues : ∀ i ∈ todo, op.Issues i
  sweep : .sweep ∈ todo → todo = [.sweep]

theorem Operation.pursues_job (op : Operation) : op.Pursues op.job.todo where
  issues i hi := by
    cases op with
    | discard r =>
      rcases List.mem_cons.mp hi with rfl | hi
      · trivial
      · rw [List.mem_singleton.mp hi]
        exact Or.inl rfl
    | put r =>
      rw [List.mem_singleton.mp hi]
      trivial
    | _ =>
      rw [List.mem_singleton.mp hi]
      trivial
  sweep hi := by
    cases op with
    | sweep => rfl
    | discard r => rcases List.mem_pair.mp hi with he | he <;> cases he
    | _ => cases List.mem_singleton.mp hi

section
variable {mayCrash : Callback → Prop} {now : Instant} {s : State} {i : Instr} {e : Effect}
  {op : Operation}

theorem Instr.Leads.issues (h : i.Leads now s e) (hi : op.Issues i) :
    ∀ k ∈ e.next, op.Issues k := by
  intro k hk
  cases h with
  | checkOut purpose | enroll purpose =>
    cases purpose with
    | keep => cases hk
    | lend => rcases List.mem_pair.mp hk with rfl | rfl <;> trivial
  | leave r d _ _ _ =>
    rw [List.mem_singleton.mp hk]
    cases d with
    | immediate => trivial
    | delayed => exact Or.inr hi
  | destroy r _ =>
    dsimp only at hk
    split at hk
    · rw [List.mem_singleton.mp hk]
      trivial
    · cases hk
  | close | inspect | sweep =>
    obtain ⟨x, -, rfl⟩ := List.mem_map.mp hk
    trivial
  | reclaim =>
    obtain ⟨x, -, rfl⟩ := List.mem_map.mp hk
    exact hi
  | claimClosed | keep | giveUp | destroyed | withdraw | closeClosed | notMade | notMadeInstead
  | healthy | destructor | bodyDone | bodyFailed => cases hk
  | _ =>
    rw [List.mem_singleton.mp hk]
    trivial

theorem Instr.Leads.sweep_not_mem_next (h : i.Leads now s e) : .sweep ∉ e.next := by
  cases h with
  | checkOut purpose | enroll purpose =>
    cases purpose <;> simp [State.grant]
  | destroy r _ =>
    dsimp only
    split <;> simp
  | _ => simp

theorem Job.Moves.pursues {j : Job} {next : State × Job} (h : j.Moves mayCrash now s next)
    (hj : op.Pursues j.todo) : op.Pursues next.2.todo := by
  rcases h.cases with rfl | ⟨i, rest, e, htodo, hleads, rfl⟩ | ⟨-, hunwound⟩
  · exact hj
  · constructor
    · intro k hk
      rcases List.mem_append.mp hk with hk | hk
      · exact hleads.issues (hj.issues i (htodo ▸ List.mem_cons_self)) k hk
      · exact hj.issues k (htodo ▸ List.mem_cons_of_mem i hk)
    · intro hsweep
      have hrest := (List.mem_append.mp hsweep).resolve_left hleads.sweep_not_mem_next
      have hsame := hj.sweep (htodo ▸ List.mem_cons_of_mem i hrest)
      rw [htodo] at hsame
      rw [(List.cons.inj hsame).2] at hrest
      cases hrest
  · constructor
    · exact fun k hk => hj.issues k (hunwound.todo k hk).1
    · intro hsweep
      obtain ⟨-, r, he⟩ := hunwound.todo _ hsweep
      cases he

end

/-! ### What is taken out of the sets -/

theorem Sets.mem_takeDue {s : Sets} {limit : Duration} {now : Instant} {r : ResourceId} :
    r ∈ (s.takeDue limit now).1 ↔
      ∃ since, s.pendingClose.get? r = some since ∧ isOver limit since now = true := by
  constructor
  · intro hr
    obtain ⟨⟨x, since⟩, hrow, rfl⟩ := List.mem_map.mp hr
    obtain ⟨hrow, hover⟩ := List.mem_filter.mp hrow
    exact ⟨since, Table.get?_of_mem hrow, hover⟩
  · rintro ⟨since, hsince, hover⟩
    exact List.mem_map_of_mem (List.mem_filter.mpr ⟨Table.mem_of_get? hsince, hover⟩)

/-- It destroys nothing and gives nothing up. -/
def Instr.Spares : Instr → Prop
  | .destroy _ | .dispose _ _ | .sweep => False
  | _ => True

/-- Nothing that is in the sets is destroyed or given up. -/
inductive Careful (sets : Sets) : List Instr → Prop where
  | spares {todo : List Instr} : (∀ i ∈ todo, i.Spares) → Careful sets todo
  | destroys (r : ResourceId) {rest : List Instr} : r ∉ sets.members → (∀ i ∈ rest, i.Spares) →
      Careful sets (.destroy r :: rest)
  | disposes (r : ResourceId) (d : Disposal) {rest : List Instr} : r ∉ sets.members →
      (∀ i ∈ rest, i.Spares) → Careful sets (.dispose r d :: rest)

section
variable {now : Instant} {s : State} {i : Instr} {e : Effect} {rest : List Instr}

theorem Careful.spares_tail {sets : Sets} (h : Careful sets (i :: rest)) :
    ∀ k ∈ rest, k.Spares := by
  cases h with
  | spares h => exact fun k hk => h k (List.mem_cons_of_mem _ hk)
  | destroys r _ h => exact h
  | disposes r d _ h => exact h

/-- Where nothing comes between, what is destroyed or given up was just taken out. -/
theorem Careful.leads (h : Careful s.sets (i :: rest)) (hleads : i.Leads now s e)
    (hn : (i.fresh ++ s.sets.members).Nodup) (hopen : e.state.sets.closed = false) :
    Careful e.state.sets (e.next ++ rest) := by
  have hrest := h.spares_tail
  have hall (hnext : ∀ k ∈ e.next, k.Spares) : Careful e.state.sets (e.next ++ rest) :=
    .spares fun k hk => (List.mem_append.mp hk).elim (hnext k) (hrest k)
  cases hleads with
  | checkOut purpose | enroll purpose =>
    refine hall fun k hk => ?_
    cases purpose with
    | keep => cases hk
    | lend => rcases List.mem_pair.mp hk with rfl | rfl <;> trivial
  | enrollClosed _ _ hclosed | putClosed _ _ hclosed | giveUpClosed _ hclosed =>
    rw [hclosed] at hopen
    cases hopen
  | close => cases hopen
  | leave r d sets _ hreceive =>
    exact .disposes r d (Sets.receive_leaving_not_mem _ hn hreceive) hrest
  | dispose r =>
    cases h with
    | spares h => exact (h _ List.mem_cons_self).elim
    | disposes _ _ hr _ => exact .destroys r hr hrest
  | exchange old new sets hreplace => exact .destroys old (Sets.replace?_not_mem hn hreplace) hrest
  | exchangeGone old new => exact .destroys new (List.nodup_cons.mp hn).1 hrest
  | sweep =>
    cases h with
    | spares h => exact (h _ List.mem_cons_self).elim
  | destroy r _ =>
    refine hall fun k hk => ?_
    dsimp only at hk
    split at hk
    · rw [List.mem_singleton.mp hk]
      trivial
    · cases hk
  | inspect | reclaim =>
    refine hall fun k hk => ?_
    obtain ⟨x, -, rfl⟩ := List.mem_map.mp hk
    trivial
  | claimClosed | keep | giveUp | destroyed | withdraw | closeClosed | notMade | notMadeInstead
  | healthy | destructor | bodyDone | bodyFailed => exact hall (List.forall_mem_nil _)
  | _ =>
    refine hall fun k hk => ?_
    rw [List.mem_singleton.mp hk]
    trivial

end

namespace Traffic

variable {mayCrash : Callback → Prop} {t u : Traffic} {before after : List Job} {j : Job}
  {next : State × Job} {path : List (Traffic × Traffic)} {i : Nat} {r : ResourceId}
  {op : Operation} {instr : Instr}

/-! ### Places -/

theorem StartedAs.append (h : StartedAs path i op) (path' : List (Traffic × Traffic)) :
    StartedAs (path ++ path') i op := by
  obtain ⟨p, hp, hplace⟩ := h
  exact ⟨p, List.mem_append_left _ hp, hplace⟩

theorem Took.append (h : Took path i r) (path' : List (Traffic × Traffic)) :
    Took (path ++ path') i r := by
  obtain ⟨hstarted, p, hp, htook⟩ := h
  exact ⟨hstarted.append path', p, List.mem_append_left _ hp, htook⟩

/-- A job that does not stay what it is moves. -/
theorem moves_of_ne (hnext : Next mayCrash t u) (hj : t.jobs[i]? = some j)
    (hne : u.jobs[i]? ≠ some j) : ∃ before after next, t.jobs = before ++ j :: after ∧
      before.length = i ∧ j.Moves mayCrash t.now t.state next ∧ u = t.proceed before after next := by
  rcases next_cases hnext with ⟨op, -, rfl⟩ | ⟨before, after, k, next, hjobs, hmoves, rfl⟩ |
    ⟨later, stock, -, -, rfl⟩
  · refine absurd ?_ hne
    rw [List.getElem?_append_left (List.getElem?_eq_some_iff.mp hj).1]
    exact hj
  · rw [getElem?_proceed hjobs] at hne
    split at hne
    · rename_i hi
      subst hi
      obtain rfl := Option.some.inj ((getElem?_of_jobs hjobs).symm.trans hj)
      exact ⟨before, after, next, hjobs, rfl, hmoves, rfl⟩
    · exact absurd hj hne
  · exact absurd hj hne

/-- What a job does that does not wait is to do its first instruction. -/
theorem Does.exists_proceed (hnext : Next mayCrash t u) (h : Does i instr t u)
    (hcall : ∀ callback, instr ≠ .call callback) :
    ∃ before after j rest, t.jobs = before ++ j :: after ∧ before.length = i ∧
      j.todo = instr :: rest ∧
      u = t.proceed before after (j.follow rest (instr.run t.now t.state)) := by
  obtain ⟨j, rest, hj, htodo, hne⟩ := h
  obtain ⟨before, after, next, hjobs, hi, hmoves, rfl⟩ := moves_of_ne hnext hj hne
  exact ⟨before, after, j, rest, hjobs, hi, htodo, by rw [hmoves.eq_follow htodo hcall]⟩

theorem does_proceed (hjobs : t.jobs = before ++ j :: after)
    (hmoves : j.Moves mayCrash t.now t.state next) {rest : List Instr}
    (htodo : j.todo = instr :: rest) (hcall : ∀ callback, instr ≠ .call callback) :
    Does before.length instr t (t.proceed before after next) := by
  refine ⟨j, rest, getElem?_of_jobs hjobs, htodo, fun he => ?_⟩
  rw [getElem?_proceed hjobs, if_pos rfl] at he
  exact hmoves.ne htodo hcall (Option.some.inj he)

/-! ### Where a job comes from -/

/-- Every job was started as some operation, and comes to the instructions of that one. -/
theorem exists_startedAs {name : String} {limits : Limits} {destructs : Bool} {stock : Stock}
    (h : Run mayCrash (.new name limits destructs stock) path t) (hj : t.jobs[i]? = some j) :
    ∃ op, StartedAs path i op ∧ op.Pursues j.todo := by
  induction h generalizing j with
  | refl => cases hj
  | @next path t u hrun hnext hown ih =>
    have hold {j : Job} (hj : t.jobs[i]? = some j) :
        ∃ op, StartedAs (path ++ [(t, u)]) i op ∧ op.Pursues j.todo := by
      obtain ⟨op, hstarted, hpursues⟩ := ih hj
      exact ⟨op, hstarted.append _, hpursues⟩
    rcases next_cases hnext with ⟨op, hop, rfl⟩ | ⟨before, after, k, next, hjobs, hmoves, rfl⟩ |
      ⟨later, stock, hlength, hdestroyed, rfl⟩
    · rcases Nat.lt_or_ge i t.jobs.length with hlt | hge
      · rw [List.getElem?_append_left hlt] at hj
        exact hold hj
      · obtain rfl : t.jobs.length = i := by
          have hi := (List.getElem?_eq_some_iff.mp hj).1
          simp only [List.length_append, List.length_singleton] at hi
          omega
        rw [List.getElem?_append_right (Nat.le_refl _)] at hj
        rw [List.mem_singleton.mp (List.mem_of_getElem? hj)]
        refine ⟨op, ⟨_, List.mem_append_right _ List.mem_cons_self, rfl, rfl⟩, op.pursues_job⟩
    · rw [getElem?_proceed hjobs] at hj
      split at hj
      · rename_i hi
        subst hi
        obtain rfl := Option.some.inj hj
        obtain ⟨op, hstarted, hpursues⟩ := hold (getElem?_of_jobs hjobs)
        exact ⟨op, hstarted, hmoves.pursues hpursues⟩
      · exact hold hj
    · exact hold hj

/-! ### Jobs that nothing comes between -/

/-- What a job of an open pool can have left to do, where nothing came between. -/
inductive Course (path : List (Traffic × Traffic)) (i : Nat) (sets : Sets) : List Instr → Prop where
  | careful {todo : List Instr} : Careful sets todo → Course path i sets todo
  | sweep : StartedAs path i .sweep → Course path i sets [.sweep]
  | sweeps {todo : List Instr} :
      (∀ k ∈ todo, (∃ r, k = .destroy r ∧ Took path i r) ∨ ∃ r, k = .call (.destructor r)) →
      Course path i sets todo
  | discards {todo : List Instr} (r : ResourceId) : StartedAs path i (.discard r) →
      todo <:+ [.withdraw r, .dispose r .delayed] → Course path i sets todo

namespace Course

variable {sets : Sets} {todo : List Instr}

theorem append (h : Course path i sets todo) (path' : List (Traffic × Traffic)) :
    Course (path ++ path') i sets todo := by
  cases h with
  | careful h => exact .careful h
  | sweep h => exact .sweep (h.append path')
  | sweeps h =>
    refine .sweeps fun k hk => (h k hk).imp_left ?_
    rintro ⟨r, rfl, htook⟩
    exact ⟨r, rfl, htook.append path'⟩
  | discards r h htodo => exact .discards r (h.append path') htodo

/-- A job that is not busy stays what it is, whatever happens to the sets. -/
theorem of_not_busy (h : Course path i sets j.todo) (hj : ¬ j.Busy) (sets' : Sets) :
    Course path i sets' j.todo := by
  have hbusy {k : Instr} {rest : List Instr} (htodo : j.todo = k :: rest)
      (hcall : ∀ callback, k ≠ .call callback) : j.Busy := by
    refine ⟨by rw [htodo]; exact List.cons_ne_nil _ _, ?_⟩
    cases hwaits : j.waitsFor with
    | none => rfl
    | some callback =>
      obtain ⟨rest', he⟩ := Job.todo_of_waitsFor hwaits
      rw [htodo] at he
      exact absurd (List.cons.inj he).1 (hcall callback)
  generalize htodo : j.todo = todo at h ⊢
  cases h with
  | careful h =>
    cases h with
    | spares h => exact .careful (.spares h)
    | destroys r => exact absurd (hbusy htodo nofun) hj
    | disposes r d => exact absurd (hbusy htodo nofun) hj
  | sweep h => exact .sweep h
  | sweeps h => exact .sweeps h
  | discards r h htodo => exact .discards r h htodo

/-- A sweep goes on to destroy what it took, and nothing else. -/
theorem sweeps_leads {e : Effect} {rest : List Instr} (hleads : instr.Leads t.now t.state e)
    (h : ∀ k ∈ instr :: rest,
      (∃ r, k = .destroy r ∧ Took path i r) ∨ ∃ r, k = .call (.destructor r)) :
    ∀ k ∈ e.next ++ rest,
      (∃ r, k = .destroy r ∧ Took path i r) ∨ ∃ r, k = .call (.destructor r) := by
  intro k hk
  rcases List.mem_append.mp hk with hk | hk
  · rcases h instr List.mem_cons_self with ⟨r, rfl, -⟩ | ⟨r, rfl⟩
    · cases hleads with
      | destroyed => cases hk
      | destroy =>
        dsimp only at hk
        split at hk
        · exact Or.inr ⟨r, List.mem_singleton.mp hk⟩
        · cases hk
    · cases hleads with
      | destructor => cases hk
  · exact h k (List.mem_cons_of_mem _ hk)

/-- A job that moves keeps to its course. -/
theorem moves (h : Course path before.length t.state.sets j.todo) (howned : t.Owned)
    (hjobs : t.jobs = before ++ j :: after) (hmoves : j.Moves mayCrash t.now t.state next)
    (hopen : next.1.sets.closed = false) :
    Course (path ++ [(t, t.proceed before after next)]) before.length next.1.sets
      next.2.todo := by
  rcases hmoves.cases with rfl | ⟨instr, rest, e, htodo, hleads, rfl⟩ | ⟨-, hunwound⟩
  · exact h.append _
  · have hdoes := fun hcall => does_proceed hjobs hmoves htodo hcall
    have hn := howned.nodup_fresh_append hjobs
    rw [Job.fresh, htodo, List.flatMap_cons] at hn
    rw [htodo] at h
    cases h with
    | careful h =>
      have hi := hn.sublist ((List.sublist_append_left _ _).append_right _)
      exact .careful (h.leads hleads hi hopen)
    | sweep hstarted =>
      cases hleads with
      | sweep =>
        refine .sweeps fun k hk => Or.inl ?_
        replace hk := (List.mem_append.mp hk).resolve_right List.not_mem_nil
        obtain ⟨r, hr, rfl⟩ := List.mem_map.mp hk
        exact ⟨r, rfl, hstarted.append _, _, List.mem_append_right _ List.mem_cons_self,
          hdoes (fun _ he => by cases he), Sets.mem_takeDue.mp hr⟩
    | sweeps h => exact Course.append (.sweeps (sweeps_leads hleads h)) _
    | discards r hstarted hsuffix =>
      refine .discards r (hstarted.append _) ?_
      rcases List.suffix_cons_iff.mp hsuffix with he | hsuffix
      · obtain ⟨rfl, rfl⟩ := List.cons.inj he
        cases hleads with
        | withdraw => exact List.suffix_cons _ _
      · rcases List.suffix_cons_iff.mp hsuffix with he | hsuffix
        · obtain ⟨rfl, rfl⟩ := List.cons.inj he
          cases hleads with
          | giveUpClosed _ hclosed =>
            cases hclosed.symm.trans hopen
          | giveUp => exact List.nil_suffix
        · cases List.suffix_nil.mp hsuffix
  · refine .careful (.spares fun k hk => ?_)
    obtain ⟨-, r, rfl⟩ := hunwound.todo k hk
    trivial

/-- What is in a set is destroyed by a sweep that took it before. -/
theorem took_of_mem {rest : List Instr} (h : Course path i sets (.destroy r :: rest))
    (hr : r ∈ sets.members) : Took path i r := by
  cases h with
  | careful h =>
    cases h with
    | spares h => exact (h _ List.mem_cons_self).elim
    | destroys _ hnot _ => exact absurd hr hnot
  | sweeps h =>
    rcases h _ List.mem_cons_self with ⟨x, he, htook⟩ | ⟨x, he⟩
    · exact Instr.destroy.inj he ▸ htook
    · cases he
  | discards x _ hsuffix =>
    rcases List.mem_pair.mp (hsuffix.subset List.mem_cons_self) with he | he <;> cases he

/-- What is in a set is given up by being discarded. -/
theorem discard_of_mem {rest : List Instr}
    (h : Course path i sets (.dispose r .delayed :: rest)) (hr : r ∈ sets.members) :
    StartedAs path i (.discard r) := by
  cases h with
  | careful h =>
    cases h with
    | spares h => exact (h _ List.mem_cons_self).elim
    | disposes _ _ hnot _ => exact absurd hr hnot
  | sweeps h => rcases h _ List.mem_cons_self with ⟨x, he, -⟩ | ⟨x, he⟩ <;> cases he
  | discards x hstarted hsuffix =>
    rcases List.mem_pair.mp (hsuffix.subset List.mem_cons_self) with he | he
    · cases he
    · exact (Instr.dispose.inj he).1 ▸ hstarted

end Course

/-- What every job of the pool has left to do while it is open, where nothing came between. -/
def Untangled (path : List (Traffic × Traffic)) (t : Traffic) : Prop :=
  t.state.sets.closed = false → ∀ i j, t.jobs[i]? = some j → Course path i t.state.sets j.todo

namespace Untangled

theorem start (h : Untangled path t) (op : Operation) :
    Untangled (path ++ [(t, { t with jobs := t.jobs ++ [op.job] })])
      { t with jobs := t.jobs ++ [op.job] } := by
  intro hopen i j hj
  rcases Nat.lt_or_ge i t.jobs.length with hlt | hge
  · rw [List.getElem?_append_left hlt] at hj
    exact (h hopen i j hj).append _
  · rw [List.getElem?_append_right hge] at hj
    have hi : t.jobs.length = i := by
      have hlt := (List.getElem?_eq_some_iff.mp hj).1
      rw [List.length_singleton] at hlt
      omega
    rw [List.mem_singleton.mp (List.mem_of_getElem? hj)]
    have hstarted : StartedAs (path ++ [(t, { t with jobs := t.jobs ++ [op.job] })]) i op :=
      ⟨_, List.mem_append_right _ List.mem_cons_self, hi, rfl⟩
    cases op with
    | sweep => exact .sweep hstarted
    | discard r => exact .discards r hstarted List.suffix_rfl
    | _ =>
      refine .careful (.spares fun k hk => ?_)
      rw [List.mem_singleton.mp hk]
      trivial

theorem proceed (h : Untangled path t) (howned : t.Owned) (hjobs : t.jobs = before ++ j :: after)
    (hmoves : j.Moves mayCrash t.now t.state next)
    (hun : t.Uninterrupted (t.proceed before after next)) :
    Untangled (path ++ [(t, t.proceed before after next)]) (t.proceed before after next) := by
  intro hopen i k hk
  have hbefore : t.state.sets.closed = false := by
    by_contra hclosed
    rw [Bool.not_eq_false] at hclosed
    have hshut := hmoves.sets (howned.shut hclosed)
    change next.1.sets.closed = false at hopen
    rw [hshut] at hopen
    cases hopen
  rw [getElem?_proceed hjobs] at hk
  split at hk
  · rename_i hi
    subst hi
    obtain rfl := Option.some.inj hk
    exact (h hbefore _ j (getElem?_of_jobs hjobs)).moves howned hjobs hmoves hopen
  · rename_i hi
    have hcourse := h hbefore i k hk
    refine Course.append ?_ _
    rcases hun with hsame | hun
    · have he : j = next.2 := by
        rw [hjobs] at hsame
        exact (List.cons.inj (List.append_cancel_left hsame)).1
      change Course path i next.1.sets k.todo
      rw [hmoves.sets_eq he.symm]
      exact hcourse
    · refine hcourse.of_not_busy (fun hbusy => ?_) _
      refine hun (k, k) ?_ hbusy rfl
      apply List.mem_of_getElem? (i := i)
      rw [List.getElem?_zip_eq_some, getElem?_proceed hjobs, if_neg hi]
      exact ⟨hk, hk⟩

theorem of_run {name : String} {limits : Limits} {destructs : Bool} {stock : Stock}
    (h : Run mayCrash (.new name limits destructs stock) path t)
    (hun : ∀ p ∈ path, p.1.Uninterrupted p.2) : Untangled path t := by
  induction h with
  | refl => exact fun _ _ _ hj => nomatch hj
  | @next path t u hrun hnext hown ih =>
    have hbefore := ih fun p hp => hun p (List.mem_append_left _ hp)
    have hlast : t.Uninterrupted u := hun _ (List.mem_append_right _ List.mem_cons_self)
    rcases next_cases hnext with ⟨op, hop, rfl⟩ | ⟨before, after, j, next, hjobs, hmoves, rfl⟩ |
      ⟨later, stock, hlength, hdestroyed, rfl⟩
    · exact hbefore.start op
    · exact hbefore.proceed (Lendable.of_run hrun).1 hjobs hmoves hlast
    · exact fun hopen i j hj => (hbefore hopen i j hj).append _

end Untangled

end Traffic

end Stockroom.Pool

import Stockroom.Pool.Leasing
import Stockroom.Proofs.Pool.Maintenance

/-! A loan gives its resource back on every path. While the resource is out, whatever is left to do
leads to handing it in; once it is handed in, it is in a set from which nothing is lent, or on its
way to its destruction and never comes back. -/

namespace Stockroom.Pool
set_option autoImplicit false

/-! ### What a loan has left to do -/

/-- The loan of a resource that was taken from no set yet. -/
inductive Asks : List Instr → Prop where
  | claiming : Asks [.claim .lend]
  | making : Asks [.call (.make .lend)]
  | enrolling (r : ResourceId) : Asks [.enroll .lend r]

/-- The resource is out, and is going to be handed in. -/
inductive Holds (r : ResourceId) : List Instr → Prop where
  | running : Holds r [.call (.body r), .giveBack r]
  | returning : Holds r [.giveBack r]
  | putting : Holds r [.put r .immediate]

/-- The resource is about to be destroyed, or being destroyed. -/
inductive Parts (r : ResourceId) : List Instr → Prop where
  | disposing : Parts r [.dispose r .immediate]
  | destroying : Parts r [.destroy r]
  | destructing : Parts r [.call (.destructor r)]

section
variable {mayCrash : Callback → Prop} {now : Instant} {s : State} {j : Job} {next : State × Job}
  {r x : ResourceId}

theorem Holds.eq_of_waitsFor (h : Holds r j.todo) (hwaits : j.waitsFor = some (.body x)) :
    x = r := by
  obtain ⟨rest, htodo⟩ := Job.todo_of_waitsFor hwaits
  rw [htodo] at h
  cases h
  rfl

theorem Parts.not_waitsFor (h : Parts r j.todo) : j.waitsFor ≠ some (.body x) := by
  intro hwaits
  obtain ⟨rest, htodo⟩ := Job.todo_of_waitsFor hwaits
  rw [htodo] at h
  cases h

theorem Asks.not_waitsFor (h : Asks j.todo) : j.waitsFor ≠ some (.body x) := by
  intro hwaits
  obtain ⟨rest, htodo⟩ := Job.todo_of_waitsFor hwaits
  rw [htodo] at h
  cases h

/-- Whatever the body does, the job goes on to hand in the resource. -/
theorem Holds.moves (h : Holds r j.todo) (hmoves : j.Moves mayCrash now s next) :
    next.1 = s ∧ Holds r next.2.todo ∨
      j.todo = [.put r .immediate] ∧ next = j.follow [] ((Instr.put r .immediate).run now s) := by
  have hback : ∀ callback, Instr.giveBack r ≠ .call callback := nofun
  have hput : ∀ callback, Instr.put r .immediate ≠ .call callback := nofun
  cases htodo : j.todo with
  | nil =>
    rw [htodo] at h
    cases h
  | cons i rest =>
    rw [htodo] at h
    cases h with
    | running =>
      refine Or.inl ?_
      cases hmoves with
      | step =>
        rw [Job.step, htodo]
        exact ⟨rfl, .running⟩
      | reply callback reply hwaits _ =>
        rw [Job.reply, htodo]
        cases reply with
        | crash text =>
          refine ⟨rfl, ?_⟩
          rw [Job.crash_todo]
          exact .returning
        | _ => exact ⟨rfl, .returning⟩
      | drop x hwaits =>
        refine ⟨rfl, ?_⟩
        rw [Job.unwind, htodo]
        exact .returning
    | returning =>
      rw [hmoves.eq_follow htodo hback]
      exact Or.inl ⟨rfl, .putting⟩
    | putting => exact Or.inr ⟨rfl, hmoves.eq_follow htodo hput⟩

/-- A resource that is handed in is not lent any more. If there is more to do, it is idle no more
either. -/
theorem put_cases (hn : s.sets.members.Nodup) (hshut : s.Shut) (now : Instant) (r : ResourceId) :
    (((Instr.put r .immediate).run now s).next = [] ∧
        r ∉ ((Instr.put r .immediate).run now s).state.sets.lent) ∨
      Parts r ((Instr.put r .immediate).run now s).next ∧
        r ∉ ((Instr.put r .immediate).run now s).state.sets.active := by
  rw [Instr.run]
  split
  · rename_i hclosed
    refine Or.inr ⟨.destroying, ?_⟩
    rw [hshut hclosed]
    exact List.not_mem_nil
  · have hnot : r ∉ (s.sets.receive s.limits.maxSize r).sets.lent :=
      Sets.not_mem_lent_receive (Sets.active_nodup hn) _
    split
    · rename_i sets hreceive
      rw [hreceive] at hnot
      exact Or.inl ⟨rfl, hnot⟩
    · rename_i sets hreceive
      exact Or.inr ⟨.disposing, (Sets.receive_leaving_moved _ hn hreceive).2⟩

/-- A resource counts as destroyed before its destructor is called. -/
theorem run_destroy (now : Instant) (s : State) (r : ResourceId) :
    ((Instr.destroy r).run now s).state.sets = s.sets ∧
      ((Instr.destroy r).run now s).state.stock.length = s.stock.length ∧
      (((Instr.destroy r).run now s).next = [] ∨
        ((Instr.destroy r).run now s).next = [.call (.destructor r)]) ∧
      ∀ x, ((Instr.destroy r).run now s).state.stock.isDestroyed x =
        (s.stock.isDestroyed x || r == x) := by
  rw [Instr.run]
  split
  · rename_i hdestroyed
    refine ⟨rfl, rfl, Or.inl rfl, fun x => ?_⟩
    by_cases hx : r = x
    · rw [← hx, hdestroyed, Bool.true_or]
    · rw [beq_eq_false_iff_ne.mpr hx, Bool.or_false]
  · refine ⟨rfl, Stock.length_markDestroyed _ _, ?_, Stock.isDestroyed_markDestroyed _ _⟩
    cases s.destructs with
    | true => exact Or.inr rfl
    | false => exact Or.inl rfl

/-- The destruction goes on until it is done, or until the destructor crashes. -/
theorem Parts.moves (h : Parts r j.todo) (hmoves : j.Moves mayCrash now s next) :
    next.1.sets = s.sets ∧ next.1.stock.length = s.stock.length ∧
      (Parts r next.2.todo ∨ next.2.todo = []) ∧
      (r ∈ j.condemned ∨ s.stock.isDestroyed r = true →
        r ∈ next.2.condemned ∨ next.1.stock.isDestroyed r = true) := by
  have hbody : ∀ x, Callback.destructor r ≠ .body x := nofun
  obtain ⟨todo, result⟩ := j
  dsimp only at h
  cases h with
  | disposing =>
    rw [hmoves.eq_follow rfl nofun]
    exact ⟨rfl, rfl, Or.inl .destroying, fun _ => Or.inl List.mem_cons_self⟩
  | destroying =>
    obtain ⟨hsets, hlength, hnext, hdestroyed⟩ := run_destroy now s r
    rw [hmoves.eq_follow rfl nofun, Job.follow, List.append_nil]
    refine ⟨hsets, hlength, ?_, fun _ => Or.inr ?_⟩
    · rcases hnext with hnext | hnext
      · exact Or.inr hnext
      · exact Or.inl (hnext ▸ .destructing)
    · rw [hdestroyed, beq_self_eq_true, Bool.or_true]
  | destructing =>
    have hgone : r ∈ Job.condemned { todo := [.call (.destructor r)], result } ∨
        s.stock.isDestroyed r = true → s.stock.isDestroyed r = true :=
      fun h => h.resolve_left List.not_mem_nil
    rcases hmoves.eq_reply rfl hbody with rfl | ⟨reply, -, rfl⟩
    · exact ⟨rfl, rfl, Or.inl .destructing, fun h => Or.inr (hgone h)⟩
    · cases reply with
      | crash text =>
        refine ⟨rfl, rfl, Or.inr ?_, fun h => Or.inr (hgone h)⟩
        exact Job.crash_todo _ text
      | _ => exact ⟨rfl, rfl, Or.inr rfl, fun h => Or.inr (hgone h)⟩

/-- A loan that has no resource yet may get one, or not, or go on asking. -/
theorem Asks.moves (h : Asks j.todo) (hmoves : j.Moves mayCrash now s next) :
    Asks next.2.todo ∨ (∃ x, Parts x next.2.todo) ∨ next.2.todo = [] ∨
      ∃ x, next.2.todo = [.call (.body x), .giveBack x] := by
  have hbody : ∀ x, Callback.make .lend ≠ .body x := nofun
  have henroll : ∀ x callback, Instr.enroll .lend x ≠ .call callback := nofun
  cases htodo : j.todo with
  | nil =>
    rw [htodo] at h
    cases h
  | cons i rest =>
    rw [htodo] at h
    cases h with
    | claiming =>
      rw [hmoves.eq_follow htodo nofun, Instr.run]
      split
      · exact Or.inr (Or.inr (Or.inl rfl))
      · split
        · exact Or.inr (Or.inr (Or.inr ⟨_, rfl⟩))
        · exact Or.inl .making
    | making =>
      rcases hmoves.eq_reply htodo hbody with rfl | ⟨reply, -, rfl⟩
      · exact Or.inl (htodo ▸ .making)
      · rw [Job.reply, htodo]
        cases reply with
        | ok => exact Or.inl (.enrolling _)
        | fail text => exact Or.inr (Or.inr (Or.inl rfl))
        | crash text =>
          refine Or.inr (Or.inr (Or.inl ?_))
          rw [Job.crash_todo]
          rfl
    | enrolling x =>
      rw [hmoves.eq_follow htodo (henroll x), Instr.run]
      split
      · exact Or.inr (Or.inl ⟨x, .destroying⟩)
      · exact Or.inr (Or.inr (Or.inr ⟨x, rfl⟩))

end

/-! ### Nothing is lent that was handed in -/

namespace Traffic

variable {mayCrash : Callback → Prop} {t u : Traffic} {path : List (Traffic × Traffic)} {i : Nat}
  {j : Job} {r : ResourceId}

theorem lent_append (path path' : List (Traffic × Traffic)) :
    Lent (path ++ path') i r ↔ Lent path i r ∨ Lent path' i r := by
  simp only [Lent, List.mem_append, or_and_right, exists_or]

theorem lent_singleton (hj : u.jobs[i]? = some j) :
    Lent [(t, u)] i r ↔ j.waitsFor = some (.body r) := by
  constructor
  · rintro ⟨p, hp, k, hk, hwaits⟩
    rw [List.mem_singleton.mp hp] at hk
    obtain rfl := Option.some.inj (hj.symm.trans hk)
    exact hwaits
  · exact fun hwaits => ⟨_, List.mem_cons_self, j, hj, hwaits⟩

/-- Where a job can be after one step: where it was, or where its own move takes it. -/
theorem job_of_next (hnext : Next mayCrash t u) (hj : t.jobs[i]? = some j) :
    u.jobs[i]? = some j ∨ ∃ before after next, t.jobs = before ++ j :: after ∧
      before.length = i ∧ j.Moves mayCrash t.now t.state next ∧
      u = t.proceed before after next ∧ u.jobs[i]? = some next.2 := by
  by_cases hsame : u.jobs[i]? = some j
  · exact Or.inl hsame
  · obtain ⟨before, after, next, hjobs, hi, hmoves, rfl⟩ := moves_of_ne hnext hj hsame
    refine Or.inr ⟨before, after, next, hjobs, hi, hmoves, rfl, ?_⟩
    rw [getElem?_proceed hjobs, if_pos hi]

theorem handles_subset_of_next (hnext : Next mayCrash t u) : t.handles ⊆ u.handles := by
  rcases next_cases hnext with ⟨op, -, rfl⟩ | ⟨before, after, j, next, -, -, rfl⟩ |
    ⟨later, stock, -, -, rfl⟩
  · exact List.Subset.refl _
  · exact List.subset_append_right _ _
  · exact List.Subset.refl _

/-- What was handed out once is not new, so it cannot come back into the sets but by somebody who
has it in a set. -/
theorem Owned.not_active_of_next (h : t.Owned) (hnext : Next mayCrash t u) (hr : r ∈ t.handles)
    (hout : r ∉ t.state.sets.active) : r ∉ u.state.sets.active := by
  rcases next_cases hnext with ⟨op, -, rfl⟩ | ⟨before, after, j, next, hjobs, hmoves, rfl⟩ |
    ⟨later, stock, -, -, rfl⟩
  · exact hout
  · intro hin
    rcases h.active_proceed hjobs hmoves hin with hin | hfresh
    · exact hout hin
    · exact (h.sound.seen r (mem_seen.mpr (Or.inr (Or.inl hr)))).2 hfresh
  · exact hout

/-- How far a loan has come, and where the resource is that was lent. -/
inductive Loan (path : List (Traffic × Traffic)) (i : Nat) (t : Traffic) : List Instr → Prop where
  | asks {todo : List Instr} : Asks todo → (∀ r, ¬ Lent path i r) → Loan path i t todo
  | holds {todo : List Instr} (r : ResourceId) : Holds r todo → r ∈ t.handles →
      (∀ x, Lent path i x → x = r) → Loan path i t todo
  | parts {todo : List Instr} (x : ResourceId) : Parts x todo →
      (∀ r, Lent path i r → r ∈ t.handles ∧ r ∉ t.state.sets.active) → Loan path i t todo
  | ended {todo : List Instr} : todo = [] → Loan path i t todo

namespace Loan

/-- The job stays where it is while others go on. -/
theorem stay (h : Loan path i t j.todo) (howned : t.Owned) (hnext : Next mayCrash t u)
    (hj : u.jobs[i]? = some j) : Loan (path ++ [(t, u)]) i u j.todo := by
  have hlent : ∀ x, Lent (path ++ [(t, u)]) i x → Lent path i x ∨ j.waitsFor = some (.body x) := by
    intro x hx
    exact ((lent_append path _).mp hx).imp_right (lent_singleton hj).mp
  cases h with
  | asks hasks hnone =>
    refine .asks hasks fun x hx => ?_
    exact (hlent x hx).elim (hnone x) hasks.not_waitsFor
  | holds r hholds hr hone =>
    refine .holds r hholds (handles_subset_of_next hnext hr) fun x hx => ?_
    exact (hlent x hx).elim (hone x) hholds.eq_of_waitsFor
  | parts x hparts hgone =>
    refine .parts x hparts fun r hr => ?_
    obtain ⟨hhandle, hout⟩ := hgone r ((hlent r hr).resolve_right hparts.not_waitsFor)
    exact ⟨handles_subset_of_next hnext hhandle, howned.not_active_of_next hnext hhandle hout⟩
  | ended htodo => exact .ended htodo

/-- The job goes on. If it ends by that, what it was lent is not lent any more. -/
theorem proceed {before after : List Job} {next : State × Job} (h : Loan path before.length t j.todo)
    (howned : t.Owned) (hjobs : t.jobs = before ++ j :: after)
    (hmoves : j.Moves mayCrash t.now t.state next)
    (hnext : Next mayCrash t (t.proceed before after next)) :
    Loan (path ++ [(t, t.proceed before after next)]) before.length (t.proceed before after next)
      next.2.todo ∧
    (j.todo ≠ [] → next.2.todo = [] → ∀ r, Lent path before.length r → r ∉ next.1.sets.lent) := by
  have hj : (t.proceed before after next).jobs[before.length]? = some next.2 := by
    rw [getElem?_proceed hjobs, if_pos rfl]
  have hlent : ∀ x, Lent (path ++ [(t, t.proceed before after next)]) before.length x →
      Lent path before.length x ∨ next.2.waitsFor = some (.body x) := by
    intro x hx
    exact ((lent_append path _).mp hx).imp_right (lent_singleton hj).mp
  cases h with
  | asks hasks hnone =>
    refine ⟨?_, fun _ _ r hr => absurd hr (hnone r)⟩
    rcases hasks.moves hmoves with hasks' | ⟨x, hparts⟩ | hend | ⟨x, hrunning⟩
    · exact .asks hasks' fun x hx => (hlent x hx).elim (hnone x) hasks'.not_waitsFor
    · exact .parts x hparts fun r hr => absurd hr fun hr =>
        (hlent r hr).elim (hnone r) hparts.not_waitsFor
    · exact .ended hend
    · have hholds : Holds x next.2.todo := hrunning ▸ .running
      refine .holds x hholds (List.mem_append_left _ (List.mem_append_right _ ?_)) fun y hy => ?_
      · rw [Job.waitsFor_of_todo hrunning]
        exact List.mem_cons_self
      · exact hholds.eq_of_waitsFor ((hlent y hy).resolve_left (hnone y))
  | holds r hholds hr hone =>
    have hr' : r ∈ (t.proceed before after next).handles := handles_subset_of_next hnext hr
    rcases hholds.moves hmoves with ⟨-, hholds'⟩ | ⟨htodo, rfl⟩
    · refine ⟨.holds r hholds' hr' fun x hx => ?_, fun _ hend => ?_⟩
      · exact (hlent x hx).elim (hone x) hholds'.eq_of_waitsFor
      · rw [hend] at hholds'
        cases hholds'
    · rcases put_cases howned.sound.members howned.shut t.now r with ⟨hend, hout⟩ | ⟨hparts, hout⟩
      · refine ⟨.ended (by rw [Job.follow, hend]; rfl), fun _ _ x hx => ?_⟩
        rw [hone x hx]
        exact hout
      · have hparts' : Parts r (j.follow [] ((Instr.put r .immediate).run t.now t.state)).2.todo := by
          rw [Job.follow, List.append_nil]
          exact hparts
        refine ⟨.parts r hparts' fun x hx => ?_, fun _ hend => ?_⟩
        · rw [hone x ((hlent x hx).resolve_right hparts'.not_waitsFor)]
          exact ⟨hr', hout⟩
        · rw [hend] at hparts'
          cases hparts'
  | parts x hparts hgone =>
    have hout : ∀ r, Lent path before.length r →
        r ∈ (t.proceed before after next).handles ∧ r ∉ next.1.sets.active := by
      intro r hr
      obtain ⟨hhandle, hout⟩ := hgone r hr
      exact ⟨handles_subset_of_next hnext hhandle, howned.not_active_of_next hnext hhandle hout⟩
    obtain ⟨-, -, hparts' | hend, -⟩ := hparts.moves hmoves
    · refine ⟨.parts x hparts' fun r hr => ?_, fun _ hend => ?_⟩
      · exact hout r ((hlent r hr).resolve_right hparts'.not_waitsFor)
      · rw [hend] at hparts'
        cases hparts'
    · refine ⟨.ended hend, fun _ _ r hr hin => ?_⟩
      exact (hout r hr).2 (Sets.lent_subset_active hin)
  | ended htodo =>
    rw [hmoves.ended htodo]
    exact ⟨.ended htodo, fun hne => absurd htodo hne⟩

/-- One step of the pool. The second part is about the step with which the loan ends. -/
theorem of_next (h : Loan path i t j.todo) (howned : t.Owned) (hnext : Next mayCrash t u)
    (hj : t.jobs[i]? = some j) : ∃ k, u.jobs[i]? = some k ∧ Loan (path ++ [(t, u)]) i u k.todo ∧
      (j.todo ≠ [] → k.todo = [] → ∀ r, Lent path i r → r ∉ u.state.sets.lent) := by
  rcases job_of_next hnext hj with hk | ⟨before, after, next, hjobs, rfl, hmoves, rfl, hk⟩
  · exact ⟨j, hk, h.stay howned hnext hk, fun hne hend => absurd hend hne⟩
  · exact ⟨next.2, hk, h.proceed howned hjobs hmoves hnext⟩

end Loan

theorem length_jobs_of_next (hnext : Next mayCrash t u) : t.jobs.length ≤ u.jobs.length := by
  rcases next_cases hnext with ⟨op, -, rfl⟩ | ⟨before, after, j, next, hjobs, -, rfl⟩ |
    ⟨later, stock, -, -, rfl⟩
  · simp
  · simp [Traffic.proceed, hjobs]
  · exact Nat.le_refl _

theorem length_jobs_of_run {s : Traffic} (h : Run mayCrash s path t) :
    ∀ p ∈ path, p.1.jobs.length ≤ p.2.jobs.length ∧ p.2.jobs.length ≤ t.jobs.length := by
  induction h with
  | refl => exact List.forall_mem_nil _
  | next _ hnext _ ih =>
    have hle := length_jobs_of_next hnext
    intro p hp
    rcases List.mem_append.mp hp with hp | hp
    · exact ⟨(ih p hp).1, Nat.le_trans (ih p hp).2 hle⟩
    · rw [List.mem_singleton.mp hp]
      exact ⟨hle, Nat.le_refl _⟩

variable {name : String} {limits : Limits} {destructs : Bool} {stock : Stock}

theorem loan_of_run (h : Run mayCrash (.new name limits destructs stock) path t)
    (hexec : StartedAs path i .exec) : ∃ j, t.jobs[i]? = some j ∧ Loan path i t j.todo := by
  induction h with
  | refl =>
    obtain ⟨p, hp, -⟩ := hexec
    cases hp
  | @next path t u hrun hnext _ ih =>
    obtain ⟨p, hp, hi, hjobs⟩ := hexec
    rcases List.mem_append.mp hp with hp | hp
    · obtain ⟨j, hj, hloan⟩ := ih ⟨p, hp, hi, hjobs⟩
      obtain ⟨k, hk, hloan', -⟩ := hloan.of_next (Lendable.of_run hrun).1 hnext hj
      exact ⟨k, hk, hloan'⟩
    · obtain rfl := List.mem_singleton.mp hp
      have hk : u.jobs[i]? = some .exec := by
        rw [hjobs, ← hi]
        exact List.getElem?_concat_length
      refine ⟨.exec, hk, .asks .claiming fun r hr => ?_⟩
      rcases (lent_append path _).mp hr with ⟨q, hq, j, hj, -⟩ | hr
      · have hlt := (List.getElem?_eq_some_iff.mp hj).1
        have hle := (length_jobs_of_run hrun q hq).2
        exact absurd hlt (Nat.not_lt.mpr (hi ▸ hle))
      · cases (lent_singleton hk).mp hr

end Traffic

/-! ### What an undisturbed loan leaves behind -/

namespace Sets

variable {sets : Sets} {u : Sets} {r : ResourceId}

theorem insert_erase_self {l : List ResourceId} (hr : r ∉ l) : (l.insert r).erase r = l := by
  rw [List.insert_of_not_mem hr, List.erase_cons_head]

/-- What was checked out comes back to where it was. -/
theorem receive_checkOut? (hn : sets.members.Nodup) (h : sets.checkOut? = some (r, u))
    (maxSize : Nat) : u.receive maxSize r = .kept sets := by
  obtain ⟨hlast, rfl⟩ := eq_of_checkOut? h
  have ha := active_nodup hn
  have hidle : sets.idle.dropLast ++ [r] = sets.idle := List.dropLast_append_getLast? r hlast
  have hnot : r ∉ sets.idle.dropLast := by
    have hnodup := idle_nodup ha
    rw [← hidle] at hnodup
    exact fun hr => (List.nodup_append.mp hnodup).2.2 r hr r List.mem_cons_self rfl
  have hout := not_checkedOut_of_idle ha (List.mem_of_getLast? hlast)
  rw [receive, if_pos List.mem_insert_self]
  simp only [appendNew, if_neg hnot, hidle, insert_erase_self hout]

/-- What was made for a loan stays if there is room for it, and then nothing else is idle. -/
theorem receive_enroll (hr : r ∉ sets.active) (hidle : sets.idle = []) (maxSize : Nat) :
    (sets.enroll maxSize r).receive maxSize r =
      if sets.checkedOut.length < maxSize then .kept { sets with idle := [r] }
      else .leaving sets := by
  have hout : r ∉ sets.checkedOut := fun h => hr (mem_active.mpr (Or.inr (Or.inl h)))
  have hover : r ∉ sets.overflow := fun h => hr (mem_active.mpr (Or.inr (Or.inr h)))
  by_cases hroom : sets.checkedOut.length < maxSize
  · rw [enroll, if_neg (Nat.not_le.mpr hroom), receive, if_pos List.mem_insert_self, if_pos hroom]
    simp only [insert_erase_self hout, hidle]
    rfl
  · rw [enroll, if_pos (Nat.not_lt.mp hroom), receive, if_neg hout, if_pos List.mem_insert_self,
      if_neg (by simpa [hidle] using hroom), if_neg hroom]
    simp only [insert_erase_self hover]

end Sets

namespace Traffic

variable {mayCrash : Callback → Prop} {t u v : Traffic} {path : List (Traffic × Traffic)} {i : Nat}
  {j : Job} {r : ResourceId} {before after : List Job} {next : State × Job}

theorem made_proceed_of_stock (h : next.1.stock.length = t.state.stock.length) :
    (t.proceed before after next).made = t.made := by
  rw [Traffic.proceed, h, Nat.sub_self]
  exact List.append_nil _

theorem made_proceed_of_add (h : next.1.stock.length = t.state.stock.length + 1) :
    (t.proceed before after next).made = t.made ++ [t.state.stock.length] := by
  rw [Traffic.proceed, h, Nat.add_sub_cancel_left]
  rfl

/-- Where the job at one place is alone, it moves, or nothing happens to the sets. -/
theorem alone_cases (hnext : Next mayCrash t u) (hj : t.jobs[i]? = some j)
    (halone : ∀ k ≠ i, u.jobs[k]? = t.jobs[k]?) :
    (u.jobs[i]? = some j ∧ u.state.sets = t.state.sets ∧ u.made = t.made) ∨
      ∃ before after next, t.jobs = before ++ j :: after ∧ before.length = i ∧
        j.Moves mayCrash t.now t.state next ∧ u = t.proceed before after next ∧
        u.jobs[i]? = some next.2 := by
  rcases next_cases hnext with ⟨op, -, rfl⟩ | ⟨before, after, k, next, hjobs, hmoves, rfl⟩ |
    ⟨later, stock, -, -, rfl⟩
  · have hi := (List.getElem?_eq_some_iff.mp hj).1
    have hnew := halone t.jobs.length (Nat.ne_of_gt hi)
    rw [List.getElem?_concat_length, List.getElem?_eq_none (Nat.le_refl _)] at hnew
    cases hnew
  · by_cases hi : before.length = i
    · subst hi
      obtain rfl := Option.some.inj ((getElem?_of_jobs hjobs).symm.trans hj)
      refine Or.inr ⟨before, after, next, hjobs, rfl, hmoves, rfl, ?_⟩
      rw [getElem?_proceed hjobs, if_pos rfl]
    · have hsame := halone before.length hi
      rw [getElem?_proceed hjobs, if_pos rfl, getElem?_of_jobs hjobs] at hsame
      have hstate := hmoves.state_eq (Option.some.inj hsame)
      refine Or.inl ⟨?_, congrArg State.sets hstate, made_proceed_of_stock (by rw [hstate])⟩
      rw [getElem?_proceed hjobs, if_neg hi]
      exact hj
  · exact Or.inl ⟨hj, rfl, rfl⟩

theorem Owned.destroyed_of_next (h : t.Owned) (hnext : Next mayCrash t u)
    (hlt : r < t.state.stock.length) (hr : t.state.stock.isDestroyed r = true) :
    u.state.stock.isDestroyed r = true := by
  rcases next_cases hnext with ⟨op, -, rfl⟩ | ⟨before, after, j, next, hjobs, hmoves, rfl⟩ |
    ⟨later, stock, -, hdestroyed, rfl⟩
  · exact hr
  · exact h.destroyed_proceed hjobs hmoves hlt hr
  · exact hdestroyed r hlt hr

/-- Nothing was idle, and this resource was made for the loan. -/
structure Brought (t u : Traffic) (r : ResourceId) : Prop where
  idle : t.state.sets.idle = []
  new : r ∉ t.made
  made : u.made = t.made ++ [r]

/-- How far a loan has come that nothing else happened beside, and what it has done to the sets. -/
inductive Stage (t u : Traffic) : List Instr → Prop where
  | claiming : u.state.sets = t.state.sets → u.made = t.made → Stage t u [.claim .lend]
  | making : t.state.sets.idle = [] → u.state.sets = t.state.sets → u.made = t.made →
      Stage t u [.call (.make .lend)]
  | enrolling (r : ResourceId) : Brought t u r → u.state.sets = t.state.sets →
      Stage t u [.enroll .lend r]
  | reusing {todo : List Instr} (r : ResourceId) : Holds r todo →
      t.state.sets.checkOut? = some (r, u.state.sets) → Stage t u todo
  | trying {todo : List Instr} (r : ResourceId) : Holds r todo → Brought t u r →
      r ∉ t.state.sets.active →
      u.state.sets = t.state.sets.enroll t.state.limits.maxSize r → Stage t u todo
  | spent {todo : List Instr} (r : ResourceId) : Parts r todo ∨ todo = [] → Brought t u r →
      t.state.limits.maxSize ≤ t.state.sets.checkedOut.length → u.state.sets = t.state.sets →
      r ∈ todo.flatMap Instr.condemns ∨ u.state.stock.isDestroyed r = true → Stage t u todo
  | kept {todo : List Instr} (r : ResourceId) : todo = [] → Brought t u r →
      t.state.sets.checkedOut.length < t.state.limits.maxSize →
      u.state.sets = { t.state.sets with idle := [r] } → Stage t u todo
  | returned {todo : List Instr} : todo = [] → t.state.sets.idle ≠ [] →
      u.state.sets = t.state.sets → Stage t u todo

namespace Stage

/-- Time passes, or other pools do something. -/
theorem stay {todo : List Instr} (h : Stage t u todo) (howned : u.Owned)
    (hnext : Next mayCrash u v) (hsets : v.state.sets = u.state.sets) (hmade : v.made = u.made) :
    Stage t v todo := by
  have hbrought : ∀ r, Brought t u r → Brought t v r := fun r h =>
    ⟨h.idle, h.new, hmade.trans h.made⟩
  cases h with
  | claiming h h' => exact .claiming (hsets.trans h) (hmade.trans h')
  | making hidle h h' => exact .making hidle (hsets.trans h) (hmade.trans h')
  | enrolling r hnew h => exact .enrolling r (hbrought r hnew) (hsets.trans h)
  | reusing r hholds h => exact .reusing r hholds (hsets ▸ h)
  | trying r hholds hnew hout h => exact .trying r hholds (hbrought r hnew) hout (hsets.trans h)
  | spent r hparts hnew hfull h hgone =>
    refine .spent r hparts (hbrought r hnew) hfull (hsets.trans h) (hgone.imp_right fun hr => ?_)
    have hmem : r ∈ u.made := hnew.made ▸ List.mem_append_right _ List.mem_cons_self
    exact howned.destroyed_of_next hnext (howned.known r hmem) hr
  | kept r htodo hnew hroom h => exact .kept r htodo (hbrought r hnew) hroom (hsets.trans h)
  | returned htodo hidle h => exact .returned htodo hidle (hsets.trans h)

section
variable {result : Result}

/-- The loan takes what is idle, or sends for a resource. -/
theorem claim (ht : t.state.sets.closed = false) (hsets : u.state.sets = t.state.sets)
    (hmade : u.made = t.made)
    (hmoves : ({ todo := [.claim .lend], result } : Job).Moves mayCrash u.now u.state next) :
    Stage t (u.proceed before after next) next.2.todo := by
  rw [hmoves.eq_follow rfl nofun, Instr.run, hsets, ht, if_neg Bool.false_ne_true]
  split
  · rename_i r sets hout
    exact .reusing r .running hout
  · rename_i hnone
    have hidle : t.state.sets.idle = [] :=
      List.getLast?_eq_none_iff.mp (Option.map_eq_none_iff.mp hnone)
    exact .making hidle hsets ((made_proceed_of_stock rfl).trans hmade)

/-- The factory makes the resource. -/
theorem make (howned : u.Owned) (hidle : t.state.sets.idle = [])
    (hsets : u.state.sets = t.state.sets) (hmade : u.made = t.made)
    (hmoves : ({ todo := [.call (.make .lend)], result } : Job).Moves mayCrash u.now u.state next)
    (hsupplied : next.2 = { todo := [.call (.make .lend)], result } ∨
      (u.proceed before after next).made ≠ u.made) :
    Stage t (u.proceed before after next) next.2.todo := by
  rcases hmoves.eq_reply rfl nofun with rfl | ⟨reply, -, rfl⟩
  · exact .making hidle hsets ((made_proceed_of_stock rfl).trans hmade)
  · cases reply with
    | ok =>
      refine .enrolling u.state.stock.length ⟨hidle, fun hmem => ?_, ?_⟩ hsets
      · exact Nat.lt_irrefl _ (howned.known _ (hmade ▸ hmem))
      · rw [made_proceed_of_add (List.length_append ..), hmade]
    | fail text =>
      rcases hsupplied with he | hne
      · cases he
      · exact absurd (made_proceed_of_stock rfl) hne
    | crash text =>
      rcases hsupplied with he | hne
      · have htodo := (Job.crash_todo { todo := [], result } text).symm.trans (congrArg Job.todo he)
        cases htodo
      · exact absurd (made_proceed_of_stock rfl) hne

/-- The resource is lent. -/
theorem enroll (ht : t.state.sets.closed = false) (howned : u.Owned)
    (hlimits : u.state.limits = t.state.limits) (hjobs : u.jobs = before ++ j :: after)
    (hj : j = { todo := [.enroll .lend r], result }) (hbrought : Brought t u r)
    (hsets : u.state.sets = t.state.sets) (hmoves : j.Moves mayCrash u.now u.state next) :
    Stage t (u.proceed before after next) next.2.todo := by
  have hout : r ∉ t.state.sets.active := by
    have hnodup := howned.nodup_fresh_append hjobs
    rw [hsets, hj] at hnodup
    intro hr
    exact (List.nodup_cons.mp hnodup).1 (Sets.mem_members.mpr (Or.inl hr))
  subst hj
  rw [hmoves.eq_follow rfl nofun, Instr.run, hsets, ht, if_neg Bool.false_ne_true, hlimits]
  refine .trying r .running ⟨hbrought.idle, hbrought.new, ?_⟩ hout rfl
  exact (made_proceed_of_stock rfl).trans hbrought.made

/-- What was idle before is idle again. -/
theorem putReused (hn : t.state.sets.members.Nodup) (ht : t.state.sets.closed = false)
    (hout : t.state.sets.checkOut? = some (r, u.state.sets)) :
    Stage t (u.proceed before after (j.follow [] ((Instr.put r .immediate).run u.now u.state)))
      (j.follow [] ((Instr.put r .immediate).run u.now u.state)).2.todo := by
  have hopen : u.state.sets.closed = false := (Sets.closed_checkOut? hout).trans ht
  have hidle : t.state.sets.idle ≠ [] := by
    intro hnil
    have hmem := List.mem_of_getLast? (Sets.eq_of_checkOut? hout).1
    rw [hnil] at hmem
    cases hmem
  rw [Instr.run, hopen, if_neg Bool.false_ne_true, Sets.receive_checkOut? hn hout]
  exact .returned rfl hidle rfl

/-- What was made for the loan is kept if there is room for it. -/
theorem putNew (ht : t.state.sets.closed = false) (hlimits : u.state.limits = t.state.limits)
    (hbrought : Brought t u r) (hout : r ∉ t.state.sets.active)
    (hsets : u.state.sets = t.state.sets.enroll t.state.limits.maxSize r) :
    Stage t (u.proceed before after (j.follow [] ((Instr.put r .immediate).run u.now u.state)))
      (j.follow [] ((Instr.put r .immediate).run u.now u.state)).2.todo := by
  have hopen : u.state.sets.closed = false := by
    rw [hsets, Sets.enroll]
    split <;> exact ht
  rw [Instr.run, hopen, if_neg Bool.false_ne_true, hsets, hlimits,
    Sets.receive_enroll hout hbrought.idle]
  by_cases hroom : t.state.sets.checkedOut.length < t.state.limits.maxSize
  · rw [if_pos hroom]
    refine .kept r rfl ⟨hbrought.idle, hbrought.new, ?_⟩ hroom rfl
    exact (made_proceed_of_stock rfl).trans hbrought.made
  · rw [if_neg hroom]
    refine .spent r (Or.inl .disposing) ⟨hbrought.idle, hbrought.new, ?_⟩ (Nat.not_lt.mp hroom) rfl
      (Or.inl List.mem_cons_self)
    exact (made_proceed_of_stock rfl).trans hbrought.made

/-- The resource is destroyed, before its destructor is called. -/
theorem part (hparts : Parts r j.todo) (hbrought : Brought t u r)
    (hfull : t.state.limits.maxSize ≤ t.state.sets.checkedOut.length)
    (hsets : u.state.sets = t.state.sets)
    (hgone : r ∈ j.condemned ∨ u.state.stock.isDestroyed r = true)
    (hmoves : j.Moves mayCrash u.now u.state next) :
    Stage t (u.proceed before after next) next.2.todo := by
  obtain ⟨hsame, hlength, hrest, hgone'⟩ := hparts.moves hmoves
  refine .spent r hrest ⟨hbrought.idle, hbrought.new, ?_⟩ hfull (hsame.trans hsets) (hgone' hgone)
  exact (made_proceed_of_stock hlength).trans hbrought.made

end

/-- The loan goes on. -/
theorem proceed (h : Stage t u j.todo) (hn : t.state.sets.members.Nodup)
    (ht : t.state.sets.closed = false) (howned : u.Owned)
    (hlimits : u.state.limits = t.state.limits) (hjobs : u.jobs = before ++ j :: after)
    (hmoves : j.Moves mayCrash u.now u.state next)
    (hnext : Next mayCrash u (u.proceed before after next))
    (hsupplied : j.waitsFor = some (.make .lend) →
      next.2 = j ∨ (u.proceed before after next).made ≠ u.made) :
    Stage t (u.proceed before after next) next.2.todo := by
  have hended (hend : j.todo = []) : Stage t (u.proceed before after next) next.2.todo := by
    have hj := hmoves.ended hend
    have hstate := hmoves.state_eq hj
    rw [hj]
    exact h.stay howned hnext (congrArg State.sets hstate)
      (made_proceed_of_stock (by rw [hstate]))
  obtain ⟨todo, result⟩ := j
  dsimp only at h
  cases h with
  | claiming hsets hmade => exact claim ht hsets hmade hmoves
  | making hidle hsets hmade => exact make howned hidle hsets hmade hmoves (hsupplied rfl)
  | enrolling r hbrought hsets => exact enroll ht howned hlimits hjobs rfl hbrought hsets hmoves
  | reusing r hholds hout =>
    rcases Holds.moves hholds hmoves with ⟨hstate, hholds'⟩ | ⟨-, rfl⟩
    · refine .reusing r hholds' ?_
      rw [Traffic.proceed, hstate]
      exact hout
    · exact putReused hn ht hout
  | trying r hholds hbrought hactive hsets =>
    rcases Holds.moves hholds hmoves with ⟨hstate, hholds'⟩ | ⟨-, rfl⟩
    · have hmade : (u.proceed before after next).made = u.made :=
        made_proceed_of_stock (by rw [hstate])
      refine .trying r hholds' ⟨hbrought.idle, hbrought.new, hmade.trans hbrought.made⟩ hactive ?_
      rw [Traffic.proceed, hstate]
      exact hsets
    · exact putNew ht hlimits hbrought hactive hsets
  | spent r hparts hbrought hfull hsets hgone =>
    rcases hparts with hparts | rfl
    · exact part (j := { todo, result }) hparts hbrought hfull hsets hgone hmoves
    · exact hended rfl
  | kept r htodo hbrought hroom hsets => exact hended htodo
  | returned htodo hidle hsets => exact hended htodo

/-- Nothing is left to do. -/
theorem restored {todo : List Instr} (h : Stage t u todo) (hend : todo = []) : Restored t u := by
  have hholds : ∀ r, ¬ Holds r todo := by
    intro r hholds
    rw [hend] at hholds
    cases hholds
  cases h with
  | claiming | making | enrolling => cases hend
  | reusing r h => exact absurd h (hholds r)
  | trying r h => exact absurd h (hholds r)
  | spent r _ hbrought hfull hsets hgone =>
    have hdestroyed : u.state.stock.isDestroyed r = true := by
      rw [hend] at hgone
      exact hgone.resolve_left List.not_mem_nil
    constructor
    case idle => exact fun hne => absurd hbrought.idle hne
    case made =>
      refine fun _ => ⟨r, hbrought.new, hbrought.made, ?_⟩
      rw [if_neg (Nat.not_lt.mpr hfull), hsets]
      exact ⟨hbrought.idle, hdestroyed⟩
    all_goals rw [hsets]
  | kept r _ hbrought hroom hsets =>
    constructor
    case idle => exact fun hne => absurd hbrought.idle hne
    case made =>
      refine fun _ => ⟨r, hbrought.new, hbrought.made, ?_⟩
      rw [if_pos hroom, hsets]
    all_goals rw [hsets]
  | returned _ hidle hsets =>
    constructor
    case made => exact fun hnil => absurd hnil hidle
    case idle => exact fun _ => by rw [hsets]
    all_goals rw [hsets]

end Stage

theorem stage_of_run (h : Run mayCrash t path u) (howned : t.Owned)
    (hopen : t.state.sets.closed = false) (hexec : t.jobs[i]? = some .exec)
    (halone : Alone path i) (hsupplied : Supplied path i) :
    u.Owned ∧ u.state.limits = t.state.limits ∧ ∃ j, u.jobs[i]? = some j ∧ Stage t u j.todo := by
  induction h with
  | refl => exact ⟨howned, rfl, .exec, hexec, .claiming rfl rfl⟩
  | @next path u v hrun hnext _ ih =>
    obtain ⟨hu, hlimits, j, hj, hstage⟩ := ih
      (fun p hp => halone p (List.mem_append_left _ hp))
      (fun p hp => hsupplied p (List.mem_append_left _ hp))
    have hlast : (u, v) ∈ path ++ [(u, v)] := List.mem_append_right _ List.mem_cons_self
    refine ⟨hu.of_next hnext, (limits_of_next hnext).trans hlimits, ?_⟩
    rcases alone_cases hnext hj (halone _ hlast) with ⟨hk, hsets, hmade⟩ |
      ⟨before, after, next, hjobs, rfl, hmoves, rfl, hk⟩
    · exact ⟨j, hk, hstage.stay hu hnext hsets hmade⟩
    · refine ⟨next.2, hk, hstage.proceed howned.sound.members hopen hu hlimits hjobs hmoves hnext ?_⟩
      intro hwaits
      refine (hsupplied _ hlast j hj hwaits).imp_left fun hsame => ?_
      exact Option.some.inj (hk.symm.trans hsame)

variable {name : String} {limits : Limits} {destructs : Bool} {stock : Stock}

/-- A loan gives back what it was lent, whatever its body did to the pool and however it ended. If
nothing else happened beside it, the sets are as they were, but for what was made. -/
theorem exec_gives_back (h : Run mayCrash (.new name limits destructs stock) path t)
    (hexec : StartedAs path i .exec) :
    (∀ u r, Next mayCrash t u → Lent path i r → ¬ Ended i t → Ended i u →
      r ∉ u.state.sets.checkedOut ∧ r ∉ u.state.sets.overflow) ∧
    (t.state.sets.closed = false → t.jobs[i]? = some .exec →
      ∀ path' u, Run mayCrash t path' u → Alone path' i → Supplied path' i → Ended i u →
        Restored t u) := by
  have howned := (Lendable.of_run h).1
  constructor
  · intro u r hnext hlent hbusy hended
    obtain ⟨j, hj, hloan⟩ := loan_of_run h hexec
    obtain ⟨k, hk, -, hends⟩ := hloan.of_next howned hnext hj
    have hend : k.todo = [] := by
      obtain ⟨l, hl, hend⟩ := hended
      rwa [Option.some.inj (hk.symm.trans hl)]
    have hout := hends (fun hnil => hbusy ⟨j, hj, hnil⟩) hend r hlent
    exact ⟨fun hr => hout (List.mem_append_left _ hr), fun hr => hout (List.mem_append_right _ hr)⟩
  · intro hopen hnew path' u hrun halone hsupplied hended
    obtain ⟨-, -, j, hj, hstage⟩ := stage_of_run hrun howned hopen hnew halone hsupplied
    refine hstage.restored ?_
    obtain ⟨l, hl, hend⟩ := hended
    rwa [Option.some.inj (hj.symm.trans hl)]

instance (path : List (Traffic × Traffic)) (i : Nat) (r : ResourceId) : Decidable (Lent path i r) :=
  inferInstanceAs (Decidable (∃ p ∈ path, ∃ j ∈ p.2.jobs[i]?, _))

instance (path : List (Traffic × Traffic)) (i : Nat) (op : Operation) :
    Decidable (StartedAs path i op) :=
  inferInstanceAs (Decidable (∃ p ∈ path, _ ∧ _))

/-- A body puts its resource back, somebody else checks it out, and the loan is dropped: its end
takes the resource from the other one. -/
theorem exists_run_dropped : ∃ path t u,
    Run (fun _ => False) (.new "pool" ⟨1, .zero⟩ true []) path t ∧ Next (fun _ => False) t u ∧
      StartedAs path 0 .exec ∧ Lent path 0 0 ∧ ¬ Ended 0 t ∧ Ended 0 u ∧
      0 ∈ t.state.sets.checkedOut := by
  have h : Run (fun _ => False) (.new "pool" ⟨1, .zero⟩ true []) [] _ := .refl
  replace h := h.next (.start .exec nofun) (by decide)
  replace h := h.next (.step [] [] _ rfl) (by decide)
  replace h := h.next (.reply [] [] _ (.make .lend) .ok rfl rfl nofun) (by decide)
  replace h := h.next (.step [] [] _ rfl) (by decide)
  replace h := h.next (.start (.put 0) (by decide)) (by decide)
  replace h := h.next (.step [_] [] _ rfl) (by decide)
  replace h := h.next (.start .get nofun) (by decide)
  replace h := h.next (.step [_, _] [] _ rfl) (by decide)
  replace h := h.next (.drop [] [_, _] _ 0 rfl rfl) (by decide)
  replace h := h.next (.step [] [_, _] _ rfl) (by decide)
  exact ⟨_, _, _, h, .step [] [_, _] _ rfl, by decide, by decide, by decide, by decide, by decide⟩

/-- A pool that has lent all it can keep, where one more loan begins. -/
def lentOut : Traffic where
  state := {
    name := "pool", limits := ⟨1, .zero⟩, sets := { checkedOut := [0] }
    stock := [⟨"pool", 0, .start, .start, false⟩] }
  jobs := [⟨[], .got 0⟩, .exec]
  handles := [0]
  made := [0]

theorem run_lentOut : ∃ path, Run (fun _ => False) (.new "pool" ⟨1, .zero⟩ true []) path lentOut ∧
    StartedAs path 1 .exec := by
  have h : Run (fun _ => False) (.new "pool" ⟨1, .zero⟩ true []) [] _ := .refl
  replace h := h.next (.start .get nofun) (by decide)
  replace h := h.next (.step [] [] _ rfl) (by decide)
  replace h := h.next (.reply [] [] _ (.make .keep) .ok rfl rfl nofun) (by decide)
  replace h := h.next (.step [] [] _ rfl) (by decide)
  replace h := h.next (.start .exec nofun) (by decide)
  exact ⟨_, h, by decide⟩

/-- The body of this loan fails. -/
theorem run_from_lentOut : ∃ path u, Run (fun _ => False) lentOut path u ∧ Alone path 1 ∧
    Supplied path 1 ∧ Ended 1 u := by
  have h : Run (fun _ => False) lentOut [] _ := .refl
  replace h := h.next (.step [_] [] _ rfl) (by decide)
  replace h := h.next (.reply [_] [] _ (.make .lend) .ok rfl rfl nofun) (by decide)
  replace h := h.next (.step [_] [] _ rfl) (by decide)
  replace h := h.next (.reply [_] [] _ (.body 1) (.fail "no") rfl rfl nofun) (by decide)
  replace h := h.next (.step [_] [] _ rfl) (by decide)
  replace h := h.next (.step [_] [] _ rfl) (by decide)
  replace h := h.next (.step [_] [] _ rfl) (by decide)
  replace h := h.next (.step [_] [] _ rfl) (by decide)
  replace h := h.next (.reply [_] [] _ (.destructor 1) .ok rfl rfl nofun) (by decide)
  exact ⟨_, _, h, by decide, by decide, by decide⟩

theorem exec_gives_back_dropped_and_failed :
    (∃ path t u, Run (fun _ => False) (.new "pool" ⟨1, .zero⟩ true []) path t ∧
      Next (fun _ => False) t u ∧ Lent path 0 0 ∧ 0 ∈ t.state.sets.checkedOut ∧ Ended 0 u ∧
      0 ∉ u.state.sets.checkedOut ∧ 0 ∉ u.state.sets.overflow) ∧
    ∃ path u, Run (fun _ => False) lentOut path u ∧ Ended 1 u ∧ Restored lentOut u := by
  constructor
  · obtain ⟨path, t, u, h, hnext, hexec, hlent, hbusy, hended, hout⟩ := exists_run_dropped
    obtain ⟨hback, -⟩ := exec_gives_back h hexec
    exact ⟨path, t, u, h, hnext, hlent, hout, hended, hback u 0 hnext hlent hbusy hended⟩
  · obtain ⟨path, h, hexec⟩ := run_lentOut
    obtain ⟨path', u, h', halone, hsupplied, hended⟩ := run_from_lentOut
    obtain ⟨-, hrestored⟩ := exec_gives_back h hexec
    exact ⟨path', u, h', hended, hrestored rfl rfl path' u h' halone hsupplied hended⟩

end Traffic

end Stockroom.Pool

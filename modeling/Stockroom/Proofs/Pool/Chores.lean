import Stockroom.Pool.Maintenance
import Stockroom.Proofs.Pool.Grace

/-! What jobs lend and take back. A resource has the time at which it was handed out last; and once
a sweep or a reclaim has begun, whatever it does next brings it nearer to dealing with what is too
old. -/

namespace Stockroom.Pool
set_option autoImplicit false

/-! ### What jobs lend and take back -/

/-- Checked out, or lent while the pool was full. -/
def Sets.lent (s : Sets) : List ResourceId := s.checkedOut ++ s.overflow

namespace Instr

/-- A job that comes to this has nothing else to do. -/
def Alone : Instr → Prop
  | .claim _ | .enroll _ _ | .call (.make _) | .reclaim | .sweep => True
  | _ => False

/-- The rest of a reclaim. -/
def TakesBack : Instr → Prop
  | .put _ .delayed | .dispose _ .delayed => True
  | _ => False

end Instr

/-- What is left of a reclaim, or of asking for a resource, stands alone. -/
structure Job.Apt (j : Job) : Prop where
  alone : ∀ i ∈ j.todo, i.Alone → j.todo = [i] ∧ j.result = .done
  takesBack : ∀ r, .put r .delayed ∈ j.todo → ∀ k ∈ j.todo, k.TakesBack

section
variable {now : Instant} {s : State} {i k : Instr} {e : Effect} {r : ResourceId}

theorem Operation.apt_job (op : Operation) : op.job.Apt where
  alone i hi halone := by
    cases op with
    | discard r => rcases List.mem_pair.mp hi with rfl | rfl <;> cases halone
    | _ =>
      obtain rfl := List.mem_singleton.mp hi
      exact ⟨rfl, rfl⟩
  takesBack r hr := by
    cases op with
    | discard x => rcases List.mem_pair.mp hr with he | he <;> cases he
    | put x => cases List.mem_singleton.mp hr
    | _ => cases List.mem_singleton.mp hr

namespace Instr.Leads

/-- What stands alone comes from what stands alone. -/
theorem alone (h : i.Leads now s e) (hk : k ∈ e.next) (halone : k.Alone) :
    i.Alone ∧ e.next = [k] ∧ e.result = none := by
  cases h with
  | checkOut purpose | enroll purpose =>
    cases purpose with
    | keep => cases hk
    | lend => rcases List.mem_pair.mp hk with rfl | rfl <;> cases halone
  | destroy x _ =>
    dsimp only at hk
    split at hk
    · rw [List.mem_singleton.mp hk] at halone
      cases halone
    · cases hk
  | close | inspect | reclaim | sweep =>
    obtain ⟨x, -, rfl⟩ := List.mem_map.mp hk
    cases halone
  | send | made =>
    obtain rfl := List.mem_singleton.mp hk
    exact ⟨trivial, rfl, rfl⟩
  | claimClosed | keep | giveUp | destroyed | withdraw | closeClosed | notMade | notMadeInstead
  | healthy | destructor | bodyDone | bodyFailed => cases hk
  | _ =>
    rw [List.mem_singleton.mp hk] at halone
    cases halone

/-- A reclaim of an open pool goes on by putting and giving up. -/
theorem takesBack (h : i.Leads now s e) (hi : i.TakesBack) (hopen : e.state.sets.closed = false) :
    ∀ k ∈ e.next, k.TakesBack := by
  intro k hk
  cases h with
  | putClosed _ d hclosed | giveUpClosed _ hclosed =>
    rw [hclosed] at hopen
    cases hopen
  | keep | giveUp => cases hk
  | leave x d sets _ _ =>
    rw [List.mem_singleton.mp hk]
    cases d with
    | immediate => cases hi
    | delayed => trivial
  | _ => cases hi

theorem put_delayed (h : i.Leads now s e) (hr : .put r .delayed ∈ e.next) :
    i = .reclaim ∧ ∀ k ∈ e.next, k.TakesBack := by
  cases h with
  | reclaim =>
    refine ⟨rfl, fun k hk => ?_⟩
    obtain ⟨x, -, rfl⟩ := List.mem_map.mp hk
    trivial
  | checkOut purpose | enroll purpose => cases purpose <;> simp [State.grant] at hr
  | destroy x _ =>
    dsimp only at hr
    split at hr <;> simp at hr
  | _ => simp at hr

end Instr.Leads

theorem Job.Moves.apt {mayCrash : Callback → Prop} {j : Job} {next : State × Job}
    (h : j.Moves mayCrash now s next) (hj : j.Apt) (hopen : next.1.sets.closed = false) :
    next.2.Apt := by
  rcases h.cases with rfl | ⟨i, rest, e, htodo, hleads, rfl⟩ | ⟨-, hunwound⟩
  · exact hj
  · have hi : i ∈ j.todo := htodo ▸ List.mem_cons_self
    have hrest : ∀ k ∈ rest, k ∈ j.todo := fun k hk => htodo ▸ List.mem_cons_of_mem i hk
    constructor
    · intro k hk halone
      rcases List.mem_append.mp hk with hk | hk
      · obtain ⟨hialone, hnext, hresult⟩ := hleads.alone hk halone
        obtain ⟨he, hdone⟩ := hj.alone i hi hialone
        obtain rfl : rest = [] := (List.cons.inj (htodo.symm.trans he)).2
        exact ⟨by rw [Job.follow, hnext, List.append_nil], by rw [Job.follow, hresult]; exact hdone⟩
      · have he := htodo.symm.trans (hj.alone k (hrest k hk) halone).1
        rw [(List.cons.inj he).2] at hk
        cases hk
    · intro r hr k hk
      rcases List.mem_append.mp hr with hr | hr
      · obtain ⟨rfl, hall⟩ := hleads.put_delayed hr
        obtain rfl : rest = [] :=
          (List.cons.inj (htodo.symm.trans (hj.alone _ hi trivial).1)).2
        exact hall k ((List.mem_append.mp hk).resolve_right List.not_mem_nil)
      · have hall := hj.takesBack r (hrest _ hr)
        rcases List.mem_append.mp hk with hk | hk
        · exact hleads.takesBack (hall i hi) hopen k hk
        · exact hall k (hrest k hk)
  · constructor
    · intro k hk halone
      obtain ⟨-, x, rfl⟩ := hunwound.todo k hk
      cases halone
    · intro r hr
      obtain ⟨-, x, he⟩ := hunwound.todo _ hr
      cases he

/-! ### When a resource was lent -/

theorem Stock.lastUsed_touch {stock : Stock} (hr : r < stock.length) (x : ResourceId) :
    (stock.touch x now).lastUsed r = if x = r then now else stock.lastUsed r := by
  unfold Stock.lastUsed Stock.touch
  rw [List.getElem?_modify, List.getElem?_eq_getElem hr]
  split <;> rfl

theorem Stock.lastUsed_markDestroyed (stock : Stock) (x : ResourceId) :
    (stock.markDestroyed x).lastUsed r = stock.lastUsed r := by
  unfold Stock.lastUsed Stock.markDestroyed
  rw [List.getElem?_modify]
  cases stock[r]? with
  | none => rfl
  | some q => split <;> rfl

theorem State.lastUsed_add (hr : r < s.stock.length) :
    (s.add now).2.stock.lastUsed r = s.stock.lastUsed r := by
  unfold Stock.lastUsed State.add
  rw [List.getElem?_append_left hr]

theorem Sets.lent_subset_active {sets : Sets} : sets.lent ⊆ sets.active := by
  rw [lent, active, List.append_assoc]
  exact List.subset_append_right _ _

theorem Sets.lent_checkOut? {sets u : Sets} {x : ResourceId} (h : sets.checkOut? = some (x, u))
    (hr : r ∈ u.lent) : r = x ∨ r ∈ sets.lent := by
  rw [(eq_of_checkOut? h).2] at hr
  rcases List.mem_append.mp hr with hr | hr
  · exact (List.mem_insert_iff.mp hr).imp_right (List.mem_append_left _)
  · exact Or.inr (List.mem_append_right _ hr)

theorem Sets.lent_enroll {sets : Sets} {maxSize : Nat} {x : ResourceId}
    (hr : r ∈ (sets.enroll maxSize x).lent) : r = x ∨ r ∈ sets.lent := by
  unfold Sets.enroll at hr
  split at hr
  · rcases List.mem_append.mp hr with hr | hr
    · exact Or.inr (List.mem_append_left _ hr)
    · exact (List.mem_insert_iff.mp hr).imp_right (List.mem_append_right _)
  · rcases List.mem_append.mp hr with hr | hr
    · exact (List.mem_insert_iff.mp hr).imp_right (List.mem_append_left _)
    · exact Or.inr (List.mem_append_right _ hr)

theorem Sets.lent_receive (sets : Sets) (maxSize : Nat) (x : ResourceId) :
    (sets.receive maxSize x).sets.lent ⊆ sets.lent := by
  unfold Sets.receive
  split
  · exact (List.erase_sublist.append_right _).subset
  · split
    · split <;> exact (List.erase_sublist.append_left _).subset
    · split <;> exact List.Subset.refl _

/-- What is handed in is not lent any more. -/
theorem Sets.not_mem_lent_receive {sets : Sets} (h : sets.active.Nodup) (maxSize : Nat) :
    r ∉ (sets.receive maxSize r).sets.lent := by
  have hchecked := checkedOut_nodup h
  have hoverflow := overflow_nodup h
  have hapart : r ∈ sets.checkedOut → r ∉ sets.overflow := fun hr hr' =>
    (List.nodup_append.mp h).2.2 r (List.mem_append_right _ hr) r hr' rfl
  unfold Sets.receive
  repeat' split
  all_goals
    intro hr
    rcases List.mem_append.mp hr with hr | hr
  all_goals simp_all [Reception.sets, List.Nodup.mem_erase_iff]

namespace Instr.Leads

/-- A resource is lent by giving it to somebody. -/
theorem lent (h : i.Leads now s e) (hr : r ∈ e.state.sets.lent) :
    r ∈ s.sets.lent ∨ i.Alone ∧ r ∈ e.gives := by
  cases h with
  | checkOut purpose x sets _ hout =>
    rw [state_grant] at hr
    rcases Sets.lent_checkOut? hout hr with rfl | hr
    · exact Or.inr ⟨trivial, gives_grant _ _ _ ▸ List.mem_singleton_self r⟩
    · exact Or.inl hr
  | enroll purpose x _ =>
    rw [state_grant] at hr
    rcases Sets.lent_enroll hr with rfl | hr
    · exact Or.inr ⟨trivial, gives_grant _ _ _ ▸ List.mem_singleton_self r⟩
    · exact Or.inl hr
  | keep x d sets _ hreceive | leave x d sets _ hreceive =>
    have hsub := Sets.lent_receive s.sets s.limits.maxSize x
    rw [hreceive] at hsub
    exact Or.inl (hsub hr)
  | withdraw x =>
    rcases List.mem_append.mp hr with hr | hr
    · exact Or.inl (List.mem_append_left _ (List.mem_of_mem_erase hr))
    · exact Or.inl (List.mem_append_right _ (List.mem_of_mem_erase hr))
  | close => cases hr
  | exchange old new sets hreplace =>
    unfold Sets.replace? at hreplace
    split at hreplace
    · cases hreplace
      exact Or.inl hr
    · cases hreplace
  | _ => exact Or.inl hr

/-- A resource is used by giving it to somebody. -/
theorem lastUsed (h : i.Leads now s e) (hr : r < s.stock.length) :
    e.state.stock.lastUsed r = s.stock.lastUsed r ∨
      i.Alone ∧ r ∈ e.gives ∧ e.state.stock.lastUsed r = now := by
  cases h with
  | checkOut purpose x sets _ hout =>
    rw [state_grant, gives_grant]
    change (s.stock.touch x now).lastUsed r = _ ∨ _ ∧ _ ∧ (s.stock.touch x now).lastUsed r = _
    rw [Stock.lastUsed_touch hr]
    by_cases he : x = r
    · exact Or.inr ⟨trivial, List.mem_singleton.mpr he.symm, if_pos he⟩
    · exact Or.inl (if_neg he)
  | enroll purpose x _ =>
    rw [state_grant]
    exact Or.inl rfl
  | destroy x _ => exact Or.inl (Stock.lastUsed_markDestroyed ..)
  | made | madeInstead => exact Or.inl (State.lastUsed_add hr)
  | _ => exact Or.inl rfl

/-- What is given to somebody was checked out now, or it is new. -/
theorem gives_alone (h : i.Leads now s e) (hi : i.Alone) (hgive : r ∈ e.gives)
    (hr : r < s.stock.length) : e.state.stock.lastUsed r = now ∨
      (∃ purpose, i = .enroll purpose r) ∧ e.state.stock = s.stock := by
  cases h with
  | checkOut purpose x sets _ hout =>
    rw [gives_grant, List.mem_singleton] at hgive
    rw [state_grant]
    exact Or.inl ((Stock.lastUsed_touch hr x).trans (if_pos hgive.symm))
  | enroll purpose x _ =>
    rw [gives_grant, List.mem_singleton] at hgive
    rw [state_grant]
    exact Or.inr ⟨⟨purpose, by rw [hgive]⟩, rfl⟩
  | reclaim | sweep =>
    rw [Effect.gives, Instr.flatMap_lends fun _ => rfl] at hgive
    cases hgive
  | claimClosed | send | enrollClosed | made | notMade => cases hgive
  | _ => cases hi

theorem alone_of_gives (h : i.Leads now s e) (hbody : i.lends = []) (hr : r ∈ e.gives) :
    i.Alone := by
  cases h with
  | checkOut | enroll | claimClosed | send | enrollClosed | made | notMade | reclaim | sweep =>
    trivial
  | bodyDone x => cases hbody
  | close | inspect =>
    rw [Effect.gives, Instr.flatMap_lends fun _ => rfl] at hr
    cases hr
  | destroy x _ =>
    simp only [Effect.gives] at hr
    split at hr <;> cases hr
  | _ => cases hr

end Instr.Leads

namespace Job

variable {j : Job} {rest : List Instr}

/-- A job hands out what it has asked for, and nothing else. -/
theorem mem_handedOut_follow (hj : j.Apt) (horder : Orderly j.todo) (htodo : j.todo = i :: rest)
    (h : i.Leads now s e) : r ∈ j.handedOut (j.follow rest e).2 ↔ i.Alone ∧ r ∈ e.gives := by
  constructor
  · intro hr
    obtain ⟨hbody, hgive⟩ := gives_of_handedOut horder htodo hr
    exact ⟨h.alone_of_gives hbody hgive, hgive⟩
  · rintro ⟨halone, hr⟩
    obtain ⟨he, hdone⟩ := hj.alone i (htodo ▸ List.mem_cons_self) halone
    have hgives : j.gives = [] := by
      unfold gives waitsFor
      rw [hdone, he]
      cases i with
      | call callback =>
        cases callback with
        | make purpose => rfl
        | _ => cases halone
      | _ => rfl
    rw [handedOut, if_pos hgives]
    cases h with
    | checkOut purpose x sets _ _ | enroll purpose x _ =>
      rw [gives_grant] at hr
      cases purpose with
      | keep => exact List.mem_append_left _ hr
      | lend => exact List.mem_append_right _ hr
    | reclaim | sweep =>
      rw [Effect.gives, Instr.flatMap_lends fun _ => rfl] at hr
      cases hr
    | claimClosed | send | enrollClosed | made | notMade => cases hr
    | _ => cases halone

end Job

theorem Instr.Leads.lastUsed_of_enroll {purpose : Purpose} (h : i.Leads now s e)
    (hr : .enroll purpose r ∈ e.next) : e.state.stock.lastUsed r = now := by
  cases h with
  | made x =>
    obtain ⟨-, rfl⟩ := Instr.enroll.inj (List.mem_singleton.mp hr)
    simp [Stock.lastUsed, State.add]
  | checkOut x | enroll x => cases x <;> simp [State.grant] at hr
  | destroy x _ =>
    dsimp only at hr
    split at hr <;> simp at hr
  | _ => simp at hr

theorem Sets.isOver_eq_false_iff {limit : Duration} {since : Instant} :
    Sets.isOver limit since now = false ↔ now.nanos ≤ since.nanos + limit.nanos := by
  rw [Sets.isOver, decide_eq_false_iff_not, Duration.lt_def, Instant.since]
  dsimp only
  omega

/-- What has been put back into an open pool is not lent any more. -/
theorem Instr.not_mem_lent_put (hn : s.sets.active.Nodup)
    (hopen : (Instr.run now s (.put r .delayed)).state.sets.closed = false) :
    r ∉ (Instr.run now s (.put r .delayed)).state.sets.lent := by
  have hnot := Sets.not_mem_lent_receive (r := r) hn s.limits.maxSize
  simp only [Instr.run] at hopen ⊢
  split at hopen
  · rename_i hclosed
    rw [hclosed] at hopen
    cases hopen
  · rename_i hclosed
    rw [if_neg hclosed]
    cases hreceive : s.sets.receive s.limits.maxSize r with
    | kept sets | leaving sets =>
      rw [hreceive] at hnot
      exact hnot

/-! ### Chores -/

namespace Chore

/-- What the chore reckons the age of a resource from that it looks after. -/
def since? (chore : Chore) (s : State) (r : ResourceId) : Option Instant :=
  match chore with
  | check => none
  | reclaim => if r ∈ s.sets.lent then some (s.stock.lastUsed r) else none
  | sweep => s.sets.pendingClose.get? r

/-- The job is about to deal with the resource, should that be too old. -/
def Attends (chore : Chore) (r : ResourceId) (j : Job) : Prop :=
  match chore with
  | check => False
  | reclaim => .reclaim ∈ j.todo ∨ .put r .delayed ∈ j.todo
  | sweep => .sweep ∈ j.todo

variable {chore : Chore} {since : Instant} {j : Job} {next : State × Job}

theorem since?_reclaim : reclaim.since? s r = some since ↔
    r ∈ s.sets.lent ∧ s.stock.lastUsed r = since := by
  rw [since?, Option.ite_none_right_eq_some, Option.some.injEq]

theorem attends_job (h : chore.since? s r = some since) : chore.Attends r chore.job := by
  cases chore with
  | check => cases h
  | reclaim => exact Or.inl List.mem_cons_self
  | sweep => exact List.mem_cons_self (a := Instr.sweep)

/-- A job that is about to deal with a resource waits for nothing. -/
theorem Attends.busy (h : chore.Attends r j) (hj : j.Apt) : j.Busy := by
  have hbusy {i : Instr} (hi : i ∈ j.todo) (hnone : ∀ callback, .call callback ∉ j.todo) :
      j.Busy := by
    refine ⟨List.ne_nil_of_mem hi, ?_⟩
    rw [Option.eq_none_iff_forall_ne_some]
    intro callback hwaits
    obtain ⟨rest, htodo⟩ := Job.todo_of_waitsFor hwaits
    exact hnone callback (htodo ▸ List.mem_cons_self)
  cases chore with
  | check => exact h.elim
  | reclaim =>
    rcases h with h | h
    · refine hbusy h fun callback hcall => ?_
      rw [(hj.alone _ h trivial).1] at hcall
      cases List.mem_singleton.mp hcall
    · exact hbusy h fun callback hcall => hj.takesBack r h _ hcall
  | sweep =>
    refine hbusy h fun callback hcall => ?_
    rw [(hj.alone _ h trivial).1] at hcall
    cases List.mem_singleton.mp hcall

/-- It goes on to deal with the resource, unless this is not too old yet. -/
theorem Attends.moves {mayCrash : Callback → Prop} (h : chore.Attends r j) (hj : j.Apt)
    (hn : s.sets.active.Nodup) (hmoves : j.Moves mayCrash now s next)
    (hopen : next.1.sets.closed = false) (hbefore : chore.since? s r = some since)
    (hafter : chore.since? next.1 r = some since) :
    chore.Attends r next.2 ∨ now.nanos ≤ since.nanos + s.limits.maxUsage.nanos := by
  obtain ⟨hne, hwaits⟩ := h.busy hj
  obtain ⟨i, rest, htodo⟩ := List.exists_cons_of_ne_nil hne
  have hcall : ∀ callback, i ≠ .call callback := by
    rintro callback rfl
    rw [Job.waitsFor_of_todo htodo] at hwaits
    cases hwaits
  have hfollow := hmoves.eq_follow htodo hcall
  subst hfollow
  cases chore with
  | check => exact h.elim
  | sweep =>
    obtain ⟨rfl, rfl⟩ := List.cons.inj (htodo.symm.trans (hj.alone _ h trivial).1)
    refine Or.inr (Sets.isOver_eq_false_iff.mp ?_)
    have hfound := (Sets.get?_takeDue s.sets s.limits.maxUsage now r).symm.trans hafter
    simpa using (Option.filter_eq_some_iff.mp hfound).2
  | reclaim =>
    obtain ⟨hlent, hused⟩ := since?_reclaim.mp hbefore
    rcases h with h | h
    · obtain ⟨rfl, rfl⟩ := List.cons.inj (htodo.symm.trans (hj.alone _ h trivial).1)
      cases hover : Sets.isOver s.limits.maxUsage (s.stock.lastUsed r) now with
      | false => exact Or.inr (hused ▸ Sets.isOver_eq_false_iff.mp hover)
      | true =>
        have hoverdue : r ∈ s.overdue now := List.mem_filter.mpr ⟨hlent, hover⟩
        exact Or.inl (Or.inr (List.mem_append_left _ (List.mem_map_of_mem hoverdue)))
    · rw [htodo] at h
      rcases List.mem_cons.mp h with rfl | h
      · exact absurd (since?_reclaim.mp hafter).1 (Instr.not_mem_lent_put hn hopen)
      · exact Or.inl (Or.inr (List.mem_append_right _ h))

end Chore

end

namespace Config

variable {c : Config}

theorem exists_sweep (hruntime : c.inRuntime = true) (pool : Nat) (now : Instant) :
    ∃ k ∈ c.tickers pool now, k.chore = .sweep ∧ k.period = period c.sweepInterval := by
  rw [tickers, if_pos hruntime]
  exact ⟨_, List.mem_append_right _ (List.mem_singleton_self _), rfl, rfl⟩

theorem exists_reclaim (hruntime : c.inRuntime = true) (hreclaims : c.reclaims = true) (pool : Nat)
    (now : Instant) :
    ∃ k ∈ c.tickers pool now, k.chore = .reclaim ∧ k.period = period c.reclaimInterval := by
  rw [tickers, if_pos hruntime, if_pos hreclaims]
  exact ⟨_, List.mem_append_left _ (List.mem_append_right _ (List.mem_singleton_self _)), rfl, rfl⟩

theorem due_of_mem {pool : Nat} {now : Instant} {k : Ticker} (hk : k ∈ c.tickers pool now) :
    k.due = now.advance k.period := by
  simp only [tickers, List.mem_ite_nil_right, List.mem_append, List.mem_singleton] at hk
  rcases hk with ⟨-, (⟨-, rfl⟩ | ⟨-, rfl⟩) | rfl⟩ <;> rfl

end Config

end Stockroom.Pool

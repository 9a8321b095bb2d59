import Stockroom.Pool.Reclaiming
import Stockroom.Proofs.Pool.Ownership

/-! A pass that takes back what is overdue. What was checked out comes first and changes nothing
about how much can be kept; the overflow is then kept as long as there is room, and once there is
none the rest of it is given up. So what is kept is counted by what there was before. -/

namespace Stockroom.Pool
set_option autoImplicit false

/-! ### Several steps -/

namespace Job

variable {now : Instant} {s : State} {j : Job}

theorem steps_add (m n : Nat) (s : State) (j : Job) :
    steps now (m + n) s j = steps now n (steps now m s j).1 (steps now m s j).2 := by
  induction m generalizing s j with
  | zero => rw [Nat.zero_add]; rfl
  | succ m ih =>
    rw [Nat.succ_add]
    exact ih (j.step now s).1 (j.step now s).2

theorem steps_trans {m n : Nat} {s' : State} {j' : Job} {x : State × Job}
    (h : steps now m s j = (s', j')) (h' : steps now n s' j' = x) : steps now (m + n) s j = x := by
  rw [steps_add, h, h']

/-- What a job comes to where it stays is what it comes to later. -/
theorem steps_of_step_eq (h : j.step now s = (s, j)) (n : Nat) : steps now n s j = (s, j) := by
  induction n with
  | zero => rfl
  | succ n ih => rw [steps, h, ih]

theorem step_of_todo_eq_nil (h : j.todo = []) : j.step now s = (s, j) := by rw [step, h]

theorem step_of_waitsFor {callback : Callback} (h : j.waitsFor = some callback) :
    j.step now s = (s, j) := by
  obtain ⟨rest, htodo⟩ := todo_of_waitsFor h
  exact step_of_call htodo now s

/-- A job that ends has waited for nothing on the way. -/
theorem waitsFor_of_steps {m : Nat} (h : (steps now m s j).2.todo = []) (k : Nat) :
    (steps now k s j).2.waitsFor = none := by
  cases hwaits : (steps now k s j).2.waitsFor with
  | none => rfl
  | some callback =>
    obtain ⟨rest, htodo⟩ := todo_of_waitsFor hwaits
    rcases Nat.le_total k m with hle | hle
    · obtain ⟨d, rfl⟩ := Nat.exists_eq_add_of_le hle
      rw [steps_add, steps_of_step_eq (step_of_waitsFor hwaits), htodo] at h
      cases h
    · obtain ⟨d, rfl⟩ := Nat.exists_eq_add_of_le hle
      rw [steps_add, steps_of_step_eq (step_of_todo_eq_nil h), h] at htodo
      cases htodo

end Job

/-! ### Taking back one resource -/

namespace Sets

variable {sets : Sets} {maxSize : Nat} {r : ResourceId}

/-- What was checked out is idle, in this order. -/
def restore (sets : Sets) (l : List ResourceId) : Sets :=
  { sets with checkedOut := sets.checkedOut.diff l, idle := sets.idle ++ l }

/-- What was overflow is idle, in this order. -/
def retain (sets : Sets) (l : List ResourceId) : Sets :=
  { sets with overflow := sets.overflow.diff l, idle := sets.idle ++ l }

/-- What was overflow is given up, all at one time. -/
def release (sets : Sets) (l : List ResourceId) (now : Instant) : Sets :=
  { sets with
    overflow := sets.overflow.diff l
    pendingClose := l.foldl (fun waiting r => waiting.insert r now) sets.pendingClose }

theorem receive_checkedOut (hr : r ∈ sets.checkedOut) (hi : r ∉ sets.idle) :
    sets.receive maxSize r = .kept (sets.restore [r]) := by
  rw [receive, if_pos hr, appendNew, if_neg hi, restore, List.diff_cons, List.diff_nil]

theorem receive_room (hr : r ∈ sets.overflow) (hc : r ∉ sets.checkedOut) (hi : r ∉ sets.idle)
    (hroom : sets.idle.length + sets.checkedOut.length < maxSize) :
    sets.receive maxSize r = .kept (sets.retain [r]) := by
  rw [receive, if_neg hc, if_pos hr, if_pos hroom, appendNew, if_neg hi, retain, List.diff_cons,
    List.diff_nil]

theorem receive_full (hr : r ∈ sets.overflow) (hc : r ∉ sets.checkedOut)
    (hfull : maxSize ≤ sets.idle.length + sets.checkedOut.length) :
    sets.receive maxSize r = .leaving { sets with overflow := sets.overflow.erase r } := by
  rw [receive, if_neg hc, if_pos hr, if_neg (Nat.not_lt.mpr hfull)]

/-- What is idle or given up already stays what it is. -/
theorem receive_waiting (hn : sets.members.Nodup)
    (hr : r ∈ sets.idle ∨ sets.pendingClose.contains r = true) :
    sets.receive maxSize r = .kept sets := by
  have hnot : ∀ p, r ∈ sets.content p → p = .idle ∨ p = .pendingClose := by
    intro p hp
    rcases hr with hi | hw
    · exact Or.inl (place_unique hn hp hi)
    · exact Or.inr (place_unique hn hp (Table.contains_iff_mem_keys.mp hw))
  have hc : r ∉ sets.checkedOut := fun hc => nomatch hnot .checkedOut hc
  have ho : r ∉ sets.overflow := fun ho => nomatch hnot .overflow ho
  rw [receive, if_neg hc, if_neg ho, if_pos hr]

theorem not_overflow_of_checkedOut (h : sets.active.Nodup) (hc : r ∈ sets.checkedOut) :
    r ∉ sets.overflow :=
  fun ho => (List.nodup_append.mp h).2.2 r (List.mem_append_right _ hc) r ho rfl

end Sets

/-! ### The pass -/

section
variable {l m : List ResourceId} {r : ResourceId}

theorem subset_erase (hr : r ∉ l) (h : r :: l ⊆ m) : l ⊆ m.erase r := by
  intro x hx
  have hne : x ≠ r := fun he => hr (he ▸ hx)
  exact (List.mem_erase_of_ne hne).mpr (h (List.mem_cons_of_mem r hx))

theorem disjoint_concat (hr : r ∉ l) (h : (r :: l).Disjoint m) : l.Disjoint (m ++ [r]) := by
  intro x hx hm
  rcases List.mem_append.mp hm with hm | hm
  · exact h (List.mem_cons_of_mem r hx) hm
  · exact hr (List.mem_singleton.mp hm ▸ hx)

theorem get?_foldl_insert (l : List ResourceId) (waiting : Table ResourceId Instant)
    (now : Instant) (r : ResourceId) :
    (l.foldl (fun waiting r => waiting.insert r now) waiting).get? r =
      if r ∈ l then some now else waiting.get? r := by
  induction l generalizing waiting with
  | nil => rfl
  | cons x l ih =>
    rw [List.foldl_cons, ih, Table.get?_insert]
    by_cases hl : r ∈ l
    · rw [if_pos hl, if_pos (List.mem_cons_of_mem x hl)]
    · simp only [List.mem_cons, hl, or_false, if_false]

theorem diff_filter (h : l.Nodup) (p : ResourceId → Bool) :
    l.diff (l.filter p) = l.filter fun r => !p r := by
  rw [h.sdiff_eq_filter]
  apply List.filter_congr
  intro r hr
  simp [hr]

end

namespace Job

variable {now : Instant} {l : List ResourceId} {more : List Instr}

/-- What is left to do of a pass. -/
def puts (l : List ResourceId) : List Instr := l.map fun r => .put r .delayed

theorem puts_append (l m : List ResourceId) : puts (l ++ m) = puts l ++ puts m := List.map_append

theorem steps_restore (s : State) (hopen : s.sets.closed = false) (hl : l.Nodup)
    (hout : l ⊆ s.sets.checkedOut) (hidle : l.Disjoint s.sets.idle) :
    steps now l.length s { todo := puts l ++ more } =
      ({ s with sets := s.sets.restore l }, { todo := more }) := by
  induction l generalizing s with
  | nil => simp [steps, puts, Sets.restore]
  | cons r l ih =>
    obtain ⟨hr, hl⟩ := List.nodup_cons.mp hl
    have hstep : step now s { todo := puts (r :: l) ++ more } =
        ({ s with sets := s.sets.restore [r] }, { todo := puts l ++ more }) := by
      simp only [puts, List.map_cons, List.cons_append, step, Instr.run, hopen,
        Sets.receive_checkedOut (hout List.mem_cons_self) (hidle List.mem_cons_self)]
      rfl
    rw [List.length_cons, steps, hstep]
    refine (ih _ ?opened hl ?out ?idle).trans ?taken
    case opened => exact hopen
    case out => simpa [Sets.restore] using subset_erase hr hout
    case idle => exact disjoint_concat hr hidle
    case taken => simp [Sets.restore]

theorem steps_retain (s : State) (hopen : s.sets.closed = false) (hl : l.Nodup)
    (hover : l ⊆ s.sets.overflow) (hout : l.Disjoint s.sets.checkedOut)
    (hidle : l.Disjoint s.sets.idle) (hroom : l.length ≤ s.room) :
    steps now l.length s { todo := puts l ++ more } =
      ({ s with sets := s.sets.retain l }, { todo := more }) := by
  induction l generalizing s with
  | nil => simp [steps, puts, Sets.retain]
  | cons r l ih =>
    obtain ⟨hr, hl⟩ := List.nodup_cons.mp hl
    rw [State.room, List.length_cons] at hroom
    have hlt : s.sets.idle.length + s.sets.checkedOut.length < s.limits.maxSize := by omega
    have hstep : step now s { todo := puts (r :: l) ++ more } =
        ({ s with sets := s.sets.retain [r] }, { todo := puts l ++ more }) := by
      simp only [puts, List.map_cons, List.cons_append, step, Instr.run, hopen,
        Sets.receive_room (hover List.mem_cons_self) (hout List.mem_cons_self)
          (hidle List.mem_cons_self) hlt]
      rfl
    rw [List.length_cons, steps, hstep]
    refine (ih _ ?opened hl ?among ?out ?idle ?room).trans ?taken
    case opened => exact hopen
    case among => simpa [Sets.retain] using subset_erase hr hover
    case out => exact fun x hx => hout (List.mem_cons_of_mem r hx)
    case idle => exact disjoint_concat hr hidle
    case room =>
      simp only [State.room, Sets.retain, List.length_append, List.length_singleton]
      omega
    case taken => simp [Sets.retain]

theorem steps_release (s : State) (hopen : s.sets.closed = false) (hl : l.Nodup)
    (hover : l ⊆ s.sets.overflow) (hout : l.Disjoint s.sets.checkedOut)
    (hfull : l ≠ [] → s.room = 0) :
    steps now (2 * l.length) s { todo := puts l ++ more } =
      ({ s with sets := s.sets.release l now }, { todo := more }) := by
  induction l generalizing s with
  | nil => simp [steps, puts, Sets.release]
  | cons r l ih =>
    obtain ⟨hr, hl⟩ := List.nodup_cons.mp hl
    have hnone : s.limits.maxSize ≤ s.sets.idle.length + s.sets.checkedOut.length :=
      Nat.sub_eq_zero_iff_le.mp (hfull (List.cons_ne_nil r l))
    have hsteps : steps now 2 s { todo := puts (r :: l) ++ more } =
        ({ s with sets := s.sets.release [r] now }, { todo := puts l ++ more }) := by
      rw [Sets.release, List.diff_cons, List.diff_nil]
      simp only [puts, List.map_cons, List.cons_append, steps, step, follow, Instr.run, hopen,
        Sets.receive_full (hover List.mem_cons_self) (hout List.mem_cons_self) hnone]
      rfl
    rw [List.length_cons, Nat.mul_succ, Nat.add_comm, steps_add, hsteps]
    refine (ih _ ?opened hl ?among ?out ?full).trans ?taken
    case opened => exact hopen
    case among => simpa [Sets.release] using subset_erase hr hover
    case out => exact fun x hx => hout (List.mem_cons_of_mem r hx)
    case full => exact fun _ => Nat.sub_eq_zero_of_le hnone
    case taken => simp [Sets.release]

end Job

namespace State

variable {s : State} {now : Instant}

/-- The overdue resources that were checked out. -/
def overdueOut (s : State) (now : Instant) : List ResourceId :=
  s.sets.checkedOut.filter (s.isOverdue now)

/-- The overdue overflow for which there is room. -/
def overdueKept (s : State) (now : Instant) : List ResourceId :=
  (s.sets.overflow.filter (s.isOverdue now)).take s.room

/-- The overdue overflow for which there is none. -/
def overdueLeft (s : State) (now : Instant) : List ResourceId :=
  (s.sets.overflow.filter (s.isOverdue now)).drop s.room

theorem filter_overflow_eq (s : State) (now : Instant) :
    s.sets.overflow.filter (s.isOverdue now) = s.overdueKept now ++ s.overdueLeft now :=
  (List.take_append_drop s.room _).symm

theorem overdue_eq (s : State) (now : Instant) :
    s.overdue now = s.overdueOut now ++ (s.overdueKept now ++ s.overdueLeft now) := by
  rw [← filter_overflow_eq]
  exact List.filter_append ..

theorem length_overdueKept (s : State) (now : Instant) :
    (s.overdueKept now).length = min (s.sets.overflow.countP (s.isOverdue now)) s.room := by
  rw [overdueKept, List.length_take, List.countP_eq_length_filter, Nat.min_comm]

/-- Taking back what was checked out makes no room, and takes none. -/
theorem length_restore (now : Instant) (hc : s.sets.checkedOut.Nodup) :
    (s.sets.restore (s.overdueOut now)).idle.length +
      (s.sets.restore (s.overdueOut now)).checkedOut.length =
        s.sets.idle.length + s.sets.checkedOut.length := by
  have hlength := List.length_eq_length_filter_add (l := s.sets.checkedOut) (s.isOverdue now)
  simp only [Sets.restore, overdueOut, diff_filter hc, List.length_append]
  omega

/-- What the pass makes of the sets of an open pool. -/
def reclaimedSets (s : State) (now : Instant) : Sets :=
  ((s.sets.restore (s.overdueOut now)).retain (s.overdueKept now)).release (s.overdueLeft now) now

/-- The pass comes to its end: first what was checked out, then the overflow until there is no
more room, then what is left of it. -/
theorem steps_reclaimOverdue (now : Instant) (hn : s.sets.members.Nodup)
    (hopen : s.sets.closed = false) :
    Job.steps now (1 + ((s.overdueOut now).length +
      ((s.overdueKept now).length + 2 * (s.overdueLeft now).length))) s .reclaimOverdue =
        ({ s with sets := s.reclaimedSets now }, { todo := [] }) := by
  have ha := Sets.active_nodup hn
  have hc := Sets.checkedOut_nodup ha
  have hsplit : (s.overdueKept now ++ s.overdueLeft now).Nodup :=
    filter_overflow_eq s now ▸ (Sets.overflow_nodup ha).filter _
  obtain ⟨hkept, hleft, hapart⟩ := List.nodup_append.mp hsplit
  have hover : s.overdueKept now ++ s.overdueLeft now ⊆ s.sets.overflow :=
    filter_overflow_eq s now ▸ List.filter_subset_self _
  obtain ⟨hkeptOver, hleftOver⟩ := List.append_subset.mp hover
  have hnotOut : s.sets.overflow.Disjoint (s.sets.restore (s.overdueOut now)).checkedOut :=
    fun r hr hr' =>
      Sets.not_overflow_of_checkedOut ha (List.diff_subset _ _ hr') hr
  have hnotIdle : s.sets.overflow.Disjoint (s.sets.restore (s.overdueOut now)).idle := by
    intro r hr hi
    rcases List.mem_append.mp hi with hi | hi
    · exact Sets.not_overflow_of_idle ha hi hr
    · exact Sets.not_overflow_of_checkedOut ha (List.mem_of_mem_filter hi) hr
  have hlength := length_restore now hc
  have hbegin : Job.steps now 1 s .reclaimOverdue =
      (s, { todo := Job.puts (s.overdueOut now) ++
        (Job.puts (s.overdueKept now) ++ (Job.puts (s.overdueLeft now) ++ [])) }) := by
    rw [List.append_nil, ← Job.puts_append, ← Job.puts_append, ← overdue_eq]
    exact Prod.ext rfl (congrArg (Job.mk · _) (List.append_nil _))
  have hretain : (s.overdueKept now).length ≤ s.room := by
    rw [length_overdueKept]
    exact Nat.min_le_right _ _
  have hrelease : s.overdueLeft now ≠ [] → (s.overdueKept now).length = s.room := by
    intro hne
    have hmore : s.room < (s.sets.overflow.filter (s.isOverdue now)).length := by
      by_contra hle
      exact hne (List.drop_eq_nil_iff.mpr (Nat.not_lt.mp hle))
    rw [length_overdueKept, List.countP_eq_length_filter]
    omega
  refine Job.steps_trans hbegin ?_
  refine Job.steps_trans (Job.steps_restore s hopen (hc.filter _) (List.filter_subset_self _) ?_) ?_
  · exact fun r hr hi => Sets.not_checkedOut_of_idle ha hi (List.mem_of_mem_filter hr)
  refine Job.steps_trans (Job.steps_retain _ hopen hkept hkeptOver ?_ ?_ ?_) ?_
  · exact fun r hr => hnotOut (hkeptOver hr)
  · exact fun r hr => hnotIdle (hkeptOver hr)
  · rwa [room, hlength]
  refine Job.steps_release _ hopen hleft ?_ ?_ ?_
  · exact fun r hr => List.mem_diff_of_mem (hleftOver hr) fun hr' => hapart r hr' r hr rfl
  · exact fun r hr => hnotOut (hleftOver hr)
  · intro hne
    have hall := hrelease hne
    simp only [room, Sets.retain, List.length_append] at hall ⊢
    omega

theorem reclaimed_reclaimedSets (hn : s.sets.members.Nodup) (hopen : s.sets.closed = false) :
    s.Reclaimed now { s with sets := s.reclaimedSets now } where
  frame := rfl
  closed := hopen
  checkedOut := diff_filter (Sets.checkedOut_nodup (Sets.active_nodup hn)) _
  overflow := by
    have ho := Sets.overflow_nodup (Sets.active_nodup hn)
    rw [← diff_filter ho, filter_overflow_eq, List.diff_append]
    rfl
  returned := by
    refine ⟨s.overdueKept now, s.overdueLeft now, filter_overflow_eq s now,
      length_overdueKept s now, rfl, ?_⟩
    exact get?_foldl_insert (s.overdueLeft now) s.sets.pendingClose now

/-- Putting back what is idle or waits to be destroyed does nothing. -/
theorem step_put_waiting {r : ResourceId} (hn : s.sets.members.Nodup) (hshut : s.Shut)
    (hr : r ∈ s.sets.idle ∨ s.sets.pendingClose.contains r = true) :
    (Job.put r).step now s = (s, { todo := [] }) := by
  have hopen : s.sets.closed = false := by
    rw [Bool.eq_false_iff]
    intro hclosed
    rw [hshut hclosed] at hr
    rcases hr with hr | hr <;> cases hr
  simp only [Job.put, Job.step, Instr.run, hopen, Sets.receive_waiting hn hr]
  rfl

/-- A pass over an open pool takes back exactly what is overdue, without waiting for anybody, and
whoever hands in one of these resources later changes nothing by it. -/
theorem reclaims_overdue (s : State) (now : Instant) (hn : s.sets.members.Nodup)
    (hopen : s.sets.closed = false) :
    ∃ n s', Job.steps now n s .reclaimOverdue = (s', { todo := [] }) ∧ s.Reclaimed now s' ∧
      (∀ k, (Job.steps now k s .reclaimOverdue).2.waitsFor = none) ∧
      ∀ r ∈ s.overdue now, ∀ (later : Instant) (u : State), u.sets.members.Nodup → u.Shut →
        r ∈ u.sets.idle ∨ u.sets.pendingClose.contains r = true →
        (Job.put r).step later u = (u, { todo := [] }) := by
  have hsteps := steps_reclaimOverdue now hn hopen
  have hend := congrArg (fun next => next.2.todo) hsteps
  refine ⟨_, _, hsteps, reclaimed_reclaimedSets hn hopen, Job.waitsFor_of_steps hend, ?_⟩
  exact fun r _ later u hu hshut hr => step_put_waiting hu hshut hr

/-- A pool with room for one more. Of what is lent, 2 and 5 are not overdue yet. -/
def pressed : State where
  name := "pool"
  limits := ⟨4, ⟨5⟩⟩
  sets := {
    idle := [0], checkedOut := [1, 2], overflow := [3, 4, 5]
    pendingClose := Table.empty.insert 6 ⟨1⟩ }
  stock := [0, 0, 9, 0, 0, 9, 0].zipIdx.map fun p => ⟨"pool", p.2, .start, ⟨p.1⟩, false⟩

/-- The same after the pass: 3 took the room, and 4 waits to be destroyed. -/
def relieved : State :=
  { pressed with
    sets := {
      idle := [0, 1, 3], checkedOut := [2], overflow := [5]
      pendingClose := (Table.empty.insert 6 ⟨1⟩).insert 4 ⟨10⟩ } }

theorem reclaims_overdue_pressed :
    ∃ n s', Job.steps ⟨10⟩ n pressed .reclaimOverdue = (s', { todo := [] }) ∧
      s'.sets.idle = relieved.sets.idle ∧ s'.sets.checkedOut = relieved.sets.checkedOut ∧
      s'.sets.overflow = relieved.sets.overflow ∧
      (∀ r, s'.sets.pendingClose.get? r = relieved.sets.pendingClose.get? r) ∧
      ∀ later, (Job.put 4).step later relieved = (relieved, { todo := [] }) := by
  obtain ⟨n, s', hsteps, hreclaimed, -, hput⟩ := reclaims_overdue pressed ⟨10⟩ (by decide) rfl
  obtain ⟨kept, left, hover, hlength, hidle, hpending⟩ := hreclaimed.returned
  have hlost : [3, 4] = kept ++ left := hover
  obtain ⟨rfl, rfl⟩ : kept = [3] ∧ left = [4] := by
    obtain ⟨r, rfl⟩ := List.length_eq_one_iff.mp hlength
    exact ⟨by rw [(List.cons.inj hlost).1], (List.cons.inj hlost).2.symm⟩
  refine ⟨n, s', hsteps, hidle, hreclaimed.checkedOut, hreclaimed.overflow, fun r => ?_,
    fun later => hput 4 (by decide) later relieved (by decide) nofun (Or.inr (by decide))⟩
  simp only [hpending, List.mem_singleton]
  exact (Table.get?_insert _ 4 r _).symm

end State

end Stockroom.Pool

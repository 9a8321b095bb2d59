import Stockroom.Proofs.Pool.Effects

/-! What one job does when it is its turn: a step, the reply to its call, or what is left of it
after a crash. -/

namespace Stockroom.Pool
set_option autoImplicit false

namespace Job

def fresh (j : Job) : List ResourceId := j.todo.flatMap Instr.fresh

def carries (j : Job) : List ResourceId := j.todo.flatMap Instr.carries

/-- Resources that the job knows, and those that it has given to its caller. -/
def mentions (j : Job) : List ResourceId := j.todo.flatMap Instr.mentions ++ j.result.gives

theorem todo_of_waitsFor {j : Job} {callback : Callback} (h : j.waitsFor = some callback) :
    ∃ rest, j.todo = .call callback :: rest := by
  unfold waitsFor at h
  split at h
  · rename_i rest htodo
    exact ⟨rest, Option.some.inj h ▸ htodo⟩
  · cases h

theorem gives_subset (j : Job) : j.gives ⊆ j.mentions := by
  intro r hr
  rcases List.mem_append.mp hr with hr | hr
  · exact List.mem_append_right _ hr
  · split at hr
    · rename_i x hwaits
      obtain ⟨rest, htodo⟩ := todo_of_waitsFor hwaits
      refine List.mem_append_left _ ?_
      rw [htodo, List.flatMap_cons]
      exact List.mem_append_left _ hr
    · cases hr

end Job

/-- The pool came from `s` to `s'` while a job came from `j` to `j'`. -/
structure Turn (s : State) (j : Job) (s' : State) (j' : Job) : Prop where
  orderly : Orderly j'.todo
  sets : s.sets.Moved s'.sets j.fresh j.mentions j'.carries
  mentions : ∀ r ∈ j'.mentions, r ∈ s.sets.members ∨ r ∈ j.mentions ∨ r ∈ j.fresh
  fresh : (s'.stock.length = s.stock.length ∧ j'.fresh = []) ∨
    (s'.stock.length = s.stock.length + 1 ∧ j'.fresh = [s.stock.length] ∧ j.fresh = [])
  away : ∀ r d rest, j'.todo = .dispose r d :: rest → r ∉ s'.sets.active
  carried : ∀ r ∈ j.carries, s'.stock.isDestroyed r = false →
    r ∈ s'.sets.members ∨ r ∈ j'.carries
  destroyed : ∀ r < s.stock.length, s.stock.isDestroyed r = true → s'.stock.isDestroyed r = true

namespace Turn

variable {s : State} {j : Job} {i : Instr} {rest : List Instr}

theorem of_ended (hn : s.sets.members.Nodup) (hj : j.todo = []) : Turn s j s j := by
  constructor
  · rw [hj]
    exact .nil
  · exact .refl hn _ _ _
  · exact fun r hr => Or.inr (Or.inl hr)
  · exact Or.inl ⟨rfl, by rw [Job.fresh, hj]; rfl⟩
  · intro r d rest hd
    rw [hj] at hd
    cases hd
  · exact fun r hr _ => Or.inr hr
  · exact fun _ _ hr => hr

theorem of_keeps {e : Effect} (hj : j.todo = i :: rest) (hrest : Doomed rest)
    (hi : i.Destroys ∨ ∀ k ∈ rest, k.Plain) (h : Keeps s i e) :
    Turn s j (j.follow rest e).1 (j.follow rest e).2 := by
  have hfresh : j.fresh = i.fresh := by
    rw [Job.fresh, hj, List.flatMap_cons, hrest.fresh, List.append_nil]
  have hnext : (j.follow rest e).2.fresh = e.next.flatMap Instr.fresh := by
    simp only [Job.fresh, Job.follow, List.flatMap_append, hrest.fresh, List.append_nil]
  have hmentions : i.mentions ⊆ j.mentions := by
    rw [Job.mentions, hj, List.flatMap_cons, List.append_assoc]
    exact List.subset_append_left _ _
  have hcarries : e.next.flatMap Instr.carries ⊆ (j.follow rest e).2.carries := by
    simp only [Job.carries, Job.follow, List.flatMap_append]
    exact List.subset_append_left _ _
  constructor
  · exact h.orderly rest hrest hi
  · rw [hfresh]
    exact h.sets.mono (List.Subset.refl _) hmentions hcarries
  · intro r hr
    have hcases : r ∈ e.mentions ∨ r ∈ j.mentions := by
      simp only [Job.mentions, Job.follow, List.flatMap_append, List.mem_append] at hr
      simp only [Effect.mentions, Job.mentions, hj, List.flatMap_cons, List.mem_append]
      rcases hr with (hr | hr) | hr
      · exact Or.inl (Or.inl hr)
      · exact Or.inr (Or.inl (Or.inr hr))
      · cases hresult : e.result with
        | none => exact Or.inr (Or.inr (by simpa [hresult] using hr))
        | some result => exact Or.inl (Or.inr (by simpa [hresult] using hr))
    rcases hcases with hr | hr
    · rw [hfresh]
      exact (h.mentions r hr).imp_right (Or.imp_left (@hmentions r))
    · exact Or.inr (Or.inl hr)
  · rw [hnext, hfresh]
    exact h.fresh
  · intro r d tail hd
    have hmem : Instr.dispose r d ∈ e.next ++ rest := by
      rw [show e.next ++ rest = _ from hd]
      exact List.mem_cons_self
    rcases List.mem_append.mp hmem with hmem | hmem
    · exact h.away r d hmem
    · exact absurd hmem (hrest.not_dispose r d)
  · intro r hr hdestroyed
    rw [Job.carries, hj, List.flatMap_cons] at hr
    rcases List.mem_append.mp hr with hr | hr
    · exact (h.carried r hr hdestroyed).imp_right (@hcarries r)
    · refine Or.inr ?_
      simp only [Job.carries, Job.follow, List.flatMap_append]
      exact List.mem_append_right _ hr
  · exact h.destroyed

/-- A withdrawal: the next instruction takes care of the resource. -/
theorem of_withdraw (hn : s.sets.members.Nodup) (now : Instant) {r : ResourceId}
    (hj : j.todo = .withdraw r :: .dispose r .delayed :: rest) (hrest : ∀ k ∈ rest, k.Plain) :
    Turn s j (j.step now s).1 (j.step now s).2 := by
  obtain ⟨hmoved, haway⟩ := Sets.withdraw_moved hn r
  obtain ⟨todo, result⟩ := j
  obtain rfl : todo = _ := hj
  constructor
  · exact Orderly.one (i := .dispose r .delayed) nofun hrest
  · refine hmoved.mono nofun nofun ?_
    intro x hx
    exact List.mem_append_left _ hx
  · intro x hx
    refine Or.inr (Or.inl ?_)
    exact List.mem_cons_of_mem _ hx
  · refine Or.inl ⟨rfl, ?_⟩
    exact (Doomed.of_plain hrest).fresh
  · intro x d tail hd
    obtain ⟨rfl, -⟩ := Instr.dispose.inj (List.cons.inj hd).1
    exact haway
  · exact fun x hx _ => Or.inr hx
  · exact fun _ _ hx => hx

/-- Only ends of loans are left of plain instructions. -/
theorem of_unwind {callback : Callback} (hn : s.sets.members.Nodup)
    (hj : j.todo = .call callback :: rest) (hrest : ∀ k ∈ rest, k.Plain) {j' : Job}
    (htodo : ∀ k ∈ j'.todo, k ∈ rest) (hresult : j'.result.gives ⊆ j.result.gives) :
    Turn s j s j' := by
  have hplain : Doomed j'.todo := .of_plain fun k hk => hrest k (htodo k hk)
  have hnone : j.carries = [] := by
    rw [Job.carries, hj, List.flatMap_cons, List.flatMap_eq_nil_iff.mpr
      fun k hk => (hrest k hk).carries]
    rfl
  constructor
  · exact hplain.orderly
  · exact .refl hn _ _ _
  · intro r hr
    refine Or.inr (Or.inl ?_)
    rcases List.mem_append.mp hr with hr | hr
    · obtain ⟨k, hk, hr⟩ := List.mem_flatMap.mp hr
      refine List.mem_append_left _ (List.mem_flatMap.mpr ⟨k, ?_, hr⟩)
      rw [hj]
      exact List.mem_cons_of_mem _ (htodo k hk)
    · exact List.mem_append_right _ (hresult hr)
  · exact Or.inl ⟨rfl, hplain.fresh⟩
  · intro r d tail hd
    refine absurd ?_ (hplain.not_dispose r d)
    rw [hd]
    exact List.mem_cons_self
  · rw [hnone]
    exact nofun
  · exact fun _ _ hr => hr

end Turn

namespace Job

variable {s : State} {j : Job}

theorem turn_step (now : Instant) (hj : Orderly j.todo) (hn : (j.fresh ++ s.sets.members).Nodup)
    (haway : ∀ r d rest, j.todo = .dispose r d :: rest → r ∉ s.sets.active) :
    Turn s j (j.step now s).1 (j.step now s).2 := by
  have hmembers : s.sets.members.Nodup := (List.nodup_append.mp hn).2.1
  cases htodo : j.todo with
  | nil =>
    rw [step, htodo]
    exact .of_ended hmembers htodo
  | cons i rest =>
    rw [htodo] at hj
    cases hj with
    | cons _ _ hi hrest hdestroys =>
      rw [step, htodo]
      refine .of_keeps htodo hrest hdestroys (keeps_run now ?_ ?_ hi)
      · rwa [fresh, htodo, List.flatMap_cons, hrest.fresh, List.append_nil] at hn
      · rintro r d rfl
        exact haway r d rest htodo
    | leaving r rest hrest => exact .of_withdraw hmembers now htodo hrest

theorem crash_todo (j : Job) (text : String) : (j.crash text).todo = j.unwind.todo := by
  unfold crash
  split <;> rfl

/-- A crash leaves nothing to do for a job that has no loan to end. -/
theorem crash_todo_map {f : ResourceId → Instr} (hf : ∀ r r', f r ≠ .giveBack r')
    (left : List ResourceId) (result : Result) (text : String) :
    (({ todo := left.map f, result } : Job).crash text).todo = [] := by
  rw [crash_todo]
  apply List.filter_eq_nil_iff.mpr
  intro instr hi
  obtain ⟨r, -, rfl⟩ := List.mem_map.mp hi
  cases he : f r with
  | giveBack r' => exact absurd he (hf r r')
  | _ => exact Bool.false_ne_true

theorem crash_gives (j : Job) (text : String) : (j.crash text).result.gives = [] := by
  unfold crash
  split
  · rename_i h
    rw [unwind, h]
    rfl
  · rfl

theorem turn_reply (now : Instant) {callback : Callback} (reply : Reply) (hj : Orderly j.todo)
    (hn : s.sets.members.Nodup) (hwaits : j.waitsFor = some callback)
    (hcrash : ∀ text, reply = .crash text → ∀ r, callback ≠ .destructor r) :
    Turn s j (j.reply now s reply).1 (j.reply now s reply).2 := by
  obtain ⟨rest, htodo⟩ := todo_of_waitsFor hwaits
  rw [htodo] at hj
  cases hj with
  | cons _ _ hi hrest hdestroys =>
    rw [Job.reply, htodo]
    cases reply with
    | ok => exact .of_keeps htodo hrest hdestroys (keeps_resume hn now callback none)
    | fail text => exact .of_keeps htodo hrest hdestroys (keeps_resume hn now callback (some text))
    | crash text =>
      have hplain : ∀ k ∈ rest, k.Plain := by
        refine hdestroys.resolve_left ?_
        intro hd
        cases callback with
        | destructor r => exact hcrash text rfl r rfl
        | _ => exact hd
      refine .of_unwind hn htodo hplain ?_ ?_
      · intro k hk
        rw [crash_todo] at hk
        exact List.mem_of_mem_filter hk
      · rw [crash_gives]
        exact nofun

theorem turn_unwind {r : ResourceId} (hj : Orderly j.todo) (hn : s.sets.members.Nodup)
    (hwaits : j.waitsFor = some (.body r)) : Turn s j s j.unwind := by
  obtain ⟨rest, htodo⟩ := todo_of_waitsFor hwaits
  rw [htodo] at hj
  cases hj with
  | cons _ _ hi hrest hdestroys =>
    refine .of_unwind hn htodo (hdestroys.resolve_left id) ?_ (List.Subset.refl _)
    intro k hk
    simp only [unwind, htodo, List.filter_cons, Bool.false_eq_true, if_false] at hk
    exact List.mem_of_mem_filter hk

end Job

end Stockroom.Pool

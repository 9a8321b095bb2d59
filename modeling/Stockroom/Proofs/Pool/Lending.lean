import Stockroom.Proofs.Pool.Destruction

/-! Once the destruction of a resource is settled it never comes back into a set from which it is
lent. So nothing that was destroyed is handed out, and no destructor is invoked twice. -/

namespace Stockroom.Pool
set_option autoImplicit false

def Instr.lends : Instr → List ResourceId
  | .call (.body r) => [r]
  | _ => []

/-- What an effect gives to the caller, or to the body that comes next. -/
def Effect.gives (e : Effect) : List ResourceId :=
  (e.result.map Result.gives).getD [] ++ e.next.flatMap Instr.lends

theorem gives_grant (s : State) (purpose : Purpose) (r : ResourceId) :
    (s.grant purpose r).gives = [r] := by
  cases purpose <;> rfl

/-- Where no instruction lends, nothing is lent. -/
theorem Instr.flatMap_lends {l : List ResourceId} {f : ResourceId → Instr}
    (hf : ∀ x, (f x).lends = []) : (l.map f).flatMap Instr.lends = [] := by
  rw [List.flatMap_map]
  exact List.flatMap_eq_nil_iff.mpr fun x _ => hf x

theorem Sets.mem_active_of_checkOut? {s u : Sets} {r : ResourceId}
    (h : s.checkOut? = some (r, u)) : r ∈ u.active := by
  rw [(eq_of_checkOut? h).2]
  exact mem_active.mpr (Or.inr (Or.inl List.mem_insert_self))

theorem Sets.mem_active_enroll (s : Sets) (maxSize : Nat) (r : ResourceId) :
    r ∈ (s.enroll maxSize r).active := by
  rw [mem_active, enroll]
  split
  · exact Or.inr (Or.inr List.mem_insert_self)
  · exact Or.inr (Or.inl List.mem_insert_self)

theorem Instr.Leads.gives {now : Instant} {s : State} {i : Instr} {e : Effect}
    (h : i.Leads now s e) (hbody : i.lends = []) : ∀ r ∈ e.gives, r ∈ e.state.sets.active := by
  intro r hr
  cases h with
  | checkOut purpose x sets _ hout =>
    rw [gives_grant, List.mem_singleton] at hr
    rw [state_grant, hr]
    exact Sets.mem_active_of_checkOut? hout
  | enroll purpose x _ =>
    rw [gives_grant, List.mem_singleton] at hr
    rw [state_grant, hr]
    exact Sets.mem_active_enroll _ _ _
  | destroy x _ =>
    simp only [Effect.gives] at hr
    split at hr <;> cases hr
  | close | inspect | reclaim | sweep =>
    rw [Effect.gives, Instr.flatMap_lends fun _ => rfl] at hr
    cases hr
  | bodyDone x => cases hbody
  | _ => cases hr

theorem Job.Moves.destructs {mayCrash : Callback → Prop} {now : Instant} {s : State} {j : Job}
    {next : State × Job} (h : j.Moves mayCrash now s next) : next.1.destructs = s.destructs := by
  rcases h.cases with rfl | ⟨i, rest, e, -, hleads, rfl⟩ | ⟨he, -⟩
  · rfl
  · exact hleads.destructs
  · rw [he]

namespace Job

variable {j : Job} {i : Instr} {rest : List Instr} {e : Effect} {r : ResourceId}

theorem gives_follow (hr : r ∈ (j.follow rest e).2.gives) :
    r ∈ e.gives ∨ r ∈ j.result.gives ∨ .call (.body r) ∈ rest := by
  rcases List.mem_append.mp hr with hr | hr
  · cases hend : e.result with
    | none => exact Or.inr (Or.inl (by simpa [follow, hend] using hr))
    | some result => exact Or.inl (List.mem_append_left _ (by simpa [follow, hend] using hr))
  · split at hr
    · rename_i x hx
      obtain rfl := List.mem_singleton.mp hr
      obtain ⟨tail, hcall⟩ := todo_of_waitsFor hx
      have hmem : Instr.call (.body r) ∈ e.next ++ rest := by
        rw [show e.next ++ rest = _ from hcall]
        exact List.mem_cons_self
      rcases List.mem_append.mp hmem with hmem | hmem
      · exact Or.inl (List.mem_append_right _ (List.mem_flatMap.mpr ⟨_, hmem, List.mem_cons_self⟩))
      · exact Or.inr (Or.inr hmem)
    · cases hr

/-- What a job hands out is given by the instruction that it has come to. -/
theorem gives_of_handedOut (hj : Orderly j.todo) (htodo : j.todo = i :: rest)
    (hr : r ∈ j.handedOut (j.follow rest e).2) : i.lends = [] ∧ r ∈ e.gives := by
  unfold handedOut at hr
  split at hr
  · rename_i hgives
    obtain ⟨hresult, hwaits⟩ := List.append_eq_nil_iff.mp hgives
    constructor
    · unfold Instr.lends
      split
      · rw [waitsFor_of_todo htodo] at hwaits
        cases hwaits
      · rfl
    · rcases gives_follow hr with hr | hr | hr
      · exact hr
      · rw [hresult] at hr
        cases hr
      · obtain ⟨x, he⟩ := Orderly.call_mem_tail (htodo ▸ hj) hr
        cases he
  · cases hr

theorem Unwound.not_mem_handedOut {k : Job} (h : j.Unwound k) : r ∉ j.handedOut k := by
  intro hr
  unfold handedOut at hr
  split at hr
  · rename_i hgives
    rw [gives, h.waitsFor, List.append_nil] at hr
    have hresult := h.result hr
    rw [(List.append_eq_nil_iff.mp hgives).1] at hresult
    cases hresult
  · cases hr

end Job

/-- What a job hands out is then in a set. -/
theorem Job.Moves.handedOut {mayCrash : Callback → Prop} {now : Instant} {s : State} {j : Job}
    {next : State × Job} (h : j.Moves mayCrash now s next) (hj : Orderly j.todo) {r : ResourceId}
    (hr : r ∈ j.handedOut next.2) : r ∈ next.1.sets.active := by
  rcases h.cases with rfl | ⟨i, rest, e, htodo, hleads, rfl⟩ | ⟨-, hunwound⟩
  · rw [Job.handedOut_self] at hr
    cases hr
  · obtain ⟨hbody, hgive⟩ := Job.gives_of_handedOut hj htodo hr
    exact hleads.gives hbody r hgive
  · exact absurd hr hunwound.not_mem_handedOut

theorem Operation.condemned_job (op : Operation) : op.job.condemned = [] := by cases op <;> rfl

namespace Traffic

/-- What can be lent, now or later, was not destroyed and is not going to be. -/
structure Lendable (t : Traffic) : Prop where
  active : ∀ r ∈ t.state.sets.active, t.state.stock.isDestroyed r = false
  fresh : ∀ r ∈ t.fresh, t.state.stock.isDestroyed r = false
  condemned : ∀ r ∈ t.condemned, r ∉ t.state.sets.active

variable {mayCrash : Callback → Prop} {t u : Traffic} {before after : List Job} {j : Job}
  {next : State × Job}

theorem mem_condemned {r : ResourceId} : r ∈ t.condemned ↔ ∃ j ∈ t.jobs, r ∈ j.condemned :=
  List.mem_flatMap

theorem isDestroyed_of_undisturbed (hown : t.Undisturbed u) (hjobs : t.jobs = u.jobs) :
    ∀ r ∈ t.made, u.state.stock.isDestroyed r = t.state.stock.isDestroyed r := by
  intro r hr
  rw [Stock.isDestroyed, Stock.isDestroyed, hown hjobs r hr]

theorem condemned_subset (t : Traffic) : t.condemned ⊆ t.seen := by
  intro r hr
  obtain ⟨j, hj, hr⟩ := mem_condemned.mp hr
  exact mem_seen.mpr (Or.inr (Or.inr ⟨j, hj, j.condemned_subset hr⟩))

namespace Owned

theorem not_fresh_of_condemned (h : t.Owned) {r : ResourceId} (hr : r ∈ t.condemned) :
    r ∉ t.fresh := (h.sound.seen r (t.condemned_subset hr)).2

theorem condemned_proceed (h : t.Owned) (hjobs : t.jobs = before ++ j :: after)
    (hmoves : j.Moves mayCrash t.now t.state next) {r : ResourceId}
    (hr : r ∈ (t.proceed before after next).condemned) :
    r ∈ t.condemned ∨ r ∉ next.1.sets.members := by
  obtain ⟨k, hk, hr⟩ := mem_condemned.mp hr
  rcases Sound.eq_or_mem_jobs hjobs hk with rfl | hk
  · refine (hmoves.condemned (h.nodup_fresh_append hjobs) h.shut hr).imp_left fun hr => ?_
    exact mem_condemned.mpr ⟨j, Sound.mem_jobs hjobs, hr⟩
  · exact Or.inl (mem_condemned.mpr ⟨k, hk, hr⟩)

theorem active_proceed (h : t.Owned) (hjobs : t.jobs = before ++ j :: after)
    (hmoves : j.Moves mayCrash t.now t.state next) {r : ResourceId}
    (hr : r ∈ next.1.sets.active) : r ∈ t.state.sets.active ∨ r ∈ t.fresh := by
  rcases h.turn_or_unwound hjobs hmoves with hturn | ⟨he, -⟩
  · refine (hturn.sets.active r hr).imp_right fun hr => ?_
    exact mem_fresh.mpr ⟨j, Sound.mem_jobs hjobs, hr⟩
  · rw [he] at hr
    exact Or.inl hr

theorem fresh_proceed (h : t.Owned) (hjobs : t.jobs = before ++ j :: after)
    (hmoves : j.Moves mayCrash t.now t.state next) {r : ResourceId}
    (hr : r ∈ (t.proceed before after next).fresh) :
    r ∈ t.fresh ∨ r = t.state.stock.length ∧ r < next.1.stock.length := by
  rcases h.turn_or_unwound hjobs hmoves with hturn | ⟨he, hunwound⟩
  · rcases Sound.fresh_proceed hturn with hnew | ⟨hstock, hnew⟩
    · exact Or.inl (Sound.others_subset hjobs (hnew.subset hr))
    · rcases List.mem_cons.mp (hnew.subset hr) with rfl | hr
      · exact Or.inr ⟨rfl, Nat.lt_of_lt_of_eq (Nat.lt_succ_self _) hstock.symm⟩
      · exact Or.inl (Sound.others_subset hjobs hr)
  · obtain ⟨k, hk, hr⟩ := mem_fresh.mp hr
    rcases Sound.eq_or_mem_jobs hjobs hk with rfl | hk
    · rw [hunwound.fresh] at hr
      cases hr
    · exact Or.inl (mem_fresh.mpr ⟨k, hk, hr⟩)

theorem made_proceed (h : t.Owned) (hjobs : t.jobs = before ++ j :: after)
    (hmoves : j.Moves mayCrash t.now t.state next) {r : ResourceId}
    (hr : r ∈ (t.proceed before after next).made) :
    r ∈ t.made ∨ t.state.stock.length ≤ r ∧ r < next.1.stock.length := by
  rcases h.turn_or_unwound hjobs hmoves with hturn | ⟨he, -⟩
  · exact Sound.mem_made_proceed hturn hr
  · simp only [Traffic.proceed, he, Nat.sub_self, List.range'_zero, List.append_nil] at hr
    exact Or.inl hr

theorem destroyed_proceed (h : t.Owned) (hjobs : t.jobs = before ++ j :: after)
    (hmoves : j.Moves mayCrash t.now t.state next) {r : ResourceId}
    (hlt : r < t.state.stock.length) (hr : t.state.stock.isDestroyed r = true) :
    next.1.stock.isDestroyed r = true := by
  rcases h.turn_or_unwound hjobs hmoves with hturn | ⟨he, -⟩
  · exact hturn.destroyed r hlt hr
  · rw [he]
    exact hr

end Owned

/-- What a turn destroys was settled for destruction before; what it makes is not destroyed. -/
theorem destroyed_cases (hj : Orderly j.todo) (hjobs : t.jobs = before ++ j :: after)
    (hmoves : j.Moves mayCrash t.now t.state next) {r : ResourceId}
    (hlt : r < next.1.stock.length) (hr : next.1.stock.isDestroyed r = true) :
    r < t.state.stock.length ∧ (t.state.stock.isDestroyed r = true ∨ r ∈ t.condemned) := by
  rcases hmoves.destruction hj with ⟨-, hsame⟩ | ⟨x, rest, htodo, halive, hstock, -⟩
  · obtain ⟨hlt, hr⟩ := hsame r hlt hr
    exact ⟨hlt, Or.inl hr⟩
  · rw [hstock, Stock.length_markDestroyed] at hlt
    rw [hstock, Stock.isDestroyed_markDestroyed, Bool.or_eq_true, beq_iff_eq] at hr
    refine ⟨hlt, hr.imp_right ?_⟩
    rintro rfl
    refine mem_condemned.mpr ⟨j, Sound.mem_jobs hjobs, Job.mem_condemned.mpr ⟨.destroy x, ?_, ?_⟩⟩
    · rw [htodo]
      exact List.mem_cons_self
    · exact List.mem_cons_self

namespace Lendable

theorem proceed (h : t.Lendable) (howned : t.Owned) (hjobs : t.jobs = before ++ j :: after)
    (hmoves : j.Moves mayCrash t.now t.state next) : (t.proceed before after next).Lendable := by
  have hu := howned.proceed hjobs hmoves
  have hj := howned.sound.orderly j (Sound.mem_jobs hjobs)
  have hkept : ∀ r < next.1.stock.length, r ∈ t.state.sets.active ∨ r ∈ t.fresh →
      next.1.stock.isDestroyed r = false := by
    intro r hlt hr
    by_contra hdestroyed
    rw [Bool.not_eq_false] at hdestroyed
    obtain ⟨-, hbefore | hcondemned⟩ := destroyed_cases hj hjobs hmoves hlt hdestroyed
    · have halive : t.state.stock.isDestroyed r = false := hr.elim (h.active r) (h.fresh r)
      rw [halive] at hbefore
      cases hbefore
    · rcases hr with hr | hr
      · exact h.condemned r hcondemned hr
      · exact howned.not_fresh_of_condemned hcondemned hr
  constructor
  · intro r hr
    apply hkept r
    · exact hu.known r (hu.members (Sets.mem_members.mpr (Or.inl hr)))
    · exact howned.active_proceed hjobs hmoves hr
  · intro r hr
    rcases howned.fresh_proceed hjobs hmoves hr with hfresh | ⟨rfl, hlt⟩
    · exact hkept r (hu.sound.made r hr) (Or.inr hfresh)
    · by_contra hdestroyed
      rw [Bool.not_eq_false] at hdestroyed
      exact Nat.lt_irrefl _ (destroyed_cases hj hjobs hmoves hlt hdestroyed).1
  · intro r hr hactive
    rcases howned.condemned_proceed hjobs hmoves hr with hr | hout
    · rcases howned.active_proceed hjobs hmoves hactive with ha | hfresh
      · exact h.condemned r hr ha
      · exact howned.not_fresh_of_condemned hr hfresh
    · exact hout (Sets.mem_members.mpr (Or.inl hactive))

theorem start (h : t.Lendable) (op : Operation) :
    Lendable { t with jobs := t.jobs ++ [op.job] } where
  active := h.active
  fresh := by
    intro r hr
    obtain ⟨j, hj, hr⟩ := mem_fresh.mp hr
    rcases List.mem_append.mp hj with hj | hj
    · exact h.fresh r (mem_fresh.mpr ⟨j, hj, hr⟩)
    · rw [List.mem_singleton.mp hj, op.fresh_job] at hr
      cases hr
  condemned := by
    intro r hr
    obtain ⟨j, hj, hr⟩ := mem_condemned.mp hr
    rcases List.mem_append.mp hj with hj | hj
    · exact h.condemned r (mem_condemned.mpr ⟨j, hj, hr⟩)
    · rw [List.mem_singleton.mp hj, op.condemned_job] at hr
      cases hr

theorem of_next (h : t.Lendable) (howned : t.Owned) (hnext : Next mayCrash t u)
    (hown : t.Undisturbed u) : u.Lendable := by
  rcases next_cases hnext with ⟨op, hop, rfl⟩ | ⟨before, after, j, next, hjobs, hmoves, rfl⟩ |
    ⟨later, stock, hlength, hdestroyed, rfl⟩
  · exact h.start op
  · exact h.proceed howned hjobs hmoves
  · have hsame := isDestroyed_of_undisturbed hown rfl
    constructor
    · intro r hr
      rw [hsame r (howned.members (Sets.mem_members.mpr (Or.inl hr)))]
      exact h.active r hr
    · intro r hr
      rw [hsame r (howned.fresh hr)]
      exact h.fresh r hr
    · exact h.condemned

theorem of_run {name : String} {limits : Limits} {destructs : Bool} {stock : Stock}
    {path : List (Traffic × Traffic)}
    (h : Run mayCrash (.new name limits destructs stock) path t) : t.Owned ∧ t.Lendable := by
  induction h with
  | refl => exact ⟨owned_new name limits destructs stock, ⟨nofun, nofun, nofun⟩⟩
  | next _ hnext hown ih => exact ⟨ih.1.of_next hnext, ih.2.of_next ih.1 hnext hown⟩

end Lendable

/-- The log of destructor invocations is complete, and tells no resource twice. -/
structure Logged (path : List (Traffic × Traffic)) (t : Traffic) : Prop where
  nodup : (invoked path).Nodup
  mem_iff : ∀ r, r ∈ invoked path ↔
    r ∈ t.made ∧ t.state.stock.isDestroyed r = true ∧ t.state.destructs = true

namespace Logged

variable {path : List (Traffic × Traffic)}

theorem invoked_proceed (path : List (Traffic × Traffic)) (hjobs : t.jobs = before ++ j :: after) :
    invoked (path ++ [(t, t.proceed before after next)]) = invoked path ++ j.invoked next.2 := by
  rw [invoked, List.flatMap_append, List.flatMap_singleton,
    between_proceed Job.invoked_self hjobs]
  rfl

/-- What was destroyed stays so. -/
theorem still (h : Logged path t) (howned : t.Owned) (hjobs : t.jobs = before ++ j :: after)
    (hmoves : j.Moves mayCrash t.now t.state next) {r : ResourceId} (hr : r ∈ invoked path) :
    r ∈ (t.proceed before after next).made ∧ next.1.stock.isDestroyed r = true ∧
      next.1.destructs = true := by
  obtain ⟨hknown, hdestroyed, hdestructs⟩ := (h.mem_iff r).mp hr
  refine ⟨List.mem_append_left _ hknown, ?_, hmoves.destructs.trans hdestructs⟩
  exact howned.destroyed_proceed hjobs hmoves (howned.known r hknown) hdestroyed

/-- What was destroyed before the turn is logged. -/
theorem before_turn (h : Logged path t) (howned : t.Owned) (hjobs : t.jobs = before ++ j :: after)
    (hmoves : j.Moves mayCrash t.now t.state next) {r : ResourceId}
    (hmade : r ∈ (t.proceed before after next).made) (hlt : r < t.state.stock.length)
    (hr : t.state.stock.isDestroyed r = true) (hdestructs : next.1.destructs = true) :
    r ∈ invoked path := by
  have hold : r ∈ t.made := (howned.made_proceed hjobs hmoves hmade).resolve_right fun hnew =>
    Nat.not_lt.mpr hnew.1 hlt
  exact (h.mem_iff r).mpr ⟨hold, hr, hmoves.destructs.symm.trans hdestructs⟩

/-- A turn that destroys nothing. -/
theorem quiet (h : Logged path t) (howned : t.Owned) (hjobs : t.jobs = before ++ j :: after)
    (hmoves : j.Moves mayCrash t.now t.state next) (hnone : j.invoked next.2 = [])
    (hsame : ∀ r < next.1.stock.length, next.1.stock.isDestroyed r = true →
      r < t.state.stock.length ∧ t.state.stock.isDestroyed r = true) :
    Logged (path ++ [(t, t.proceed before after next)]) (t.proceed before after next) := by
  have hlog : invoked (path ++ [(t, t.proceed before after next)]) = invoked path := by
    rw [invoked_proceed path hjobs, hnone, List.append_nil]
  constructor
  · exact hlog ▸ h.nodup
  · intro r
    rw [hlog]
    constructor
    · exact h.still howned hjobs hmoves
    · rintro ⟨hmade, hdestroyed, hdestructs⟩
      obtain ⟨hlt, hr⟩ := hsame r ((howned.proceed hjobs hmoves).known r hmade) hdestroyed
      exact h.before_turn howned hjobs hmoves hmade hlt hr hdestructs

/-- A turn that begins one destruction. -/
theorem destroys (h : Logged path t) (howned : t.Owned) (hjobs : t.jobs = before ++ j :: after)
    (hmoves : j.Moves mayCrash t.now t.state next) {x : ResourceId} {rest : List Instr}
    (htodo : j.todo = .destroy x :: rest) (halive : t.state.stock.isDestroyed x = false)
    (hstock : next.1.stock = t.state.stock.markDestroyed x)
    (hone : j.invoked next.2 = if t.state.destructs then [x] else []) :
    Logged (path ++ [(t, t.proceed before after next)]) (t.proceed before after next) := by
  have hnot : x ∉ invoked path := by
    intro hx
    rw [((h.mem_iff x).mp hx).2.1] at halive
    cases halive
  have hx : x ∈ t.made := by
    refine howned.seen (mem_seen.mpr (Or.inr (Or.inr ⟨j, Sound.mem_jobs hjobs, ?_⟩)))
    refine List.mem_append_left _ (List.mem_flatMap.mpr ⟨.destroy x, ?_, List.mem_cons_self⟩)
    rw [htodo]
    exact List.mem_cons_self
  have hdestroyed : ∀ r,
      next.1.stock.isDestroyed r = (t.state.stock.isDestroyed r || x == r) := by
    intro r
    rw [hstock, Stock.isDestroyed_markDestroyed]
  constructor
  · rw [invoked_proceed path hjobs, hone]
    split
    · exact List.nodup_append.mpr ⟨h.nodup, List.nodup_singleton x, by
        rintro r hr y hy rfl
        exact hnot (List.mem_singleton.mp hy ▸ hr)⟩
    · exact (List.append_nil (invoked path)).symm ▸ h.nodup
  · intro r
    rw [invoked_proceed path hjobs, hone, List.mem_append]
    constructor
    · rintro (hr | hr)
      · exact h.still howned hjobs hmoves hr
      · split at hr
        · rename_i hdestructs
          rw [List.mem_singleton.mp hr]
          refine ⟨List.mem_append_left _ hx, ?_, hmoves.destructs.trans hdestructs⟩
          change next.1.stock.isDestroyed x = true
          rw [hdestroyed, beq_self_eq_true, Bool.or_true]
        · cases hr
    · rintro ⟨hmade, hr, hdestructs⟩
      have hlt := (howned.proceed hjobs hmoves).known r hmade
      change r < next.1.stock.length at hlt
      rw [hstock, Stock.length_markDestroyed] at hlt
      change next.1.stock.isDestroyed r = true at hr
      rw [hdestroyed, Bool.or_eq_true, beq_iff_eq] at hr
      rcases hr with hr | rfl
      · exact Or.inl (h.before_turn howned hjobs hmoves hmade hlt hr hdestructs)
      · rw [if_pos (hmoves.destructs.symm.trans hdestructs)]
        exact Or.inr List.mem_cons_self

theorem proceed (h : Logged path t) (howned : t.Owned) (hjobs : t.jobs = before ++ j :: after)
    (hmoves : j.Moves mayCrash t.now t.state next) :
    Logged (path ++ [(t, t.proceed before after next)]) (t.proceed before after next) := by
  have hj := howned.sound.orderly j (Sound.mem_jobs hjobs)
  rcases hmoves.destruction hj with ⟨hnone, hsame⟩ | ⟨x, rest, htodo, halive, hstock, hone⟩
  · exact h.quiet howned hjobs hmoves hnone hsame
  · exact h.destroys howned hjobs hmoves htodo halive hstock hone

theorem of_next (h : Logged path t) (howned : t.Owned) (hnext : Next mayCrash t u)
    (hown : t.Undisturbed u) : Logged (path ++ [(t, u)]) u := by
  have hquiet : between Job.invoked t u = [] → invoked (path ++ [(t, u)]) = invoked path := by
    intro hnone
    rw [invoked, List.flatMap_append, List.flatMap_singleton, hnone, List.append_nil]
    rfl
  rcases next_cases hnext with ⟨op, hop, rfl⟩ | ⟨before, after, j, next, hjobs, hmoves, rfl⟩ |
    ⟨later, stock, hlength, hdestroyed, rfl⟩
  · have hlog := hquiet (between_of_jobs_append Job.invoked_self rfl)
    exact ⟨hlog ▸ h.nodup, fun r => hlog ▸ h.mem_iff r⟩
  · exact h.proceed howned hjobs hmoves
  · have hlog := hquiet (between_of_jobs_eq Job.invoked_self rfl)
    refine ⟨hlog ▸ h.nodup, fun r => ?_⟩
    rw [hlog, h.mem_iff]
    refine and_congr_right fun hr => ?_
    rw [← isDestroyed_of_undisturbed hown rfl r hr]

theorem of_run {name : String} {limits : Limits} {destructs : Bool} {stock : Stock}
    (h : Run mayCrash (.new name limits destructs stock) path t) : Logged path t := by
  induction h with
  | refl => exact ⟨List.nodup_nil, fun r => ⟨nofun, fun hr => nomatch hr.1⟩⟩
  | next hrun hnext hown ih => exact ih.of_next (Lendable.of_run hrun).1 hnext hown

end Logged

/-- What a pool holds for lending was not destroyed, so neither is what it hands out, and no
destructor is invoked twice on one resource. -/
theorem lends_no_destroyed {name : String} {limits : Limits} {destructs : Bool} {stock : Stock}
    {path : List (Traffic × Traffic)}
    (h : Run mayCrash (.new name limits destructs stock) path t) :
    (∀ p r, p ≠ .pendingClose → r ∈ t.state.sets.content p →
      t.state.stock.isDestroyed r = false) ∧
    (∀ u, Next mayCrash t u → t.Undisturbed u → ∀ r ∈ between Job.handedOut t u,
      u.state.stock.isDestroyed r = false) ∧
    (invoked path).Nodup := by
  obtain ⟨howned, hlendable⟩ := Lendable.of_run h
  refine ⟨?_, ?_, (Logged.of_run h).nodup⟩
  · intro p r hp hr
    apply hlendable.active r
    rw [Sets.mem_active]
    cases p with
    | idle => exact Or.inl hr
    | checkedOut => exact Or.inr (Or.inl hr)
    | overflow => exact Or.inr (Or.inr hr)
    | pendingClose => exact absurd rfl hp
  · intro u hnext hown r hr
    have hu := hlendable.of_next howned hnext hown
    rcases next_cases hnext with ⟨op, hop, rfl⟩ | ⟨before, after, j, next, hjobs, hmoves, rfl⟩ |
      ⟨later, stock, hlength, hdestroyed, he⟩
    · rw [between_of_jobs_append Job.handedOut_self rfl] at hr
      cases hr
    · rw [between_proceed Job.handedOut_self hjobs] at hr
      exact hu.active r (hmoves.handedOut (howned.sound.orderly j (Sound.mem_jobs hjobs)) hr)
    · rw [between_of_jobs_eq Job.handedOut_self (by rw [he])] at hr
      cases hr

/-- A resource was destroyed as overflow, its destructor crashed, and its handle was passed back
twice more; then another resource was lent. -/
def passedBackAgain : Traffic where
  state := {
    name := "pool"
    limits := ⟨1, .zero⟩
    sets := { checkedOut := [0], pendingClose := Table.empty.insert 1 .start }
    stock := [⟨"pool", 0, .start, .start, false⟩, ⟨"pool", 1, .start, .start, true⟩] }
  jobs := [⟨[], .got 0⟩, ⟨[], .got 1⟩, ⟨[], .done⟩, ⟨[], .crashed ⟨""⟩⟩, ⟨[], .done⟩, ⟨[], .done⟩,
    ⟨[], .got 0⟩]
  handles := [0, 1, 0]
  made := [0, 1]

theorem run_passedBackAgain : ∃ path,
    Run (· = .destructor 1) (.new "pool" ⟨1, .zero⟩ true []) path passedBackAgain ∧
      invoked path = [1] := by
  have h : Run (· = .destructor 1) (.new "pool" ⟨1, .zero⟩ true []) [] _ := .refl
  replace h := h.next (.start .get nofun) (by decide)
  replace h := h.next (.step [] [] _ rfl) (by decide)
  replace h := h.next (.reply [] [] _ (.make .keep) .ok rfl rfl nofun) (by decide)
  replace h := h.next (.step [] [] _ rfl) (by decide)
  replace h := h.next (.start .get nofun) (by decide)
  replace h := h.next (.step [_] [] _ rfl) (by decide)
  replace h := h.next (.reply [_] [] _ (.make .keep) .ok rfl rfl nofun) (by decide)
  replace h := h.next (.step [_] [] _ rfl) (by decide)
  replace h := h.next (.start (.put 0) (by decide)) (by decide)
  replace h := h.next (.step [_, _] [] _ rfl) (by decide)
  replace h := h.next (.start (.put 1) (by decide)) (by decide)
  replace h := h.next (.step [_, _, _] [] _ rfl) (by decide)
  replace h := h.next (.step [_, _, _] [] _ rfl) (by decide)
  replace h := h.next (.step [_, _, _] [] _ rfl) (by decide)
  replace h := h.next (.reply [_, _, _] [] _ (.destructor 1) (.crash "") rfl rfl fun _ _ => rfl)
    (by decide)
  replace h := h.next (.start (.put 1) (by decide)) (by decide)
  replace h := h.next (.step [_, _, _, _] [] _ rfl) (by decide)
  replace h := h.next (.step [_, _, _, _] [] _ rfl) (by decide)
  replace h := h.next (.step [_, _, _, _] [] _ rfl) (by decide)
  replace h := h.next (.start (.discard 1) (by decide)) (by decide)
  replace h := h.next (.step [_, _, _, _, _] [] _ rfl) (by decide)
  replace h := h.next (.step [_, _, _, _, _] [] _ rfl) (by decide)
  replace h := h.next (.start .get nofun) (by decide)
  replace h := h.next (.step [_, _, _, _, _, _] [] _ rfl) (by decide)
  exact ⟨_, h, rfl⟩

theorem lends_no_destroyed_passed_back_again : ∃ path,
    Run (· = .destructor 1) (.new "pool" ⟨1, .zero⟩ true []) path passedBackAgain ∧
      invoked path = [1] ∧
      (∀ p r, p ≠ .pendingClose → r ∈ passedBackAgain.state.sets.content p →
        passedBackAgain.state.stock.isDestroyed r = false) ∧
      (invoked path).Nodup := by
  obtain ⟨path, h, hinvoked⟩ := run_passedBackAgain
  obtain ⟨hkept, -, hnodup⟩ := lends_no_destroyed h
  exact ⟨path, h, hinvoked, hkept, hnodup⟩

end Traffic

end Stockroom.Pool

import Stockroom.Proofs.Pool.Instructions

/-! What the effect of one instruction, or of the reply to a call, can be. -/

namespace Stockroom.Pool
set_option autoImplicit false

/-- Resources that are known once the effect has come. -/
def Effect.mentions (e : Effect) : List ResourceId :=
  e.next.flatMap Instr.mentions ++ (e.result.map Result.gives).getD []

/-- An effect of `i` that loses no resource, makes none active but those that `i` brings, and
leaves a job in order. -/
structure Keeps (s : State) (i : Instr) (e : Effect) : Prop where
  sets : s.sets.Moved e.state.sets i.fresh i.mentions (e.next.flatMap Instr.carries)
  mentions : ∀ r ∈ e.mentions, r ∈ s.sets.members ∨ r ∈ i.mentions ∨ r ∈ i.fresh
  fresh : (e.state.stock.length = s.stock.length ∧ e.next.flatMap Instr.fresh = []) ∨
    (e.state.stock.length = s.stock.length + 1 ∧
      e.next.flatMap Instr.fresh = [s.stock.length] ∧ i.fresh = [])
  away : ∀ r d, .dispose r d ∈ e.next → r ∉ e.state.sets.active
  carried : ∀ r ∈ i.carries, e.state.stock.isDestroyed r = false →
    r ∈ e.state.sets.members ∨ r ∈ e.next.flatMap Instr.carries
  destroyed : ∀ r < s.stock.length, s.stock.isDestroyed r = true →
    e.state.stock.isDestroyed r = true
  orderly : ∀ rest, Doomed rest → (i.Destroys ∨ ∀ j ∈ rest, j.Plain) → Orderly (e.next ++ rest)

namespace Keeps

variable {s : State} {i : Instr} {e : Effect}

theorem of_stock_eq (hstock : e.state.stock = s.stock)
    (hsets : s.sets.Moved e.state.sets i.fresh i.mentions (e.next.flatMap Instr.carries))
    (hmentions : ∀ r ∈ e.mentions, r ∈ s.sets.members ∨ r ∈ i.mentions ∨ r ∈ i.fresh)
    (hfresh : e.next.flatMap Instr.fresh = [])
    (haway : ∀ r d, .dispose r d ∈ e.next → r ∉ e.state.sets.active)
    (hcarried : ∀ r ∈ i.carries, r ∈ e.state.sets.members ∨ r ∈ e.next.flatMap Instr.carries)
    (horderly : ∀ rest, Doomed rest → (i.Destroys ∨ ∀ j ∈ rest, j.Plain) →
      Orderly (e.next ++ rest)) : Keeps s i e where
  sets := hsets
  mentions := hmentions
  fresh := Or.inl ⟨by rw [hstock], hfresh⟩
  away := haway
  carried r hr _ := hcarried r hr
  destroyed r _ hr := by rw [hstock]; exact hr
  orderly := horderly

theorem of_ends (hstock : e.state.stock = s.stock) (hnext : e.next = [])
    (hresult : ∀ r ∈ (e.result.map Result.gives).getD [],
      r ∈ s.sets.members ∨ r ∈ i.mentions ∨ r ∈ i.fresh)
    (hsets : s.sets.Moved e.state.sets i.fresh i.mentions [])
    (hcarried : ∀ r ∈ i.carries, r ∈ e.state.sets.members) : Keeps s i e := by
  apply of_stock_eq hstock
  · rw [hnext]
    exact hsets
  · rw [Effect.mentions, hnext]
    exact hresult
  · rw [hnext]
    rfl
  · rw [hnext]
    exact nofun
  · exact fun r hr => Or.inl (hcarried r hr)
  · rw [hnext]
    exact fun _ h _ => h.orderly

/-- The resources `rs` are to be destroyed next. -/
theorem of_destroys (rs : List ResourceId) (hstock : e.state.stock = s.stock)
    (hnext : e.next = rs.map .destroy) (hresult : (e.result.map Result.gives).getD [] = [])
    (hrs : ∀ r ∈ rs, r ∈ s.sets.members ∨ r ∈ i.mentions ∨ r ∈ i.fresh)
    (hsets : s.sets.Moved e.state.sets i.fresh i.mentions rs)
    (hcarried : ∀ r ∈ i.carries, r ∈ e.state.sets.members ∨ r ∈ rs) : Keeps s i e := by
  have hcarries : e.next.flatMap Instr.carries = rs := by
    rw [hnext, List.flatMap_map]
    exact List.flatMap_singleton' rs
  apply of_stock_eq hstock
  · rw [hcarries]
    exact hsets
  · rw [Effect.mentions, hresult, hnext, List.append_nil, List.flatMap_map]
    exact fun r hr => hrs r (List.flatMap_singleton' rs ▸ hr)
  · rw [hnext, List.flatMap_map]
    exact List.flatMap_eq_nil_iff.mpr fun _ _ => rfl
  · rw [hnext]
    intro r d hr
    obtain ⟨x, -, he⟩ := List.mem_map.mp hr
    cases he
  · rw [hcarries]
    exact hcarried
  · rw [hnext]
    exact fun _ h _ => (Doomed.map_append rs h).orderly

/-- Plain instructions come next; no set changes. -/
theorem of_plain (hn : s.sets.members.Nodup) (hstate : e.state = s)
    (hplain : ∀ j ∈ e.next, j.Plain) (hresult : e.result = none)
    (hrs : ∀ r ∈ e.next.flatMap Instr.mentions, r ∈ s.sets.members ∨ r ∈ i.mentions)
    (hi : ¬ i.Destroys) (hcarries : i.carries = []) : Keeps s i e := by
  apply of_stock_eq (by rw [hstate])
  · rw [hstate]
    exact .refl hn _ _ _
  · rw [Effect.mentions, hresult]
    intro r hr
    rw [Option.map_none, Option.getD_none, List.append_nil] at hr
    exact (hrs r hr).imp_right Or.inl
  · exact List.flatMap_eq_nil_iff.mpr fun j hj => (hplain j hj).fresh
  · exact fun r d hr => (hplain _ hr).elim
  · rw [hcarries]
    exact nofun
  · intro rest _ h
    apply (Doomed.of_plain _).orderly
    intro j hj
    exact (List.mem_append.mp hj).elim (hplain j) (h.resolve_left hi j)

end Keeps

variable {s : State}

/-- A resource that is in a set, or comes in now, is handed out. -/
theorem keeps_grant {i : Instr} {s' : State} {r : ResourceId} (purpose : Purpose)
    (hsets : s.sets.Moved s'.sets i.fresh i.mentions [])
    (hlength : s'.stock.length = s.stock.length)
    (hdestroyed : ∀ x, s'.stock.isDestroyed x = s.stock.isDestroyed x)
    (hr : r ∈ s.sets.members ∨ r ∈ i.mentions ∨ r ∈ i.fresh)
    (hcarried : ∀ x ∈ i.carries, x ∈ s'.sets.members) (hi : ¬ i.Destroys) :
    Keeps s i (s'.grant purpose r) := by
  have hone : ∀ x ∈ [r], x ∈ s.sets.members ∨ x ∈ i.mentions ∨ x ∈ i.fresh := by
    intro x hx
    rw [List.mem_singleton.mp hx]
    exact hr
  cases purpose with
  | keep =>
    constructor
    · exact hsets
    · exact hone
    · exact Or.inl ⟨hlength, rfl⟩
    · intro x d hx
      exact absurd hx List.not_mem_nil
    · exact fun x hx _ => Or.inl (hcarried x hx)
    · exact fun x _ hx => (hdestroyed x).trans hx
    · exact fun _ h _ => h.orderly
  | lend =>
    constructor
    · exact hsets
    · intro x hx
      apply hone
      rcases List.mem_cons.mp hx with rfl | hx
      · exact List.mem_cons_self
      · exact hx
    · exact Or.inl ⟨hlength, rfl⟩
    · intro x d hx
      simp only [State.grant, List.mem_cons, reduceCtorEq, List.not_mem_nil, or_self] at hx
    · exact fun x hx _ => Or.inl (hcarried x hx)
    · exact fun x _ hx => (hdestroyed x).trans hx
    · intro rest _ h
      refine Orderly.one (i := .call (.body r)) nofun ?_
      intro j hj
      rcases List.mem_cons.mp hj with rfl | hj
      · trivial
      · exact h.resolve_left hi j hj

theorem keeps_claim (hn : s.sets.members.Nodup) (now : Instant) (purpose : Purpose) :
    Keeps s (.claim purpose) ((Instr.claim purpose).run now s) := by
  simp only [Instr.run]
  split
  · exact .of_ends rfl rfl nofun (.refl hn _ _ _) nofun
  · split
    · rename_i r sets hout
      obtain ⟨hmoved, hr⟩ := Sets.checkOut?_moved hn hout
      exact keeps_grant purpose hmoved (Stock.length_touch _ _ _)
        (fun x => Stock.isDestroyed_touch _ _ x _) (Or.inl hr) nofun id
    · refine .of_stock_eq rfl (.refl hn _ _ _) nofun rfl ?_ nofun ?_
      · intro r d hr
        cases List.mem_singleton.mp hr
      · exact fun _ _ h => Orderly.one nofun (h.resolve_left id)

theorem keeps_enroll (now : Instant) (purpose : Purpose) {r : ResourceId}
    (hn : ([r] ++ s.sets.members).Nodup) :
    Keeps s (.enroll purpose r) ((Instr.enroll purpose r).run now s) := by
  have hr : ∀ x ∈ [r], x ∈ s.sets.members ∨ x ∈ ([] : List ResourceId) ∨ x ∈ [r] :=
    fun _ hx => Or.inr (Or.inr hx)
  simp only [Instr.run]
  split
  · exact .of_destroys [r] rfl rfl rfl hr (.refl (List.nodup_cons.mp hn).2 _ _ _)
      (fun _ hx => Or.inr hx)
  · obtain ⟨hmoved, hin⟩ := Sets.enroll_moved s.limits.maxSize hn
    refine keeps_grant purpose hmoved rfl (fun _ => rfl) (hr r List.mem_cons_self) ?_ id
    intro x hx
    rw [List.mem_singleton.mp hx]
    exact hin

theorem keeps_put (hn : s.sets.members.Nodup) (now : Instant) (r : ResourceId) (d : Disposal) :
    Keeps s (.put r d) ((Instr.put r d).run now s) := by
  have hr : ∀ x ∈ [r], x ∈ s.sets.members ∨ x ∈ [r] ∨ x ∈ ([] : List ResourceId) :=
    fun _ hx => Or.inr (Or.inl hx)
  simp only [Instr.run]
  split
  · exact .of_destroys [r] rfl rfl rfl hr (.refl hn _ _ _) nofun
  · split
    · rename_i sets hreceive
      have hmoved := Sets.receive_kept_moved s.limits.maxSize hn hreceive
      exact .of_ends rfl rfl nofun (hmoved.mono nofun nofun nofun) nofun
    · rename_i sets hreceive
      obtain ⟨hmoved, haway⟩ := Sets.receive_leaving_moved s.limits.maxSize hn hreceive
      refine .of_stock_eq rfl (hmoved.mono nofun nofun (List.Subset.refl _)) hr rfl ?_ nofun ?_
      · intro x d' hx
        obtain ⟨rfl, -⟩ := Instr.dispose.inj (List.mem_singleton.mp hx)
        exact haway
      · exact fun _ _ h => Orderly.one nofun (h.resolve_left id)

theorem keeps_dispose (hn : s.sets.members.Nodup) (now : Instant) {r : ResourceId}
    (d : Disposal) (hr : r ∉ s.sets.active) :
    Keeps s (.dispose r d) ((Instr.dispose r d).run now s) := by
  have hmentions : ∀ x ∈ [r], x ∈ s.sets.members ∨ x ∈ [r] ∨ x ∈ ([] : List ResourceId) :=
    fun _ hx => Or.inr (Or.inl hx)
  have hdestroy : Keeps s (.dispose r d) { state := s, next := [.destroy r] } :=
    .of_destroys [r] rfl rfl rfl hmentions (.refl hn _ _ _) (fun _ hx => Or.inr hx)
  cases d with
  | immediate => exact hdestroy
  | delayed =>
    simp only [Instr.run]
    split
    · exact hdestroy
    · obtain ⟨hmoved, hin⟩ := Sets.giveUp_moved hn hr now
      refine .of_ends rfl rfl nofun hmoved ?_
      intro x hx
      rw [List.mem_singleton.mp hx]
      exact hin

theorem keeps_destroy (hn : s.sets.members.Nodup) (now : Instant) (r : ResourceId) :
    Keeps s (.destroy r) ((Instr.destroy r).run now s) := by
  simp only [Instr.run]
  split
  · rename_i hdestroyed
    constructor
    · exact .refl hn _ _ _
    · exact nofun
    · exact Or.inl ⟨rfl, rfl⟩
    · exact nofun
    · intro x hx halive
      rw [List.mem_singleton.mp hx, hdestroyed] at halive
      cases halive
    · exact fun _ _ hx => hx
    · exact fun _ h _ => h.orderly
  · have hnext : ∀ j ∈ (if s.destructs then [Instr.call (.destructor r)] else []),
        j = .call (.destructor r) := by
      intro j hj
      split at hj
      · exact List.mem_singleton.mp hj
      · cases hj
    constructor
    · exact .refl hn _ _ _
    · intro x hx
      rw [Effect.mentions, Option.map_none, Option.getD_none, List.append_nil] at hx
      obtain ⟨j, hj, hx⟩ := List.mem_flatMap.mp hx
      rw [hnext j hj] at hx
      exact Or.inr (Or.inl hx)
    · refine Or.inl ⟨Stock.length_markDestroyed _ _, List.flatMap_eq_nil_iff.mpr ?_⟩
      intro j hj
      rw [hnext j hj]
      rfl
    · intro x d hx
      cases hnext _ hx
    · intro x hx halive
      rw [List.mem_singleton.mp hx, Stock.isDestroyed_markDestroyed] at halive
      simp at halive
    · intro x _ hx
      rw [Stock.isDestroyed_markDestroyed, hx]
      rfl
    · intro rest h _
      dsimp only
      split
      · exact .cons _ _ nofun h (Or.inl trivial)
      · exact h.orderly

theorem keeps_exchange (now : Instant) {old new : ResourceId}
    (hn : ([new] ++ s.sets.members).Nodup) :
    Keeps s (.exchange old new) ((Instr.exchange old new).run now s) := by
  simp only [Instr.run]
  split
  · rename_i sets hreplace
    obtain ⟨hmoved, hin⟩ := Sets.replace?_moved hn hreplace
    refine .of_destroys [old] rfl rfl rfl (fun _ hx => Or.inr (Or.inl hx))
      (hmoved.mono (List.Subset.refl _) nofun (List.Subset.refl _)) ?_
    intro x hx
    rw [List.mem_singleton.mp hx]
    exact Or.inl hin
  · exact .of_destroys [new] rfl rfl rfl (fun _ hx => Or.inr (Or.inr hx))
      (.refl (List.nodup_cons.mp hn).2 _ _ _) (fun _ hx => Or.inr hx)

theorem keeps_close (hn : s.sets.members.Nodup) (now : Instant) :
    Keeps s .close (Instr.close.run now s) := by
  simp only [Instr.run]
  split
  · exact .of_ends rfl rfl nofun (.refl hn _ _ _) nofun
  · exact .of_destroys s.sets.close.1 rfl rfl rfl (fun _ hx => Or.inl hx) s.sets.close_moved nofun

theorem keeps_sweep (hn : s.sets.members.Nodup) (now : Instant) :
    Keeps s .sweep (Instr.sweep.run now s) :=
  .of_destroys _ rfl rfl rfl (fun _ hx => Or.inl (s.sets.takeDue_subset _ now hx))
    (Sets.takeDue_moved hn _ now) nofun

theorem keeps_inspect (hn : s.sets.members.Nodup) (now : Instant) :
    Keeps s .inspect (Instr.inspect.run now s) := by
  refine .of_plain hn rfl ?_ rfl ?_ id rfl
  · intro j hj
    obtain ⟨r, -, rfl⟩ := List.mem_map.mp hj
    trivial
  · intro r hr
    obtain ⟨j, hj, hr⟩ := List.mem_flatMap.mp hr
    obtain ⟨x, hx, rfl⟩ := List.mem_map.mp hj
    rw [List.mem_singleton.mp hr]
    exact Or.inl (Sets.mem_members.mpr (Or.inl (Sets.mem_active.mpr (Or.inl hx))))

theorem keeps_reclaim (hn : s.sets.members.Nodup) (now : Instant) :
    Keeps s .reclaim (Instr.reclaim.run now s) := by
  refine .of_plain hn rfl ?_ rfl ?_ id rfl
  · intro j hj
    obtain ⟨r, -, rfl⟩ := List.mem_map.mp hj
    trivial
  · intro r hr
    obtain ⟨j, hj, hr⟩ := List.mem_flatMap.mp hr
    obtain ⟨x, hx, rfl⟩ := List.mem_map.mp hj
    rw [List.mem_singleton.mp hr]
    have hlent := List.mem_append.mp (List.mem_of_mem_filter hx)
    exact Or.inl (Sets.mem_members.mpr (Or.inl (Sets.mem_active.mpr (Or.inr hlent))))

/-- Every instruction but a withdrawal, which leaves its resource to the next one. -/
theorem keeps_run (now : Instant) {i : Instr} (hn : (i.fresh ++ s.sets.members).Nodup)
    (haway : ∀ r d, i = .dispose r d → r ∉ s.sets.active) (hi : ∀ r, i ≠ .withdraw r) :
    Keeps s i (i.run now s) := by
  cases i with
  | claim purpose => exact keeps_claim hn now purpose
  | enroll purpose r => exact keeps_enroll now purpose hn
  | put r d => exact keeps_put hn now r d
  | dispose r d => exact keeps_dispose hn now d (haway r d rfl)
  | destroy r => exact keeps_destroy hn now r
  | withdraw r => exact absurd rfl (hi r)
  | close => exact keeps_close hn now
  | inspect => exact keeps_inspect hn now
  | exchange old new => exact keeps_exchange now hn
  | reclaim => exact keeps_reclaim hn now
  | sweep => exact keeps_sweep hn now
  | giveBack r =>
    refine .of_plain hn rfl ?_ rfl (fun _ hr => Or.inr hr) id rfl
    intro j hj
    rw [List.mem_singleton.mp hj]
    trivial
  | call callback =>
    constructor
    · exact .refl hn _ _ _
    · intro r hr
      simp only [Effect.mentions, Instr.run, List.flatMap_cons, List.flatMap_nil,
        List.append_nil, Option.map_none, Option.getD_none] at hr
      exact Or.inr (Or.inl hr)
    · exact Or.inl ⟨rfl, rfl⟩
    · intro r d hr
      cases List.mem_singleton.mp hr
    · exact nofun
    · exact fun _ _ hr => hr
    · exact fun rest h hplain => .cons _ rest nofun h hplain

/-- The factory has made a resource, which `i` is to take in. -/
theorem keeps_add {callback : Callback} (hn : s.sets.members.Nodup) (now : Instant) {i : Instr}
    (hfresh : i.fresh = [s.stock.length]) (hmentions : i.mentions ⊆ (Instr.call callback).mentions)
    (hi : ∀ r, i ≠ .withdraw r) (hd : ∀ r d, i ≠ .dispose r d)
    (hcallback : ¬ (Instr.call callback).Destroys) :
    Keeps s (.call callback) { state := (s.add now).2, next := [i] } := by
  constructor
  · exact .refl hn _ _ _
  · intro r hr
    simp only [Effect.mentions, List.flatMap_cons, List.flatMap_nil,
      List.append_nil, Option.map_none, Option.getD_none] at hr
    exact Or.inr (Or.inl (hmentions hr))
  · refine Or.inr ⟨by simp [State.add], by simpa using hfresh, rfl⟩
  · intro r d hr
    exact absurd (List.mem_singleton.mp hr).symm (hd r d)
  · exact nofun
  · intro r hr hdestroyed
    exact (Stock.isDestroyed_append _ hr).trans hdestroyed
  · exact fun rest _ h => Orderly.one hi (h.resolve_left hcallback)

theorem keeps_resume (hn : s.sets.members.Nodup) (now : Instant) (callback : Callback)
    (error : Option String) : Keeps s (.call callback) (callback.resume now s error) := by
  have hends : ∀ result : Option Result,
      (∀ r ∈ (result.map Result.gives).getD [], r ∈ (Instr.call callback).mentions) →
      Keeps s (.call callback) { state := s, result } := fun result h =>
    .of_ends rfl rfl (fun r hr => Or.inr (Or.inl (h r hr))) (.refl hn _ _ _) nofun
  cases callback with
  | make purpose =>
    cases error with
    | none => exact keeps_add hn now rfl nofun nofun nofun id
    | some text => exact hends _ nofun
  | makeInstead old =>
    cases error with
    | none => exact keeps_add hn now rfl (List.Subset.refl _) nofun nofun id
    | some text => exact hends none nofun
  | check r =>
    cases error with
    | none => exact hends none nofun
    | some text =>
      refine .of_stock_eq rfl (.refl hn _ _ _) (fun _ hr => Or.inr (Or.inl hr)) rfl ?_ nofun ?_
      · intro x d hx
        cases List.mem_singleton.mp hx
      · exact fun _ _ h => Orderly.one nofun (h.resolve_left id)
  | destructor r => exact hends none nofun
  | body r =>
    cases error with
    | none => exact hends _ (fun _ hr => hr)
    | some text => exact hends _ nofun

end Stockroom.Pool

import Stockroom.Proofs.Pool.Moves

/-! A pool that uses only its own handles knows no resource but those that its factory has made;
and once closed it holds none. This is so even if destructors crash. -/

namespace Stockroom.Pool
set_option autoImplicit false

def Reception.sets : Reception → Sets
  | .kept sets | .leaving sets => sets

/-- What a closed pool has. -/
def Sets.shut : Sets := { closed := true }

section

variable {now : Instant} {s : State} {i : Instr} {e : Effect}

theorem state_grant (s : State) (purpose : Purpose) (r : ResourceId) :
    (s.grant purpose r).state = s := by
  cases purpose <;> rfl

theorem closed_receive (sets : Sets) (maxSize : Nat) (r : ResourceId) :
    (sets.receive maxSize r).sets.closed = sets.closed := by
  unfold Sets.receive
  repeat' split
  all_goals rfl

theorem Sets.closed_checkOut? {s u : Sets} {r : ResourceId} (h : s.checkOut? = some (r, u)) :
    u.closed = s.closed := by
  rw [(eq_of_checkOut? h).2]

theorem Sets.closed_replace? {s u : Sets} {old new : ResourceId}
    (h : s.replace? old new = some u) : s.closed = false ∧ u.closed = false := by
  unfold Sets.replace? at h
  split at h
  · rename_i hfound
    cases h
    rw [Bool.and_eq_true, Bool.not_eq_true'] at hfound
    exact ⟨hfound.1, hfound.1⟩
  · cases h

/-- If it is closed, nothing is in its sets. -/
def State.Shut (s : State) : Prop := s.sets.closed = true → s.sets = .shut

theorem Instr.Leads.sets (h : i.Leads now s e) (hs : s.sets = .shut) : e.state.sets = .shut := by
  have hclosed : s.sets.closed = true := by rw [hs]; rfl
  cases h with
  | checkOut _ _ _ hopen | enroll _ _ hopen | keep _ _ _ hopen | leave _ _ _ hopen
  | giveUp _ hopen | close hopen =>
    rw [hclosed] at hopen
    cases hopen
  | exchange old new sets hreplace =>
    rw [(Sets.closed_replace? hreplace).1] at hclosed
    cases hclosed
  | withdraw | sweep =>
    rw [hs]
    rfl
  | _ => exact hs

/-- Only closing closes, and then nothing is left. -/
theorem Instr.Leads.closed (h : i.Leads now s e) :
    e.state.sets.closed = s.sets.closed ∨ e.state.sets = .shut := by
  cases h with
  | checkOut purpose r sets _ hout =>
    rw [state_grant]
    exact Or.inl (Sets.closed_checkOut? hout)
  | enroll purpose r _ =>
    rw [state_grant, Sets.enroll]
    refine Or.inl ?_
    split <;> rfl
  | keep r d sets _ h | leave r d sets _ h =>
    have hclosed := closed_receive s.sets s.limits.maxSize r
    rw [h] at hclosed
    exact Or.inl hclosed
  | exchange old new sets hreplace =>
    obtain ⟨hs, he⟩ := Sets.closed_replace? hreplace
    exact Or.inl (he.trans hs.symm)
  | close => exact Or.inr rfl
  | _ => exact Or.inl rfl

theorem Instr.Leads.shut (h : i.Leads now s e) (hs : s.Shut) : e.state.Shut := by
  intro hclosed
  rcases h.closed with he | he
  · exact h.sets (hs (he.symm.trans hclosed))
  · exact he

end

namespace Job

variable {mayCrash : Callback → Prop} {now : Instant} {s : State} {j : Job} {next : State × Job}

theorem Moves.sets (h : j.Moves mayCrash now s next) (hs : s.sets = .shut) :
    next.1.sets = .shut := by
  rcases h.cases with rfl | ⟨i, rest, e, -, hleads, rfl⟩ | ⟨he, -⟩
  · exact hs
  · exact hleads.sets hs
  · rw [he, hs]

theorem Moves.shut (h : j.Moves mayCrash now s next) (hs : s.Shut) : next.1.Shut := by
  rcases h.cases with rfl | ⟨i, rest, e, -, hleads, rfl⟩ | ⟨he, -⟩
  · exact hs
  · exact hleads.shut hs
  · rw [he]
    exact hs

namespace Unwound

variable {k : Job}

theorem plain (h : j.Unwound k) : ∀ i ∈ k.todo, i.Plain := by
  intro i hi
  obtain ⟨-, r, rfl⟩ := h.todo i hi
  trivial

theorem fresh (h : j.Unwound k) : k.fresh = [] := (Doomed.of_plain h.plain).fresh

theorem mentions (h : j.Unwound k) : k.mentions ⊆ j.mentions := by
  intro r hr
  rcases List.mem_append.mp hr with hr | hr
  · obtain ⟨i, hi, hr⟩ := List.mem_flatMap.mp hr
    exact List.mem_append_left _ (List.mem_flatMap.mpr ⟨i, (h.todo i hi).1, hr⟩)
  · exact List.mem_append_right _ (h.result hr)

end Unwound

end Job

namespace Traffic

/-- Nobody else's resources are in the sets, in hands or on their way. -/
structure Owned (t : Traffic) : Prop where
  /-- Whatever it has made: a crash of a destructor loses the rest of what was to be destroyed. -/
  sound : Sound { t with made := [] }
  known : ∀ r ∈ t.made, r < t.state.stock.length
  nodup : t.made.Nodup
  seen : t.seen ⊆ t.made
  fresh : t.fresh ⊆ t.made
  shut : t.state.Shut

theorem Sound.forget {t : Traffic} (h : t.Sound) : Sound { t with made := [] } :=
  { h with known := nofun, accounted := nofun }

theorem owned_new (name : String) (limits : Limits) (destructs : Bool) (stock : Stock) :
    Owned (.new name limits destructs stock) where
  sound := sound_new name limits destructs stock
  known := nofun
  nodup := List.nodup_nil
  seen := nofun
  fresh := nofun
  shut := nofun

namespace Owned

variable {mayCrash : Callback → Prop} {t u : Traffic} {before after : List Job} {j : Job}
  {next : State × Job}

theorem members (h : t.Owned) : t.state.sets.members ⊆ t.made := fun _ hr =>
  h.seen (mem_seen.mpr (Or.inl hr))

theorem nodup_fresh_append (h : t.Owned) (hjobs : t.jobs = before ++ j :: after) :
    (j.fresh ++ t.state.sets.members).Nodup := by
  refine List.nodup_append.mpr ⟨?_, h.sound.members, ?_⟩
  · exact (List.nodup_append.mp ((Sound.fresh_jobs hjobs).nodup_iff.mp h.sound.fresh)).1
  · rintro r hr _ hmem rfl
    exact (h.sound.seen r (mem_seen.mpr (Or.inl hmem))).2
      (mem_fresh.mpr ⟨j, Sound.mem_jobs hjobs, hr⟩)

theorem start (h : t.Owned) (op : Operation) (hop : ∀ r ∈ op.handles, r ∈ t.handles) :
    Owned { t with jobs := t.jobs ++ [op.job] } where
  sound := h.sound.start op hop
  known := h.known
  nodup := h.nodup
  seen := by
    intro r hr
    apply h.seen
    rw [mem_seen] at hr ⊢
    rcases hr with hr | hr | ⟨j, hj, hr⟩
    · exact Or.inl hr
    · exact Or.inr (Or.inl hr)
    · rcases List.mem_append.mp hj with hj | hj
      · exact Or.inr (Or.inr ⟨j, hj, hr⟩)
      · obtain rfl := List.mem_singleton.mp hj
        exact Or.inr (Or.inl (hop r (op.mentions_job hr)))
  fresh := by
    intro r hr
    obtain ⟨j, hj, hr⟩ := mem_fresh.mp hr
    rcases List.mem_append.mp hj with hj | hj
    · exact h.fresh (mem_fresh.mpr ⟨j, hj, hr⟩)
    · rw [List.mem_singleton.mp hj, op.fresh_job] at hr
      cases hr
  shut := h.shut

theorem turn (h : t.Owned) (hjobs : t.jobs = before ++ j :: after)
    (hturn : Turn t.state j next.1 next.2) (hshut : next.1.Shut) :
    (t.proceed before after next).Owned := by
  have hlength := Sound.length_le_of_turn hturn
  have hj : j.fresh ⊆ t.made := fun r hr =>
    h.fresh (mem_fresh.mpr ⟨j, Sound.mem_jobs hjobs, hr⟩)
  constructor
  · exact (h.sound.proceed hjobs hturn).forget
  · intro r hr
    rcases Sound.mem_made_proceed hturn hr with hr | ⟨-, hlt⟩
    · exact Nat.lt_of_lt_of_le (h.known r hr) hlength
    · exact hlt
  · refine List.nodup_append.mpr ⟨h.nodup, List.nodup_range', ?_⟩
    rintro r hr x hx rfl
    exact Nat.not_lt.mpr (List.mem_range'_1.mp hx).1 (h.known r hr)
  · intro r hr
    refine List.mem_append_left _ ?_
    rcases Sound.seen_proceed hjobs hturn hr with hr | hr
    · exact h.seen hr
    · exact hj hr
  · intro r hr
    rcases Sound.fresh_proceed hturn with hnew | ⟨hstock, hnew⟩
    · exact List.mem_append_left _ (h.fresh (Sound.others_subset hjobs (hnew.subset hr)))
    · rcases List.mem_cons.mp (hnew.subset hr) with rfl | hr
      · refine List.mem_append_right _ (List.mem_range'_1.mpr ⟨Nat.le_refl _, ?_⟩)
        omega
      · exact List.mem_append_left _ (h.fresh (Sound.others_subset hjobs hr))
  · exact hshut

theorem made_unwound (t : Traffic) (before after : List Job) (k : Job) :
    (t.proceed before after (t.state, k)).made = t.made := by
  simp only [proceed, Nat.sub_self, List.range'_zero, List.append_nil]

theorem seen_unwound (hjobs : t.jobs = before ++ j :: after) {k : Job} (hk : j.Unwound k) :
    (t.proceed before after (t.state, k)).seen ⊆ t.seen := by
  have hmentions : k.mentions ⊆ t.seen := fun r hr =>
    mem_seen.mpr (Or.inr (Or.inr ⟨j, Sound.mem_jobs hjobs, hk.mentions hr⟩))
  intro r hr
  rcases mem_seen.mp hr with hr | hr | ⟨l, hl, hr⟩
  · exact mem_seen.mpr (Or.inl hr)
  · rcases List.mem_append.mp hr with hr | hr
    · exact hmentions (k.gives_subset hr)
    · exact mem_seen.mpr (Or.inr (Or.inl hr))
  · rcases Sound.eq_or_mem_jobs hjobs hl with he | hl
    · rw [he] at hr
      exact hmentions hr
    · exact mem_seen.mpr (Or.inr (Or.inr ⟨l, hl, hr⟩))

theorem unwound (h : t.Owned) (hjobs : t.jobs = before ++ j :: after) {k : Job}
    (hk : j.Unwound k) : (t.proceed before after (t.state, k)).Owned := by
  have hjob : ∀ l ∈ before ++ k :: after, l = k ∨ l ∈ t.jobs :=
    fun _ => Sound.eq_or_mem_jobs hjobs
  have hfresh : (t.proceed before after (t.state, k)).fresh.Sublist t.fresh := by
    simp only [Traffic.fresh, proceed, hjobs, List.flatMap_append, List.flatMap_cons, hk.fresh,
      List.nil_append]
    exact (List.sublist_append_right _ _).append_left _
  have hseen := seen_unwound hjobs hk
  constructor
  · constructor
    · intro l hl
      rcases hjob l hl with rfl | hl
      · exact (Doomed.of_plain hk.plain).orderly
      · exact h.sound.orderly l hl
    · exact h.sound.members
    · intro l hl r d rest htodo
      rcases hjob l hl with rfl | hl
      · refine absurd ?_ ((Doomed.of_plain hk.plain).not_dispose r d)
        rw [htodo]
        exact List.mem_cons_self
      · exact h.sound.away l hl r d rest htodo
    · exact h.sound.fresh.sublist hfresh
    · exact fun r hr => h.sound.made r (hfresh.subset hr)
    · intro r hr
      obtain ⟨hlt, hnot⟩ := h.sound.seen r (hseen hr)
      exact ⟨hlt, fun hr => hnot (hfresh.subset hr)⟩
    · exact List.forall_mem_nil _
    · exact List.forall_mem_nil _
  · rw [made_unwound]
    exact h.known
  · rw [made_unwound]
    exact h.nodup
  · rw [made_unwound]
    exact fun r hr => h.seen (hseen hr)
  · rw [made_unwound]
    exact fun r hr => h.fresh (hfresh.subset hr)
  · exact h.shut

theorem turn_or_unwound (h : t.Owned) (hjobs : t.jobs = before ++ j :: after)
    (hmoves : j.Moves mayCrash t.now t.state next) :
    Turn t.state j next.1 next.2 ∨ next.1 = t.state ∧ j.Unwound next.2 :=
  hmoves.turn_or_unwound (h.sound.orderly j (Sound.mem_jobs hjobs)) (h.nodup_fresh_append hjobs)
    (h.sound.away j (Sound.mem_jobs hjobs))

theorem turn_of_moves (h : t.Owned) (hsafe : ∀ r, ¬ mayCrash (.destructor r))
    (hjobs : t.jobs = before ++ j :: after) (hmoves : j.Moves mayCrash t.now t.state next) :
    Turn t.state j next.1 next.2 :=
  hmoves.turn hsafe (h.sound.orderly j (Sound.mem_jobs hjobs)) (h.nodup_fresh_append hjobs)
    (h.sound.away j (Sound.mem_jobs hjobs))

theorem proceed (h : t.Owned) (hjobs : t.jobs = before ++ j :: after)
    (hmoves : j.Moves mayCrash t.now t.state next) : (t.proceed before after next).Owned := by
  rcases h.turn_or_unwound hjobs hmoves with hturn | ⟨he, hunwound⟩
  · exact h.turn hjobs hturn (hmoves.shut h.shut)
  · obtain ⟨s, k⟩ := next
    obtain rfl : s = t.state := he
    exact h.unwound hjobs hunwound

theorem of_next (h : t.Owned) (hnext : Next mayCrash t u) : u.Owned := by
  rcases next_cases hnext with ⟨op, hop, rfl⟩ | ⟨before, after, j, next, hjobs, hmoves, rfl⟩ |
    ⟨later, stock, hlength, hdestroyed, rfl⟩
  · exact h.start op hop
  · exact h.proceed hjobs hmoves
  · exact { h with
      sound := { h.sound.elsewhere hlength hdestroyed with }
      known := fun r hr => Nat.lt_of_lt_of_le (h.known r hr) hlength }

theorem of_reachable (h : Reachable mayCrash t) : t.Owned := by
  induction h with
  | new name limits destructs stock => exact owned_new name limits destructs stock
  | next _ hnext ih => exact ih.of_next hnext

end Owned

end Traffic

end Stockroom.Pool

import Stockroom.Pool.Checking
import Stockroom.Proofs.Pool.Leasing

/-! What a pass over the idle resources does at each step. What it has left to do tells how far it
has come: the checks that are still to be made, and in front of them at most one thing to do about
the resource that was checked last. -/

namespace Stockroom.Pool
set_option autoImplicit false

/-! ### The place of a replacement -/

theorem Sets.exists_exchange_eq {idle : List ResourceId} {old : ResourceId} (h : old ∈ idle)
    (new : ResourceId) : ∃ front back, idle = front ++ old :: back ∧
      exchange idle old new = front ++ new :: back := by
  have hlt : idle.idxOf old < idle.length := List.idxOf_lt_length_of_mem h
  refine ⟨idle.take (idle.idxOf old), idle.drop (idle.idxOf old + 1), ?_, ?_⟩
  · have hget : idle[idle.idxOf old] = old := List.getElem_idxOf hlt
    conv_lhs => rw [← List.take_append_drop (idle.idxOf old) idle, List.drop_eq_getElem_cons hlt, hget]
  · rw [exchange_eq_set h, List.set_eq_take_append_cons_drop, if_pos hlt]

namespace Traffic

variable {mayCrash : Callback → Prop} {t u v : Traffic} {path : List (Traffic × Traffic)} {i : Nat}
  {j : Job} {r old new : ResourceId} {before after : List Job} {next : State × Job}

/-! ### What a pass does when it is its turn -/

/-- The checks of these resources. -/
def checks (left : List ResourceId) : List Instr := left.map fun r => .call (.check r)

theorem crash_checks (left : List ResourceId) (result : Result) (text : String) :
    (({ todo := checks left, result } : Job).crash text).todo = [] :=
  Job.crash_todo_map (f := fun r => .call (.check r)) nofun left result text

/-- What a pass can have left to do: something about the resource that it dealt with last, and the
checks of others. -/
inductive Inspecting : List Instr → List ResourceId → Prop where
  | starting : Inspecting [.inspect] []
  | checking (left : List ResourceId) : Inspecting [] left
  | replacing (old : ResourceId) (left : List ResourceId) :
      Inspecting [.call (.makeInstead old)] left
  | exchanging (old new : ResourceId) (left : List ResourceId) : Inspecting [.exchange old new] left
  | destroying (r : ResourceId) (left : List ResourceId) : Inspecting [.destroy r] left
  | destructing (r : ResourceId) (left : List ResourceId) : Inspecting [.call (.destructor r)] left

/-- What a pass has left to do before its turn and after it, and what becomes of the pool. -/
inductive Advances (mayCrash : Callback → Prop) (t u : Traffic) :
    List Instr → List ResourceId → List Instr → List ResourceId → Prop where
  | inspects : u.state = t.state → u.made = t.made →
      Advances mayCrash t u [.inspect] [] [] t.state.sets.idle
  | passes (r : ResourceId) (left : List ResourceId) : u.state = t.state → u.made = t.made →
      Advances mayCrash t u [] (r :: left) [] left
  | fails (r : ResourceId) (left : List ResourceId) : u.state = t.state → u.made = t.made →
      Advances mayCrash t u [] (r :: left) [.call (.makeInstead r)] left
  | offers (old new : ResourceId) (left : List ResourceId) : u.state.sets = t.state.sets →
      u.made = t.made ++ [new] → new ∉ t.made →
      (∀ x ∈ t.made, u.state.stock.isDestroyed x = t.state.stock.isDestroyed x) →
      Advances mayCrash t u [.call (.makeInstead old)] left [.exchange old new] left
  | declines (old : ResourceId) (left : List ResourceId) : u.state = t.state → u.made = t.made →
      Advances mayCrash t u [.call (.makeInstead old)] left [] left
  | exchanges (old new loser : ResourceId) (left : List ResourceId) : Settles old new t u loser →
      u.made = t.made → Advances mayCrash t u [.exchange old new] left [.destroy loser] left
  | destroys (r : ResourceId) (left : List ResourceId) (more : List Instr) :
      u.state.sets = t.state.sets → u.made = t.made → u.state.stock.isDestroyed r = true →
      (∀ x ≠ r, u.state.stock.isDestroyed x = t.state.stock.isDestroyed x) →
      more = [] ∨ more = [.call (.destructor r)] →
      Advances mayCrash t u [.destroy r] left more left
  | destroyed (r : ResourceId) (left : List ResourceId) : u.state = t.state → u.made = t.made →
      Advances mayCrash t u [.call (.destructor r)] left [] left
  | checkCrashes (r : ResourceId) (left : List ResourceId) : mayCrash (.check r) →
      u.state = t.state → u.made = t.made → Advances mayCrash t u [] (r :: left) [] []
  | crashes (callback : Callback) (left : List ResourceId) : mayCrash callback →
      u.state = t.state → u.made = t.made → Advances mayCrash t u [.call callback] left [] []

theorem Owned.settles (h : t.Owned) (old new : ResourceId) (hu : u.state =
    ((Instr.exchange old new).run t.now t.state).state) : ∃ loser,
      ((Instr.exchange old new).run t.now t.state).next = [.destroy loser] ∧
      Settles old new t u loser ∧ u.state.stock = t.state.stock := by
  rw [Instr.run] at hu ⊢
  cases hreplace : t.state.sets.replace? old new with
  | none =>
    rw [hreplace] at hu
    refine ⟨new, rfl, .refused (fun hold => ?_) hu, by rw [hu]⟩
    have hopen : t.state.sets.closed = false := by
      by_contra hclosed
      rw [h.shut (Bool.not_eq_false _ ▸ hclosed)] at hold
      cases hold
    rw [Sets.replace?, hopen, List.contains_iff_mem.mpr hold] at hreplace
    cases hreplace
  | some sets =>
    rw [hreplace] at hu
    have hold := (Sets.replace?_perm hreplace).1
    obtain ⟨front, back, hidle, hexchange⟩ := Sets.exists_exchange_eq hold new
    refine ⟨old, rfl, .replaced front back hidle ?_, by rw [hu]⟩
    unfold Sets.replace? at hreplace
    split at hreplace
    · rw [hu, ← Option.some.inj hreplace, hexchange]
    · cases hreplace

theorem Inspecting.advances {head : List Instr} {left : List ResourceId}
    (h : Inspecting head left) (howned : t.Owned) (hnext : Next mayCrash t u)
    (hj : t.jobs[i]? = some j) (htodo : j.todo = head ++ checks left)
    (hne : u.jobs[i]? ≠ some j) : ∃ k head' left', u.jobs[i]? = some k ∧
      k.todo = head' ++ checks left' ∧ Advances mayCrash t u head left head' left' := by
  obtain ⟨before, after, next, hjobs, rfl, hmoves, rfl⟩ := moves_of_ne hnext hj hne
  have hk : (t.proceed before after next).jobs[before.length]? = some next.2 := by
    rw [getElem?_proceed hjobs, if_pos rfl]
  rw [hk] at hne
  have hmoved : next.2 ≠ j := fun he => hne (congrArg some he)
  have hsame (hlength : next.1.stock.length = t.state.stock.length) :
      (t.proceed before after next).made = t.made := made_proceed_of_stock hlength
  obtain ⟨todo, result⟩ := j
  obtain rfl : todo = _ := htodo
  cases h with
  | starting =>
    obtain rfl := hmoves.eq_follow rfl nofun
    exact ⟨_, [], t.state.sets.idle, hk, List.append_nil _, .inspects rfl (hsame rfl)⟩
  | checking =>
    cases left with
    | nil => exact absurd (hmoves.ended rfl) hmoved
    | cons r left =>
      rcases hmoves.eq_reply rfl nofun with rfl | ⟨reply, hcrash, rfl⟩
      · exact absurd rfl hmoved
      · cases reply with
        | ok => exact ⟨_, _, _, hk, rfl, .passes r left rfl (hsame rfl)⟩
        | fail text => exact ⟨_, _, _, hk, rfl, .fails r left rfl (hsame rfl)⟩
        | crash text =>
          exact ⟨_, [], [], hk, crash_checks left result text,
            .checkCrashes r left (hcrash text rfl) rfl (hsame rfl)⟩
  | replacing old =>
    rcases hmoves.eq_reply rfl nofun with rfl | ⟨reply, hcrash, rfl⟩
    · exact absurd rfl hmoved
    · cases reply with
      | ok =>
        refine ⟨_, _, _, hk, rfl,
          .offers old t.state.stock.length left rfl ?_ (fun hmem => ?_) fun x hx => ?_⟩
        · exact made_proceed_of_add (List.length_append ..)
        · exact Nat.lt_irrefl _ (howned.known _ hmem)
        · have hne : x ≠ t.state.stock.length := Nat.ne_of_lt (howned.known x hx)
          refine (State.isDestroyed_add t.state t.now x).trans ?_
          rw [bne_iff_ne.mpr hne, Bool.and_true]
      | fail text => exact ⟨_, _, _, hk, rfl, .declines old left rfl (hsame rfl)⟩
      | crash text =>
        exact ⟨_, [], [], hk, crash_checks left result text,
          .crashes (.makeInstead old) left (hcrash text rfl) rfl (hsame rfl)⟩
  | exchanging old new =>
    have he := hmoves.eq_follow rfl nofun
    obtain ⟨loser, hloser, hsettles, hstock⟩ := howned.settles old new
      (u := t.proceed before after next) (congrArg Prod.fst he)
    refine ⟨next.2, [.destroy loser], left, hk, ?_,
      .exchanges old new loser left hsettles (hsame (congrArg List.length hstock))⟩
    rw [he]
    exact congrArg (· ++ checks left) hloser
  | destroying r =>
    obtain rfl := hmoves.eq_follow rfl nofun
    obtain ⟨hsets, hlength, hmore, hdestroyed⟩ := run_destroy t.now t.state r
    refine ⟨_, _, left, hk, rfl, .destroys r left _ hsets (hsame hlength) ?_ (fun x hx => ?_) hmore⟩
    · refine (hdestroyed r).trans ?_
      rw [beq_self_eq_true, Bool.or_true]
    · refine (hdestroyed x).trans ?_
      rw [beq_eq_false_iff_ne.mpr (Ne.symm hx), Bool.or_false]
  | destructing r =>
    rcases hmoves.eq_reply rfl nofun with rfl | ⟨reply, hcrash, rfl⟩
    · exact absurd rfl hmoved
    · cases reply with
      | crash text =>
        exact ⟨_, [], [], hk, crash_checks left result text,
          .crashes (.destructor r) left (hcrash text rfl) rfl (hsame rfl)⟩
      | _ => exact ⟨_, _, _, hk, rfl, .destroyed r left rfl (hsame rfl)⟩

/-! ### What the path tells -/

theorem checked_concat : Checked (path ++ [(t, u)]) i r ↔ Checked path i r ∨ Checks i r t u := by
  simp only [Checked, List.mem_append, List.mem_singleton, or_and_right, exists_or, exists_eq_left]

theorem passed_concat : Passed (path ++ [(t, u)]) i r ↔ Passed path i r ∨ Passes i r t u := by
  simp only [Passed, List.mem_append, List.mem_singleton, or_and_right, exists_or, exists_eq_left]

theorem offered_concat :
    Offered (path ++ [(t, u)]) i old new ↔ Offered path i old new ∨ Offers i old new t u := by
  simp only [Offered, List.mem_append, List.mem_singleton, or_and_right, exists_or, exists_eq_left]

theorem passed_concat_iff (h : ∀ r, ¬ Passes i r t u) :
    Passed (path ++ [(t, u)]) i r ↔ Passed path i r := by
  rw [passed_concat, or_iff_left (h r)]

theorem offered_concat_iff (h : ∀ old new, ¬ Offers i old new t u) :
    Offered (path ++ [(t, u)]) i old new ↔ Offered path i old new := by
  rw [offered_concat, or_iff_left (h old new)]

theorem Lost.concat (h : Lost path i r) : Lost (path ++ [(t, u)]) i r := by
  obtain ⟨old, new, p, hp, hlost⟩ := h
  exact ⟨old, new, p, List.mem_append_left _ hp, hlost⟩

theorem faces_iff (hj : t.jobs[i]? = some j) {instr : Instr} :
    Faces i instr t ↔ ∃ rest, j.todo = instr :: rest := by
  constructor
  · rintro ⟨k, rest, hk, htodo⟩
    obtain rfl := Option.some.inj (hj.symm.trans hk)
    exact ⟨rest, htodo⟩
  · rintro ⟨rest, htodo⟩
    exact ⟨j, rest, hj, htodo⟩

/-- A job that does not go on does nothing. -/
theorem not_offers_of_same (h : u.jobs[i]? = t.jobs[i]?) : ¬ Offers i old new t u :=
  fun hoffers => hoffers.2.1 h

theorem not_passes_of_same (h : u.jobs[i]? = t.jobs[i]?) : ¬ Passes i r t u :=
  fun hpasses => hpasses.1.2 h

theorem not_offers_of_made (h : u.made = t.made) : ¬ Offers i old new t u := by
  rintro ⟨-, -, hmade⟩
  rw [h] at hmade
  exact absurd (congrArg List.length hmade) (by simp)

theorem Faces.stay {instr : Instr} (h : Faces i instr t) (hsame : u.jobs[i]? = t.jobs[i]?) :
    Faces i instr u := by
  obtain ⟨j, rest, hj, htodo⟩ := h
  exact ⟨j, rest, hsame.trans hj, htodo⟩

theorem Faces.does {instr : Instr} (h : Faces i instr t) (hne : u.jobs[i]? ≠ t.jobs[i]?) :
    Does i instr t u := by
  obtain ⟨j, rest, hj, htodo⟩ := h
  exact ⟨j, rest, hj, htodo, hj ▸ hne⟩

theorem not_faces_of_ended (h : Ended i t) {instr : Instr} : ¬ Faces i instr t := by
  obtain ⟨j, hj, hend⟩ := h
  intro hfaces
  obtain ⟨rest, htodo⟩ := (faces_iff hj).mp hfaces
  rw [hend] at htodo
  cases htodo

theorem Answers.follow {callback : Callback} {reply : Reply}
    (h : Answers i callback reply t u) (hj : t.jobs[i]? = some j) :
    ∃ rest, j.todo = .call callback :: rest ∧
      u.jobs[i]? = some (j.reply t.now t.state reply).2 ∧ ∃ before after,
        u = t.proceed before after (j.reply t.now t.state reply) := by
  obtain ⟨before, k, after, hjobs, rfl, hwaits, rfl⟩ := h
  obtain rfl := Option.some.inj ((getElem?_of_jobs hjobs).symm.trans hj)
  obtain ⟨rest, htodo⟩ := Job.todo_of_waitsFor hwaits
  refine ⟨rest, htodo, ?_, before, after, rfl⟩
  rw [getElem?_proceed hjobs, if_pos rfl]

theorem Answers.faces {text : String} (h : Answers i (.check r) (.fail text) t u)
    (hj : t.jobs[i]? = some j) : Faces i (.call (.makeInstead r)) u := by
  obtain ⟨rest, hcall, hk, -⟩ := h.follow hj
  rw [Job.reply, hcall] at hk
  exact (faces_iff hk).mpr ⟨rest, rfl⟩

theorem Answers.offers (h : Answers i (.makeInstead old) .ok t u) (hj : t.jobs[i]? = some j) :
    Offers i old t.state.stock.length t u := by
  obtain ⟨rest, hcall, hk, before, after, hu⟩ := h.follow hj
  rw [Job.reply, hcall] at hk hu
  refine ⟨(faces_iff hj).mpr ⟨rest, hcall⟩, fun hsame => ?_, ?_⟩
  · have hsame := congrArg Job.todo (Option.some.inj (hk.symm.trans (hsame.trans hj)))
    rw [hcall] at hsame
    cases hsame
  · rw [hu]
    exact made_proceed_of_add (List.length_append ..)

/-- Of the resources that a pass has listed, some are dealt with and others are left. The path tells
nothing but about those that are dealt with. -/
structure Dealt (mayCrash : Callback → Prop) (path : List (Traffic × Traffic)) (i : Nat)
    (listed done left : List ResourceId) : Prop where
  nodup : listed.Nodup
  order : done ++ left <+: listed
  complete : (∀ callback, ¬ mayCrash callback) → done ++ left = listed
  checked : ∀ r ∈ done, Checked path i r
  offered : ∀ old new, Offered path i old new → old ∈ done
  once : ∀ old new new', Offered path i old new → Offered path i old new' → new = new'
  passed : ∀ r, Passed path i r → r ∈ done ∧ ∀ new, ¬ Offered path i r new

namespace Dealt

variable {listed done left : List ResourceId}

theorem start (hnodup : listed.Nodup) (hnone : ∀ old new, ¬ Offered path i old new)
    (hnone' : ∀ r, ¬ Passed path i r) : Dealt mayCrash path i listed [] listed where
  nodup := hnodup
  order := List.prefix_rfl
  complete _ := rfl
  checked := List.forall_mem_nil _
  offered old new ho := absurd ho (hnone old new)
  once old new _ ho := absurd ho (hnone old new)
  passed r hp := absurd hp (hnone' r)

theorem extend (h : Dealt mayCrash path i listed done left)
    (hoffers : ∀ old new, ¬ Offers i old new t u) (hpasses : ∀ r, ¬ Passes i r t u) :
    Dealt mayCrash (path ++ [(t, u)]) i listed done left where
  nodup := h.nodup
  order := h.order
  complete := h.complete
  checked r hr := checked_concat.mpr (Or.inl (h.checked r hr))
  offered old new ho := h.offered old new ((offered_concat_iff hoffers).mp ho)
  once old new new' ho ho' :=
    h.once old new new' ((offered_concat_iff hoffers).mp ho) ((offered_concat_iff hoffers).mp ho')
  passed r hp := by
    simp only [offered_concat_iff hoffers]
    exact h.passed r ((passed_concat_iff hpasses).mp hp)

theorem not_mem_done (h : Dealt mayCrash path i listed done (r :: left)) : r ∉ done := by
  have hnodup := h.nodup.sublist h.order.sublist
  exact fun hr => (List.nodup_append.mp hnodup).2.2 r hr r List.mem_cons_self rfl

/-- One more resource was checked. -/
theorem check (h : Dealt mayCrash path i listed done (r :: left)) (hchecks : Checks i r t u)
    (hoffers : ∀ old new, ¬ Offers i old new t u) (hpasses : ∀ x, Passes i x t u → x = r) :
    Dealt mayCrash (path ++ [(t, u)]) i listed (done ++ [r]) left where
  nodup := h.nodup
  order := by simpa only [List.append_assoc, List.singleton_append] using h.order
  complete hsafe := by
    simpa only [List.append_assoc, List.singleton_append] using h.complete hsafe
  checked x hx := by
    refine checked_concat.mpr ?_
    rcases List.mem_append.mp hx with hx | hx
    · exact Or.inl (h.checked x hx)
    · exact Or.inr (List.mem_singleton.mp hx ▸ hchecks)
  offered old new ho := List.mem_append_left _
    (h.offered old new ((offered_concat_iff hoffers).mp ho))
  once old new new' ho ho' :=
    h.once old new new' ((offered_concat_iff hoffers).mp ho) ((offered_concat_iff hoffers).mp ho')
  passed x hx := by
    simp only [offered_concat_iff hoffers]
    rcases passed_concat.mp hx with hx | hx
    · obtain ⟨hmem, hnone⟩ := h.passed x hx
      exact ⟨List.mem_append_left _ hmem, hnone⟩
    · obtain rfl := hpasses x hx
      refine ⟨List.mem_append_right _ List.mem_cons_self, fun new ho => ?_⟩
      exact h.not_mem_done (h.offered _ new ho)

/-- A replacement was made for the resource that was checked last. -/
theorem offer (h : Dealt mayCrash path i listed done left) (hold : old ∈ done)
    (hnone : ∀ new, ¬ Offered path i old new) (hfailed : ¬ Passed path i old)
    (hoffers : ∀ x y, Offers i x y t u → x = old ∧ y = new) (hpasses : ∀ r, ¬ Passes i r t u) :
    Dealt mayCrash (path ++ [(t, u)]) i listed done left where
  nodup := h.nodup
  order := h.order
  complete := h.complete
  checked r hr := checked_concat.mpr (Or.inl (h.checked r hr))
  offered x y ho := by
    rcases offered_concat.mp ho with ho | ho
    · exact h.offered x y ho
    · exact (hoffers x y ho).1 ▸ hold
  once x y y' ho ho' := by
    rcases offered_concat.mp ho with ho | ho
    · rcases offered_concat.mp ho' with ho' | ho'
      · exact h.once x y y' ho ho'
      · obtain ⟨rfl, -⟩ := hoffers x y' ho'
        exact absurd ho (hnone y)
    · obtain ⟨rfl, rfl⟩ := hoffers x y ho
      rcases offered_concat.mp ho' with ho' | ho'
      · exact absurd ho' (hnone y')
      · exact (hoffers _ y' ho').2.symm
  passed x hx := by
    have hx := (passed_concat_iff hpasses).mp hx
    obtain ⟨hmem, hnone'⟩ := h.passed x hx
    refine ⟨hmem, fun y ho => ?_⟩
    rcases offered_concat.mp ho with ho | ho
    · exact hnone' y ho
    · exact hfailed ((hoffers x y ho).1 ▸ hx)

/-- A crash leaves the rest unchecked. -/
theorem abandon (h : Dealt mayCrash path i listed done left) {callback : Callback}
    (hcrash : mayCrash callback) : Dealt mayCrash path i listed done [] where
  nodup := h.nodup
  order := by
    rw [List.append_nil]
    exact (List.prefix_append done left).trans h.order
  complete hsafe := absurd hcrash (hsafe callback)
  checked := h.checked
  offered := h.offered
  once := h.once
  passed := h.passed

end Dealt

/-- How far a pass has come. -/
inductive Pass (mayCrash : Callback → Prop) (path : List (Traffic × Traffic)) (i : Nat)
    (listed : List ResourceId) : List Instr → List ResourceId → Prop where
  | starting : (∀ old new, ¬ Offered path i old new) → (∀ r, ¬ Passed path i r) →
      Pass mayCrash path i listed [.inspect] []
  | checking {left : List ResourceId} (done : List ResourceId) :
      Dealt mayCrash path i listed done left → Pass mayCrash path i listed [] left
  | replacing {left : List ResourceId} (done : List ResourceId) (old : ResourceId) :
      Dealt mayCrash path i listed done left → old ∈ done → (∀ new, ¬ Offered path i old new) →
      ¬ Passed path i old → Pass mayCrash path i listed [.call (.makeInstead old)] left
  | exchanging {left : List ResourceId} (done : List ResourceId) (old new : ResourceId) :
      Dealt mayCrash path i listed done left → Offered path i old new →
      Pass mayCrash path i listed [.exchange old new] left
  | destroying {left : List ResourceId} (done : List ResourceId) (r : ResourceId) :
      Dealt mayCrash path i listed done left → Lost path i r →
      Pass mayCrash path i listed [.destroy r] left
  | destructing {left : List ResourceId} (done : List ResourceId) (r : ResourceId) :
      Dealt mayCrash path i listed done left →
      Pass mayCrash path i listed [.call (.destructor r)] left

namespace Pass

variable {listed left left' : List ResourceId} {head head' : List Instr} {k : Job}

theorem inspecting (h : Pass mayCrash path i listed head left) : Inspecting head left := by
  cases h with
  | starting => exact .starting
  | checking => exact .checking left
  | replacing _ old => exact .replacing old left
  | exchanging _ old new => exact .exchanging old new left
  | destroying _ r => exact .destroying r left
  | destructing _ r => exact .destructing r left

theorem stay (h : Pass mayCrash path i listed head left) (hsame : u.jobs[i]? = t.jobs[i]?) :
    Pass mayCrash (path ++ [(t, u)]) i listed head left := by
  have hoffers : ∀ old new, ¬ Offers i old new t u := fun _ _ => not_offers_of_same hsame
  have hpasses : ∀ r, ¬ Passes i r t u := fun _ => not_passes_of_same hsame
  cases h with
  | starting hnone hnone' =>
    exact .starting (fun old new ho => hnone old new ((offered_concat_iff hoffers).mp ho))
      fun r hp => hnone' r ((passed_concat_iff hpasses).mp hp)
  | checking done h => exact .checking done (h.extend hoffers hpasses)
  | replacing done old h hmem hnone hfailed =>
    exact .replacing done old (h.extend hoffers hpasses) hmem
      (fun new ho => hnone new ((offered_concat_iff hoffers).mp ho))
      fun hp => hfailed ((passed_concat_iff hpasses).mp hp)
  | exchanging done old new h ho =>
    exact .exchanging done old new (h.extend hoffers hpasses) (offered_concat.mpr (Or.inl ho))
  | destroying done r h hlost => exact .destroying done r (h.extend hoffers hpasses) hlost.concat
  | destructing done r h => exact .destructing done r (h.extend hoffers hpasses)

/-- The pass goes on. It lists what is idle when it begins. -/
theorem advance (h : Pass mayCrash path i listed head left) (hidle : t.state.sets.idle.Nodup)
    (hlisted : head = [.inspect] → listed = t.state.sets.idle) (hj : t.jobs[i]? = some j)
    (htodo : j.todo = head ++ checks left) (hk : u.jobs[i]? = some k)
    (htodo' : k.todo = head' ++ checks left') (hne : u.jobs[i]? ≠ t.jobs[i]?)
    (hadvances : Advances mayCrash t u head left head' left') :
    Pass mayCrash (path ++ [(t, u)]) i listed head' left' := by
  have hmade : u.made = t.made → ∀ x y, ¬ Offers i x y t u := fun hsame _ _ =>
    not_offers_of_made hsame
  have hface : ∀ instr, Faces i instr t → ∃ rest, head ++ checks left = instr :: rest :=
    fun instr hfaces => htodo ▸ (faces_iff hj).mp hfaces
  have hpassing : ∀ x, Passes i x t u → ∃ rest, head ++ checks left = .call (.check x) :: rest :=
    fun x hpasses => hface _ hpasses.1.1
  have hother (instr : Instr) (hhead : head = [instr]) (hcheck : ∀ x, instr ≠ .call (.check x)) :
      ∀ x, ¬ Passes i x t u := by
    intro x hp
    obtain ⟨rest, he⟩ := hpassing x hp
    rw [hhead] at he
    exact hcheck x (List.cons.inj he).1
  have hchecked (r : ResourceId) (rest : List Instr)
      (hnext : head ++ checks left = .call (.check r) :: rest) :
      Checks i r t u ∧ ∀ x, Passes i x t u → x = r := by
    refine ⟨⟨(faces_iff hj).mpr ⟨rest, htodo.trans hnext⟩, hne⟩, fun x hp => ?_⟩
    obtain ⟨rest', he⟩ := hpassing x hp
    rw [hnext] at he
    cases he
    rfl
  cases hadvances with
  | inspects hstate hsame =>
    obtain rfl := hlisted rfl
    have hpasses := hother _ rfl nofun
    cases h with
    | starting hnone hnone' =>
      exact .checking [] ((Dealt.start hidle hnone hnone').extend (hmade hsame) hpasses)
  | passes r left hstate hsame =>
    obtain ⟨hchecks, hpasses⟩ := hchecked r _ rfl
    cases h with
    | checking done h => exact .checking (done ++ [r]) (h.check hchecks (hmade hsame) hpasses)
  | fails r left hstate hsame =>
    obtain ⟨hchecks, hone⟩ := hchecked r _ rfl
    have hpasses : ∀ x, ¬ Passes i x t u := fun x hp =>
      hp.2 (hone x hp ▸ (faces_iff hk).mpr ⟨_, htodo'⟩)
    cases h with
    | checking done h =>
      refine .replacing (done ++ [r]) r (h.check hchecks (hmade hsame) hone)
        (List.mem_append_right _ List.mem_cons_self) (fun new ho => ?_) fun hp => ?_
      · have ho := (offered_concat_iff (hmade hsame)).mp ho
        exact h.not_mem_done (h.offered r new ho)
      · exact h.not_mem_done (h.passed r ((passed_concat_iff hpasses).mp hp)).1
  | offers old new left hsets hnew hfresh halive =>
    have hoffer : Offers i old new t u := ⟨(faces_iff hj).mpr ⟨_, htodo⟩, hne, hnew⟩
    have hoffers : ∀ x y, Offers i x y t u → x = old ∧ y = new := by
      rintro x y ⟨hfaces, -, hmade⟩
      obtain ⟨rest, he⟩ := hface _ hfaces
      cases he
      rw [hnew] at hmade
      exact ⟨rfl, (List.cons.inj (List.append_cancel_left hmade)).1.symm⟩
    have hpasses := hother _ rfl nofun
    cases h with
    | replacing done old h hmem hnone hfailed =>
      exact .exchanging done old new (h.offer hmem hnone hfailed hoffers hpasses)
        (offered_concat.mpr (Or.inr hoffer))
  | declines old left hstate hsame =>
    have hpasses := hother _ rfl nofun
    cases h with
    | replacing done old h => exact .checking done (h.extend (hmade hsame) hpasses)
  | exchanges old new loser left hsettles hsame =>
    have hpasses := hother _ rfl nofun
    have hdoes : Does i (.exchange old new) t u := ⟨j, _, hj, htodo, hj ▸ hne⟩
    cases h with
    | exchanging done old new h ho =>
      refine .destroying done loser (h.extend (hmade hsame) hpasses) ?_
      exact ⟨old, new, (t, u), List.mem_append_right _ List.mem_cons_self, hdoes, hsettles⟩
  | destroys r left more hsets hsame hgone hothers hmore =>
    have hpasses := hother _ rfl nofun
    cases h with
    | destroying done r h hlost =>
      have h' := h.extend (hmade hsame) hpasses
      rcases hmore with rfl | rfl
      · exact .checking done h'
      · exact .destructing done r h'
  | destroyed r left hstate hsame =>
    have hpasses := hother _ rfl nofun
    cases h with
    | destructing done r h => exact .checking done (h.extend (hmade hsame) hpasses)
  | checkCrashes r left hcrash hstate hsame =>
    obtain ⟨hchecks, hpasses⟩ := hchecked r _ rfl
    cases h with
    | checking done h =>
      exact .checking (done ++ [r]) ((h.check hchecks (hmade hsame) hpasses).abandon hcrash)
  | crashes callback left hcrash hstate hsame =>
    cases h with
    | replacing done old h =>
      exact .checking done ((h.extend (hmade hsame) (hother _ rfl nofun)).abandon hcrash)
    | destructing done r h =>
      exact .checking done ((h.extend (hmade hsame) (hother _ rfl nofun)).abandon hcrash)

/-- It has begun, unless nothing is known of it. -/
theorem dealt (h : Pass mayCrash path i listed head left) :
    ((∀ old new, ¬ Offered path i old new) ∧ ∀ r, ¬ Passed path i r) ∨
      ∃ done, Dealt mayCrash path i listed done left := by
  cases h with
  | starting hnone hnone' => exact Or.inl ⟨hnone, hnone'⟩
  | checking done h => exact Or.inr ⟨done, h⟩
  | replacing done _ h => exact Or.inr ⟨done, h⟩
  | exchanging done _ _ h => exact Or.inr ⟨done, h⟩
  | destroying done _ h => exact Or.inr ⟨done, h⟩
  | destructing done _ h => exact Or.inr ⟨done, h⟩

theorem mem_listed (h : Pass mayCrash path i listed head left) (ho : Offered path i old new) :
    old ∈ listed := by
  rcases h.dealt with ⟨hnone, -⟩ | ⟨done, h⟩
  · exact absurd ho (hnone old new)
  · exact h.order.subset (List.mem_append_left _ (h.offered old new ho))

theorem not_offered (h : Pass mayCrash path i listed head left) (r : ResourceId)
    (hpassed : Passed path i r) : ∀ new, ¬ Offered path i r new := by
  rcases h.dealt with ⟨-, hnone⟩ | ⟨done, h⟩
  · exact absurd hpassed (hnone r)
  · exact (h.passed r hpassed).2

theorem once (h : Pass mayCrash path i listed head left) (old new new' : ResourceId)
    (ho : Offered path i old new) (ho' : Offered path i old new') : new = new' := by
  rcases h.dealt with ⟨hnone, -⟩ | ⟨done, h⟩
  · exact absurd ho (hnone old new)
  · exact h.once old new new' ho ho'

/-- A pass that has not begun may come to list anything. -/
theorem relist (h : Pass mayCrash path i listed head left) (listed' : List ResourceId) :
    ∃ listed'', Pass mayCrash path i listed'' head left ∧ (head = [.inspect] → listed'' = listed') := by
  cases h with
  | starting hnone hnone' => exact ⟨listed', .starting hnone hnone', fun _ => rfl⟩
  | checking done h => exact ⟨listed, .checking done h, nofun⟩
  | replacing done old h hmem hnone hfailed =>
    exact ⟨listed, .replacing done old h hmem hnone hfailed, nofun⟩
  | exchanging done old new h ho => exact ⟨listed, .exchanging done old new h ho, nofun⟩
  | destroying done r h hlost => exact ⟨listed, .destroying done r h hlost, nofun⟩
  | destructing done r h => exact ⟨listed, .destructing done r h, nofun⟩

/-- One step of the pool. -/
theorem of_next (h : Pass mayCrash path i listed head left) (howned : t.Owned)
    (hnext : Next mayCrash t u) (hlisted : head = [.inspect] → listed = t.state.sets.idle)
    (hj : t.jobs[i]? = some j) (htodo : j.todo = head ++ checks left) :
    ∃ k head' left', u.jobs[i]? = some k ∧ k.todo = head' ++ checks left' ∧
      Pass mayCrash (path ++ [(t, u)]) i listed head' left' ∧
      ((u.jobs[i]? = t.jobs[i]? ∧ head' = head ∧ left' = left) ∨
        u.jobs[i]? ≠ t.jobs[i]? ∧ Advances mayCrash t u head left head' left') := by
  by_cases hsame : u.jobs[i]? = t.jobs[i]?
  · exact ⟨j, head, left, hsame.trans hj, htodo, h.stay hsame, Or.inl ⟨hsame, rfl, rfl⟩⟩
  · obtain ⟨k, head', left', hk, htodo', hadvances⟩ :=
      h.inspecting.advances howned hnext hj htodo (hj ▸ hsame)
    have hidle := Sets.idle_nodup (Sets.active_nodup howned.sound.members)
    exact ⟨k, head', left', hk, htodo', h.advance hidle hlisted hj htodo hk htodo' hsame hadvances,
      Or.inr ⟨hsame, hadvances⟩⟩

theorem passes_of_answers (h : Pass mayCrash path i listed head left) (hj : t.jobs[i]? = some j)
    (htodo : j.todo = head ++ checks left) (hanswers : Answers i (.check r) .ok t u) :
    Passes i r t u := by
  obtain ⟨rest, hcall, hk, -⟩ := hanswers.follow hj
  rw [Job.reply, hcall] at hk
  have he := htodo.symm.trans hcall
  have hrest : ∃ left', rest = checks left' := by
    cases h with
    | checking done h =>
      cases left with
      | nil => cases he
      | cons x left => exact ⟨left, (List.cons.inj he).2.symm⟩
    | _ => cases he
  obtain ⟨left', rfl⟩ := hrest
  refine ⟨⟨(faces_iff hj).mpr ⟨_, hcall⟩, fun hsame => ?_⟩, fun hfaces => ?_⟩
  · have hsame := congrArg Job.todo (Option.some.inj (hk.symm.trans (hsame.trans hj)))
    rw [hcall] at hsame
    exact absurd (congrArg List.length hsame) (by simp [Job.follow, Callback.resume])
  · obtain ⟨rest, hfaces⟩ := (faces_iff hk).mp hfaces
    cases left' <;> cases hfaces

/-- What the pass does at one step. -/
theorem tends (h : Pass mayCrash path i listed head left) (howned : t.Owned)
    (hnext : Next mayCrash t u) (hj : t.jobs[i]? = some j) (htodo : j.todo = head ++ checks left) :
    Tends path i t u := by
  have hface : ∀ instr, Faces i instr t → ∃ rest, head ++ checks left = instr :: rest :=
    fun instr hfaces => htodo ▸ (faces_iff hj).mp hfaces
  have hdoes : ∀ instr, Does i instr t u → u.jobs[i]? ≠ t.jobs[i]? ∧
      ∃ rest, head ++ checks left = instr :: rest := by
    rintro instr ⟨j', rest, hj', htodo', hne⟩
    obtain rfl := Option.some.inj (hj.symm.trans hj')
    exact ⟨hj ▸ hne, rest, htodo ▸ htodo'⟩
  have hadvances : u.jobs[i]? ≠ t.jobs[i]? → ∃ k head' left', u.jobs[i]? = some k ∧
      k.todo = head' ++ checks left' ∧ Advances mayCrash t u head left head' left' :=
    fun hne => h.inspecting.advances howned hnext hj htodo (hj ▸ hne)
  constructor
  case passes => exact fun r => h.passes_of_answers hj htodo
  case fails => exact fun r text hanswers => hanswers.faces hj
  case makes => exact fun old hanswers => ⟨_, hanswers.offers hj⟩
  case offers =>
    rintro old new ⟨hfaces, hne, hmade⟩
    obtain ⟨k, head', left', hk, htodo', hadv⟩ := hadvances hne
    obtain ⟨rest, he⟩ := hface _ hfaces
    cases hadv with
    | offers x y left hsets hnew hfresh =>
      cases he
      rw [hnew] at hmade
      obtain rfl := (List.cons.inj (List.append_cancel_left hmade)).1
      exact ⟨hfresh, (faces_iff hk).mpr ⟨_, htodo'⟩⟩
    | declines _ _ _ hsame | crashes _ _ _ _ hsame =>
      exact absurd ⟨hfaces, hne, hmade⟩ (not_offers_of_made hsame)
    | _ => cases he
  case exchanges =>
    intro old new hd
    obtain ⟨hne, rest, he⟩ := hdoes _ hd
    obtain ⟨k, head', left', hk, htodo', hadv⟩ := hadvances hne
    cases hadv with
    | exchanges x y loser left hsettles =>
      cases he
      cases h with
      | exchanging done _ _ _ ho =>
        exact ⟨ho, loser, hsettles, (faces_iff hk).mpr ⟨_, htodo'⟩⟩
    | _ => cases he
  case destroys =>
    intro r hd
    obtain ⟨hne, rest, he⟩ := hdoes _ hd
    obtain ⟨k, head', left', hk, htodo', hadv⟩ := hadvances hne
    cases hadv with
    | destroys x left more _ _ hgone =>
      cases he
      cases h with
      | destroying done _ _ hlost => exact ⟨hlost, hgone⟩
    | _ => cases he
  case spares =>
    intro hne hnot
    obtain ⟨k, head', left', hk, htodo', hadv⟩ := hadvances hne
    cases hadv with
    | exchanges old new loser left => exact absurd ⟨j, _, hj, htodo, hj ▸ hne⟩ (hnot old new)
    | offers _ _ _ hsets | destroys _ _ _ hsets => exact hsets
    | inspects hstate | passes _ _ hstate | fails _ _ hstate | declines _ _ hstate
    | destroyed _ _ hstate | checkCrashes _ _ _ hstate | crashes _ _ _ hstate => rw [hstate]
  case spared =>
    intro hne r hr hnot
    obtain ⟨k, head', left', hk, htodo', hadv⟩ := hadvances hne
    cases hadv with
    | offers _ _ _ _ _ _ halive => exact halive r hr
    | exchanges old new loser left hsettles =>
      cases hsettles with
      | replaced _ _ _ hstate | refused _ hstate => rw [hstate]
    | destroys x left more _ _ _ hothers =>
      refine hothers r fun he => ?_
      subst he
      exact hnot ⟨j, _, hj, htodo, hj ▸ hne⟩
    | inspects hstate | passes _ _ hstate | fails _ _ hstate | declines _ _ hstate
    | destroyed _ _ hstate | checkCrashes _ _ _ hstate | crashes _ _ _ hstate => rw [hstate]

end Pass

/-- Nobody has dealt with anything in a place where there is no job. -/
theorem not_faces_of_length_le (h : t.jobs.length ≤ i) (instr : Instr) : ¬ Faces i instr t := by
  rintro ⟨j, rest, hj, -⟩
  exact absurd (List.getElem?_eq_some_iff.mp hj).1 (Nat.not_lt.mpr h)

theorem not_offered_of_new (h : ∀ p ∈ path, ∀ instr, ¬ Faces i instr p.1) :
    ¬ Offered path i old new := by
  rintro ⟨p, hp, hfaces, -⟩
  exact h p hp _ hfaces

variable {s : Traffic} {name : String} {limits : Limits} {destructs : Bool} {stock : Stock}

/-- What holds of every pass that was just started, and goes on to hold whatever happens next. -/
theorem check_induction {P : List (Traffic × Traffic) → Traffic → Prop}
    (h : Run mayCrash s path t) (hcheck : StartedAs path i .check)
    (hstart : ∀ path t, t.jobs[i]? = some .checkIdle →
      (∀ p ∈ path, ∀ instr, ¬ Faces i instr p.1) → P path t)
    (hstep : ∀ path t u, Run mayCrash s path t → StartedAs path i .check → Next mayCrash t u →
      P path t → P (path ++ [(t, u)]) u) : P path t := by
  induction h with
  | refl =>
    obtain ⟨p, hp, -⟩ := hcheck
    cases hp
  | @next path t u hrun hnext _ ih =>
    obtain ⟨p, hp, hi, hjobs⟩ := hcheck
    rcases List.mem_append.mp hp with hp | hp
    · exact hstep path t u hrun ⟨p, hp, hi, hjobs⟩ hnext (ih ⟨p, hp, hi, hjobs⟩)
    · obtain rfl := List.mem_singleton.mp hp
      refine hstart _ u ?_ fun q hq instr => not_faces_of_length_le ?_ instr
      · rw [hjobs, ← hi]
        exact List.getElem?_concat_length
      · rcases List.mem_append.mp hq with hq | hq
        · obtain ⟨hle, hle'⟩ := length_jobs_of_run hrun q hq
          exact hi ▸ Nat.le_trans hle hle'
        · rw [List.mem_singleton.mp hq]
          exact Nat.le_of_eq hi

theorem pass_of_run (h : Run mayCrash (.new name limits destructs stock) path t)
    (hcheck : StartedAs path i .check) : ∃ listed j head left, t.jobs[i]? = some j ∧
      j.todo = head ++ checks left ∧ Pass mayCrash path i listed head left := by
  refine check_induction (P := fun path t => ∃ listed j head left, t.jobs[i]? = some j ∧
    j.todo = head ++ checks left ∧ Pass mayCrash path i listed head left) h hcheck
    (fun path t hj hnone => ?_) fun path t u hrun _ hnext ih => ?_
  · refine ⟨[], .checkIdle, [.inspect], [], hj, rfl, 
      .starting (fun _ _ => not_offered_of_new hnone) ?_⟩
    rintro r ⟨p, hp, ⟨hfaces, -⟩, -⟩
    exact hnone p hp _ hfaces
  · obtain ⟨listed, j, head, left, hj, htodo, hpass⟩ := ih
    obtain ⟨listed', hpass', hlisted⟩ := hpass.relist t.state.sets.idle
    obtain ⟨k, head', left', hk, htodo', hpass'', -⟩ :=
      hpass'.of_next (Lendable.of_run hrun).1 hnext hlisted hj htodo
    exact ⟨listed', k, head', left', hk, htodo', hpass''⟩

theorem tends_of_run (h : Run mayCrash (.new name limits destructs stock) path t)
    (hcheck : StartedAs path i .check) (hnext : Next mayCrash t u) : Tends path i t u := by
  obtain ⟨listed, j, head, left, hj, htodo, hpass⟩ := pass_of_run h hcheck
  exact hpass.tends (Lendable.of_run h).1 hnext hj htodo

end Traffic

end Stockroom.Pool

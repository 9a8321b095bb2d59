import Mathlib.Data.List.Forall2
import Stockroom.Proofs.Pool.Inspection

/-! A pass over the idle resources replaces what fails where it lies, and leaves the rest alone. -/

namespace Stockroom.Pool
set_option autoImplicit false

namespace Traffic

variable {mayCrash : Callback → Prop} {t u v : Traffic} {path : List (Traffic × Traffic)} {i : Nat}
  {j : Job} {r old new : ResourceId} {name : String} {limits : Limits} {destructs : Bool}
  {stock : Stock}

/-! ### What was made finds its end -/

theorem made_subset_of_next (hnext : Next mayCrash t u) : t.made ⊆ u.made := by
  rcases next_cases hnext with ⟨op, -, rfl⟩ | ⟨before, after, j, next, -, -, rfl⟩ |
    ⟨later, stock, -, -, rfl⟩
  · exact List.Subset.refl _
  · exact List.subset_append_left _ _
  · exact List.Subset.refl _

theorem Owned.mem_made_of_idle (h : t.Owned) (hr : r ∈ t.state.sets.idle) : r ∈ t.made :=
  h.members (Sets.mem_members.mpr (Or.inl (Sets.mem_active.mpr (Or.inl hr))))

/-- What is about to take a place is in none yet. -/
theorem Owned.not_mem_idle_of_exchange (h : t.Owned) (hj : t.jobs[i]? = some j) {rest : List Instr}
    (htodo : j.todo = .exchange old new :: rest) : new ∉ t.state.sets.idle := by
  intro hidle
  have hmember : new ∈ t.state.sets.members :=
    Sets.mem_members.mpr (Or.inl (Sets.mem_active.mpr (Or.inl hidle)))
  refine (h.sound.seen new (mem_seen.mpr (Or.inl hmember))).2 (mem_fresh.mpr ⟨j, ?_, ?_⟩)
  · exact List.mem_of_getElem? hj
  · rw [Job.fresh, htodo]
    exact List.mem_cons_self

/-- A job that stays as it is while no other one goes on leaves the sets alone. -/
theorem sets_of_alone (hnext : Next mayCrash t u) (hj : t.jobs[i]? = some j)
    (halone : ∀ k ≠ i, u.jobs[k]? = t.jobs[k]?) (hsame : u.jobs[i]? = t.jobs[i]?) :
    u.state.sets = t.state.sets ∧ u.made = t.made := by
  rcases alone_cases hnext hj halone with ⟨-, hsets, hmade⟩ |
    ⟨before, after, next, hjobs, -, hmoves, rfl, hk⟩
  · exact ⟨hsets, hmade⟩
  · have hstate := hmoves.state_eq (Option.some.inj (hk.symm.trans (hsame.trans hj)))
    exact ⟨congrArg State.sets hstate, made_proceed_of_stock (by rw [hstate])⟩

/-- A resource that was made instead of another is about to be exchanged for it, or it was, and the
one that had no place is about to be destroyed, or it is destroyed. -/
theorem exchanged_of_run (h : Run mayCrash (.new name limits destructs stock) path t)
    (hcheck : StartedAs path i .check) (hoffered : Offered path i old new) : new ∈ t.made ∧
      (Faces i (.exchange old new) t ∨ ∃ loser ∈ t.made, Exchanged path i old new loser ∧
        (Faces i (.destroy loser) t ∨ t.state.stock.isDestroyed loser = true)) := by
  refine check_induction (P := fun path t => Offered path i old new → new ∈ t.made ∧
    (Faces i (.exchange old new) t ∨ ∃ loser ∈ t.made, Exchanged path i old new loser ∧
      (Faces i (.destroy loser) t ∨ t.state.stock.isDestroyed loser = true))) h hcheck
    (fun path t _ hnone hoffered => ?_) (fun path t u hrun hcheck hnext ih hoffered => ?_) hoffered
  · exact absurd hoffered (not_offered_of_new hnone)
  · have howned : t.Owned := (Lendable.of_run hrun).1
    have htends := tends_of_run hrun hcheck hnext
    have hmade := made_subset_of_next hnext
    rcases offered_concat.mp hoffered with hoffered | hoffers
    · obtain ⟨hnew, hexchange | ⟨loser, hloser, ⟨q, hq, hexchanged⟩, hlost⟩⟩ := ih hoffered
      · refine ⟨hmade hnew, ?_⟩
        by_cases hsame : u.jobs[i]? = t.jobs[i]?
        · exact Or.inl (hexchange.stay hsame)
        have hdoes := hexchange.does hsame
        obtain ⟨-, loser, hsettles, hdestroy⟩ := htends.exchanges old new hdoes
        refine Or.inr ⟨loser, hmade ?_,
          ⟨(t, u), List.mem_append_right _ List.mem_cons_self, hdoes, hsettles⟩, Or.inl hdestroy⟩
        cases hsettles with
        | replaced front back hidle =>
          exact howned.mem_made_of_idle (hidle ▸ List.mem_append_right _ List.mem_cons_self)
        | refused => exact hnew
      · refine ⟨hmade hnew, Or.inr ⟨loser, hmade hloser,
          ⟨q, List.mem_append_left _ hq, hexchanged⟩, ?_⟩⟩
        rcases hlost with hdestroy | hdestroyed
        · by_cases hsame : u.jobs[i]? = t.jobs[i]?
          · exact Or.inl (hdestroy.stay hsame)
          · exact Or.inr (htends.destroys loser (hdestroy.does hsame)).2
        · exact Or.inr (howned.destroyed_of_next hnext (howned.known loser hloser) hdestroyed)
    · refine ⟨?_, Or.inl (htends.offers old new hoffers).2⟩
      rw [hoffers.2.2]
      exact List.mem_append_right _ List.mem_cons_self

/-! ### What is not replaced is left alone -/

theorem offered_of_does (h : Run mayCrash (.new name limits destructs stock) path t)
    (hcheck : StartedAs path i .check) : ∀ p ∈ path, Does i (.exchange old new) p.1 p.2 →
      Offered path i old new := by
  refine check_induction (P := fun path _ => ∀ p ∈ path, Does i (.exchange old new) p.1 p.2 →
    Offered path i old new) h hcheck (fun path t _ hnone p hp hdoes => ?_)
    fun path t u hrun hcheck hnext ih p hp hdoes => offered_concat.mpr (Or.inl ?_)
  · obtain ⟨j, rest, hj, htodo, -⟩ := hdoes
    exact absurd ⟨j, rest, hj, htodo⟩ (hnone p hp _)
  · rcases List.mem_append.mp hp with hp | hp
    · exact ih p hp hdoes
    · rw [List.mem_singleton.mp hp] at hdoes
      exact ((tends_of_run hrun hcheck hnext).exchanges old new hdoes).1

theorem Owned.mem_made_of_check (h : t.Owned) (hj : t.jobs[i]? = some j)
    (hr : .call (.check r) ∈ j.todo) : r ∈ t.made := by
  refine h.seen (mem_seen.mpr (Or.inr (Or.inr ⟨j, List.mem_of_getElem? hj, ?_⟩)))
  exact List.mem_append_left _ (List.mem_flatMap.mpr ⟨_, hr, List.mem_cons_self⟩)

theorem mem_made_of_checked (h : Run mayCrash (.new name limits destructs stock) path t)
    (hchecked : Checked path i r) : r ∈ t.made := by
  induction h with
  | refl =>
    obtain ⟨p, hp, -⟩ := hchecked
    cases hp
  | next hrun hnext _ ih =>
    refine made_subset_of_next hnext ?_
    rcases checked_concat.mp hchecked with hchecked | ⟨⟨j, rest, hj, htodo⟩, -⟩
    · exact ih hchecked
    · exact (Lendable.of_run hrun).1.mem_made_of_check hj (htodo ▸ List.mem_cons_self)

theorem Advances.left_subset {head head' : List Instr} {left left' : List ResourceId}
    (h : Advances mayCrash t u head left head' left') (hbegun : head ≠ [.inspect]) :
    left' ⊆ left := by
  cases h with
  | inspects => exact absurd rfl hbegun
  | passes | fails => exact List.subset_cons_self _ _
  | checkCrashes | crashes => exact List.nil_subset _
  | _ => exact List.Subset.refl _

theorem Inspecting.check_mem {head : List Instr} {left : List ResourceId}
    (h : Inspecting head left) (hr : .call (.check r) ∈ head ++ checks left) : r ∈ left := by
  have hchecks (hr : .call (.check r) ∈ checks left) : r ∈ left := by
    obtain ⟨x, hx, he⟩ := List.mem_map.mp hr
    cases he
    exact hx
  cases h with
  | starting =>
    cases List.mem_singleton.mp hr
  | checking => exact hchecks hr
  | _ => exact hchecks ((List.mem_cons.mp hr).resolve_left nofun)

/-- A pass does not check what it has made. -/
theorem unchecked_of_run (h : Run mayCrash (.new name limits destructs stock) path t)
    (hcheck : StartedAs path i .check) (hoffered : Offered path i old new) :
    ¬ Checked path i new ∧ ∀ j, t.jobs[i]? = some j → .call (.check new) ∉ j.todo := by
  refine check_induction (P := fun path t => Offered path i old new →
    ¬ Checked path i new ∧ ∀ j, t.jobs[i]? = some j → .call (.check new) ∉ j.todo) h hcheck
    (fun path t _ hnone hoffered => ?_) (fun path t u hrun hcheck hnext ih hoffered => ?_) hoffered
  · exact absurd hoffered (not_offered_of_new hnone)
  have howned : t.Owned := (Lendable.of_run hrun).1
  obtain ⟨listed, j, head, left, hj, htodo, hpass⟩ := pass_of_run hrun hcheck
  obtain ⟨listed', hpass, hlisted⟩ := hpass.relist t.state.sets.idle
  obtain ⟨k, head', left', hk, htodo', hpass', hmoved⟩ :=
    hpass.of_next howned hnext hlisted hj htodo
  have hleft : .call (.check new) ∉ j.todo ∧ ¬ Checked path i new := by
    rcases offered_concat.mp hoffered with hoffered | hoffers
    · obtain ⟨hunchecked, hleft⟩ := ih hoffered
      exact ⟨hleft j hj, hunchecked⟩
    · have hfresh := ((tends_of_run hrun hcheck hnext).offers old new hoffers).1
      exact ⟨fun hmem => hfresh (howned.mem_made_of_check hj hmem),
        fun hchecked => hfresh (mem_made_of_checked hrun hchecked)⟩
  constructor
  · intro hchecked
    rcases checked_concat.mp hchecked with hchecked | ⟨hfaces, -⟩
    · exact hleft.2 hchecked
    · obtain ⟨rest, hcall⟩ := (faces_iff hj).mp hfaces
      exact hleft.1 (hcall ▸ List.mem_cons_self)
  · intro k' hk' hmem
    obtain rfl := Option.some.inj (hk.symm.trans hk')
    rw [htodo'] at hmem
    rw [htodo] at hleft
    rcases hmoved with ⟨-, rfl, rfl⟩ | ⟨hne, hadvances⟩
    · exact hleft.1 hmem
    · have hbegun : head ≠ [.inspect] := by
        rintro rfl
        cases hpass with
        | starting hnone =>
          rcases offered_concat.mp hoffered with hoffered | ⟨hfaces, -⟩
          · exact hnone old new hoffered
          · obtain ⟨rest, he⟩ := (faces_iff hj).mp hfaces
            rw [htodo] at he
            cases he
      have hmem := hadvances.left_subset hbegun (hpass'.inspecting.check_mem hmem)
      exact hleft.1 (List.mem_append_right _ (List.mem_map_of_mem hmem))

/-- What was checked and not replaced has not lost its place by the pass. -/
theorem not_lost_of_run (h : Run mayCrash (.new name limits destructs stock) path t)
    (hcheck : StartedAs path i .check) (hchecked : Checked path i r)
    (hnone : ∀ new, ¬ Offered path i r new) : ¬ Lost path i r := by
  rintro ⟨old, new, p, hp, hdoes, hsettles⟩
  have hoffered := offered_of_does h hcheck p hp hdoes
  cases hsettles with
  | replaced => exact hnone new hoffered
  | refused => exact (unchecked_of_run h hcheck hoffered).1 hchecked

/-! ### A pass that nothing else happens beside -/

/-- How far a pass has come that nothing else happened beside, and what it has done to the sets. -/
structure Renewing (path : List (Traffic × Traffic)) (i : Nat) (t u : Traffic) (head : List Instr) :
    Prop where
  closed : u.state.sets.closed = t.state.sets.closed
  checkedOut : u.state.sets.checkedOut = t.state.sets.checkedOut
  overflow : u.state.sets.overflow = t.state.sets.overflow
  pendingClose : u.state.sets.pendingClose = t.state.sets.pendingClose
  made : t.made ⊆ u.made
  fresh : ∀ old new, Offered path i old new → new ∉ t.made
  idle : List.Forall₂
    (fun r r' => r' = r ∧ (∀ new, Offered path i r new → head = [.exchange r new]) ∨
      Offered path i r r')
    t.state.sets.idle u.state.sets.idle
  destroyed : ∀ old new, Offered path i old new →
    head = [.exchange old new] ∨ head = [.destroy old] ∨ u.state.stock.isDestroyed old = true

section
variable {α β : Type} {R R' : α → β → Prop} {l : List α} {m front back : List β}

theorem exists_of_forall₂ {x : α} (h : List.Forall₂ R l m) (hx : x ∈ l) : ∃ y ∈ m, R x y := by
  induction h with
  | nil => cases hx
  | cons hxy _ ih =>
    rcases List.mem_cons.mp hx with rfl | hx
    · exact ⟨_, List.mem_cons_self, hxy⟩
    · obtain ⟨y, hy, hxy⟩ := ih hx
      exact ⟨y, List.mem_cons_of_mem _ hy, hxy⟩

theorem forall₂_imp_mem (h : List.Forall₂ R l m) (himp : ∀ x, ∀ y ∈ m, R x y → R' x y) :
    List.Forall₂ R' l m := by
  induction h with
  | nil => exact .nil
  | cons hxy _ ih =>
    refine .cons (himp _ _ List.mem_cons_self hxy) (ih fun x y hy => ?_)
    exact himp x y (List.mem_cons_of_mem _ hy)

/-- One place changes, and what is related to all others stays so. -/
theorem forall₂_replace {y y' : β} (h : List.Forall₂ R l (front ++ y :: back))
    (hothers : ∀ x, ∀ z ∈ front ++ back, R x z → R' x z) (hplace : ∀ x, R x y → R' x y') :
    List.Forall₂ R' l (front ++ y' :: back) := by
  induction front generalizing l with
  | nil =>
    cases h with
    | cons hxy htail => exact .cons (hplace _ hxy) (forall₂_imp_mem htail hothers)
  | cons z front ih =>
    cases h with
    | cons hxz htail =>
      refine .cons (hothers _ z List.mem_cons_self hxz) (ih htail fun x w hw => ?_)
      exact hothers x w (List.mem_cons_of_mem _ hw)

end

namespace Renewing

variable {head head' : List Instr} {left listed : List ResourceId} {loser : ResourceId}

theorem begin (t : Traffic) (i : Nat) (head : List Instr) : Renewing [] i t t head where
  closed := rfl
  checkedOut := rfl
  overflow := rfl
  pendingClose := rfl
  made := List.Subset.refl _
  fresh := by
    rintro old new ⟨p, hp, -⟩
    cases hp
  idle := by
    refine List.forall₂_same.mpr fun r _ => Or.inl ⟨rfl, ?_⟩
    rintro new ⟨p, hp, -⟩
    cases hp
  destroyed := by
    rintro old new ⟨p, hp, -⟩
    cases hp

/-- The sets stay as they are. -/
theorem extend (h : Renewing path i t u head) (hsets : v.state.sets = u.state.sets)
    (hmade : u.made ⊆ v.made)
    (hoffers : ∀ old new, Offers i old new u v → new ∉ u.made ∧ head' = [.exchange old new])
    (hhead : ∀ old new, head = [.exchange old new] → head' = head)
    (hdestroyed : ∀ old new, Offered path i old new →
      head = [.destroy old] ∨ u.state.stock.isDestroyed old = true →
      head' = [.destroy old] ∨ v.state.stock.isDestroyed old = true) :
    Renewing (path ++ [(u, v)]) i t v head' where
  closed := by rw [hsets, h.closed]
  checkedOut := by rw [hsets, h.checkedOut]
  overflow := by rw [hsets, h.overflow]
  pendingClose := by rw [hsets, h.pendingClose]
  made := List.Subset.trans h.made hmade
  fresh old new ho := by
    rcases offered_concat.mp ho with ho | ho
    · exact h.fresh old new ho
    · exact fun hmem => (hoffers old new ho).1 (h.made hmem)
  idle := by
    rw [hsets]
    refine h.idle.imp fun r r' hr => ?_
    rcases hr with ⟨rfl, hnone⟩ | ho
    · refine Or.inl ⟨rfl, fun new ho => ?_⟩
      rcases offered_concat.mp ho with ho | ho
      · exact (hhead _ _ (hnone new ho)).trans (hnone new ho)
      · exact (hoffers _ new ho).2
    · exact Or.inr (offered_concat.mpr (Or.inl ho))
  destroyed old new ho := by
    rcases offered_concat.mp ho with ho | ho
    · rcases h.destroyed old new ho with he | hd
      · exact Or.inl ((hhead _ _ he).trans he)
      · exact Or.inr (hdestroyed old new ho hd)
    · exact Or.inl (hoffers old new ho).2

/-- Nobody has touched the failed one, so it is replaced. -/
theorem exchange (h : Renewing path i t u [.exchange old new]) (hsettles : Settles old new u v loser)
    (hmade : v.made = u.made) (ho : Offered path i old new)
    (honce : ∀ x y, Offered path i x y → x = old → y = new) (hknown : old ∈ t.made)
    (hold : old ∈ t.state.sets.idle) (hnodup : u.state.sets.idle.Nodup)
    (hnew : new ∉ u.state.sets.idle) :
    Renewing (path ++ [(u, v)]) i t v [.destroy loser] := by
  have hoffered : ∀ x y, Offered (path ++ [(u, v)]) i x y ↔ Offered path i x y := fun _ _ =>
    offered_concat_iff fun _ _ => not_offers_of_made hmade
  cases hsettles with
  | refused hgone =>
    obtain ⟨r', hr', ⟨rfl, -⟩ | ho'⟩ := exists_of_forall₂ h.idle hold
    · exact absurd hr' hgone
    · obtain rfl := honce old r' ho' rfl
      exact absurd hr' hnew
  | replaced front back hidle hv =>
    have hsets := congrArg State.sets hv
    rw [hidle] at hnodup
    have hother : ∀ z ∈ front ++ back, z ≠ old := fun z hz he => by
      have := List.nodup_middle.mp hnodup
      exact (List.nodup_cons.mp this).1 (he ▸ hz)
    refine ⟨?_, ?_, ?_, ?_, ?_, ?_, ?_, ?_⟩
    · rw [hsets, ← h.closed]
    · rw [hsets, ← h.checkedOut]
    · rw [hsets, ← h.overflow]
    · rw [hsets, ← h.pendingClose]
    · exact hmade ▸ h.made
    · exact fun x y hxy => h.fresh x y ((hoffered x y).mp hxy)
    · rw [hsets]
      have hall := h.idle
      rw [hidle] at hall
      refine forall₂_replace hall (fun x z hz hxz => ?_) fun x hx => ?_
      · rcases hxz with ⟨rfl, hnone⟩ | hxz
        · refine Or.inl ⟨rfl, fun y hy => ?_⟩
          have he := hnone y ((hoffered z y).mp hy)
          injection he with he
          injection he with he
          exact absurd he.symm (hother z hz)
        · exact Or.inr ((hoffered x z).mpr hxz)
      · rcases hx with ⟨rfl, -⟩ | hx
        · exact Or.inr ((hoffered _ _).mpr ho)
        · exact absurd hknown (h.fresh x old hx)
    · intro x y hxy
      refine Or.inr ?_
      rcases h.destroyed x y ((hoffered x y).mp hxy) with he | he | hd
      · injection he with he
        injection he with he
        exact Or.inl (he ▸ rfl)
      · cases he
      · rw [hv]
        exact Or.inr hd

/-- Before the pass lists what is idle, that is what was idle at first. -/
theorem idle_eq (h : Renewing path i t u head) (hnone : ∀ old new, ¬ Offered path i old new) :
    t.state.sets.idle = u.state.sets.idle := by
  refine List.forall₂_eq_eq_eq ▸ h.idle.imp fun r r' hr => ?_
  rcases hr with ⟨rfl, -⟩ | ho
  · rfl
  · exact absurd ho (hnone r r')

theorem of_next (h : Renewing path i t u head)
    (hpass : Pass mayCrash path i t.state.sets.idle head left) (ht : t.Owned) (hu : u.Owned)
    (hnext : Next mayCrash u v) (halone : ∀ k ≠ i, v.jobs[k]? = u.jobs[k]?)
    (hj : u.jobs[i]? = some j) (htodo : j.todo = head ++ checks left) :
    ∃ k head' left', v.jobs[i]? = some k ∧ k.todo = head' ++ checks left' ∧
      Pass mayCrash (path ++ [(u, v)]) i t.state.sets.idle head' left' ∧
      Renewing (path ++ [(u, v)]) i t v head' := by
  have hlisted : head = [.inspect] → t.state.sets.idle = u.state.sets.idle := by
    intro he
    cases hpass with
    | starting hnone => exact h.idle_eq hnone
    | _ => cases he
  obtain ⟨k, head', left', hk, htodo', hpass', hmoved⟩ :=
    hpass.of_next hu hnext hlisted hj htodo
  refine ⟨k, head', left', hk, htodo', hpass', ?_⟩
  have hkeep : ∀ old new, Offered path i old new → u.state.stock.isDestroyed old = true →
      v.state.stock.isDestroyed old = true := fun old new ho =>
    hu.destroyed_of_next hnext (hu.known old (h.made (ht.mem_made_of_idle (hpass.mem_listed ho))))
  rcases hmoved with ⟨hsame, rfl, rfl⟩ | ⟨hne, hadvances⟩
  · obtain ⟨hsets, hmade⟩ := sets_of_alone hnext hj halone hsame
    exact h.extend hsets (hmade ▸ List.Subset.refl _)
      (fun old new ho => absurd ho (not_offers_of_made hmade)) (fun _ _ _ => rfl)
      fun old new ho => Or.imp_right (hkeep old new ho)
  have hidle : ∀ {head' : List Instr}, v.state = u.state → v.made = u.made →
      (∀ old new, head ≠ [.exchange old new]) → (∀ old, head ≠ [.destroy old]) →
      Renewing (path ++ [(u, v)]) i t v head' := fun hstate hmade hexchange hdestroy =>
    h.extend (congrArg State.sets hstate) (hmade ▸ List.Subset.refl _)
      (fun old new ho => absurd ho (not_offers_of_made hmade))
      (fun old new he => absurd he (hexchange old new))
      fun old new ho => Or.imp (absurd · (hdestroy old)) (hkeep old new ho)
  cases hadvances with
  | inspects hstate hmade => exact hidle hstate hmade nofun nofun
  | passes _ _ hstate hmade => exact hidle hstate hmade nofun nofun
  | fails _ _ hstate hmade => exact hidle hstate hmade nofun nofun
  | declines _ _ hstate hmade => exact hidle hstate hmade nofun nofun
  | destroyed _ _ hstate hmade => exact hidle hstate hmade nofun nofun
  | checkCrashes _ _ _ hstate hmade => exact hidle hstate hmade nofun nofun
  | crashes _ _ _ hstate hmade => exact hidle hstate hmade nofun nofun
  | offers old new _ hsets hmade hfresh =>
    refine h.extend hsets (hmade ▸ List.subset_append_left _ _) (fun x y hoffers => ?_) nofun
      fun x y ho => Or.imp nofun (hkeep x y ho)
    obtain ⟨rest, hfaces⟩ := (faces_iff hj).mp hoffers.1
    rw [htodo] at hfaces
    cases hfaces
    obtain rfl := (List.cons.inj (List.append_cancel_left (hmade.symm.trans hoffers.2.2))).1
    exact ⟨hfresh, rfl⟩
  | exchanges old new loser _ hsettles hmade =>
    cases hpass with
    | exchanging done _ _ hdealt ho =>
      have hold := hdealt.order.subset (List.mem_append_left _ (hdealt.offered old new ho))
      refine h.exchange hsettles hmade ho (fun x y hxy he => ?_) (ht.mem_made_of_idle hold) hold
        (Sets.idle_nodup (Sets.active_nodup hu.sound.members)) (hu.not_mem_idle_of_exchange hj htodo)
      exact hdealt.once _ _ _ (he ▸ hxy) ho
  | destroys r _ more hsets hmade hgone =>
    refine h.extend hsets (hmade ▸ List.Subset.refl _)
      (fun x y ho => absurd ho (not_offers_of_made hmade)) nofun fun x y ho hx => Or.inr ?_
    rcases hx with he | hx
    · injection he with he
      injection he with he
      exact he ▸ hgone
    · exact hkeep x y ho hx

end Renewing

theorem renewing_of_run (h : Run mayCrash t path u) (ht : t.Owned)
    (hcheck : t.jobs[i]? = some .checkIdle) (halone : Alone path i) :
    u.Owned ∧ ∃ j head left, u.jobs[i]? = some j ∧ j.todo = head ++ checks left ∧
      Pass mayCrash path i t.state.sets.idle head left ∧ Renewing path i t u head := by
  induction h with
  | refl =>
    refine ⟨ht, .checkIdle, [.inspect], [], hcheck, rfl, .starting ?_ ?_, .begin t i _⟩
    · rintro old new ⟨p, hp, -⟩
      cases hp
    · rintro r ⟨p, hp, -⟩
      cases hp
  | @next path u v hrun hnext _ ih =>
    obtain ⟨hu, j, head, left, hj, htodo, hpass, hrenewing⟩ :=
      ih fun p hp => halone p (List.mem_append_left _ hp)
    exact ⟨hu.of_next hnext, hrenewing.of_next hpass ht hu hnext
      (halone (u, v) (List.mem_append_right _ List.mem_cons_self)) hj htodo⟩

/-- A pass that nothing else happened beside has been over what was idle when it began. -/
theorem Renewing.renewed (h : Renewing path i t u [])
    (hpass : Pass mayCrash path i t.state.sets.idle [] []) : Renewed path i mayCrash t u where
  closed := h.closed
  checkedOut := h.checkedOut
  overflow := h.overflow
  pendingClose := h.pendingClose
  idle := h.idle.imp fun r r' hr => by
    refine hr.imp (fun hr => ⟨hr.1, fun new ho => ?_⟩) fun ho => ⟨ho, h.fresh r r' ho⟩
    cases hr.2 new ho
  destroyed old new ho := by
    rcases h.destroyed old new ho with he | he | hd
    · cases he
    · cases he
    · exact hd
  checked hsafe r hr := by
    cases hpass with
    | checking done h =>
      rw [← h.complete hsafe, List.append_nil] at hr
      exact h.checked r hr

/-- A pass over the idle resources puts a new one into the place of each that fails its check, if
that is still idle, and destroys the loser; it changes nothing else. -/
theorem check_replaces_in_place (h : Run mayCrash (.new name limits destructs stock) path t)
    (hcheck : StartedAs path i .check) :
    (∀ u, Next mayCrash t u → Tends path i t u) ∧
    (∀ r, Passed path i r → ∀ new, ¬ Offered path i r new) ∧
    (∀ r, Checked path i r → (∀ new, ¬ Offered path i r new) → ¬ Lost path i r) ∧
    (∀ old new new', Offered path i old new → Offered path i old new' → new = new') ∧
    (Ended i t → ∀ old new, Offered path i old new → ∃ loser, Exchanged path i old new loser ∧
      t.state.stock.isDestroyed loser = true) ∧
    (t.jobs[i]? = some .checkIdle →
      ∀ path' u, Run mayCrash t path' u → Alone path' i → Ended i u →
        Renewed path' i mayCrash t u) := by
  have howned := (Lendable.of_run h).1
  obtain ⟨listed, j, head, left, hj, htodo, hpass⟩ := pass_of_run h hcheck
  refine ⟨fun u hnext => tends_of_run h hcheck hnext, hpass.not_offered,
    fun r hchecked => not_lost_of_run h hcheck hchecked, hpass.once, ?_, ?_⟩
  · intro hended old new hoffered
    obtain ⟨-, hfaces | ⟨loser, -, hexchanged, hfaces | hdestroyed⟩⟩ :=
      exchanged_of_run h hcheck hoffered
    · exact absurd hfaces (not_faces_of_ended hended)
    · exact absurd hfaces (not_faces_of_ended hended)
    · exact ⟨loser, hexchanged, hdestroyed⟩
  · intro hnew path' u hrun halone hended
    obtain ⟨-, k, head', left', hk, htodo', hpass', hrenewing⟩ :=
      renewing_of_run hrun howned hnew halone
    obtain ⟨l, hl, hend⟩ := hended
    obtain rfl := Option.some.inj (hk.symm.trans hl)
    rw [htodo'] at hend
    obtain ⟨rfl, hchecks⟩ := List.append_eq_nil_iff.mp hend
    obtain rfl := List.map_eq_nil_iff.mp hchecks
    exact hrenewing.renewed hpass'

instance (i : Nat) (instr : Instr) (t : Traffic) : Decidable (Faces i instr t) :=
  decidable_of_iff (∃ j ∈ t.jobs[i]?, j.todo.head? = some instr) <|
    exists_congr fun _ => (and_congr_right fun _ => List.head?_eq_some_iff).trans exists_and_left.symm

instance (path : List (Traffic × Traffic)) (i : Nat) (old new : ResourceId) :
    Decidable (Offered path i old new) :=
  inferInstanceAs (Decidable (∃ p ∈ path, _ ∧ _ ∧ _))

/-- A pool in which two resources are idle, where a pass begins. -/
def twoIdle : Traffic where
  state := {
    name := "pool", limits := ⟨2, .zero⟩, sets := { idle := [0, 1] }
    stock := [⟨"pool", 0, .start, .start, false⟩, ⟨"pool", 1, .start, .start, false⟩] }
  jobs := [⟨[], .got 0⟩, ⟨[], .got 1⟩, ⟨[], .done⟩, ⟨[], .done⟩, .checkIdle]
  handles := [1, 0]
  made := [0, 1]

theorem run_twoIdle : ∃ path, Run (fun _ => False) (.new "pool" ⟨2, .zero⟩ true []) path twoIdle ∧
    StartedAs path 4 .check := by
  have h : Run (fun _ => False) (.new "pool" ⟨2, .zero⟩ true []) [] _ := .refl
  replace h := h.next (.start .get nofun) (by decide)
  replace h := h.next (.step [] [] _ rfl) (by decide)
  replace h := h.next (.reply [] [] _ (.make .keep) .ok rfl rfl nofun) (by decide)
  replace h := h.next (.step [] [] _ rfl) (by decide)
  replace h := h.next (.start .get nofun) (by decide)
  replace h := h.next (.step [_] [] _ rfl) (by decide)
  replace h := h.next (.reply [_] [] _ (.make .keep) .ok rfl rfl nofun) (by decide)
  replace h := h.next (.step [_] [] _ rfl) (by decide)
  replace h := h.next (.start (.put 0) (by decide)) (by decide)
  replace h := h.next (.step [_, _] [] _ rfl) (by decide)
  replace h := h.next (.start (.put 1) (by decide)) (by decide)
  replace h := h.next (.step [_, _, _] [] _ rfl) (by decide)
  replace h := h.next (.start .check nofun) (by decide)
  exact ⟨_, h, by decide⟩

/-- The first of the two fails, and is replaced. -/
theorem run_failed : ∃ path u, Run (fun _ => False) twoIdle path u ∧ Alone path 4 ∧ Ended 4 u ∧
    Offered path 4 0 2 ∧ u.state.sets.idle = [2, 1] := by
  have h : Run (fun _ => False) twoIdle [] _ := .refl
  replace h := h.next (.step [_, _, _, _] [] _ rfl) (by decide)
  replace h := h.next (.reply [_, _, _, _] [] _ (.check 0) (.fail "no") rfl rfl nofun) (by decide)
  replace h := h.next (.reply [_, _, _, _] [] _ (.makeInstead 0) .ok rfl rfl nofun) (by decide)
  replace h := h.next (.step [_, _, _, _] [] _ rfl) (by decide)
  replace h := h.next (.step [_, _, _, _] [] _ rfl) (by decide)
  replace h := h.next (.reply [_, _, _, _] [] _ (.destructor 0) .ok rfl rfl nofun) (by decide)
  replace h := h.next (.reply [_, _, _, _] [] _ (.check 1) .ok rfl rfl nofun) (by decide)
  exact ⟨_, _, h, by decide, by decide, by decide, by decide⟩

/-- The second of the two is checked out while it is checked, and fails. -/
theorem run_taken : ∃ path u, Run (fun _ => False) twoIdle path u ∧ Ended 4 u ∧
    Offered path 4 1 2 ∧ 1 ∈ u.state.sets.checkedOut ∧ u.state.stock.isDestroyed 1 = false := by
  have h : Run (fun _ => False) twoIdle [] _ := .refl
  replace h := h.next (.step [_, _, _, _] [] _ rfl) (by decide)
  replace h := h.next (.reply [_, _, _, _] [] _ (.check 0) .ok rfl rfl nofun) (by decide)
  replace h := h.next (.start .get nofun) (by decide)
  replace h := h.next (.step [_, _, _, _, _] [] _ rfl) (by decide)
  replace h := h.next (.reply [_, _, _, _] [_] _ (.check 1) (.fail "no") rfl rfl nofun) (by decide)
  replace h := h.next (.reply [_, _, _, _] [_] _ (.makeInstead 1) .ok rfl rfl nofun) (by decide)
  replace h := h.next (.step [_, _, _, _] [_] _ rfl) (by decide)
  replace h := h.next (.step [_, _, _, _] [_] _ rfl) (by decide)
  replace h := h.next (.reply [_, _, _, _] [_] _ (.destructor 2) .ok rfl rfl nofun) (by decide)
  exact ⟨_, _, h, by decide, by decide, by decide, by decide⟩

theorem check_replaces_in_place_failed_and_taken :
    (∃ path u, Run (fun _ => False) twoIdle path u ∧ Ended 4 u ∧ Offered path 4 0 2 ∧
      u.state.sets.idle = [2, 1] ∧ Renewed path 4 (fun _ => False) twoIdle u) ∧
    ∃ path u loser, Run (fun _ => False) (.new "pool" ⟨2, .zero⟩ true []) path u ∧
      1 ∈ u.state.sets.checkedOut ∧ Exchanged path 4 1 2 loser ∧
      u.state.stock.isDestroyed loser = true ∧ loser ≠ 1 := by
  obtain ⟨path, h, p, hp, hstart⟩ := run_twoIdle
  constructor
  · obtain ⟨path', u, h', halone, hended, hoffered, hidle⟩ := run_failed
    obtain ⟨-, -, -, -, -, hrenewed⟩ := check_replaces_in_place h ⟨p, hp, hstart⟩
    exact ⟨path', u, h', hended, hoffered, hidle, hrenewed rfl path' u h' halone hended⟩
  · obtain ⟨path', u, h', hended, ⟨q, hq, hoffers⟩, hout, hlives⟩ := run_taken
    obtain ⟨-, -, -, -, hfinds, -⟩ :=
      check_replaces_in_place (h.trans h') ⟨p, List.mem_append_left _ hp, hstart⟩
    obtain ⟨loser, hexchanged, hdestroyed⟩ :=
      hfinds hended 1 2 ⟨q, List.mem_append_right _ hq, hoffers⟩
    refine ⟨path ++ path', u, loser, h.trans h', hout, hexchanged, hdestroyed, ?_⟩
    rintro rfl
    rw [hlives] at hdestroyed
    cases hdestroyed

end Traffic

end Stockroom.Pool

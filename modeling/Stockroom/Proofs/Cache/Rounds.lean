import Stockroom.Cache.Moments

/-! Rounds of commands are runs: what is proved of every run of single moves holds of a world that
settles after each round, and in the middle of its settling. -/

namespace Stockroom.Cache
set_option autoImplicit false

variable {V : Type}

namespace Moment

/-- Some moves lead from the one world to the other, where a loader may run before and after. -/
def Reaches (a b : World V × Option (Running V)) : Prop :=
  ∀ ended, ∃ moves ended',
    run ⟨a.1, a.2, ended⟩ moves = ⟨b.1, b.2, ended'⟩

namespace Reaches

variable {a b c : World V × Option (Running V)} {w w' : World V}

theorem refl (a : World V × Option (Running V)) : Reaches a a := fun ended => ⟨[], ended, rfl⟩

theorem trans (h : Reaches a b) (h' : Reaches b c) : Reaches a c := by
  intro ended
  obtain ⟨before, mid, hb⟩ := h ended
  obtain ⟨after, last, ha⟩ := h' mid
  exact ⟨before ++ after, last, by rw [run_append, hb, ha]⟩

theorem of_next (move : Move V) (h : next ⟨a.1, a.2, []⟩ move = b) : Reaches a b := by
  intro ended
  subst h
  exact ⟨[move], _, rfl⟩

/-- A loader runs to its end, or up to where it waits. -/
theorem runScript (r : Running V) (w : World V) :
    Reaches (w, some r) (World.runScript r.call r.cause r.script r.last w, none) := by
  obtain ⟨call, cause, script, last⟩ := r
  induction script generalizing last w with
  | done product => exact of_next .goOn rfl
  | relay => exact of_next .goOn rfl
  | fail text => exact of_next .goOn rfl
  | crash text => exact of_next .goOn rfl
  | await gate rest ih =>
    have hstep := of_next (a := (w, some ⟨call, cause, .await gate rest, last⟩)) .goOn rfl
    refine hstep.trans ?_
    simp only [next, World.carryOut, World.runScript]
    split
    · exact ih w last
    · exact refl _
  | act op rest ih =>
    have hstep := of_next (a := (w, some ⟨call, cause, .act op rest, last⟩)) .goOn rfl
    refine hstep.trans ?_
    simp only [next, World.carryOut, World.runScript]
    split
    · exact refl _
    · exact ih _ last
  | fetch name tag loader rest _ ih =>
    have hstep :=
      of_next (a := (w, some ⟨call, cause, .fetch name tag loader rest, last⟩)) .goOn rfl
    refine hstep.trans ?_
    simp only [next, World.carryOut, World.runScript]
    split
    · exact ih _ _
    · exact refl _

theorem finishRun (a : World V × Option (Running V)) : Reaches a (World.finishRun a, none) := by
  obtain ⟨w, r⟩ := a
  cases r with
  | none => exact refl _
  | some r => exact runScript r w

theorem runTask (w : World V) (i : Nat) : Reaches (w, none) (w.runTask i, none) := by
  refine (of_next (.run i) rfl).trans ?_
  simp only [next, World.enterAt, World.runTask]
  cases w.ready[i]? with
  | some t => exact finishRun _
  | none => exact refl _

theorem runReady (fuel : Nat) (w : World V) :
    Reaches (w, none) (World.runReady fuel w, none) := by
  induction fuel generalizing w with
  | zero => exact refl _
  | succ fuel ih =>
    cases hready : w.ready with
    | nil =>
      rw [World.runReady_of_ready_eq_nil _ hready]
      exact refl _
    | cons t rest =>
      have hfirst : World.runReady (fuel + 1) w = World.runReady fuel (w.runTask 0) := by
        rw [World.runReady, World.runTask, hready]
        rfl
      rw [hfirst]
      exact (runTask w 0).trans (ih _)

theorem settle (w : World V) : Reaches (w, none) (w.settle, none) := runReady w.fuel w

theorem wakeFirst (w : World V) (p : Task V → Bool) :
    Reaches (w, none) (w.wakeFirst p, none) := by
  unfold World.wakeFirst
  split
  · rename_i t ht
    obtain ⟨i, hi, hfirst⟩ : ∃ i, w.parked[i]? = some t ∧ w.parked.eraseP p =
        w.parked.eraseIdx i := by
      obtain ⟨hp, before, after, he, hbefore⟩ := List.find?_eq_some_iff_append.mp ht
      refine ⟨before.length, by simp [he], ?_⟩
      rw [he, List.eraseP_append_right _ fun b hb => by simpa using hbefore b hb,
        List.eraseP_cons_of_pos hp, List.eraseIdx_append_of_length_le (Nat.le_refl _)]
      simp
    refine of_next (.wake i) ?_
    simp only [next, World.wakeAt, hi, hfirst]
  · exact refl _

theorem releaseUpTo (p : Task V → Bool) (count : Nat) (w : World V) :
    Reaches (w, none) ((World.releaseUpTo p count w).2, none) := by
  induction count generalizing w with
  | zero => exact refl _
  | succ count ih =>
    unfold World.releaseUpTo
    split
    · exact ((wakeFirst w p).trans (settle _)).trans (ih _)
    · exact refl _

theorem act (w : World V) (command : Command V) :
    Reaches (w, none) ((w.act command).2, none) := by
  have heffect := of_next (a := (w, none)) (.outside command) rfl
  cases command with
  | openGate gate => exact heffect.trans (releaseUpTo _ _ _)
  | release count => exact releaseUpTo _ _ _
  | releaseRestores count => exact releaseUpTo _ _ _
  | perform op inRuntime => exact heffect
  | request name loader token => exact heffect
  | cancel token => exact heffect
  | dropCaller caller => exact heffect
  | setArchive gated saveMode restoreCrashes => exact heffect
  | holdRestores held => exact heffect
  | deposit name value => exact heffect
  | advance d => exact heffect

theorem actAll (w : World V) (commands : List (Command V)) :
    Reaches (w, none) ((w.actAll commands).2, none) := by
  induction commands generalizing w with
  | nil => exact refl _
  | cons command commands ih => exact (act w command).trans (ih _)

theorem round (w : World V) (commands : List (Command V)) :
    Reaches (w, none) ((w.round commands).2, none) := (actAll w commands).trans (settle _)

end Reaches

/-- Every world that rounds of commands lead to is one that moves lead to. -/
theorem exists_run_rounds (config : Config V) (rounds : List (List (Command V))) :
    ∃ moves, ((new config).run moves).running = none ∧ ((new config).run moves).world =
      rounds.foldl (fun w commands => (w.round commands).2) (.new config) := by
  have hreaches : ∀ w : World V, Reaches (w, none)
      (rounds.foldl (fun w commands => (w.round commands).2) w, none) := by
    induction rounds with
    | nil => exact fun w => .refl _
    | cons commands rounds ih => exact fun w => (Reaches.round w commands).trans (ih _)
  obtain ⟨moves, ended, he⟩ := hreaches (.new config) []
  have hmoves : (new config).run moves = _ := he
  exact ⟨moves, by rw [hmoves], by rw [hmoves]⟩

end Moment

end Stockroom.Cache

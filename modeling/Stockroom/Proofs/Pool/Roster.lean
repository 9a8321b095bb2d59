import Mathlib.Data.List.Induction
import Stockroom.Proofs.Pool.Deeds

/-! The registry serves no closed pool that it has not let go of. -/

namespace Stockroom.Pool
set_option autoImplicit false

namespace Scene

variable {s t : Scene} {space key bind name : String} {config : Config} {p : Nat}

/-! ### What the registry answers -/

/-- An operation from outside is carried out, and then the scene settles. -/
theorem handle_eq (s : Scene) (op : Op) (hop : ∀ gate, op ≠ .openGate gate) :
    ∃ fuel, s.handle op =
      ((perform (fuel + 1) op s).1, (perform (fuel + 1) op s).2.settle) := by
  refine ⟨999999, ?_⟩
  cases op with
  | openGate gate => exact absurd rfl (hop gate)
  | _ => rfl

theorem answer_lookUp (hp : s.registry.get? (namespacedKey space key) = some p) (bind : String) :
    (s.handle (.lookUp space key bind)).1 = .found (some (s.isClosed p)) := by
  obtain ⟨fuel, he⟩ := s.handle_eq (.lookUp space key bind) nofun
  rw [he, perform, hp]

theorem answer_lookUpOrBuild (hp : s.registry.get? (namespacedKey space key) = some p)
    (bind name : String) (config : Config) :
    (s.handle (.lookUpOrBuild space key bind name config)).1 = .built false (s.isClosed p) := by
  obtain ⟨fuel, he⟩ := s.handle_eq (.lookUpOrBuild space key bind name config) nofun
  rw [he, perform, hp]

theorem isClosed_build (s : Scene) (name : String) (config : Config) :
    (s.build name config).2.isClosed (s.build name config).1 = false := by
  simp [isClosed, Scene.build]

theorem answer_lookUpOrBuild_new (hnone : s.registry.get? (namespacedKey space key) = none)
    (bind name : String) (config : Config) :
    (s.handle (.lookUpOrBuild space key bind name config)).1 = .built true false := by
  obtain ⟨fuel, he⟩ := s.handle_eq (.lookUpOrBuild space key bind name config) nofun
  rw [he, perform, hnone]
  exact congrArg (Answer.built true) (s.isClosed_build name config)

/-! ### What the registry does -/

theorem gentle_new : ({} : Scene).Gentle := ⟨throughout_new _, nofun⟩

/-- To register a pool is that deed, and then what the closing of the previous one leads to. -/
theorem changes_register (hs : s.Gentle) (space key : String) (hp : s.names.get? name = some p) :
    ∃ later, Changes ((s.registry.get? (namespacedKey space key)).toList)
      (s.enroll (namespacedKey space key) p) later (s.handle (.register space key name)).2 := by
  obtain ⟨fuel, he⟩ := s.handle_eq (.register space key name) nofun
  have hclose := (Performs.all fuel).closeEach _ _ (s.enroll (namespacedKey space key) p)
    (hs.of_same rfl rfl rfl) (List.Subset.refl (s.registry.get? (namespacedKey space key)).toList)
  rw [he, perform, hp]
  exact (hclose.trans ((steady_gentle _ s.now).settle hclose.gentle)).changes

end Scene

namespace Roster

variable {t : Scene}

theorem gently_new (ht : Scene.Gently {} t) : t.Gentle ∧ Scene.Changes [] {} t.deeds t := by
  have hfollows : Scene.Follows [] {} t := Scene.gentle_new.gently ht
  obtain ⟨deeds, hchanges⟩ := hfollows.changes
  have hdeeds : t.deeds = deeds := hchanges.recorded.trans (List.nil_append _)
  exact ⟨hfollows.gentle, hdeeds ▸ hchanges⟩

/-- Where nobody closes a pool but the registry, and whatever is registered is open at that moment,
a pool that is registered is open, unless the registry has let go of it under some name. -/
theorem serves_open (ht : Scene.Gently {} t) (hopens : ∀ deed ∈ t.deeds, deed.opens = true) :
    (∀ key p, t.registry.get? key = some p → p ∉ letGo t.deeds → t.isClosed p = false) ∧
    (∀ p, t.deeds.countP (Deed.registers p) =
      t.registry.values.count p + (letGo t.deeds).count p) ∧
    (∀ space key p, t.registry.get? (namespacedKey space key) = some p → p ∉ letGo t.deeds →
      ∀ bind, (t.handle (.lookUp space key bind)).1 = .found (some false) ∧
        ∀ name config,
          (t.handle (.lookUpOrBuild space key bind name config)).1 = .built false false) ∧
    (∀ space key, t.registry.get? (namespacedKey space key) = none →
      ∀ bind name config,
        (t.handle (.lookUpOrBuild space key bind name config)).1 = .built true false) ∧
    ∀ space key name p, t.names.get? name = some p → t.isClosed p = false →
      let full := namespacedKey space key
      let u := (t.handle (.register space key name)).2
      ∃ later, u.deeds = t.deeds ++ .register full p false (t.registry.get? full) :: later ∧
        ((∀ deed ∈ later, deed.touches full = false) → u.registry.get? full = some p) ∧
        (p ∉ (t.registry.get? full).toList ++ letGo later → u.isClosed p = false) := by
  obtain ⟨hgentle, hchanges⟩ := gently_new ht
  have hopen (key : String) (p : Nat) (hp : t.registry.get? key = some p)
      (hkept : p ∉ letGo t.deeds) : t.isClosed p = false := by
    rcases hchanges.registered key p hp with hbefore | ⟨closed, previous, hdeed⟩
    · cases hbefore
    · obtain rfl : closed = false := by simpa [Deed.opens] using hopens _ hdeed
      exact (hchanges.opened key p previous hdeed).resolve_right hkept
  refine ⟨hopen, hchanges.counted, fun space key p hp hkept bind => ⟨?_, fun name config => ?_⟩,
    fun space key hnone bind name config => Scene.answer_lookUpOrBuild_new hnone bind name config,
    fun space key name p hp hnow => ?_⟩
  · rw [Scene.answer_lookUp hp, hopen _ p hp hkept]
  · rw [Scene.answer_lookUpOrBuild hp, hopen _ p hp hkept]
  · obtain ⟨later, hlater⟩ := Scene.changes_register hgentle space key hp
    refine ⟨later, ?_, fun hkey => ?_, fun hkept => (hlater.closed p hnow).resolve_right hkept⟩
    · rw [hlater.recorded, Scene.enroll, hnow, List.append_assoc, List.singleton_append]
    · rw [hlater.untouched _ hkey]
      exact Table.get?_insert_self _ _ _

def after (ops : List Op) : Scene := ops.foldl (fun s op => (s.handle op).2) {}

theorem gently_after {ops : List Op} (h : ∀ op ∈ ops, op.Gentle) : Scene.Gently {} (after ops) := by
  induction ops using List.reverseRecOn with
  | nil => exact .refl
  | append_singleton ops op ih =>
    rw [after, List.foldl_append]
    exact .handle _ op (ih fun op' hop' => h op' (List.mem_append_left _ hop'))
      (h op (List.mem_append_right _ List.mem_cons_self))

/-- A pool is registered in the place of another, and both under names of their own. -/
def replacing : List Op :=
  [.create "p" {}, .create "q" {}, .register "" "a" "p", .register "" "b" "q",
    .register "" "a" "q"]

theorem serves_open_replacing :
    (after replacing).deeds =
        [.register "a" 0 false none, .register "b" 1 false none, .register "a" 1 false (some 0)] ∧
      (after replacing).isClosed 0 = true ∧ (after replacing).isClosed 1 = false ∧
      ((after replacing).handle (.lookUp "" "a" "r")).1 = .found (some false) := by
  have hgentle : ∀ op ∈ replacing, op.Gentle := by
    simp only [replacing, List.forall_mem_cons]
    refine ⟨.intro _ rfl nofun, .intro _ rfl nofun, .intro _ rfl nofun, .intro _ rfl nofun,
      .intro _ rfl nofun, nofun⟩
  have hdeeds : (after replacing).deeds =
      [.register "a" 0 false none, .register "b" 1 false none,
        .register "a" 1 false (some 0)] := by decide +kernel
  have hfound : (after replacing).registry.get? (namespacedKey "" "a") = some 1 := by
    decide +kernel
  obtain ⟨hopen, -, hanswers, -⟩ := serves_open (gently_after hgentle) (by decide +kernel)
  have hkept : 1 ∉ letGo (after replacing).deeds := by
    rw [hdeeds]
    decide
  exact ⟨hdeeds, by decide +kernel, hopen _ 1 hfound hkept, (hanswers "" "a" 1 hfound hkept "r").1⟩

/-- A pool is registered under two names, while it is open, and removed under one of them. -/
def aliased : List Op :=
  [.create "p" {}, .register "" "a" "p", .register "" "b" "p", .unregister "" "a"]

/-- It is still found under the other name, and it is closed. -/
theorem exists_registered_closed :
    (after (aliased.take 1)).isClosed 0 = false ∧ (after (aliased.take 2)).isClosed 0 = false ∧
      (after aliased).registry.get? "b" = some 0 ∧ (after aliased).isClosed 0 = true ∧
      ((after aliased).handle (.lookUp "" "b" "q")).1 = .found (some true) := by
  have hfound : (after aliased).registry.get? (namespacedKey "" "b") = some 0 := by decide +kernel
  have hclosed : (after aliased).isClosed 0 = true := by decide +kernel
  refine ⟨by decide +kernel, by decide +kernel, hfound, hclosed, ?_⟩
  rw [Scene.answer_lookUp hfound, hclosed]

end Roster

end Stockroom.Pool

import Stockroom.Pool.Roster
import Stockroom.Proofs.Pool.Onward
import Stockroom.Proofs.Pool.Scripting

/-! What operations and callbacks do to the registry, and which pools are closed on the way. Jobs
close no pool, unless they were started to close what the registry has let go of. -/

namespace Stockroom.Pool
set_option autoImplicit false

theorem letGo_cons (deed : Deed) (deeds : List Deed) :
    letGo (deed :: deeds) = deed.letsGo ++ letGo deeds := rfl

theorem letGo_append (deeds deeds' : List Deed) :
    letGo (deeds ++ deeds') = letGo deeds ++ letGo deeds' := List.flatMap_append

namespace Scene

variable {due due' : List Nat} {s t u : Scene} {deeds deeds' : List Deed}

/-! ### What deeds lead to -/

/-- What has changed between two scenes if these deeds were done to the registry. No pools were
closed but those that were `due` or that it has let go of. -/
structure Changes (due : List Nat) (s : Scene) (deeds : List Deed) (t : Scene) : Prop where
  recorded : t.deeds = s.deeds ++ deeds
  closed : ∀ p, s.isClosed p = false → t.isClosed p = false ∨ p ∈ due ++ letGo deeds
  opened : ∀ key p previous, .register key p false previous ∈ deeds →
    t.isClosed p = false ∨ p ∈ due ++ letGo deeds
  registered : ∀ key p, t.registry.get? key = some p → s.registry.get? key = some p ∨
    ∃ closed previous, .register key p closed previous ∈ deeds
  untouched : ∀ key, (∀ deed ∈ deeds, deed.touches key = false) →
    t.registry.get? key = s.registry.get? key
  counted : ∀ p, deeds.countP (Deed.registers p) + s.registry.values.count p =
    t.registry.values.count p + (letGo deeds).count p

namespace Changes

theorem of_aside (hdeeds : t.deeds = s.deeds) (hregistry : t.registry = s.registry)
    (hclosed : ∀ p, s.isClosed p = false → t.isClosed p = false ∨ p ∈ due) :
    Changes due s [] t where
  recorded := by rw [hdeeds, List.append_nil]
  closed p hp := (hclosed p hp).imp_right (List.mem_append_left _)
  opened := nofun
  registered key p hp := Or.inl (hregistry ▸ hp)
  untouched key _ := by rw [hregistry]
  counted p := by simp [hregistry, letGo]

theorem mono (h : Changes due s deeds t) (hsub : due ⊆ due') : Changes due' s deeds t := by
  have hall : due ++ letGo deeds ⊆ due' ++ letGo deeds :=
    List.append_subset.mpr ⟨List.subset_append_of_subset_left _ hsub, List.subset_append_right _ _⟩
  exact { h with
    closed := fun p hp => (h.closed p hp).imp_right fun hmem => hall hmem
    opened := fun key p previous hp => (h.opened key p previous hp).imp_right
      fun hmem => hall hmem }

/-- What the first deeds let go of is due after them. -/
theorem trans (h : Changes due s deeds t) (h' : Changes (due ++ letGo deeds) t deeds' u) :
    Changes due s (deeds ++ deeds') u where
  recorded := by rw [h'.recorded, h.recorded, List.append_assoc]
  closed p hp := by
    rw [letGo_append, ← List.append_assoc]
    rcases h.closed p hp with hopen | hlet
    · exact h'.closed p hopen
    · exact Or.inr (List.mem_append_left _ hlet)
  opened key p previous hp := by
    rw [letGo_append, ← List.append_assoc]
    rcases List.mem_append.mp hp with hp | hp
    · rcases h.opened key p previous hp with hopen | hlet
      · exact h'.closed p hopen
      · exact Or.inr (List.mem_append_left _ hlet)
    · exact h'.opened key p previous hp
  registered key p hp := by
    rcases h'.registered key p hp with hbefore | ⟨closed, previous, hlater⟩
    · exact (h.registered key p hbefore).imp_right
        fun ⟨closed, previous, hmem⟩ => ⟨closed, previous, List.mem_append_left _ hmem⟩
    · exact Or.inr ⟨closed, previous, List.mem_append_right _ hlater⟩
  untouched key hkey := by
    rw [h'.untouched key fun deed hdeed => hkey deed (List.mem_append_right _ hdeed)]
    exact h.untouched key fun deed hdeed => hkey deed (List.mem_append_left _ hdeed)
  counted p := by
    have hfirst := h.counted p
    have hlater := h'.counted p
    rw [letGo_append, List.countP_append, List.count_append]
    omega

/-! ### One deed -/

theorem enroll (s : Scene) (key : String) (p : Nat) : Changes due s
    [.register key p (s.isClosed p) (s.registry.get? key)] (s.enroll key p) where
  recorded := rfl
  closed q hq := Or.inl hq
  opened other q previous hq := by
    obtain ⟨-, rfl, hopen, -⟩ := Deed.register.inj (List.mem_singleton.mp hq)
    exact Or.inl hopen.symm
  registered other q hq := by
    rcases Table.get?_of_insert hq with ⟨rfl, rfl⟩ | hq
    · exact Or.inr ⟨_, _, List.mem_cons_self⟩
    · exact Or.inl hq
  untouched other hother := by
    have hne : key ≠ other := by simpa [Deed.touches] using hother _ List.mem_cons_self
    exact Table.get?_insert_of_ne _ _ hne.symm
  counted q := by
    have hvalues := s.registry.count_values_insert key p q
    rw [List.countP_singleton, letGo_cons]
    simp only [Deed.registers, Deed.letsGo, letGo, List.flatMap_nil, List.append_nil, beq_iff_eq]
    exact hvalues

theorem strike {key : String} {p : Nat} (hp : s.registry.get? key = some p) :
    Changes due s [.remove key p] (s.strike key p) where
  recorded := rfl
  closed q hq := Or.inl hq
  opened _ _ _ hq := by cases List.mem_singleton.mp hq
  registered other q hq := Or.inl (Table.get?_of_erase hq)
  untouched other hother := by
    have hne : key ≠ other := by simpa [Deed.touches] using hother _ List.mem_cons_self
    exact Table.get?_erase_of_ne _ hne.symm
  counted q := by
    have hvalues := s.registry.count_values_erase key q
    rw [hp] at hvalues
    exact (Nat.zero_add _).trans hvalues

theorem strikeAll (s : Scene) : Changes due s [.removeAll s.registry.values] s.strikeAll where
  recorded := rfl
  closed q hq := Or.inl hq
  opened _ _ _ hq := by cases List.mem_singleton.mp hq
  registered other q hq := nomatch hq
  untouched other hother := by cases hother _ List.mem_cons_self
  counted q := by
    rw [letGo_cons]
    simp [Deed.registers, Deed.letsGo, letGo, Scene.strikeAll, Table.values]

end Changes

/-! ### Operations are deeds -/

/-- Deeds lead from one scene to the other, and no callback closes a pool then. -/
structure Follows (due : List Nat) (s t : Scene) : Prop where
  gentle : t.Gentle
  changes : ∃ deeds, Changes due s deeds t

namespace Follows

/-- After a deed, what the registry has let go of may be closed. -/
theorem of_deed {deed : Deed} (h : Changes due s [deed] t)
    (h' : Follows (due ++ deed.letsGo) t u) : Follows due s u := by
  obtain ⟨deeds, hchanges⟩ := h'.changes
  have hletsGo : letGo [deed] = deed.letsGo := List.append_nil _
  rw [← hletsGo] at hchanges
  exact ⟨h'.gentle, deed :: deeds, h.trans hchanges⟩

theorem trans (h : Follows due s t) (h' : Follows due t u) : Follows due s u := by
  obtain ⟨deeds, hchanges⟩ := h.changes
  obtain ⟨deeds', hchanges'⟩ := h'.changes
  exact ⟨h'.gentle, deeds ++ deeds', hchanges.trans (hchanges'.mono (List.subset_append_left _ _))⟩

/-- The registry stays as it is, and so do pools, but for new ones. -/
theorem of_aside (ht : t.Gentle) (hdeeds : t.deeds = s.deeds) (hregistry : t.registry = s.registry)
    (hclosed : ∀ p, s.isClosed p = false → t.isClosed p = false) : Follows due s t :=
  ⟨ht, [], .of_aside hdeeds hregistry fun p hp => Or.inl (hclosed p hp)⟩

theorem of_same (ht : t.Gentle) (hdeeds : t.deeds = s.deeds) (hregistry : t.registry = s.registry)
    (hpools : t.pools = s.pools) : Follows due s t :=
  of_aside ht hdeeds hregistry fun p hp => by rwa [isClosed, hpools]

theorem refl (h : s.Gentle) : Follows due s s := of_same h rfl rfl rfl

end Follows

theorem lt_of_open {p : Nat} (h : s.isClosed p = false) : p < s.pools.length := by
  by_contra hge
  rw [isClosed, List.getElem?_eq_none (Nat.not_lt.mp hge)] at h
  cases h

namespace Gentle

/-- Only what has to do neither with scripts nor with loans has changed. -/
theorem of_same (h : s.Gentle) (hscripts : t.scripts = s.scripts) (hready : t.ready = s.ready)
    (hwaiting : t.waiting = s.waiting) : t.Gentle where
  scripts := h.scripts.of_scripts hscripts
  loans := by
    rw [hready, hwaiting]
    exact h.loans

theorem log (h : s.Gentle) (e : Event) : Follows due s (s.log e) :=
  .of_same (h.of_same rfl rfl rfl) rfl rfl rfl

/-- A job goes on. It closes the pool only if it is the registry's to do so. -/
theorem setState (h : s.Gentle) {p : Nat} {old new : State} (hold : s.state? p = some old)
    (hstate : new.sets.closed = old.sets.closed ∨ p ∈ due) : Follows due s (s.setState p new) := by
  refine ⟨h.of_same rfl rfl rfl, [], .of_aside rfl rfl fun q hq => ?_⟩
  rcases hstate with hsame | hp
  · left
    simp only [isClosed, Scene.setState, List.getElem?_set]
    split
    · rename_i he
      subst he
      obtain ⟨x, hx, rfl⟩ := Option.map_eq_some_iff.mp hold
      rw [isClosed, hx] at hq
      rw [if_pos (lt_of_open (by rw [isClosed, hx]; exact hq))]
      exact hsame.trans hq
    · exact hq
  · by_cases he : p = q
    · exact Or.inr (he ▸ hp)
    · left
      rw [isClosed, Scene.setState, List.getElem?_set_ne he]
      exact hq

theorem modifyScripts (h : s.Gentle) {name : String} {f : Scripts → Scripts}
    (hf : (s.modifyScripts name f).Throughout fun op => op.isClose = false) :
    Follows due s (s.modifyScripts name f) := .of_same ⟨hf, h.loans⟩ rfl rfl rfl

theorem nextAction (h : s.Gentle) (p : Nat) : Follows due s (s.nextAction p).2 := by
  have hscripts := (h.scripts.nextAction p).2
  unfold Scene.nextAction at hscripts ⊢
  dsimp only at hscripts ⊢
  split at hscripts
  · exact .refl h
  · exact h.modifyScripts hscripts

theorem logMade (h : s.Gentle) (p : Nat) (reply : Reply) : Follows due s (s.logMade p reply) := by
  cases reply with
  | ok => exact h.log _
  | fail text => exact h.log _
  | crash text => exact .refl h

theorem build (h : s.Gentle) (name : String) (config : Config) :
    Follows due s (s.build name config).2 := by
  refine .of_aside (h.of_same rfl rfl rfl) rfl rfl fun p hp => ?_
  simp only [isClosed, Scene.build]
  rw [List.getElem?_append_left (lt_of_open hp)]
  exact hp

theorem start (h : s.Gentle) (p : Nat) (gate : Option String) (reply : Reply) :
    Follows due s (s.start p gate reply).2 := by
  refine .of_same ⟨h.scripts, fun l hl => ?_⟩ rfl rfl rfl
  simp only [Scene.start, List.append_assoc, List.mem_append, List.mem_singleton] at hl
  rcases hl with hl | rfl | hl
  · exact h.loans l (List.mem_append_left _ hl)
  · simp [Job.exec]
  · exact h.loans l (List.mem_append_right _ hl)

theorem wake (h : s.Gentle) (pass : Loan → Bool) : Follows due s (s.wake pass) := by
  refine .of_same ⟨h.scripts, fun l hl => h.loans l ?_⟩ rfl rfl rfl
  simp only [Scene.wake, List.mem_append, List.mem_filter] at hl ⊢
  tauto

theorem abort (h : s.Gentle) (task : Nat) : Follows due s (s.abort task) := by
  unfold Scene.abort
  split
  · have haborted : Follows due s { s with aborted := s.aborted ++ [task] } :=
      .of_same (h.of_same rfl rfl rfl) rfl rfl rfl
    exact haborted.trans (haborted.gentle.wake _)
  · exact .refl h

end Gentle

/-- What is carried out with this fuel is deeds, where jobs close only what is due. -/
structure Performs (fuel : Nat) : Prop where
  nest : ∀ (due : List Nat) act s, act.Gentle → s.Gentle → Follows due s (nest fuel act s).2
  call : ∀ (due : List Nat) p body callback s, body.Gentle → s.Gentle →
    Follows due s (call fuel p body callback s).2
  drive : ∀ (due : List Nat) p body j s, (∀ act, body = some act → act.Gentle) → s.Gentle →
    (Instr.close ∈ j.todo → p ∈ due) →
    Follows due s (drive fuel p body j s).2 ∧
      (Instr.close ∈ (drive fuel p body j s).1.todo → Instr.close ∈ j.todo)
  onPool : ∀ (due : List Nat) name body j s, body.Gentle → s.Gentle → Instr.close ∉ j.todo →
    Follows due s (onPool fuel name body j s).2
  closeEach : ∀ (due : List Nat) ps s, s.Gentle → ps ⊆ due → Follows due s (closeEach fuel ps s).2
  perform : ∀ (due : List Nat) op s, op.Gentle → s.Gentle → Follows due s (perform fuel op s).2

namespace Performs

variable {fuel : Nat}

theorem zero : Performs 0 where
  nest due act s _ h := by rw [Scene.nest]; exact .refl h
  call due p body callback s _ h := by rw [Scene.call]; exact .refl h
  drive due p body j s _ h _ := by
    rw [Scene.drive]
    refine ⟨.refl h, fun hclose => ?_⟩
    rw [Job.crash_todo] at hclose
    exact absurd hclose (Job.close_not_mem_unwind j)
  onPool due name body j s _ h _ := by rw [Scene.onPool]; exact .refl h
  closeEach due ps s h _ := by rw [Scene.closeEach]; exact .refl h
  perform due op s _ h := by rw [Scene.perform]; exact .refl h

theorem nest_succ (h : Performs fuel) (act : Scripted Op) (hact : act.Gentle) (hs : s.Gentle) :
    Follows due s (Scene.nest (fuel + 1) act s).2 := by
  rw [Scene.nest]
  split
  · exact .refl hs
  · rename_i op rest hops
    have hop := h.perform due op s (hact op (hops ▸ List.mem_cons_self)) hs
    split
    · rename_i he
      rw [he] at hop
      exact hop
    · rename_i answer later _ he
      rw [he] at hop
      have hlog : Follows due later (later.log (.nested op answer)) := hop.gentle.log _
      refine (hop.trans hlog).trans (h.nest due _ _ (fun op' hop' => ?_) hlog.gentle)
      exact hact op' (hops ▸ List.mem_cons_of_mem op hop')

theorem call_succ (h : Performs fuel) (p : Nat) (body : Scripted Op) (callback : Callback)
    (hbody : body.Gentle) (hs : s.Gentle) :
    Follows due s (Scene.call (fuel + 1) p body callback s).2 := by
  have hmake : Follows due s
      ((Scene.nest fuel (s.nextAction p).1 (s.nextAction p).2).2.logMade p
        (Scene.nest fuel (s.nextAction p).1 (s.nextAction p).2).1) := by
    have hnext : Follows due s (s.nextAction p).2 := hs.nextAction p
    have hnest := hnext.trans (h.nest due _ _ (hs.scripts.nextAction p).1 hnext.gentle)
    exact hnest.trans (hnest.gentle.logMade p _)
  cases callback with
  | make purpose => exact hmake
  | makeInstead old => exact hmake
  | check r =>
    have hlog : Follows due s (s.log (.check r)) := hs.log _
    exact hlog.trans (h.nest due _ _ (hs.scripts.checkAction p r) hlog.gentle)
  | destructor r =>
    have hlog : Follows due s (s.log (.destroy r (s.nameOf p))) := hs.log _
    exact hlog.trans (h.nest due _ _ (hs.scripts.destructorAction p) hlog.gentle)
  | body r => exact h.nest due _ _ hbody hs

theorem drive_succ (h : Performs fuel) (p : Nat) (body : Option (Scripted Op)) (j : Job)
    (hbody : ∀ act, body = some act → act.Gentle) (hs : s.Gentle)
    (hj : Instr.close ∈ j.todo → p ∈ due) :
    Follows due s (Scene.drive (fuel + 1) p body j s).2 ∧
      (Instr.close ∈ (Scene.drive (fuel + 1) p body j s).1.todo → Instr.close ∈ j.todo) := by
  have hgetD : (body.getD {}).Gentle := by
    cases body with
    | none => exact (throughout_empty _)
    | some act => exact hbody act rfl
  have hon {t : Scene} {next : State × Job} (ht : Follows due s t)
      (hset : Follows due t (t.setState p next.1))
      (hmem : Instr.close ∈ next.2.todo → Instr.close ∈ j.todo) :
      Follows due s (Scene.drive fuel p body next.2 (t.setState p next.1)).2 ∧
        (Instr.close ∈ (Scene.drive fuel p body next.2 (t.setState p next.1)).1.todo →
          Instr.close ∈ j.todo) := by
    obtain ⟨hlater, hback⟩ := h.drive due p body next.2 _ hbody hset.gentle fun hclose =>
      hj (hmem hclose)
    exact ⟨(ht.trans hset).trans hlater, fun hclose => hmem (hback hclose)⟩
  rw [Scene.drive.eq_def]
  dsimp only
  split
  · exact ⟨.refl hs, id⟩
  · split
    · exact ⟨.refl hs, id⟩
    · rename_i body _ _ callback _ _
      have hcall := h.call due p (body.getD {}) callback s hgetD hs
      split
      · exact ⟨hcall, id⟩
      · rename_i state hstate
        obtain ⟨hmem, hclosed⟩ := j.close_reply (Scene.call fuel p (body.getD {}) callback s).2.now
          state (Scene.call fuel p (body.getD {}) callback s).1
        exact hon hcall (hcall.gentle.setState hstate (Or.inl hclosed)) hmem
    · split
      · exact ⟨.refl hs, id⟩
      · rename_i state hstate
        obtain ⟨hmem, hclosed⟩ := j.close_step s.now state
        have hset : Follows due s (s.setState p (j.step s.now state).1) := by
          refine hs.setState hstate ?_
          by_cases hclose : Instr.close ∈ j.todo
          · exact Or.inr (hj hclose)
          · exact Or.inl (hclosed hclose)
        exact hon (.refl hs) hset hmem

theorem onPool_succ (h : Performs fuel) (name : String) (body : Scripted Op) (j : Job)
    (hbody : body.Gentle) (hs : s.Gentle) (hj : Instr.close ∉ j.todo) :
    Follows due s (Scene.onPool (fuel + 1) name body j s).2 := by
  rw [Scene.onPool.eq_def]
  dsimp only
  split
  · exact .refl hs
  · rename_i p hp
    exact (h.drive due p (some body) j s (fun act hact => Option.some.inj hact ▸ hbody) hs
      fun hclose => absurd hclose hj).1

theorem closeEach_succ (h : Performs fuel) (ps : List Nat) (hs : s.Gentle) (hps : ps ⊆ due) :
    Follows due s (Scene.closeEach (fuel + 1) ps s).2 := by
  cases ps with
  | nil =>
    rw [Scene.closeEach]
    exact .refl hs
  | cons p ps =>
    obtain ⟨hdrive, -⟩ := h.drive due p (some {}) .close s
      (fun act hact => Option.some.inj hact ▸ (throughout_empty _)) hs fun _ => hps List.mem_cons_self
    rw [Scene.closeEach]
    split
    · exact hdrive
    · exact hdrive.trans (h.closeEach due ps _ hdrive.gentle (List.subset_of_cons_subset hps))

/-- The registry lets go of pools, and closes them. -/
theorem closes (h : Performs fuel) {deed : Deed} (hdeed : Changes due s [deed] t) (ht : t.Gentle)
    {ps : List Nat} (hps : ps ⊆ deed.letsGo) : Follows due s (Scene.closeEach fuel ps t).2 :=
  .of_deed hdeed (h.closeEach _ ps t ht (List.subset_append_of_subset_right _ hps))

theorem register_succ (h : Performs fuel) (space key name : String) (hs : s.Gentle) :
    Follows due s (Scene.perform (fuel + 1) (.register space key name) s).2 := by
  rw [Scene.perform]
  split
  · exact .refl hs
  · exact h.closes (.enroll s _ _) (hs.of_same rfl rfl rfl) (List.Subset.refl _)

theorem unregister_succ (h : Performs fuel) (space key : String) (hs : s.Gentle) :
    Follows due s (Scene.perform (fuel + 1) (.unregister space key) s).2 := by
  rw [Scene.perform]
  split
  · exact .refl hs
  · rename_i p hp
    have hclose : Follows due s
        (Scene.closeEach fuel [p] (s.strike (namespacedKey space key) p)).2 :=
      h.closes (.strike hp) (hs.of_same rfl rfl rfl) (List.Subset.refl _)
    split <;>
    · rename_i he
      rw [he] at hclose
      exact hclose

theorem lookUpOrBuild_succ (space key bind name : String) (config : Config) (hs : s.Gentle) :
    Follows due s (Scene.perform (fuel + 1) (.lookUpOrBuild space key bind name config) s).2 := by
  rw [Scene.perform]
  dsimp only
  split
  · exact .of_same (hs.of_same rfl rfl rfl) rfl rfl rfl
  · have hbuild : Follows due s (s.build name config).2 := hs.build name config
    exact hbuild.trans (.of_deed (.enroll _ (namespacedKey space key) (s.build name config).1)
      (.of_same (hbuild.gentle.of_same rfl rfl rfl) rfl rfl rfl))

theorem perform_succ (h : Performs fuel) (op : Op) (hop : op.Gentle) (hs : s.Gentle) :
    Follows due s (Scene.perform (fuel + 1) op s).2 := by
  have hpool (name : String) (j : Job) (hj : Instr.close ∉ j.todo) :
      Follows due s (Scene.onPool fuel name {} j s).2 :=
    h.onPool due name {} j s (throughout_empty _) hs hj
  cases op
  case create name config => exact hs.build name config
  case close name => cases hop.self
  case exec name body =>
    exact h.onPool due name body .exec s (hop.scripts List.mem_cons_self) hs (by simp [Job.exec])
  case scriptFactory name next default => exact hs.modifyScripts (hs.scripts.scriptFactory hop)
  case scriptCheck name serial act => exact hs.modifyScripts (hs.scripts.scriptCheck hop)
  case scriptDestructor name act => exact hs.modifyScripts (hs.scripts.scriptDestructor hop)
  case register space key name => exact h.register_succ space key name hs
  case lookUpOrBuild space key bind name config =>
    exact lookUpOrBuild_succ space key bind name config hs
  case unregister space key => exact h.unregister_succ space key hs
  case closeAll => exact h.closes (.strikeAll s) (hs.of_same rfl rfl rfl) (List.Subset.refl _)
  case get name handle =>
    have hget := hpool name .get (by simp [Job.get])
    rw [Scene.perform]
    dsimp only
    split
    · exact hget.trans (.of_same (hget.gentle.of_same rfl rfl rfl) rfl rfl rfl)
    · exact hget
  case put name handle =>
    rw [Scene.perform]
    split
    · exact .refl hs
    · exact .refl hs
    · exact hpool name _ (by simp [Job.put])
  case discard name handle =>
    rw [Scene.perform]
    split
    · exact .refl hs
    · exact .refl hs
    · exact hpool name _ (by simp [Job.discard])
  case execAsync name gate reply =>
    rw [Scene.perform]
    split
    · exact .refl hs
    · exact hs.start _ gate reply
  case abort task => exact hs.abort task
  case openGate gate =>
    have hopen : Follows due s { s with opened := s.opened ++ [gate] } :=
      .of_same (hs.of_same rfl rfl rfl) rfl rfl rfl
    exact hopen.trans (hopen.gentle.wake _)
  all_goals
    rw [Scene.perform.eq_def]
    dsimp only
    try split
    all_goals exact .of_same (hs.of_same rfl rfl rfl) rfl rfl rfl

theorem succ (h : Performs fuel) : Performs (fuel + 1) where
  nest _ act _ hact hs := h.nest_succ act hact hs
  call _ p body callback _ hbody hs := h.call_succ p body callback hbody hs
  drive _ p body j _ hbody hs hj := h.drive_succ p body j hbody hs hj
  onPool _ name body j _ hbody hs hj := h.onPool_succ name body j hbody hs hj
  closeEach _ ps _ hs hps := h.closeEach_succ ps hs hps
  perform _ op _ hop hs := h.perform_succ op hop hs

/-- Whatever the fuel, by the fuel: what is left of it when something is carried out on the way. -/
theorem all : ∀ fuel, Performs fuel
  | 0 => zero
  | fuel + 1 => (all fuel).succ

end Performs

/-! ### All that is done -/

theorem unclosing_gentle (due : List Nat) : Unclosing Gentle (Follows due) where
  fine h := h.gentle
  trans h h' := h.trans h'
  loans h := h.loans
  aside h hscripts _ hregistry hdeeds hpools hloans :=
    .of_same ⟨h.scripts.of_scripts hscripts, hloans⟩ hdeeds hregistry hpools
  replies h hstate hclosed := h.setState hstate (Or.inl hclosed)
  proceeds p j h hj := by
    obtain ⟨hfollows, hback⟩ := (Performs.all depth).drive due p none j _ nofun h
      fun hclose => absurd hclose hj
    exact ⟨hfollows, fun hclose => hj (hback hclose)⟩

theorem steady_gentle (due : List Nat) (target : Instant) :
    Steady target Gentle Op.Gentle (Follows due) :=
  (unclosing_gentle due).steady (fun h hop => (Performs.all depth).perform due _ _ hop h) target

/-- Whatever is done, step after step. -/
theorem Gentle.gently (h : s.Gentle) (hgently : s.Gently t) : Follows due s t := by
  induction hgently with
  | refl => exact .refl h
  | handle t op _ hop ih => exact ih.trans ((steady_gentle due t.now).handle ih.gentle hop)
  | advance t d _ ih => exact ih.trans ((steady_gentle due _).advance ih.gentle)

end Scene

end Stockroom.Pool

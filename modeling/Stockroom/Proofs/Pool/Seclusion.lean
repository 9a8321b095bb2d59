import Stockroom.Pool.Seclusion
import Stockroom.Proofs.Pool.Onward

/-! Whatever others do in spaces apart from one, callbacks and the passing of time included, the pools
registered in that space stay registered and open, and nobody else gets hold of them. -/

namespace Stockroom.Pool
set_option autoImplicit false

namespace Scene

variable {space : String} {kept : String → Prop} {s t u : Scene}

/-- What is registered in the space is what it was, and as open as it was. -/
structure Spares (space : String) (kept : String → Prop) (s t : Scene) : Prop where
  secluded : t.Secluded space kept
  registry : ∀ k, t.registry.get? (namespacedKey space k) = s.registry.get? (namespacedKey space k)
  closed : ∀ k p, s.registry.get? (namespacedKey space k) = some p → t.isClosed p = s.isClosed p

namespace Spares

theorem refl (h : s.Secluded space kept) : Spares space kept s s := ⟨h, fun _ => rfl, fun _ _ _ => rfl⟩

theorem trans (h : Spares space kept s t) (h' : Spares space kept t u) :
    Spares space kept s u where
  secluded := h'.secluded
  registry k := (h'.registry k).trans (h.registry k)
  closed k p hp := (h'.closed k p ((h.registry k).trans hp)).trans (h.closed k p hp)

/-- Only what has to do neither with names nor with pools has changed. -/
theorem of_same (h : s.Secluded space kept) (hscripts : t.scripts = s.scripts)
    (hnames : t.names = s.names) (hregistry : t.registry = s.registry) (hpools : t.pools = s.pools)
    (hloans : ∀ l ∈ t.ready ++ t.waiting, Instr.close ∉ l.job.todo) : Spares space kept s t where
  secluded := by
    constructor
    · intro name
      rw [scriptsOf, hscripts]
      exact h.scripts name
    · rw [hnames, hregistry]
      exact h.names
    · rw [hregistry]
      exact h.registry
    · rw [hregistry, hpools]
      exact h.built
    · exact hloans
  registry k := by rw [hregistry]
  closed k p _ := by rw [isClosed, isClosed, hpools]

end Spares

namespace Secluded

theorem log (h : s.Secluded space kept) (e : Event) : Spares space kept s (s.log e) :=
  .of_same h rfl rfl rfl rfl h.loans

theorem setState (h : s.Secluded space kept) {p : Nat} {state : State}
    (hstate : (∃ k, s.registry.get? (namespacedKey space k) = some p) →
      ∀ old, s.state? p = some old → state.sets.closed = old.sets.closed) :
    Spares space kept s (s.setState p state) where
  secluded := by
    refine ⟨h.scripts, h.names, h.registry, fun k q hq => ?_, h.loans⟩
    have hlt := h.built k q hq
    simpa only [Scene.setState, List.length_set] using hlt
  registry k := rfl
  closed k q hq := by
    simp only [isClosed, Scene.setState, List.getElem?_set]
    split
    · rename_i hpq
      subst hpq
      have hlt := h.built _ _ hq
      have hold := hstate ⟨k, hq⟩ _ (by rw [state?, List.getElem?_eq_getElem hlt]; rfl)
      rw [if_pos hlt, List.getElem?_eq_getElem hlt]
      exact hold
    · rfl

/-- Scripts are replaced by others that do not meddle either. -/
theorem modifyScripts (h : s.Secluded space kept) (name : String) (f : Scripts → Scripts)
    (hf : ∀ x : Scripts, x.Foreign space kept → (f x).Foreign space kept) :
    Spares space kept s (s.modifyScripts name f) where
  secluded := by
    refine ⟨fun other => ?_, h.names, h.registry, h.built, h.loans⟩
    rw [scriptsOf, Scene.modifyScripts, Table.get?_insert]
    split
    · exact hf _ (h.scripts name)
    · exact h.scripts other
  registry k := rfl
  closed _ _ _ := rfl

theorem nextAction (h : s.Secluded space kept) (p : Nat) :
    (s.nextAction p).1.Foreign space kept ∧ Spares space kept s (s.nextAction p).2 := by
  have hscripts := h.scripts (s.nameOf p)
  unfold Scene.nextAction
  dsimp only
  split
  · exact ⟨hscripts.default, .refl h⟩
  · rename_i act rest hqueue
    refine ⟨hscripts.queue act (hqueue ▸ List.mem_cons_self), ?_⟩
    refine h.modifyScripts (s.nameOf p) (fun x => { x with queue := rest }) fun x hx => ?_
    refine ⟨fun act' hact' => ?_, hx.default, hx.checks, hx.destructor⟩
    exact hscripts.queue act' (hqueue ▸ List.mem_cons_of_mem act hact')

theorem checkAction (h : s.Secluded space kept) (p : Nat) (r : ResourceId) :
    (s.checkAction p r).Foreign space kept := by
  unfold Scene.checkAction
  cases hx : s.stock[r]?.bind fun x => (s.scriptsOf (s.nameOf p)).checks.get? x.serial with
  | none => exact nofun
  | some act =>
    obtain ⟨x, -, hact⟩ := Option.bind_eq_some_iff.mp hx
    exact (h.scripts _).checks x.serial act hact

theorem logMade (h : s.Secluded space kept) (p : Nat) (reply : Reply) :
    Spares space kept s (s.logMade p reply) := by
  cases reply with
  | ok => exact h.log _
  | fail text => exact h.log _
  | crash text => exact .refl h

theorem build (h : s.Secluded space kept) (name : String) (config : Config) :
    Spares space kept s (s.build name config).2 where
  secluded := by
    constructor
    · exact h.scripts
    · intro other k p hp hreg
      have hreg : s.registry.get? (namespacedKey space k) = some p := hreg
      have hlt := h.built _ _ hreg
      change (s.names.insert name s.pools.length).get? other = some p at hp
      rw [Table.get?_insert] at hp
      split at hp
      · cases hp
        exact absurd hlt (Nat.lt_irrefl _)
      · exact h.names other k p hp hreg
    · exact h.registry
    · intro k p hp
      have hlt := h.built k p hp
      simp only [Scene.build, List.length_append]
      omega
    · exact h.loans
  registry k := rfl
  closed k p hp := by
    simp only [isClosed, Scene.build]
    rw [List.getElem?_append_left (h.built _ _ hp)]

/-- A name is bound to a pool that is not registered in the space, or it is a name that is kept. -/
theorem bind (h : s.Secluded space kept) (name : String) {p : Nat}
    (hp : ∀ k, s.registry.get? (namespacedKey space k) ≠ some p) :
    Spares space kept s { s with names := s.names.insert name p } where
  secluded := by
    refine ⟨h.scripts, fun other k q hq hreg => ?_, h.registry, h.built, h.loans⟩
    rw [Table.get?_insert] at hq
    split at hq
    · cases hq
      exact absurd hreg (hp k)
    · exact h.names other k q hq hreg
  registry k := rfl
  closed _ _ _ := rfl

/-- A pool is registered in another space, under a key that is not one of `space`. -/
theorem insert (h : s.Secluded space kept) {key : String} {p : Nat}
    (hkey : ∀ k, key ≠ namespacedKey space k)
    (hp : ∀ k, s.registry.get? (namespacedKey space k) ≠ some p) :
    Spares space kept s (s.enroll key p) where
  secluded := by
    have hget (k : String) : (s.registry.insert key p).get? (namespacedKey space k) =
        s.registry.get? (namespacedKey space k) := Table.get?_insert_of_ne _ _ (Ne.symm (hkey k))
    constructor
    · exact h.scripts
    · intro name k q hq hreg
      exact h.names name k q hq ((hget k).symm.trans hreg)
    · intro other k q hq hreg
      have hreg := (hget k).symm.trans hreg
      change (s.registry.insert key p).get? other = some q at hq
      rw [Table.get?_insert] at hq
      split at hq
      · cases hq
        exact absurd hreg (hp k)
      · exact h.registry other k q hq hreg
    · exact fun k q hq => h.built k q ((hget k).symm.trans hq)
    · exact h.loans
  registry k := Table.get?_insert_of_ne _ _ (Ne.symm (hkey k))
  closed _ _ _ := rfl

/-- What is registered under a key of another space is not registered in this one. -/
theorem unregistered (h : s.Secluded space kept) {key : String} {p : Nat}
    (hkey : ∀ k, key ≠ namespacedKey space k) (hp : s.registry.get? key = some p) (k : String) :
    s.registry.get? (namespacedKey space k) ≠ some p := by
  intro hk
  obtain ⟨k', hk'⟩ := h.registry key k p hp hk
  exact hkey k' hk'

theorem forget (h : s.Secluded space kept) (name : String) :
    Spares space kept s { s with names := s.names.erase name } where
  secluded := by
    refine ⟨h.scripts, fun other k q hq hreg => ?_, h.registry, h.built, h.loans⟩
    exact h.names other k q (Table.get?_of_erase hq) hreg
  registry k := rfl
  closed _ _ _ := rfl

theorem erase (h : s.Secluded space kept) {key : String}
    (hkey : ∀ k, key ≠ namespacedKey space k) (p : Nat) :
    Spares space kept s (s.strike key p) where
  secluded := by
    have hsub {other : String} {q : Nat} (hq : (s.registry.erase key).get? other = some q) :
        s.registry.get? other = some q := Table.get?_of_erase hq
    refine ⟨h.scripts, fun name k q hq hreg => h.names name k q hq (hsub hreg), ?_, ?_, h.loans⟩
    · exact fun other k q hq hreg => h.registry other k q (hsub hq) (hsub hreg)
    · exact fun k q hq => h.built k q (hsub hq)
  registry k := Table.get?_erase_of_ne _ (Ne.symm (hkey k))
  closed _ _ _ := rfl

/-- A loan that starts is only to be lent something. -/
theorem start (h : s.Secluded space kept) (p : Nat) (gate : Option String) (reply : Reply) :
    Spares space kept s (s.start p gate reply).2 := by
  refine .of_same h rfl rfl rfl rfl fun l hl => ?_
  simp only [Scene.start, List.append_assoc, List.mem_append, List.mem_singleton] at hl
  rcases hl with hl | rfl | hl
  · exact h.loans l (List.mem_append_left _ hl)
  · simp [Job.exec]
  · exact h.loans l (List.mem_append_right _ hl)

theorem wake (h : s.Secluded space kept) (pass : Loan → Bool) :
    Spares space kept s (s.wake pass) := by
  refine .of_same h rfl rfl rfl rfl fun l hl => h.loans l ?_
  simp only [Scene.wake, List.mem_append, List.mem_filter] at hl ⊢
  tauto

theorem abort (h : s.Secluded space kept) (task : Nat) : Spares space kept s (s.abort task) := by
  unfold Scene.abort
  split
  · have haborted : Spares space kept s { s with aborted := s.aborted ++ [task] } :=
      .of_same h rfl rfl rfl rfl h.loans
    exact haborted.trans (haborted.secluded.wake _)
  · exact .refl h

end Secluded

/-! ### Operations with their callbacks -/

/-- What is carried out with this fuel spares the pools of the space. -/
structure Plays (space : String) (kept : String → Prop) (fuel : Nat) : Prop where
  nest : ∀ act s, act.Foreign space kept → s.Secluded space kept →
    Spares space kept s (nest fuel act s).2
  call : ∀ p body callback s, body.Foreign space kept → s.Secluded space kept →
    Spares space kept s (call fuel p body callback s).2
  drive : ∀ p body j s, (∀ act, body = some act → act.Foreign space kept) →
    s.Secluded space kept →
    (Instr.close ∈ j.todo → ∀ k, s.registry.get? (namespacedKey space k) ≠ some p) →
    Spares space kept s (drive fuel p body j s).2 ∧
      (Instr.close ∈ (drive fuel p body j s).1.todo → Instr.close ∈ j.todo)
  onPool : ∀ name body j s, body.Foreign space kept → s.Secluded space kept →
    (Instr.close ∈ j.todo → ¬ kept name) → Spares space kept s (onPool fuel name body j s).2
  closeEach : ∀ ps s, s.Secluded space kept →
    (∀ p ∈ ps, ∀ k, s.registry.get? (namespacedKey space k) ≠ some p) →
    Spares space kept s (closeEach fuel ps s).2
  perform : ∀ op s, op.Foreign space kept → s.Secluded space kept →
    Spares space kept s (perform fuel op s).2

theorem foreign_empty (space : String) (kept : String → Prop) :
    ({} : Scripted Op).Foreign space kept := nofun

namespace Plays

variable {fuel : Nat}

theorem zero (space : String) (kept : String → Prop) : Plays space kept 0 where
  nest act s _ h := by rw [Scene.nest]; exact .refl h
  call p body callback s _ h := by rw [Scene.call]; exact .refl h
  drive p body j s _ h _ := by
    rw [Scene.drive]
    refine ⟨.refl h, fun hclose => ?_⟩
    rw [Job.crash_todo] at hclose
    exact absurd hclose (Job.close_not_mem_unwind j)
  onPool name body j s _ h _ := by rw [Scene.onPool]; exact .refl h
  closeEach ps s h _ := by rw [Scene.closeEach]; exact .refl h
  perform op s _ h := by rw [Scene.perform]; exact .refl h

theorem nest_succ (h : Plays space kept fuel) (act : Scripted Op) (hact : act.Foreign space kept)
    (hs : s.Secluded space kept) : Spares space kept s (Scene.nest (fuel + 1) act s).2 := by
  rw [Scene.nest]
  split
  · exact .refl hs
  · rename_i op rest hops
    have hop := h.perform op s (hact op (hops ▸ List.mem_cons_self)) hs
    split
    · rename_i he
      rw [he] at hop
      exact hop
    · rename_i answer later _ he
      rw [he] at hop
      have hlog := hop.secluded.log (.nested op answer)
      refine (hop.trans hlog).trans (h.nest _ _ (fun op' hop' => ?_) hlog.secluded)
      exact hact op' (hops ▸ List.mem_cons_of_mem op hop')

theorem call_succ (h : Plays space kept fuel) (p : Nat) (body : Scripted Op) (callback : Callback)
    (hbody : body.Foreign space kept) (hs : s.Secluded space kept) :
    Spares space kept s (Scene.call (fuel + 1) p body callback s).2 := by
  have hmake : Spares space kept s
      ((Scene.nest fuel (s.nextAction p).1 (s.nextAction p).2).2.logMade p
        (Scene.nest fuel (s.nextAction p).1 (s.nextAction p).2).1) := by
    obtain ⟨hact, hnext⟩ := hs.nextAction p
    have hnest := hnext.trans (h.nest _ _ hact hnext.secluded)
    exact hnest.trans (hnest.secluded.logMade p _)
  cases callback with
  | make purpose => exact hmake
  | makeInstead old => exact hmake
  | check r =>
    have hlog := hs.log (.check r)
    exact hlog.trans (h.nest _ _ (hs.checkAction p r) hlog.secluded)
  | destructor r =>
    have hlog := hs.log (.destroy r (s.nameOf p))
    exact hlog.trans (h.nest _ _ (hs.scripts _).destructor hlog.secluded)
  | body r => exact h.nest _ _ hbody hs

/-- The job goes on after what has become of the pool is put back. -/
theorem drive_on (h : Plays space kept fuel) {p : Nat} {body : Option (Scripted Op)} {j : Job}
    {state : State} {next : State × Job} (hbody : ∀ act, body = some act → act.Foreign space kept)
    (ht : Spares space kept s t) (hstate : t.state? p = some state)
    (hj : Instr.close ∈ j.todo → ∀ k, s.registry.get? (namespacedKey space k) ≠ some p)
    (hmem : Instr.close ∈ next.2.todo → Instr.close ∈ j.todo)
    (hclosed : Instr.close ∉ j.todo → next.1.sets.closed = state.sets.closed) :
    Spares space kept s (Scene.drive fuel p body next.2 (t.setState p next.1)).2 ∧
      (Instr.close ∈ (Scene.drive fuel p body next.2 (t.setState p next.1)).1.todo →
        Instr.close ∈ j.todo) := by
  have hset : Spares space kept t (t.setState p next.1) := by
    refine ht.secluded.setState ?_
    rintro ⟨k, hk⟩ old hold
    cases hstate.symm.trans hold
    exact hclosed fun hclose => hj hclose k ((ht.registry k).symm.trans hk)
  have hlater := ht.trans hset
  obtain ⟨hspares, hback⟩ := h.drive p body next.2 _ hbody hset.secluded fun hclose k hk =>
    hj (hmem hclose) k ((hlater.registry k).symm.trans hk)
  exact ⟨hlater.trans hspares, fun hclose => hmem (hback hclose)⟩

theorem drive_succ (h : Plays space kept fuel) (p : Nat) (body : Option (Scripted Op)) (j : Job)
    (hbody : ∀ act, body = some act → act.Foreign space kept) (hs : s.Secluded space kept)
    (hj : Instr.close ∈ j.todo → ∀ k, s.registry.get? (namespacedKey space k) ≠ some p) :
    Spares space kept s (Scene.drive (fuel + 1) p body j s).2 ∧
      (Instr.close ∈ (Scene.drive (fuel + 1) p body j s).1.todo → Instr.close ∈ j.todo) := by
  have hgetD : (body.getD {}).Foreign space kept := by
    cases body with
    | none => exact foreign_empty space kept
    | some act => exact hbody act rfl
  rw [Scene.drive.eq_def]
  dsimp only
  split
  · exact ⟨.refl hs, id⟩
  · split
    · exact ⟨.refl hs, id⟩
    · rename_i body _ _ callback _ _
      have hcall := h.call p (body.getD {}) callback s hgetD hs
      split
      · exact ⟨hcall, id⟩
      · rename_i state hstate
        obtain ⟨hmem, hclosed⟩ := j.close_reply (Scene.call fuel p (body.getD {}) callback s).2.now
          state (Scene.call fuel p (body.getD {}) callback s).1
        exact h.drive_on hbody hcall hstate hj hmem fun _ => hclosed
    · split
      · exact ⟨.refl hs, id⟩
      · rename_i state hstate
        obtain ⟨hmem, hclosed⟩ := j.close_step s.now state
        exact h.drive_on hbody (.refl hs) hstate hj hmem hclosed

theorem onPool_succ (h : Plays space kept fuel) (name : String) (body : Scripted Op) (j : Job)
    (hbody : body.Foreign space kept) (hs : s.Secluded space kept)
    (hj : Instr.close ∈ j.todo → ¬ kept name) :
    Spares space kept s (Scene.onPool (fuel + 1) name body j s).2 := by
  rw [Scene.onPool.eq_def]
  dsimp only
  split
  · exact .refl hs
  · rename_i p hp
    refine (h.drive p (some body) j s (fun act hact => Option.some.inj hact ▸ hbody) hs ?_).1
    exact fun hclose k hk => hj hclose (hs.names name k p hp hk)

theorem closeEach_succ (h : Plays space kept fuel) (ps : List Nat) (hs : s.Secluded space kept)
    (hps : ∀ p ∈ ps, ∀ k, s.registry.get? (namespacedKey space k) ≠ some p) :
    Spares space kept s (Scene.closeEach (fuel + 1) ps s).2 := by
  cases ps with
  | nil =>
    rw [Scene.closeEach]
    exact .refl hs
  | cons p ps =>
    obtain ⟨hdrive, -⟩ := h.drive p (some {}) .close s
      (fun act hact => Option.some.inj hact ▸ foreign_empty space kept) hs
      fun _ => hps p List.mem_cons_self
    rw [Scene.closeEach]
    split
    · exact hdrive
    · refine hdrive.trans (h.closeEach ps _ hdrive.secluded fun q hq k hk => ?_)
      exact hps q (List.mem_cons_of_mem p hq) k ((hdrive.registry k).symm.trans hk)

theorem register_succ (h : Plays space kept fuel) {other key name : String}
    (hapart : Apart other space) (hname : ¬ kept name) (hs : s.Secluded space kept) :
    Spares space kept s (Scene.perform (fuel + 1) (.register other key name) s).2 := by
  rw [Scene.perform]
  split
  · exact .refl hs
  · rename_i p hp
    have hinsert := hs.insert (hapart key) fun k hk => hname (hs.names name k p hp hk)
    refine hinsert.trans (h.closeEach _ _ hinsert.secluded fun q hq k hk => ?_)
    rw [Option.mem_toList] at hq
    exact hs.unregistered (hapart key) hq k ((hinsert.registry k).symm.trans hk)

theorem lookUp_succ {other key : String} (bind : String) (hapart : Apart other space)
    (hs : s.Secluded space kept) :
    Spares space kept s (Scene.perform (fuel + 1) (.lookUp other key bind) s).2 := by
  rw [Scene.perform]
  split
  · exact .refl hs
  · rename_i p hp
    exact hs.bind bind (hs.unregistered (hapart key) hp)

theorem lookUpOrBuild_succ {other key : String} (bind name : String) (config : Config)
    (hapart : Apart other space) (hs : s.Secluded space kept) :
    Spares space kept s
      (Scene.perform (fuel + 1) (.lookUpOrBuild other key bind name config) s).2 := by
  rw [Scene.perform]
  dsimp only
  split
  · rename_i p hp
    exact hs.bind bind (hs.unregistered (hapart key) hp)
  · have hbuild := hs.build name config
    have hnew (k : String) : (s.build name config).2.registry.get? (namespacedKey space k) ≠
        some (s.build name config).1 := fun hk =>
      absurd (hs.built k _ hk) (Nat.lt_irrefl _)
    have hinsert := hbuild.secluded.insert (hapart key) hnew
    have hbind := hinsert.secluded.bind bind fun k hk => hnew k ((hinsert.registry k).symm.trans hk)
    exact (hbuild.trans hinsert).trans hbind

theorem unregister_succ (h : Plays space kept fuel) {other key : String}
    (hapart : Apart other space) (hs : s.Secluded space kept) :
    Spares space kept s (Scene.perform (fuel + 1) (.unregister other key) s).2 := by
  rw [Scene.perform]
  split
  · exact .refl hs
  · rename_i p hp
    have herase := hs.erase (hapart key) p
    have hclose := herase.trans (h.closeEach [p] _ herase.secluded fun q hq k hk => by
      rw [List.mem_singleton.mp hq] at hk
      exact hs.unregistered (hapart key) hp k ((herase.registry k).symm.trans hk))
    split <;>
    · rename_i he
      rw [he] at hclose
      exact hclose

/-- An operation that leaves the registry alone and closes no pool. -/
theorem plain_succ (h : Plays space kept fuel) {op : Op} (hop : op.isPlain = true)
    (hs : s.Secluded space kept) : Spares space kept s (Scene.perform (fuel + 1) op s).2 := by
  have hpool (name : String) (j : Job) (hj : Instr.close ∉ j.todo) :
      Spares space kept s (Scene.onPool fuel name {} j s).2 :=
    h.onPool name {} j s (foreign_empty space kept) hs fun hclose => absurd hclose hj
  cases op <;> try cases hop
  case create name config => exact hs.build name config
  case forget name => exact hs.forget name
  case get name handle =>
    have hget := hpool name .get (by simp [Job.get])
    rw [Scene.perform]
    dsimp only
    split
    · exact hget.trans (.of_same hget.secluded rfl rfl rfl rfl hget.secluded.loans)
    · exact hget
  case put name handle =>
    rw [Scene.perform]
    split
    · exact .refl hs
    · exact .refl hs
    · exact hpool name _ (by simp [Job.put])
  case discard name handle =>
    rw [Scene.perform]
    split
    · exact .refl hs
    · exact .refl hs
    · exact hpool name _ (by simp [Job.discard])
  case execAsync name gate reply =>
    rw [Scene.perform]
    split
    · exact .refl hs
    · exact hs.start _ gate reply
  case abort task => exact hs.abort task
  case openGate gate =>
    have hopen : Spares space kept s { s with opened := s.opened ++ [gate] } :=
      .of_same hs rfl rfl rfl rfl hs.loans
    exact hopen.trans (hopen.secluded.wake _)
  all_goals
    rw [Scene.perform.eq_def]
    dsimp only
    try split
    all_goals exact .refl hs

theorem perform_succ (h : Plays space kept fuel) (op : Op) (hop : op.Foreign space kept)
    (hs : s.Secluded space kept) : Spares space kept s (Scene.perform (fuel + 1) op s).2 := by
  cases hop with
  | plain op hplain => exact h.plain_succ hplain hs
  | exec name body hbody =>
    exact h.onPool name body .exec s hbody hs fun hclose => by simp [Job.exec] at hclose
  | close name hname =>
    exact h.onPool name {} .close s (foreign_empty space kept) hs fun _ => hname
  | scriptFactory name next default hnext hdefault =>
    rw [Scene.perform]
    dsimp only
    apply hs.modifyScripts name
    intro x hx
    refine ⟨fun act hact => ?_, ?_, hx.checks, hx.destructor⟩
    · rcases List.mem_append.mp hact with hact | hact
      · exact hx.queue act hact
      · exact hnext act hact
    · cases default with
      | none => exact hx.default
      | some act => exact hdefault act rfl
  | scriptCheck name serial act hact =>
    rw [Scene.perform]
    dsimp only
    apply hs.modifyScripts name
    intro x hx
    refine ⟨hx.queue, hx.default, fun n act' h' => ?_, hx.destructor⟩
    rw [Table.get?_insert] at h'
    split at h'
    · cases h'
      exact hact
    · exact hx.checks n act' h'
  | scriptDestructor name act hact =>
    rw [Scene.perform]
    dsimp only
    apply hs.modifyScripts name
    exact fun x hx => ⟨hx.queue, hx.default, hx.checks, hact⟩
  | register other key name hapart hname => exact h.register_succ hapart hname hs
  | lookUp other key bind hapart => exact lookUp_succ bind hapart hs
  | lookUpOrBuild other key bind name config hapart =>
    exact lookUpOrBuild_succ bind name config hapart hs
  | unregister other key hapart => exact h.unregister_succ hapart hs

theorem succ (h : Plays space kept fuel) : Plays space kept (fuel + 1) where
  nest act _ hact hs := h.nest_succ act hact hs
  call p body callback _ hbody hs := h.call_succ p body callback hbody hs
  drive p body j _ hbody hs hj := h.drive_succ p body j hbody hs hj
  onPool name body j _ hbody hs hj := h.onPool_succ name body j hbody hs hj
  closeEach ps _ hs hps := h.closeEach_succ ps hs hps
  perform op _ hop hs := h.perform_succ op hop hs

/-- Whatever the fuel, by the fuel: what is left of it when something is carried out on the way. -/
theorem all (space : String) (kept : String → Prop) : ∀ fuel, Plays space kept fuel
  | 0 => zero space kept
  | fuel + 1 => (all space kept fuel).succ

end Plays

/-! ### All that the others do -/

theorem unclosing_secluded (space : String) (kept : String → Prop) :
    Unclosing (fun s => s.Secluded space kept) (Spares space kept) where
  fine h := h.secluded
  trans h h' := h.trans h'
  loans h := h.loans
  aside h hscripts hnames hregistry _ hpools hloans :=
    .of_same h hscripts hnames hregistry hpools hloans
  replies h hstate hclosed := h.setState fun _ old hold => by
    cases hstate.symm.trans hold
    exact hclosed
  proceeds p j h hj := by
    obtain ⟨hspares, hback⟩ := (Plays.all space kept depth).drive p none j _ nofun h
      fun hclose => absurd hclose hj
    exact ⟨hspares, fun hclose => hj (hback hclose)⟩

theorem steady_secluded (space : String) (kept : String → Prop) (target : Instant) :
    Steady target (fun s => s.Secluded space kept) (fun op => op.Foreign space kept)
      (Spares space kept) :=
  (unclosing_secluded space kept).steady (fun h hop => (Plays.all space kept depth).perform _ _ hop h)
    target

/-- Whatever the others do, step after step. -/
theorem Secluded.course (h : s.Secluded space kept) (hcourse : Course space kept s t) :
    Spares space kept s t := by
  induction hcourse with
  | refl => exact .refl h
  | handle t op _ hop ih =>
    exact ih.trans ((steady_secluded space kept t.now).handle ih.secluded hop)
  | advance t d _ ih => exact ih.trans ((steady_secluded space kept _).advance ih.secluded)

end Scene

end Stockroom.Pool

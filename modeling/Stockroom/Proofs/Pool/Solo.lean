import Stockroom.Pool.Solo
import Stockroom.Proofs.Pool.Moves
import Stockroom.Proofs.Pool.Scripting

/-! Scenes of one pool show its traffic, and what is done to such a scene at once is a step of the
traffic, or none. -/

namespace Stockroom.Pool
set_option autoImplicit false

/-! ### Moves -/

/-- What splits off one element of a list leaves the others. -/
theorem exists_split {α : Type} {a : α} {rest l : List α} (h : (a :: rest).Subperm l) :
    ∃ before after, l = before ++ a :: after ∧ rest.Subperm (before ++ after) := by
  obtain ⟨before, after, rfl⟩ := List.append_of_mem (h.subset List.mem_cons_self)
  refine ⟨before, after, rfl, ?_⟩
  exact (List.subperm_cons a).mp ((List.perm_middle.subperm_left).mp h)

namespace Job

variable {mayCrash : Callback → Prop} {now : Instant} {s : State} {j : Job} {next : State × Job}

theorem pending_subperm (j : Job) : j.pending.Subperm [j] := by
  rw [pending]
  split
  · exact .refl _
  · exact List.nil_subperm

theorem pending_of_waitsFor {callback : Callback} (h : j.waitsFor = some callback) :
    j.pending = [j] := by
  rw [pending, h]
  rfl

/-- A job of which only ends of loans are left waits for nothing. -/
theorem pending_of_ends (h : ∀ i ∈ j.todo, ∃ r, i = .giveBack r) : j.pending = [] := by
  cases hwaits : j.waitsFor with
  | none =>
    rw [pending, hwaits]
    rfl
  | some callback =>
    obtain ⟨rest, htodo⟩ := todo_of_waitsFor hwaits
    obtain ⟨r, hr⟩ := h _ (htodo ▸ List.mem_cons_self)
    cases hr

theorem ends_crash (j : Job) (text : String) : ∀ i ∈ (j.crash text).todo, ∃ r, i = .giveBack r := by
  intro i hi
  rw [crash_todo] at hi
  exact (mem_unwind hi).2

theorem pending_crash (j : Job) (text : String) : (j.crash text).pending = [] :=
  pending_of_ends (j.ends_crash text)

end Job

theorem Job.gives_outcome (j : Job) : j.outcome.gives = j.result.gives := by
  rw [outcome]
  cases j.result <;> rfl

namespace Traffic

variable {mayCrash : Callback → Prop} {t : Traffic} {before after : List Job} {j : Job}
  {next : State × Job}

theorem next_of_moves (hjobs : t.jobs = before ++ j :: after)
    (h : j.Moves mayCrash t.now t.state next) : Next mayCrash t (t.proceed before after next) := by
  cases h with
  | step => exact .step before after j hjobs
  | reply callback r hwaits hcrash => exact .reply before after j callback r hjobs hwaits hcrash
  | drop r hwaits => exact .drop before after j r hjobs hwaits

theorem undisturbed_of_moves (hjobs : t.jobs = before ++ j :: after)
    (h : j.Moves mayCrash t.now t.state next) : t.Undisturbed (t.proceed before after next) := by
  intro hsame r _
  have hsame : before ++ j :: after = before ++ next.2 :: after := hjobs.symm.trans hsame
  have hj : next.2 = j := (List.cons.inj (List.append_cancel_left hsame)).1.symm
  rw [proceed, h.state_eq hj]

end Traffic

/-! ### Scenes and traffic -/

namespace Scene

variable {mayCrash : Callback → Prop} {jobs jobs' jobs'' : List Job} {s s' s'' : Scene} {t : Traffic}
  {given given' : List ResourceId} {j : Job}

/-- Everything in the scene is about one pool, and no destructor that is set up may crash, unless
they may. -/
structure Sole (mayCrash : Callback → Prop) (s : Scene) : Prop where
  scripts : s.Throughout (Op.Solo mayCrash)
  destructors : ∀ name, (s.scriptsOf name).destructor.Tame ∨ ∀ r, mayCrash (.destructor r)
  names : ∀ name p, s.names.get? name = some p → p = 0
  registry : ∀ key p, s.registry.get? key = some p → p = 0
  loans : ∀ l ∈ s.ready ++ s.waiting,
    l.pool = 0 ∧ (l.job = .exec ∨ ∃ r, l.job.waitsFor = some (.body r))
  tickers : ∀ t ∈ s.tickers, t.pool = 0

namespace Sole

theorem of_same (h : s.Sole mayCrash) (hscripts : s'.scripts = s.scripts)
    (hnames : s'.names = s.names) (hregistry : s'.registry = s.registry)
    (htickers : s'.tickers = s.tickers)
    (hloans : ∀ l ∈ s'.ready ++ s'.waiting, l ∈ s.ready ++ s.waiting) : s'.Sole mayCrash where
  scripts := h.scripts.of_scripts hscripts
  destructors name := by
    rw [scriptsOf, hscripts]
    exact h.destructors name
  names := by rw [hnames]; exact h.names
  registry := by rw [hregistry]; exact h.registry
  loans l hl := h.loans l (hloans l hl)
  tickers := by rw [htickers]; exact h.tickers

theorem of_loans (h : s.Sole mayCrash) (hscripts : s'.scripts = s.scripts)
    (hnames : s'.names = s.names) (hregistry : s'.registry = s.registry)
    (htickers : s'.tickers = s.tickers) (hready : s'.ready = s.ready)
    (hwaiting : s'.waiting = s.waiting) : s'.Sole mayCrash :=
  h.of_same hscripts hnames hregistry htickers fun l hl => by rwa [hready, hwaiting] at hl

theorem modifyScripts (h : s.Sole mayCrash) {name : String} {f : Scripts → Scripts}
    (hscripts : (s.modifyScripts name f).Throughout (Op.Solo mayCrash))
    (hf : ∀ x : Scripts, x.destructor.Tame ∨ (∀ r, mayCrash (.destructor r)) →
      (f x).destructor.Tame ∨ ∀ r, mayCrash (.destructor r)) :
    (s.modifyScripts name f).Sole mayCrash := by
  refine { h with scripts := hscripts, destructors := fun other => ?_ }
  rw [scriptsOf, Scene.modifyScripts, Table.get?_insert]
  split
  · exact hf _ (h.destructors name)
  · exact h.destructors other

theorem nextAction (h : s.Sole mayCrash) : (s.nextAction 0).2.Sole mayCrash := by
  have hscripts := (h.scripts.nextAction 0).2
  unfold Scene.nextAction at hscripts ⊢
  dsimp only at hscripts ⊢
  split at hscripts
  · exact h
  · exact h.modifyScripts hscripts fun _ => id

theorem bind (h : s.Sole mayCrash) {p : Nat} (hp : p = 0) (name : String) :
    ({ s with names := s.names.insert name p } : Scene).Sole mayCrash :=
  { h with
    scripts := h.scripts.of_scripts rfl
    names := fun other q hq =>
      (Table.get?_of_insert hq).elim (fun hq => hq.2.trans hp) (h.names other q) }

theorem forget (h : s.Sole mayCrash) (name : String) :
    ({ s with names := s.names.erase name } : Scene).Sole mayCrash :=
  { h with
    scripts := h.scripts.of_scripts rfl
    names := fun other q hq => h.names other q (Table.get?_of_erase hq) }

theorem enroll (h : s.Sole mayCrash) (key : String) {p : Nat} (hp : p = 0) :
    (s.enroll key p).Sole mayCrash :=
  { h with
    scripts := h.scripts.of_scripts rfl
    registry := fun other q hq =>
      (Table.get?_of_insert hq).elim (fun hq => hq.2.trans hp) (h.registry other q) }

theorem strike (h : s.Sole mayCrash) (key : String) (p : Nat) : (s.strike key p).Sole mayCrash :=
  { h with
    scripts := h.scripts.of_scripts rfl
    registry := fun other q hq => h.registry other q (Table.get?_of_erase hq) }

theorem strikeAll (h : s.Sole mayCrash) : s.strikeAll.Sole mayCrash :=
  { h with scripts := h.scripts.of_scripts rfl, registry := nofun }

end Sole

theorem state?_setState {old : State} (h : s.state? 0 = some old) (new : State) :
    (s.setState 0 new).state? 0 = some new := by
  obtain ⟨x, hx, -⟩ := Option.map_eq_some_iff.mp h
  obtain ⟨hlt, -⟩ := List.getElem?_eq_some_iff.mp hx
  rw [state?, setState, List.getElem?_set_self hlt]
  rfl

namespace Shows

theorem of_same (h : s.Shows jobs t) (hstate : s'.state? 0 = s.state? 0) (hnow : s'.now = s.now)
    (hhandles : s'.handles = s.handles)
    (hjobs : (jobs' ++ s'.lent).Subperm (jobs ++ s.lent)) : s'.Shows jobs' t where
  state := hstate.trans h.state
  now := h.now.trans hnow.symm
  handles := by rw [hhandles]; exact h.handles
  gives j hj := h.gives j (hjobs.subset hj)
  jobs := hjobs.trans h.jobs

/-- One of the jobs makes a move. -/
theorem moves (h : s.Shows (j :: jobs) t) {next : State × Job}
    (hmoves : j.Moves mayCrash t.now t.state next) :
    ∃ path u, Traffic.Run mayCrash t path u ∧ (s.setState 0 next.1).Shows (next.2 :: jobs) u := by
  obtain ⟨before, after, hjobs, hrest⟩ := exists_split h.jobs
  refine ⟨_, _, .next .refl (Traffic.next_of_moves hjobs hmoves)
    (Traffic.undisturbed_of_moves hjobs hmoves), ?_⟩
  have hgives : t.handles ⊆ (t.proceed before after next).handles := List.subset_append_right _ _
  constructor
  · exact state?_setState h.state next.1
  · exact h.now
  · exact fun handle r hr => hgives (h.handles handle r hr)
  · intro k hk
    rcases List.mem_cons.mp hk with rfl | hk
    · exact fun r hr => List.mem_append_left _ (List.mem_append_left _ hr)
    · exact List.Subset.trans (h.gives k (List.mem_cons_of_mem j hk)) hgives
  · exact ((List.subperm_cons next.2).mpr hrest).trans List.perm_middle.symm.subperm

/-- An operation starts that is passed handles which have names. -/
theorem start (h : s.Shows jobs t) {op : Operation}
    (hop : ∀ r ∈ op.handles, ∃ handle, s.handles.get? handle = some r) :
    ∃ path u, Traffic.Run mayCrash t path u ∧ s.Shows (op.job :: jobs) u := by
  refine ⟨_, { t with jobs := t.jobs ++ [op.job] }, .next .refl (.start op fun r hr => ?_)
    fun _ _ _ => rfl, ?_⟩
  · obtain ⟨handle, hhandle⟩ := hop r hr
    exact h.handles handle r hhandle
  · refine ⟨h.state, h.now, h.handles, fun k hk => ?_, ?_⟩
    · rcases List.mem_cons.mp hk with rfl | hk
      · cases op <;> exact List.nil_subset _
      · exact h.gives k hk
    · exact ((List.subperm_cons op.job).mpr h.jobs).trans (List.perm_append_singleton _ _).symm.subperm

end Shows

/-- Steps of the traffic lead from what the one scene shows to what the other shows, and these
resources have been given to users then. -/
structure Goes (mayCrash : Callback → Prop) (jobs : List Job) (s : Scene) (jobs' : List Job)
    (s' : Scene) (given : List ResourceId) : Prop where
  sole : s'.Sole mayCrash
  now : s'.now = s.now
  run : ∀ t, s.Shows jobs t →
    ∃ path u, Traffic.Run mayCrash t path u ∧ s'.Shows jobs' u ∧ given ⊆ u.handles

namespace Goes

theorem of_same (hs : s'.Sole mayCrash) (hstate : s'.state? 0 = s.state? 0) (hnow : s'.now = s.now)
    (hhandles : s'.handles = s.handles)
    (hjobs : (jobs' ++ s'.lent).Subperm (jobs ++ s.lent)) : Goes mayCrash jobs s jobs' s' [] where
  sole := hs
  now := hnow
  run t ht := ⟨[], t, .refl, ht.of_same hstate hnow hhandles hjobs, List.nil_subset _⟩

/-- Only what the traffic does not show has changed. -/
theorem of_aside (hs : s'.Sole mayCrash) (hstate : s'.state? 0 = s.state? 0) (hnow : s'.now = s.now)
    (hhandles : s'.handles = s.handles) (hready : s'.ready = s.ready)
    (hwaiting : s'.waiting = s.waiting) : Goes mayCrash jobs s jobs s' [] := by
  refine of_same hs hstate hnow hhandles ?_
  rw [lent, hready, hwaiting]
  exact .refl _

theorem refl (hs : s.Sole mayCrash) : Goes mayCrash jobs s jobs s [] :=
  of_aside hs rfl rfl rfl rfl rfl

theorem trans (h : Goes mayCrash jobs s jobs' s' given)
    (h' : Goes mayCrash jobs' s' jobs'' s'' given') : Goes mayCrash jobs s jobs'' s'' given' where
  sole := h'.sole
  now := h'.now.trans h.now
  run t ht := by
    obtain ⟨path, u, hrun, hu, -⟩ := h.run t ht
    obtain ⟨path', v, hrun', hv, hgiven⟩ := h'.run u hu
    exact ⟨path ++ path', v, hrun.trans hrun', hv, hgiven⟩

/-- A job is not looked at any more, unless it waits. -/
theorem halt (hs : s.Sole mayCrash) :
    Goes mayCrash (j :: jobs) s (j.pending ++ jobs) s j.result.gives where
  sole := hs
  now := rfl
  run t ht := by
    refine ⟨[], t, .refl, ht.of_same rfl rfl rfl ?_, ht.gives j List.mem_cons_self⟩
    exact (j.pending_subperm.append (.refl jobs)).append (.refl s.lent)

theorem move (hs : s.Sole mayCrash) {state : State} (hstate : s.state? 0 = some state)
    {next : State × Job} (hmoves : j.Moves mayCrash s.now state next) :
    Goes mayCrash (j :: jobs) s (next.2 :: jobs) (s.setState 0 next.1) [] where
  sole := hs.of_loans rfl rfl rfl rfl rfl rfl
  now := rfl
  run t ht := by
    obtain rfl : t.state = state := Option.some.inj (ht.state.symm.trans hstate)
    rw [← ht.now] at hmoves
    obtain ⟨path, u, hrun, hu⟩ := ht.moves hmoves
    exact ⟨path, u, hrun, hu, List.nil_subset _⟩

/-- A loan is dropped while its body waits. -/
theorem unwind (hs : s.Sole mayCrash) {r : ResourceId} (hwaits : j.waitsFor = some (.body r)) :
    Goes mayCrash (j :: jobs) s (j.unwind :: jobs) s [] where
  sole := hs
  now := rfl
  run t ht := by
    obtain ⟨path, u, hrun, hu⟩ := ht.moves (.drop r hwaits)
    have hstate := ht.state.trans (state?_setState ht.state t.state).symm
    exact ⟨path, u, hrun, hu.of_same hstate rfl rfl (.refl _), List.nil_subset _⟩

theorem start (hs : s.Sole mayCrash) {op : Operation}
    (hop : ∀ r ∈ op.handles, ∃ handle, s.handles.get? handle = some r) :
    Goes mayCrash jobs s (op.job :: jobs) s [] where
  sole := hs
  now := rfl
  run t ht := by
    obtain ⟨path, u, hrun, hu⟩ := ht.start hop
    exact ⟨path, u, hrun, hu, List.nil_subset _⟩

/-- The first jobs are not looked at any more. -/
theorem drop (gone : List Job) (h : Goes mayCrash jobs s (gone ++ jobs') s' given) :
    Goes mayCrash jobs s jobs' s' given where
  sole := h.sole
  now := h.now
  run t ht := by
    obtain ⟨path, u, hrun, hu, hgiven⟩ := h.run t ht
    refine ⟨path, u, hrun, hu.of_same rfl rfl rfl ?_, hgiven⟩
    exact (List.sublist_append_right gone jobs').subperm.append (.refl s'.lent)

/-- A job is given up. -/
theorem abandon (hs : s.Sole mayCrash) (j : Job) : Goes mayCrash (j :: jobs) s jobs s [] :=
  drop [j] (refl hs)

/-- A resource that has been given away gets a name. -/
theorem hold {r : ResourceId} (h : Goes mayCrash jobs s jobs' s' [r]) (handle : String) :
    Goes mayCrash jobs s jobs' { s' with handles := s'.handles.insert handle r } [r] where
  sole := h.sole.of_loans rfl rfl rfl rfl rfl rfl
  now := h.now
  run t ht := by
    obtain ⟨path, u, hrun, hu, hgiven⟩ := h.run t ht
    refine ⟨path, u, hrun, ⟨hu.state, hu.now, fun other x hx => ?_, hu.gives, hu.jobs⟩, hgiven⟩
    rcases Table.get?_of_insert hx with ⟨-, rfl⟩ | hx
    · exact hgiven List.mem_cons_self
    · exact hu.handles other x hx

theorem forget (h : Goes mayCrash jobs s jobs' s' given) : Goes mayCrash jobs s jobs' s' [] :=
  h.trans (refl h.sole)

theorem log (hs : s.Sole mayCrash) (e : Event) : Goes mayCrash jobs s jobs (s.log e) [] :=
  of_aside (hs.of_loans rfl rfl rfl rfl rfl rfl) rfl rfl rfl rfl rfl

theorem logMade (hs : s.Sole mayCrash) (reply : Reply) :
    Goes mayCrash jobs s jobs (s.logMade 0 reply) [] := by
  cases reply with
  | ok => exact log hs _
  | fail text => exact log hs _
  | crash text => exact refl hs

theorem nextAction (hs : s.Sole mayCrash) : Goes mayCrash jobs s jobs (s.nextAction 0).2 [] := by
  have hsole := hs.nextAction
  unfold Scene.nextAction at hsole ⊢
  dsimp only at hsole ⊢
  split at hsole
  · exact refl hs
  · exact of_aside hsole rfl rfl rfl rfl rfl

/-- What becomes of the state of the pool is the same. -/
theorem setState (hs : s.Sole mayCrash) {state : State} (hstate : s.state? 0 = some state) :
    Goes mayCrash jobs s jobs (s.setState 0 state) [] :=
  of_aside (hs.of_loans rfl rfl rfl rfl rfl rfl) ((state?_setState hstate state).trans hstate.symm)
    rfl rfl rfl rfl

/-- A loan starts, and has nothing to show yet. -/
theorem startLoan (hs : s.Sole mayCrash) (gate : Option String) (reply : Reply) :
    Goes mayCrash jobs s jobs (s.start 0 gate reply).2 [] := by
  refine of_same ?_ rfl rfl rfl ?_
  · refine { hs with scripts := hs.scripts.of_scripts rfl, loans := fun l hl => ?_ }
    simp only [Scene.start, List.append_assoc, List.mem_append, List.mem_singleton] at hl
    rcases hl with hl | rfl | hl
    · exact hs.loans l (List.mem_append_left _ hl)
    · exact ⟨rfl, Or.inl rfl⟩
    · exact hs.loans l (List.mem_append_right _ hl)
  · have hlent : (s.start 0 gate reply).2.lent = s.lent := by
      simp [lent, Scene.start, Job.pending, Job.exec, Job.waitsFor]
    rw [hlent]

theorem of_loans (hs : s.Sole mayCrash) {ready waiting : List Loan}
    (hloans : (ready ++ waiting).Perm (s.ready ++ s.waiting)) :
    Goes mayCrash jobs s jobs { s with ready, waiting } [] :=
  of_same (hs.of_same rfl rfl rfl rfl fun _ hl => hloans.mem_iff.mp hl) rfl rfl rfl
    ((List.Perm.append_left jobs (hloans.flatMap_right _)).subperm)

theorem wake (hs : s.Sole mayCrash) (pass : Loan → Bool) :
    Goes mayCrash jobs s jobs (s.wake pass) [] := by
  refine of_loans hs ?_
  rw [List.append_assoc]
  exact (List.filter_append_perm pass s.waiting).append_left s.ready

theorem abort (hs : s.Sole mayCrash) (task : Nat) : Goes mayCrash jobs s jobs (s.abort task) [] := by
  unfold Scene.abort
  split
  · have haborted : Goes mayCrash jobs s jobs { s with aborted := s.aborted ++ [task] } [] :=
      of_aside (hs.of_loans rfl rfl rfl rfl rfl rfl) rfl rfl rfl rfl rfl
    exact haborted.trans (wake haborted.sole _)
  · exact refl hs

/-- The fuel is about to run out, and only ends of loans are left of a job. -/
theorem ends (hs : s.Sole mayCrash) {fuel : Nat} (hfuel : fuel ≤ 1) (body : Option (Scripted Op))
    (hj : ∀ i ∈ j.todo, ∃ r, i = .giveBack r) (hgives : j.result.gives = []) :
    Goes mayCrash jobs s ((drive fuel 0 body j s).1.pending ++ jobs) (drive fuel 0 body j s).2
      (drive fuel 0 body j s).1.result.gives := by
  have hstop : Goes mayCrash jobs s (j.pending ++ jobs) s j.result.gives := by
    rw [Job.pending_of_ends hj, hgives]
    exact refl hs
  have hcrash (k : Job) (text : String) :
      Goes mayCrash jobs s ((k.crash text).pending ++ jobs) s (k.crash text).result.gives := by
    rw [Job.pending_crash, Job.crash_gives]
    exact refl hs
  rcases Nat.le_one_iff_eq_zero_or_eq_one.mp hfuel with rfl | rfl
  · rw [drive]
    exact hcrash j _
  · rw [drive.eq_def]
    dsimp only
    split
    · exact hstop
    · rename_i i rest htodo
      obtain ⟨r, rfl⟩ := hj i (htodo ▸ List.mem_cons_self)
      have hwaits : j.waitsFor = none := by rw [Job.waitsFor, htodo]
      rw [hwaits]
      dsimp only
      split
      · exact hstop
      · rename_i state hstate
        have hstep : (j.step s.now state).1 = state := by
          rw [Job.step, htodo]
          rfl
        rw [drive, hstep, Job.pending_crash, Job.crash_gives]
        exact setState hs hstate

end Goes

end Scene

end Stockroom.Pool

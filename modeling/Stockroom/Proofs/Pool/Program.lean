import Stockroom.Proofs.Pool.Onward
import Stockroom.Proofs.Pool.Solo

/-! What the program does with a pool, in the order in which it does it, is a run of the traffic of
that pool: the jobs that it drives, the callbacks that it carries out on the way, the turns of loans,
and background maintenance. -/

namespace Stockroom.Pool.Scene
set_option autoImplicit false

variable {mayCrash : Callback → Prop} {jobs : List Job} {s s' s'' : Scene} {j : Job}

/-! ### Operations are runs -/

/-- A destructor that does nothing does not crash, but for want of fuel. -/
theorem call_destructor (hs : s.Sole mayCrash) {fuel : Nat} {body : Scripted Op} {r : ResourceId}
    {text : String} (hcrash : (call fuel 0 body (.destructor r) s).1 = .crash text) :
    mayCrash (.destructor r) ∨ fuel ≤ 1 := by
  rcases fuel with - | - | fuel
  · exact Or.inr (Nat.zero_le 1)
  · exact Or.inr (Nat.le_refl 1)
  · rcases hs.destructors (s.nameOf 0) with ⟨hops, hreply⟩ | hmay
    · rw [call, nest, destructorAction, hops] at hcrash
      exact absurd hcrash (hreply text)
    · exact Or.inl (hmay r)

/-- What is carried out with this fuel is a run of the traffic. -/
structure Enacts (mayCrash : Callback → Prop) (fuel : Nat) : Prop where
  nest : ∀ jobs act s, act.Throughout (Op.Solo mayCrash) → s.Sole mayCrash →
    Goes mayCrash jobs s jobs (nest fuel act s).2 []
  call : ∀ jobs body callback s, body.Throughout (Op.Solo mayCrash) → s.Sole mayCrash →
    Goes mayCrash jobs s jobs (call fuel 0 body callback s).2 []
  drive : ∀ jobs body j s, (∀ act, body = some act → act.Throughout (Op.Solo mayCrash)) →
    s.Sole mayCrash →
    Goes mayCrash (j :: jobs) s ((drive fuel 0 body j s).1.pending ++ jobs) (drive fuel 0 body j s).2
      (drive fuel 0 body j s).1.result.gives
  onPool : ∀ jobs name body (op : Operation) s, body.Throughout (Op.Solo mayCrash) →
    s.Sole mayCrash → (∀ r ∈ op.handles, ∃ handle, s.handles.get? handle = some r) →
    Goes mayCrash jobs s jobs (onPool fuel name body op.job s).2
      (onPool fuel name body op.job s).1.gives
  closeEach : ∀ jobs ps s, (∀ p ∈ ps, p = 0) → s.Sole mayCrash →
    Goes mayCrash jobs s jobs (closeEach fuel ps s).2 []
  perform : ∀ jobs op s, op.Throughout (Op.Solo mayCrash) → s.Sole mayCrash →
    Goes mayCrash jobs s jobs (perform fuel op s).2 []

namespace Enacts

variable {fuel : Nat}

theorem zero : Enacts mayCrash 0 where
  nest jobs act s _ hs := by rw [Scene.nest]; exact .refl hs
  call jobs body callback s _ hs := by rw [Scene.call]; exact .refl hs
  drive jobs body j s _ hs := by
    rw [Scene.drive, Job.pending_crash, Job.crash_gives]
    exact .abandon hs j
  onPool jobs name body op s _ hs _ := by rw [Scene.onPool]; exact .refl hs
  closeEach jobs ps s _ hs := by rw [Scene.closeEach]; exact .refl hs
  perform jobs op s _ hs := by rw [Scene.perform]; exact .refl hs

theorem nest_succ (h : Enacts mayCrash fuel) (act : Scripted Op)
    (hact : act.Throughout (Op.Solo mayCrash)) (hs : s.Sole mayCrash) :
    Goes mayCrash jobs s jobs (Scene.nest (fuel + 1) act s).2 [] := by
  rw [Scene.nest]
  split
  · exact .refl hs
  · rename_i op rest hops
    have hop := h.perform jobs op s (hact op (hops ▸ List.mem_cons_self)) hs
    split
    · rename_i he
      rw [he] at hop
      exact hop
    · rename_i answer later _ he
      rw [he] at hop
      have hlog : Goes mayCrash jobs later jobs (later.log (.nested op answer)) [] := .log hop.sole _
      refine (hop.trans hlog).trans (h.nest jobs _ _ (fun op' hop' => ?_) hlog.sole)
      exact hact op' (hops ▸ List.mem_cons_of_mem op hop')

theorem call_succ (h : Enacts mayCrash fuel) (body : Scripted Op) (callback : Callback)
    (hbody : body.Throughout (Op.Solo mayCrash)) (hs : s.Sole mayCrash) :
    Goes mayCrash jobs s jobs (Scene.call (fuel + 1) 0 body callback s).2 [] := by
  have hmake : Goes mayCrash jobs s jobs
      ((Scene.nest fuel (s.nextAction 0).1 (s.nextAction 0).2).2.logMade 0
        (Scene.nest fuel (s.nextAction 0).1 (s.nextAction 0).2).1) [] := by
    have hnest := h.nest jobs _ _ (hs.scripts.nextAction 0).1 hs.nextAction
    exact ((Goes.nextAction hs).trans hnest).trans (.logMade hnest.sole _)
  cases callback with
  | make purpose => exact hmake
  | makeInstead old => exact hmake
  | check r =>
    have hlog : Goes mayCrash jobs s jobs (s.log (.check r)) [] := .log hs _
    exact hlog.trans (h.nest jobs _ _ (hs.scripts.checkAction 0 r) hlog.sole)
  | destructor r =>
    have hlog : Goes mayCrash jobs s jobs (s.log (.destroy r (s.nameOf 0))) [] := .log hs _
    exact hlog.trans (h.nest jobs _ _ (hs.scripts.destructorAction 0) hlog.sole)
  | body r => exact h.nest jobs _ _ hbody hs

section Callbacks

variable (hmay : ∀ callback, (∀ r, callback ≠ .destructor r) → mayCrash callback)

include hmay

/-- The callback that a job waits for has replied, and the job goes on. -/
theorem drive_reply (h : Enacts mayCrash fuel) {body : Option (Scripted Op)} {act : Scripted Op}
    {callback : Callback} {state : State} {reply : Reply}
    (hbody : ∀ act, body = some act → act.Throughout (Op.Solo mayCrash)) (hs : s.Sole mayCrash)
    (hstate : s.state? 0 = some state) (hwaits : j.waitsFor = some callback)
    (hreply : (Scene.call fuel 0 act callback s').1 = reply) (hs' : s'.Sole mayCrash) :
    let next := j.reply s.now state reply
    let r := Scene.drive fuel 0 body next.2 (s.setState 0 next.1)
    Goes mayCrash (j :: jobs) s (r.1.pending ++ jobs) r.2 r.1.result.gives := by
  by_cases hcrash : ∀ text, reply = .crash text → mayCrash callback
  · have hmove : Goes mayCrash (j :: jobs) s ((j.reply s.now state reply).2 :: jobs)
        (s.setState 0 (j.reply s.now state reply).1) [] :=
      .move hs hstate (.reply callback reply hwaits hcrash)
    exact hmove.trans (h.drive jobs body _ _ hbody hmove.sole)
  · obtain ⟨text, rfl, hnot⟩ : ∃ text, reply = .crash text ∧ ¬ mayCrash callback := by
      simpa using hcrash
    obtain ⟨x, rfl⟩ : ∃ x, callback = .destructor x := by
      by_contra hne
      exact hnot (hmay callback fun x hx => hne ⟨x, hx⟩)
    have hfuel : fuel ≤ 1 := (call_destructor hs' hreply).resolve_left hnot
    obtain ⟨rest, htodo⟩ := Job.todo_of_waitsFor hwaits
    have hnext : j.reply s.now state (.crash text) =
        (state, ({ j with todo := rest } : Job).crash text) := by rw [Job.reply, htodo]
    rw [hnext]
    have hgone : Goes mayCrash (j :: jobs) s jobs s [] := .abandon hs j
    have hsame : Goes mayCrash jobs s jobs (s.setState 0 state) [] := .setState hs hstate
    exact (hgone.trans hsame).trans
      (.ends hsame.sole hfuel body (Job.ends_crash _ text) (Job.crash_gives _ text))

theorem drive_succ (h : Enacts mayCrash fuel) (body : Option (Scripted Op)) (j : Job)
    (hbody : ∀ act, body = some act → act.Throughout (Op.Solo mayCrash)) (hs : s.Sole mayCrash) :
    Goes mayCrash (j :: jobs) s ((Scene.drive (fuel + 1) 0 body j s).1.pending ++ jobs)
      (Scene.drive (fuel + 1) 0 body j s).2 (Scene.drive (fuel + 1) 0 body j s).1.result.gives := by
  have hgetD : (body.getD {}).Throughout (Op.Solo mayCrash) := by
    cases body with
    | none => exact throughout_empty _
    | some act => exact hbody act rfl
  rw [Scene.drive.eq_def]
  dsimp only
  split
  · exact .halt hs
  · split
    · exact .halt hs
    · rename_i body _ _ callback hwaits _
      have hcall := h.call (j :: jobs) (body.getD {}) callback s hgetD hs
      split
      · exact hcall.trans (.halt hcall.sole)
      · rename_i state hstate
        exact hcall.trans (h.drive_reply hmay hbody hcall.sole hstate hwaits rfl hs)
    · split
      · exact .halt hs
      · rename_i state hstate
        have hmove : Goes mayCrash (j :: jobs) s ((j.step s.now state).2 :: jobs)
            (s.setState 0 (j.step s.now state).1) [] := .move hs hstate .step
        exact hmove.trans (h.drive jobs _ _ _ hbody hmove.sole)

end Callbacks

theorem onPool_succ (h : Enacts mayCrash fuel) (name : String) (body : Scripted Op) (op : Operation)
    (hbody : body.Throughout (Op.Solo mayCrash)) (hs : s.Sole mayCrash)
    (hop : ∀ r ∈ op.handles, ∃ handle, s.handles.get? handle = some r) :
    Goes mayCrash jobs s jobs (Scene.onPool (fuel + 1) name body op.job s).2
      (Scene.onPool (fuel + 1) name body op.job s).1.gives := by
  rw [Scene.onPool.eq_def]
  dsimp only
  split
  · exact .refl hs
  · rename_i p hp
    obtain rfl : p = 0 := hs.names name p hp
    have hstart : Goes mayCrash jobs s (op.job :: jobs) s [] := .start hs hop
    have hdrive := hstart.trans (h.drive jobs (some body) op.job s
      (fun act hact => Option.some.inj hact ▸ hbody) hs)
    rw [Job.gives_outcome]
    exact hdrive.drop _

theorem closeEach_succ (h : Enacts mayCrash fuel) (ps : List Nat) (hps : ∀ p ∈ ps, p = 0)
    (hs : s.Sole mayCrash) : Goes mayCrash jobs s jobs (Scene.closeEach (fuel + 1) ps s).2 [] := by
  cases ps with
  | nil =>
    rw [Scene.closeEach]
    exact .refl hs
  | cons p ps =>
    obtain rfl : p = 0 := hps p List.mem_cons_self
    have hclose : Goes mayCrash jobs s jobs (Scene.drive fuel 0 (some {}) .close s).2 [] := by
      have hdrive := h.drive jobs (some {}) .close s
        (fun act hact => Option.some.inj hact ▸ throughout_empty _) hs
      have hstart : Goes mayCrash jobs s (Operation.close.job :: jobs) s [] := .start hs nofun
      exact ((hstart.trans hdrive).drop _).forget
    rw [Scene.closeEach]
    split
    · exact hclose
    · exact hclose.trans (h.closeEach jobs ps _ (fun q hq => hps q (List.mem_cons_of_mem 0 hq))
        hclose.sole)

theorem register_succ (h : Enacts mayCrash fuel) (space key name : String) (hs : s.Sole mayCrash) :
    Goes mayCrash jobs s jobs (Scene.perform (fuel + 1) (.register space key name) s).2 [] := by
  rw [Scene.perform]
  split
  · exact .refl hs
  · rename_i p hp
    have henroll := hs.enroll (namespacedKey space key) (hs.names name p hp)
    have haside : Goes mayCrash jobs s jobs (s.enroll (namespacedKey space key) p) [] :=
      .of_aside henroll rfl rfl rfl rfl rfl
    refine haside.trans (h.closeEach jobs _ _ (fun q hq => ?_) henroll)
    exact hs.registry _ q (Option.mem_toList.mp hq)

theorem unregister_succ (h : Enacts mayCrash fuel) (space key : String) (hs : s.Sole mayCrash) :
    Goes mayCrash jobs s jobs (Scene.perform (fuel + 1) (.unregister space key) s).2 [] := by
  rw [Scene.perform]
  split
  · exact .refl hs
  · rename_i p hp
    have hstrike := hs.strike (namespacedKey space key) p
    have haside : Goes mayCrash jobs s jobs (s.strike (namespacedKey space key) p) [] :=
      .of_aside hstrike rfl rfl rfl rfl rfl
    have hclose := haside.trans (h.closeEach jobs [p] _
      (fun q hq => List.mem_singleton.mp hq ▸ hs.registry _ p hp) hstrike)
    split <;>
    · rename_i he
      rw [he] at hclose
      exact hclose

theorem closeAll_succ (h : Enacts mayCrash fuel) (hs : s.Sole mayCrash) :
    Goes mayCrash jobs s jobs (Scene.perform (fuel + 1) .closeAll s).2 [] := by
  have haside : Goes mayCrash jobs s jobs s.strikeAll [] :=
    .of_aside hs.strikeAll rfl rfl rfl rfl rfl
  refine haside.trans (h.closeEach jobs _ _ (fun p hp => ?_) hs.strikeAll)
  obtain ⟨row, hrow, rfl⟩ := List.mem_map.mp hp
  exact hs.registry row.1 row.2 (Table.get?_of_mem hrow)

theorem perform_succ (h : Enacts mayCrash fuel) (op : Op) (hop : op.Throughout (Op.Solo mayCrash))
    (hs : s.Sole mayCrash) : Goes mayCrash jobs s jobs (Scene.perform (fuel + 1) op s).2 [] := by
  have hpool (name : String) (op : Operation)
      (hop : ∀ r ∈ op.handles, ∃ handle, s.handles.get? handle = some r) :=
    h.onPool jobs name {} op s (throughout_empty _) hs hop
  cases op
  case create name config => cases hop.self.alone
  case lookUpOrBuild space key bind name config => cases hop.self.alone
  case forget name => exact .of_aside (hs.forget name) rfl rfl rfl rfl rfl
  case get name handle =>
    have hget : Goes mayCrash jobs s jobs (Scene.onPool fuel name {} .get s).2
        (Scene.onPool fuel name {} .get s).1.gives := hpool name .get nofun
    rw [Scene.perform]
    dsimp only
    split
    · rename_i x hx
      rw [hx] at hget
      exact (hget.hold handle).forget
    · exact hget.forget
  case put name handle =>
    rw [Scene.perform]
    split
    · exact .refl hs
    · exact .refl hs
    · rename_i r _ hr
      exact (hpool name (.put r) fun x hx => ⟨handle, List.mem_singleton.mp hx ▸ hr⟩).forget
  case discard name handle =>
    rw [Scene.perform]
    split
    · exact .refl hs
    · exact .refl hs
    · rename_i r _ hr
      exact (hpool name (.discard r) fun x hx => ⟨handle, List.mem_singleton.mp hx ▸ hr⟩).forget
  case exec name body =>
    exact (h.onPool jobs name body .exec s (hop.scripts List.mem_cons_self) hs nofun).forget
  case close name => exact (hpool name .close nofun).forget
  case execAsync name gate reply =>
    rw [Scene.perform]
    split
    · exact .refl hs
    · rename_i p hp
      obtain rfl : p = 0 := hs.names name p hp
      exact .startLoan hs gate reply
  case abort task => exact .abort hs task
  case openGate gate =>
    have hopen : Goes mayCrash jobs s jobs { s with opened := s.opened ++ [gate] } [] :=
      .of_aside (hs.of_loans rfl rfl rfl rfl rfl rfl) rfl rfl rfl rfl rfl
    exact hopen.trans (.wake hopen.sole _)
  case scriptFactory name next default =>
    exact .of_aside (hs.modifyScripts (hs.scripts.scriptFactory hop) fun _ => id)
      rfl rfl rfl rfl rfl
  case scriptCheck name serial act =>
    exact .of_aside (hs.modifyScripts (hs.scripts.scriptCheck hop) fun _ => id) rfl rfl rfl rfl rfl
  case scriptDestructor name act =>
    exact .of_aside (hs.modifyScripts (hs.scripts.scriptDestructor hop) fun _ _ => hop.self.tame)
      rfl rfl rfl rfl rfl
  case register space key name => exact h.register_succ space key name hs
  case unregister space key => exact h.unregister_succ space key hs
  case closeAll => exact h.closeAll_succ hs
  case lookUp space key bind =>
    rw [Scene.perform]
    split
    · exact .refl hs
    · rename_i p hp
      exact .of_aside (hs.bind (hs.registry _ p hp) bind) rfl rfl rfl rfl rfl
  all_goals
    rw [Scene.perform.eq_def]
    dsimp only
    try split
    all_goals exact .refl hs

theorem succ (hmay : ∀ callback, (∀ r, callback ≠ .destructor r) → mayCrash callback)
    (h : Enacts mayCrash fuel) : Enacts mayCrash (fuel + 1) where
  nest _ act _ hact hs := h.nest_succ act hact hs
  call _ body callback _ hbody hs := h.call_succ body callback hbody hs
  drive _ body j _ hbody hs := h.drive_succ hmay body j hbody hs
  onPool _ name body op _ hbody hs hop := h.onPool_succ name body op hbody hs hop
  closeEach _ ps _ hps hs := h.closeEach_succ ps hps hs
  perform _ op _ hop hs := h.perform_succ op hop hs

/-- Whatever the fuel, by the fuel: what is left of it when something is carried out on the way. -/
theorem all (hmay : ∀ callback, (∀ r, callback ≠ .destructor r) → mayCrash callback) :
    ∀ fuel, Enacts mayCrash fuel
  | 0 => zero
  | fuel + 1 => (all hmay fuel).succ hmay

end Enacts

/-! ### Turns, and the passing of time -/

section Turns

variable (hmay : ∀ callback, (∀ r, callback ≠ .destructor r) → mayCrash callback) {l : Loan}

include hmay

theorem goes_proceed (hs : s.Sole mayCrash) (j : Job) :
    Goes mayCrash (j :: jobs) s ((s.proceed 0 j).1.pending ++ jobs) (s.proceed 0 j).2 [] :=
  ((Enacts.all hmay depth).drive jobs none j s nofun hs).forget

omit hmay in
theorem goes_finishLoan (hs : s.Sole mayCrash) (task : Nat) (j : Job) :
    Goes mayCrash jobs s jobs (s.finishLoan task j) [] := by
  unfold Scene.finishLoan
  split
  · exact .refl hs
  · exact .of_aside (hs.of_loans rfl rfl rfl rfl rfl rfl) rfl rfl rfl rfl rfl

omit hmay in
theorem drive_of_ended {fuel p : Nat} {body : Option (Scripted Op)} (hj : j.todo = []) :
    (drive fuel p body j s).2 = s := by
  cases fuel with
  | zero => rw [drive]
  | succ fuel =>
    rw [drive.eq_def]
    dsimp only
    rw [hj]

/-- A loan is dropped before it has begun, or while its body waits. -/
theorem goes_dropLoan (hs : s.Sole mayCrash) (hpool : l.pool = 0)
    (hjob : l.job = .exec ∨ ∃ r, l.job.waitsFor = some (.body r)) :
    Goes mayCrash (l.job.pending ++ jobs) s jobs (s.dropLoan l) [] := by
  rw [Scene.dropLoan, hpool]
  rcases hjob with hjob | ⟨r, hjob⟩
  · rw [hjob]
    have hsame : (s.proceed 0 Job.exec.unwind).2 = s := drive_of_ended rfl
    rw [hsame]
    exact .refl hs
  · rw [Job.pending_of_waitsFor hjob]
    have hunwind : Goes mayCrash (l.job :: jobs) s (l.job.unwind :: jobs) s [] := .unwind hs hjob
    exact (hunwind.trans (goes_proceed hmay hs _)).drop _

theorem goes_endBody (hs : s.Sole mayCrash) (hpool : l.pool = 0) {r : ResourceId}
    (hjob : l.job.waitsFor = some (.body r)) :
    Goes mayCrash (l.job :: jobs) s jobs (s.endBody l) [] := by
  unfold Scene.endBody
  rw [hpool]
  split
  · exact .abandon hs l.job
  · rename_i state hstate
    have hmove : Goes mayCrash (l.job :: jobs) s ((l.job.reply s.now state l.reply).2 :: jobs)
        (s.setState 0 (l.job.reply s.now state l.reply).1) [] :=
      .move hs hstate (.reply _ l.reply hjob fun _ _ => hmay _ nofun)
    have hgone := (hmove.trans (goes_proceed hmay hmove.sole _)).drop _
    exact hgone.trans (goes_finishLoan hgone.sole l.task _)

theorem goes_enterBody (hs : s.Sole mayCrash) (hpool : l.pool = 0) {r : ResourceId}
    (hjob : l.job.waitsFor = some (.body r)) :
    Goes mayCrash (l.job :: jobs) s jobs (s.enterBody l) [] := by
  unfold Scene.enterBody
  split
  · exact goes_endBody hmay hs hpool hjob
  · split
    · have hdrop : Goes mayCrash (l.job.pending ++ jobs) s jobs (s.dropLoan l) [] :=
        goes_dropLoan hmay hs hpool (Or.inr ⟨r, hjob⟩)
      rwa [Job.pending_of_waitsFor hjob] at hdrop
    · refine .of_same { hs with scripts := hs.scripts.of_scripts rfl, loans := fun k hk => ?_ }
        rfl rfl rfl ?_
      · rw [← List.append_assoc, List.mem_append, List.mem_singleton] at hk
        rcases hk with hk | rfl
        · exact hs.loans k hk
        · exact ⟨hpool, Or.inr ⟨r, hjob⟩⟩
      · have hlent : ({ s with waiting := s.waiting ++ [l] } : Scene).lent = s.lent ++ [l.job] := by
          simp [lent, Job.pending_of_waitsFor hjob]
        rw [hlent, ← List.append_assoc]
        exact (List.perm_append_singleton l.job _).subperm

theorem goes_beginLoan (hs : s.Sole mayCrash) (hpool : l.pool = 0) (hjob : l.job = .exec) :
    Goes mayCrash jobs s jobs (s.beginLoan l) [] := by
  have hstart : Goes mayCrash jobs s (Operation.exec.job :: jobs) s [] := .start hs nofun
  have hgone : Goes mayCrash jobs s ((s.proceed l.pool l.job).1.pending ++ jobs)
      (s.proceed l.pool l.job).2 [] := by
    rw [hpool, hjob]
    exact hstart.trans (goes_proceed hmay hs _)
  unfold Scene.beginLoan
  dsimp only
  split
  · rename_i r hwaits
    rw [Job.pending_of_waitsFor hwaits] at hgone
    have hlog := hgone.trans (.log hgone.sole (.exec r))
    exact hlog.trans (goes_enterBody hmay (l := { l with job := _ }) hlog.sole hpool hwaits)
  · exact (hgone.drop _).trans (goes_finishLoan hgone.sole l.task _)

theorem goes_takeTurn (hs : s.Sole mayCrash) (hpool : l.pool = 0)
    (hjob : l.job = .exec ∨ ∃ r, l.job.waitsFor = some (.body r)) :
    Goes mayCrash (l.job.pending ++ jobs) s jobs (s.takeTurn l) [] := by
  unfold Scene.takeTurn
  split
  · exact goes_dropLoan hmay hs hpool hjob
  · rcases hjob with hjob | ⟨r, hjob⟩
    · have hwaits : l.job.waitsFor = none := by rw [hjob]; rfl
      have hbegin : Goes mayCrash jobs s jobs (s.beginLoan l) [] :=
        goes_beginLoan hmay hs hpool hjob
      rw [hwaits, Job.pending, hwaits]
      exact hbegin
    · rw [hjob, Job.pending_of_waitsFor hjob]
      exact goes_endBody hmay hs hpool hjob

theorem goes_nextTurn (hs : s.Sole mayCrash) {rest : List Loan} (hready : s.ready = l :: rest) :
    Goes mayCrash jobs s jobs (({ s with ready := rest } : Scene).takeTurn l) [] := by
  obtain ⟨hpool, hjob⟩ := hs.loans l (List.mem_append_left _ (hready ▸ List.mem_cons_self))
  have hrest : Goes mayCrash jobs s (l.job.pending ++ jobs) { s with ready := rest } [] := by
    refine .of_same (hs.of_same rfl rfl rfl rfl fun k hk => ?_) rfl rfl rfl ?_
    · rw [hready]
      exact List.mem_cons_of_mem l hk
    · rw [lent, lent, hready, List.append_assoc]
      exact List.perm_append_comm_assoc _ _ _ |>.subperm
  exact hrest.trans (goes_takeTurn hmay hrest.sole hpool hjob)

omit hmay in
theorem goes_wakeFirst (hs : s.Sole mayCrash) (pass : Loan → Bool) :
    Goes mayCrash jobs s jobs (s.wakeFirst pass) [] := by
  unfold Scene.wakeFirst
  split
  · rename_i l hfind
    refine .of_loans hs ?_
    rw [List.append_assoc]
    refine List.Perm.append_left s.ready ?_
    obtain ⟨hpass, before, after, hwaiting, hbefore⟩ := List.find?_eq_some_iff_append.mp hfind
    rw [hwaiting, List.eraseP_append_right _ fun k hk => by simpa using hbefore k hk,
      List.eraseP_cons_of_pos hpass]
    exact (List.perm_middle : (before ++ l :: after).Perm (l :: (before ++ after))).symm
  · exact .refl hs

theorem goes_chore (hs : s.Sole mayCrash) {place : Nat} {x : Ticker}
    (hx : s.tickers[place]? = some x) :
    Goes mayCrash jobs s jobs (({ s with
      tickers := s.tickers.set place { x with due := x.due.advance x.period } } : Scene).proceed
        x.pool x.chore.job).2 [] := by
  obtain ⟨pool, chore, due, period⟩ := x
  obtain rfl : pool = 0 := hs.tickers _ (List.mem_of_getElem? hx)
  have hdue : Goes mayCrash jobs s jobs
      { s with tickers := s.tickers.set place ⟨0, chore, due.advance period, period⟩ } [] := by
    refine .of_aside { hs with scripts := hs.scripts.of_scripts rfl, tickers := fun y hy => ?_ }
      rfl rfl rfl rfl rfl
    rcases List.mem_or_eq_of_mem_set hy with hy | rfl
    · exact hs.tickers y hy
    · rfl
  obtain ⟨op, hop, hhandles⟩ : ∃ op : Operation, chore.job = op.job ∧ op.handles = [] := by
    cases chore
    · exact ⟨.check, rfl, rfl⟩
    · exact ⟨.reclaim, rfl, rfl⟩
    · exact ⟨.sweep, rfl, rfl⟩
  rw [hop]
  have hstart := hdue.trans (.start hdue.sole fun r hr => by rw [hhandles] at hr; cases hr)
  exact (hstart.trans (goes_proceed hmay hstart.sole op.job)).drop _

end Turns

/-- Steps of the traffic lead from the one scene to the other. Time may have passed, but not beyond
the target. -/
structure Elapses (mayCrash : Callback → Prop) (target : Instant) (s s' : Scene) : Prop where
  sole : s'.Sole mayCrash
  now : s'.now ≤ target
  run : ∀ t, s.Shows [] t → ∃ path u, Traffic.Run mayCrash t path u ∧ s'.Shows [] u

namespace Elapses

variable {target : Instant}

theorem of_goes (h : Goes mayCrash [] s [] s' []) (hnow : s.now ≤ target) :
    Elapses mayCrash target s s' where
  sole := h.sole
  now := h.now ▸ hnow
  run t ht := by
    obtain ⟨path, u, hrun, hu, -⟩ := h.run t ht
    exact ⟨path, u, hrun, hu⟩

theorem trans (h : Elapses mayCrash target s s') (h' : Elapses mayCrash target s' s'') :
    Elapses mayCrash target s s'' where
  sole := h'.sole
  now := h'.now
  run t ht := by
    obtain ⟨path, u, hrun, hu⟩ := h.run t ht
    obtain ⟨path', v, hrun', hv⟩ := h'.run u hu
    exact ⟨path ++ path', v, hrun.trans hrun', hv⟩

theorem setNow (hs : s.Sole mayCrash) {now : Instant} (hnow : s.now ≤ now) (hle : now ≤ target) :
    Elapses mayCrash target s { s with now } where
  sole := hs.of_loans rfl rfl rfl rfl rfl rfl
  now := hle
  run t ht := by
    refine ⟨_, { t with now }, .next .refl (.pass now ?_) fun _ _ _ => rfl, ?_⟩
    · rw [ht.now]
      exact hnow
    · exact ⟨ht.state, rfl, ht.handles, ht.gives, ht.jobs⟩

end Elapses

theorem steady_elapses (hmay : ∀ callback, (∀ r, callback ≠ .destructor r) → mayCrash callback)
    (target : Instant) :
    Steady target (fun s => s.Sole mayCrash ∧ s.now ≤ target)
      (fun op => op.Throughout (Op.Solo mayCrash)) (Elapses mayCrash target) where
  fine h := ⟨h.sole, h.now⟩
  refl h := .of_goes (.refl h.1) h.2
  trans h h' := h.trans h'
  turn h hready := .of_goes (goes_nextTurn hmay h.1 hready) h.2
  wakeFirst pass h := .of_goes (goes_wakeFirst h.1 pass) h.2
  opens _ h := .of_goes (.of_aside (h.1.of_loans rfl rfl rfl rfl rfl rfl) rfl rfl rfl rfl rfl) h.2
  performs h hop := .of_goes ((Enacts.all hmay depth).perform [] _ _ hop h.1) h.2
  chore h hx := .of_goes (goes_chore hmay h.1 hx) h.2
  passes h ht := .setNow h.1 (Nat.le_max_left _ _) (Nat.max_le.mpr ⟨h.2, ht⟩)
  arrives h := .setNow h.1 h.2 (Nat.le_refl _)

/-! ### Whole runs -/

variable {name : String} {config : Config}

theorem pool_of_mem_tickers {p : Nat} {now : Instant} {x : Ticker}
    (hx : x ∈ config.tickers p now) : x.pool = p := by
  have hone {b : Bool} {y : Ticker} (hy : x ∈ if b then [y] else []) : x = y := by
    split at hy
    · exact List.mem_singleton.mp hy
    · cases hy
  rw [Config.tickers] at hx
  dsimp only at hx
  split at hx
  · simp only [List.mem_append, List.mem_singleton] at hx
    rcases hx with (hx | hx) | rfl
    · rw [hone hx]
    · rw [hone hx]
    · rfl
  · cases hx

theorem sole_build (mayCrash : Callback → Prop) (name : String) (config : Config) :
    (({} : Scene).build name config).2.Sole mayCrash where
  scripts := (throughout_new _).of_scripts rfl
  destructors _ := Or.inl ⟨rfl, nofun⟩
  names _ _ hp := (Table.get?_of_insert hp).elim And.right nofun
  registry := nofun
  loans := nofun
  tickers _ hx := pool_of_mem_tickers hx

theorem shows_build (name : String) (config : Config) :
    (({} : Scene).build name config).2.Shows []
      (.new name config.limits config.destructs []) where
  state := rfl
  now := rfl
  handles := nofun
  gives := nofun
  jobs := .refl _

/-- Whatever the program does with a pool, from outside, in callbacks, by loans and by maintenance,
is a run of the traffic of this pool. -/
theorem exists_run_of_onward
    (hmay : ∀ callback, (∀ r, callback ≠ .destructor r) → mayCrash callback)
    (h : (({} : Scene).build name config).2.Onward (Op.Solo mayCrash) s) :
    ∃ path t, Traffic.Run mayCrash (.new name config.limits config.destructs []) path t ∧
      s.Shows [] t := by
  suffices hall : s.Sole mayCrash ∧
      ∃ path t, Traffic.Run mayCrash (.new name config.limits config.destructs []) path t ∧
        s.Shows [] t from hall.2
  induction h with
  | refl => exact ⟨sole_build mayCrash name config, [], _, .refl, shows_build name config⟩
  | handle s op _ hop ih =>
    obtain ⟨hs, path, t, hrun, ht⟩ := ih
    have helapses := (steady_elapses hmay s.now).handle ⟨hs, Nat.le_refl _⟩ hop
    obtain ⟨path', u, hrun', hu⟩ := helapses.run t ht
    exact ⟨helapses.sole, path ++ path', u, hrun.trans hrun', hu⟩
  | advance s d _ ih =>
    obtain ⟨hs, path, t, hrun, ht⟩ := ih
    have helapses := (steady_elapses hmay (s.now.advance d)).advance ⟨hs, Nat.le_add_right _ _⟩
    obtain ⟨path', u, hrun', hu⟩ := helapses.run t ht
    exact ⟨helapses.sole, path ++ path', u, hrun.trans hrun', hu⟩

end Stockroom.Pool.Scene

import Stockroom.Pool.Upkeep
import Stockroom.Proofs.Pool.Ownership

/-! What holds from one scene to the next at every turn of a loan, every operation and every chore
holds over all that the scene does. -/

namespace Stockroom.Pool
set_option autoImplicit false

/-! ### Jobs that do not close their pool -/

theorem Instr.Leads.closed_of_ne {now : Instant} {s : State} {i : Instr} {e : Effect}
    (h : i.Leads now s e) (hne : i ≠ .close) : e.state.sets.closed = s.sets.closed := by
  cases h with
  | checkOut purpose r sets _ hout =>
    rw [state_grant]
    exact Sets.closed_checkOut? hout
  | enroll purpose r _ =>
    rw [state_grant, Sets.enroll]
    split <;> rfl
  | keep r d sets _ h | leave r d sets _ h =>
    have hclosed := closed_receive s.sets s.limits.maxSize r
    rw [h] at hclosed
    exact hclosed
  | exchange old new sets hreplace =>
    obtain ⟨hs, he⟩ := Sets.closed_replace? hreplace
    exact he.trans hs.symm
  | close => exact absurd rfl hne
  | _ => rfl

theorem Instr.Leads.close_not_mem {now : Instant} {s : State} {i : Instr} {e : Effect}
    (h : i.Leads now s e) : Instr.close ∉ e.next := by
  cases h with
  | checkOut purpose | enroll purpose => cases purpose <;> simp [State.grant]
  | destroy r =>
    dsimp only
    split <;> simp
  | _ => simp

namespace Job

variable {now : Instant} {s : State} {j : Job}

theorem close_not_mem_unwind (j : Job) : Instr.close ∉ j.unwind.todo := by
  intro h
  obtain ⟨-, r, hr⟩ := mem_unwind h
  cases hr

/-- A step closes the pool only if the job says so, and no step makes the job say so. -/
theorem close_step (now : Instant) (s : State) (j : Job) :
    (Instr.close ∈ (j.step now s).2.todo → Instr.close ∈ j.todo) ∧
      (Instr.close ∉ j.todo → (j.step now s).1.sets.closed = s.sets.closed) := by
  rcases j.step_cases now s with he | ⟨i, rest, e, htodo, hleads, he⟩
  · rw [he]
    exact ⟨id, fun _ => rfl⟩
  · rw [he]
    constructor
    · intro h
      rcases List.mem_append.mp h with h | h
      · exact absurd h hleads.close_not_mem
      · rw [htodo]
        exact List.mem_cons_of_mem i h
    · intro h
      apply hleads.closed_of_ne
      rintro rfl
      rw [htodo] at h
      exact h List.mem_cons_self

theorem close_reply (now : Instant) (s : State) (j : Job) (r : Reply) :
    (Instr.close ∈ (j.reply now s r).2.todo → Instr.close ∈ j.todo) ∧
      (j.reply now s r).1.sets.closed = s.sets.closed := by
  cases hwaits : j.waitsFor with
  | none =>
    have hsame : j.reply now s r = (s, j) := by
      unfold Job.reply
      split
      · rename_i callback rest htodo
        simp [waitsFor, htodo] at hwaits
      · rfl
    rw [hsame]
    exact ⟨id, rfl⟩
  | some callback =>
    obtain ⟨rest, htodo⟩ := todo_of_waitsFor hwaits
    rcases reply_eq htodo r with ⟨error, he⟩ | ⟨text, -, he⟩
    · have hleads := callback.leads_resume now s error
      rw [he]
      refine ⟨fun h => ?_, hleads.closed_of_ne nofun⟩
      rcases List.mem_append.mp h with h | h
      · exact absurd h hleads.close_not_mem
      · rw [htodo]
        exact List.mem_cons_of_mem _ h
    · rw [he]
      refine ⟨fun h => ?_, rfl⟩
      rw [crash_todo] at h
      exact absurd h (close_not_mem_unwind _)

end Job

namespace Scene

variable {Fine : Scene → Prop} {Allowed : Op → Prop} {Leads : Scene → Scene → Prop}
  {target : Instant} {s : Scene}

/-! ### What a scene does -/

/-- From fine scenes, turns of loans, allowed operations, chores and the clock up to the target lead
to fine scenes. -/
structure Steady (target : Instant) (Fine : Scene → Prop) (Allowed : Op → Prop)
    (Leads : Scene → Scene → Prop) : Prop where
  fine : ∀ {s t}, Leads s t → Fine t
  refl : ∀ {s}, Fine s → Leads s s
  trans : ∀ {s t u}, Leads s t → Leads t u → Leads s u
  turn : ∀ {s l rest}, Fine s → s.ready = l :: rest →
    Leads s (({ s with ready := rest } : Scene).takeTurn l)
  wakeFirst : ∀ {s} pass, Fine s → Leads s (s.wakeFirst pass)
  opens : ∀ {s} gate, Fine s → Leads s { s with opened := s.opened ++ [gate] }
  performs : ∀ {s op}, Fine s → Allowed op → Leads s (perform depth op s).2
  chore : ∀ {s place x}, Fine s → s.tickers[place]? = some x →
    Leads s (({ s with tickers := s.tickers.set place { x with due := x.due.advance x.period } } :
      Scene).proceed x.pool x.chore.job).2
  passes : ∀ {s t}, Fine s → t ≤ target → Leads s { s with now := max s.now t }
  arrives : ∀ {s}, Fine s → Leads s { s with now := target }

namespace Steady

variable (h : Steady target Fine Allowed Leads)

include h

theorem giveTurns (hs : Fine s) (fuel : Nat) : Leads s (giveTurns fuel s) := by
  induction fuel generalizing s with
  | zero => exact h.refl hs
  | succ fuel ih =>
    rw [Scene.giveTurns]
    split
    · exact h.refl hs
    · rename_i l rest hready
      have hturn := h.turn hs hready
      exact h.trans hturn (ih (h.fine hturn))

theorem settle (hs : Fine s) : Leads s s.settle := h.giveTurns hs depth

theorem releaseUpTo (hs : Fine s) (pass : Loan → Bool) (count : Nat) :
    Leads s (releaseUpTo pass count s).2 := by
  induction count generalizing s with
  | zero => exact h.refl hs
  | succ count ih =>
    rw [Scene.releaseUpTo]
    split
    · have hwake := h.wakeFirst pass hs
      have hsettle := h.trans hwake (h.settle (h.fine hwake))
      exact h.trans hsettle (ih (h.fine hsettle))
    · exact h.refl hs

theorem handle (hs : Fine s) {op : Op} (hop : Allowed op) : Leads s (s.handle op).2 := by
  unfold Scene.handle
  split
  · rename_i gate
    have hopen := h.opens gate hs
    exact h.trans hopen (h.releaseUpTo (h.fine hopen) _ _)
  · have hperform := h.performs hs hop
    exact h.trans hperform (h.settle (h.fine hperform))

theorem tick (hs : Fine s) (place : Nat) : Leads s (s.tick place) := by
  unfold Scene.tick
  split
  · exact h.refl hs
  · rename_i x hx
    split
    · have hchore := h.chore hs hx
      exact h.trans hchore (h.settle (h.fine hchore))
    · exact h.refl hs

theorem tickAll (hs : Fine s) : Leads s s.tickAll := by
  unfold Scene.tickAll
  generalize List.range s.tickers.length = places
  induction places generalizing s with
  | nil => exact h.refl hs
  | cons place places ih =>
    have htick := h.tick hs place
    exact h.trans htick (ih (h.fine htick))

theorem tickUntil (hs : Fine s) (fuel : Nat) : Leads s (tickUntil target fuel s) := by
  induction fuel generalizing s with
  | zero => exact h.refl hs
  | succ fuel ih =>
    rw [Scene.tickUntil]
    split
    · exact h.refl hs
    · rename_i t _
      split
      · rename_i ht
        have hpass := h.passes hs ht
        have htick := h.trans hpass (h.tickAll (h.fine hpass))
        exact h.trans htick (ih (h.fine htick))
      · exact h.refl hs

end Steady

theorem Steady.advance {d : Duration} (h : Steady (s.now.advance d) Fine Allowed Leads)
    (hs : Fine s) : Leads s (s.advance d) := by
  have hticks := h.tickUntil hs (d.millis + 1)
  exact h.trans hticks (h.arrives (h.fine hticks))

/-! ### Loans that do not close their pool -/

/-- Fine scenes have no loan that closes its pool, and what is neither script, name, registry nor
pool does not matter to them. -/
structure Unclosing (Fine : Scene → Prop) (Leads : Scene → Scene → Prop) : Prop where
  fine : ∀ {s t}, Leads s t → Fine t
  trans : ∀ {s t u}, Leads s t → Leads t u → Leads s u
  loans : ∀ {s}, Fine s → ∀ l ∈ s.ready ++ s.waiting, Instr.close ∉ l.job.todo
  aside : ∀ {s t}, Fine s → t.scripts = s.scripts → t.names = s.names → t.registry = s.registry →
    t.deeds = s.deeds → t.pools = s.pools →
    (∀ l ∈ t.ready ++ t.waiting, Instr.close ∉ l.job.todo) → Leads s t
  replies : ∀ {s p state new}, Fine s → s.state? p = some state →
    new.sets.closed = state.sets.closed → Leads s (s.setState p new)
  proceeds : ∀ {s} p {j}, Fine s → Instr.close ∉ j.todo →
    Leads s (s.proceed p j).2 ∧ Instr.close ∉ (s.proceed p j).1.todo

namespace Unclosing

variable (h : Unclosing Fine Leads) {l : Loan}

include h

/-- Loans are as they were, and so is all that matters. -/
theorem same {t : Scene} (hs : Fine s) (hscripts : t.scripts = s.scripts)
    (hnames : t.names = s.names) (hregistry : t.registry = s.registry) (hdeeds : t.deeds = s.deeds)
    (hpools : t.pools = s.pools) (hready : t.ready = s.ready) (hwaiting : t.waiting = s.waiting) :
    Leads s t := by
  refine h.aside hs hscripts hnames hregistry hdeeds hpools ?_
  rw [hready, hwaiting]
  exact h.loans hs

theorem refl (hs : Fine s) : Leads s s := h.same hs rfl rfl rfl rfl rfl rfl rfl

theorem finishLoan (hs : Fine s) (task : Nat) (j : Job) : Leads s (s.finishLoan task j) := by
  unfold Scene.finishLoan
  split
  · exact h.refl hs
  · exact h.same hs rfl rfl rfl rfl rfl rfl rfl

theorem dropLoan (hs : Fine s) (l : Loan) : Leads s (s.dropLoan l) :=
  (h.proceeds l.pool hs (Job.close_not_mem_unwind l.job)).1

theorem endBody (hs : Fine s) (hl : Instr.close ∉ l.job.todo) : Leads s (s.endBody l) := by
  unfold Scene.endBody
  split
  · exact h.refl hs
  · rename_i state hstate
    obtain ⟨hmem, hclosed⟩ := l.job.close_reply s.now state l.reply
    have hset := h.replies hs hstate hclosed
    have hgone := h.trans hset
      (h.proceeds l.pool (h.fine hset) fun hclose => hl (hmem hclose)).1
    exact h.trans hgone (h.finishLoan (h.fine hgone) l.task _)

theorem enterBody (hs : Fine s) (hl : Instr.close ∉ l.job.todo) : Leads s (s.enterBody l) := by
  unfold Scene.enterBody
  split
  · exact h.endBody hs hl
  · split
    · exact h.dropLoan hs l
    · refine h.aside hs rfl rfl rfl rfl rfl fun other hother => ?_
      rw [← List.append_assoc, List.mem_append, List.mem_singleton] at hother
      rcases hother with hother | rfl
      · exact h.loans hs other hother
      · exact hl

theorem beginLoan (hs : Fine s) (hl : Instr.close ∉ l.job.todo) : Leads s (s.beginLoan l) := by
  obtain ⟨hgone, hj⟩ := h.proceeds l.pool hs hl
  unfold Scene.beginLoan
  dsimp only
  split
  · rename_i r _
    have hlog : Leads (s.proceed l.pool l.job).2 ((s.proceed l.pool l.job).2.log (.exec r)) :=
      h.same (h.fine hgone) rfl rfl rfl rfl rfl rfl rfl
    exact h.trans hgone (h.trans hlog (h.enterBody (h.fine hlog) hj))
  · exact h.trans hgone (h.finishLoan (h.fine hgone) l.task _)

theorem takeTurn (hs : Fine s) (hl : Instr.close ∉ l.job.todo) : Leads s (s.takeTurn l) := by
  unfold Scene.takeTurn
  split
  · exact h.dropLoan hs l
  · split
    · exact h.endBody hs hl
    · exact h.beginLoan hs hl

theorem wakeFirst (hs : Fine s) (pass : Loan → Bool) : Leads s (s.wakeFirst pass) := by
  unfold Scene.wakeFirst
  split
  · rename_i l hfind
    refine h.aside hs rfl rfl rfl rfl rfl fun other hother => h.loans hs other ?_
    rw [List.append_assoc, List.mem_append, List.singleton_append, List.mem_cons] at hother
    rcases hother with hother | rfl | hother
    · exact List.mem_append_left _ hother
    · exact List.mem_append_right _ (List.mem_of_find?_eq_some hfind)
    · exact List.mem_append_right _ (List.mem_of_mem_eraseP hother)
  · exact h.refl hs

theorem steady (hperforms : ∀ {s op}, Fine s → Allowed op → Leads s (perform depth op s).2)
    (target : Instant) : Steady target Fine Allowed Leads where
  fine := h.fine
  refl := h.refl
  trans := h.trans
  turn {s l rest} hs hready := by
    have hloans (other : Loan) (hother : other ∈ l :: rest ++ s.waiting) :
        Instr.close ∉ other.job.todo := h.loans hs other (hready ▸ hother)
    have hrest : Leads s { s with ready := rest } :=
      h.aside hs rfl rfl rfl rfl rfl fun other hother =>
        hloans other (List.mem_cons_of_mem l hother)
    exact h.trans hrest (h.takeTurn (h.fine hrest) (hloans l List.mem_cons_self))
  wakeFirst pass hs := h.wakeFirst hs pass
  opens _ hs := h.same hs rfl rfl rfl rfl rfl rfl rfl
  performs := hperforms
  chore {s place x} hs _ := by
    have hdue : Leads s
        { s with tickers := s.tickers.set place { x with due := x.due.advance x.period } } :=
      h.same hs rfl rfl rfl rfl rfl rfl rfl
    exact h.trans hdue
      (h.proceeds x.pool (j := x.chore.job) (h.fine hdue) (by cases x.chore <;> decide)).1
  passes hs _ := h.same hs rfl rfl rfl rfl rfl rfl rfl
  arrives hs := h.same hs rfl rfl rfl rfl rfl rfl rfl

end Unclosing

end Scene

end Stockroom.Pool

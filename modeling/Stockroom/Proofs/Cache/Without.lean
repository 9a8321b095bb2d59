import Stockroom.Cache.Leaving

/-! Whoever waits has a hold on nothing: without the leavers that wait, each step of a world comes to
what it comes to with them, less the leavers. -/

namespace Stockroom.Cache
set_option autoImplicit false

/-! ### Lists less some elements -/

section
variable {α : Type} {p : α → Bool} {l : List α} {i k : Nat} {a : α}

theorem getElem?_filter (h : l[i]? = some a) (hp : p a = true) :
    (l.filter p)[(l.take i).countP p]? = some a := by
  induction l generalizing i with
  | nil => cases h
  | cons b l ih =>
    cases i with
    | zero =>
      cases h
      rw [List.filter_cons_of_pos hp]
      rfl
    | succ i =>
      rw [List.take_succ_cons, List.countP_cons]
      cases hb : p b with
      | true =>
        rw [List.filter_cons_of_pos hb]
        exact ih h
      | false =>
        rw [List.filter_cons_of_neg (Bool.eq_false_iff.mp hb)]
        exact ih h

theorem filter_eraseIdx (h : l[i]? = some a) (hp : p a = true) :
    (l.eraseIdx i).filter p = (l.filter p).eraseIdx ((l.take i).countP p) := by
  induction l generalizing i with
  | nil => rfl
  | cons b l ih =>
    cases i with
    | zero =>
      cases h
      rw [List.filter_cons_of_pos hp]
      rfl
    | succ i =>
      rw [List.take_succ_cons, List.countP_cons, List.eraseIdx_cons_succ]
      cases hb : p b with
      | true =>
        rw [List.filter_cons_of_pos hb, List.filter_cons_of_pos hb, ih h]
        rfl
      | false =>
        rw [List.filter_cons_of_neg (Bool.eq_false_iff.mp hb),
          List.filter_cons_of_neg (Bool.eq_false_iff.mp hb), ih h]
        rfl

theorem filter_eraseIdx_of_neg (h : ∀ a, l[i]? = some a → p a = false) :
    (l.eraseIdx i).filter p = l.filter p := by
  induction l generalizing i with
  | nil => rfl
  | cons b l ih =>
    cases i with
    | zero => exact (List.filter_cons_of_neg (Bool.eq_false_iff.mp (h b rfl))).symm
    | succ i => rw [List.eraseIdx_cons_succ, List.filter_cons, List.filter_cons, ih h]

theorem exists_getElem?_of_filter (h : (l.filter p)[k]? = some a) :
    ∃ i, l[i]? = some a ∧ (l.take i).countP p = k := by
  induction l generalizing k with
  | nil => cases h
  | cons b l ih =>
    cases hb : p b with
    | false =>
      rw [List.filter_cons_of_neg (Bool.eq_false_iff.mp hb)] at h
      obtain ⟨i, hi, hk⟩ := ih h
      refine ⟨i + 1, hi, ?_⟩
      rw [List.take_succ_cons, List.countP_cons_of_neg (Bool.eq_false_iff.mp hb), hk]
    | true =>
      rw [List.filter_cons_of_pos hb] at h
      cases k with
      | zero => exact ⟨0, h, rfl⟩
      | succ k =>
        obtain ⟨i, hi, hk⟩ := ih h
        refine ⟨i + 1, hi, ?_⟩
        rw [List.take_succ_cons, List.countP_cons_of_pos hb, hk]

end

variable {V : Type} {l : Leavers}

/-- Whoever comes or waits with a token of theirs is one of theirs. -/
def Leavers.Owns (l : Leavers) : Task V → Prop
  | .request caller _ _ token | .waiter caller _ _ token =>
    ∀ s ∈ token, s ∈ l.tokens → caller ∈ l.callers
  | _ => True

namespace World

variable {w w' : World V} {t : Task V}

@[simp] theorem cache_without (w : World V) : (w.without l).cache = w.cache := rfl
@[simp] theorem now_without (w : World V) : (w.without l).now = w.now := rfl
@[simp] theorem opened_without (w : World V) : (w.without l).opened = w.opened := rfl
@[simp] theorem archive_without (w : World V) : (w.without l).archive = w.archive := rfl
@[simp] theorem callers_without (w : World V) : (w.without l).callers = w.callers := rfl

/-! ### Tasks that come and are woken -/

theorem without_spawn (w : World V) (h : l.keeps t = true) :
    (w.without l).spawn t = (w.spawn t).without l := by
  simp only [without, spawn, List.filter_append, List.filter_cons_of_pos h, List.filter_nil]

theorem without_park (w : World V) (h : l.keeps t = true) :
    (w.without l).park t = (w.park t).without l := by
  simp only [without, park, List.filter_append, List.filter_cons_of_pos h, List.filter_nil]

theorem without_park_of_neg (w : World V) (h : l.keeps t = false) :
    (w.park t).without l = w.without l := by
  simp only [without, park, List.filter_append, List.filter_cons_of_neg (Bool.eq_false_iff.mp h),
    List.filter_nil, List.append_nil]

theorem without_wake (w : World V) (p : Task V → Bool) :
    (w.without l).wake p = (w.wake p).without l := by
  simp only [without, wake, List.filter_append, List.filter_filter, Bool.and_comm]

/-- Who is woken is a leaver that waits. -/
theorem without_wake_of_neg (w : World V) {p : Task V → Bool}
    (h : ∀ t ∈ w.parked, p t = true → l.keeps t = false) : (w.wake p).without l = w.without l := by
  have hwoken : (w.parked.filter p).filter l.keeps = [] := by
    rw [List.filter_eq_nil_iff]
    intro t ht
    obtain ⟨ht, hp⟩ := List.mem_filter.mp ht
    exact Bool.eq_false_iff.mp (h t ht hp)
  have hleft : (w.parked.filter fun t => !p t).filter l.keeps = w.parked.filter l.keeps := by
    rw [List.filter_filter]
    apply List.filter_congr
    intro t ht
    cases hp : p t with
    | false => exact Bool.and_true _
    | true => rw [h t ht hp]; rfl
  simp only [without, wake, List.filter_append, hwoken, hleft, List.append_nil]

theorem without_settleCall (w : World V) (call : Call) (p : Progress V) :
    (w.without l).settleCall call p = (w.settleCall call p).without l :=
  without_wake { w with cache.flights := w.cache.flights.settle call p } _

theorem without_finish (w : World V) {caller : Nat} (h : caller ∉ l.callers) (o : Outcome V) :
    (w.without l).finish caller o = (w.finish caller o).without l := by
  simp [without, finish, h]

theorem without_finish_of_mem (w : World V) {caller : Nat} (h : caller ∈ l.callers)
    (o : Outcome V) : (w.finish caller o).without l = w.without l := by
  simp [without, finish, h]

/-! ### Look-ups and writes -/

theorem without_requestSave (w : World V) (name : String) (value : V) (inRuntime : Bool) :
    (w.without l).requestSave name value inRuntime =
      (w.requestSave name value inRuntime).without l := by
  unfold requestSave
  rw [cache_without]
  obtain ⟨_ | _, cache⟩ := w.cache.requestSave inRuntime
  · rfl
  · exact without_spawn { w with cache } rfl

theorem without_offerSave (w : World V) (name : String) (value : Option V)
    (keep inRuntime : Bool) :
    (w.without l).offerSave name value keep inRuntime =
      (w.offerSave name value keep inRuntime).without l := by
  cases value with
  | none => rfl
  | some v =>
    cases keep with
    | false => rfl
    | true => exact without_requestSave w name v inRuntime

theorem without_write (w : World V) (name : String) (value : Option V) (ttl : Duration)
    (keep inRuntime : Bool) :
    (w.without l).write name value ttl keep inRuntime =
      Prod.map id (without l) (w.write name value ttl keep inRuntime) := by
  unfold write
  simp only [cache_without, now_without]
  obtain ⟨_ | crash, cache⟩ := w.cache.write w.now name value ttl
  · exact congrArg (Prod.mk _) (without_offerSave { w with cache } name value keep inRuntime)
  · rfl

theorem without_perform (w : World V) (inRuntime : Bool) (op : Op V) :
    (w.without l).perform inRuntime op = Prod.map id (without l) (w.perform inRuntime op) := by
  cases op with
  | set name value ttl =>
    simp only [perform, cache_without, without_write]
    obtain ⟨crash, w'⟩ := w.write name (some value) (ttl.getD w.cache.config.defaultTtl) true
      inRuntime
    cases crash <;> rfl
  | _ => rfl

theorem without_considerRefresh (w : World V) (name : String) (found : Snapshot V)
    (loader : Loader V) :
    (w.without l).considerRefresh name found loader =
      (w.considerRefresh name found loader).without l := by
  unfold considerRefresh
  cases found.remaining with
  | none => rfl
  | some remaining =>
    dsimp only
    rw [cache_without]
    split
    · obtain ⟨_ | call, flights⟩ := w.cache.flights.tryLead name
      · rfl
      · exact without_spawn { w with cache := _ } rfl
    · rfl

theorem without_joinLoad (w : World V) (name : String) (loader : Loader V) :
    (w.without l).joinLoad name loader = Prod.map id (without l) (w.joinLoad name loader) := by
  unfold joinLoad
  simp only [cache_without]
  obtain ⟨call | slot, flights⟩ := w.cache.flights.join name
  · exact congrArg (Prod.mk _) (without_spawn { w with cache := _ } rfl)
  · rfl

theorem without_getOrLoad (w : World V) (name : String) (loader : Loader V) :
    (w.without l).getOrLoad name loader = Prod.map id (without l) (w.getOrLoad name loader) := by
  unfold getOrLoad
  simp only [cache_without, now_without]
  obtain ⟨_ | found, cache⟩ := w.cache.lookup w.now name
  · have h := without_joinLoad (l := l) { w with cache } name loader
    exact congrArg (fun r : Nat × World V => (Started.waiting r.1, r.2)) h
  · exact congrArg (Prod.mk _) (without_considerRefresh { w with cache } name found loader)

/-- Whose token is not a leaver's gets the same answer. -/
theorem isFired_without (w : World V) {token : Option String}
    (h : ∀ s ∈ token, s ∉ l.tokens) : (w.without l).isFired token = w.isFired token := by
  cases token with
  | none => rfl
  | some s =>
    have hs := h s rfl
    simp [isFired, without, hs]

theorem without_checkSlot (w : World V) {caller : Nat} (name : String) (slot : Nat)
    {token : Option String} (hcaller : caller ∉ l.callers) (htoken : ∀ s ∈ token, s ∉ l.tokens) :
    (w.without l).checkSlot caller name slot token =
      (w.checkSlot caller name slot token).without l := by
  unfold checkSlot
  rw [isFired_without w htoken, cache_without]
  cases (w.cache.flights.progress slot).answer name (w.isFired token) with
  | none => exact without_park w (by simpa [Leavers.keeps] using hcaller)
  | some outcome => exact without_finish w hcaller outcome

/-- A leaver that looks at its slot leaves nothing behind. -/
theorem without_checkSlot_of_mem (w : World V) {caller : Nat} (name : String) (slot : Nat)
    (token : Option String) (hcaller : caller ∈ l.callers) :
    (w.checkSlot caller name slot token).without l = w.without l := by
  unfold checkSlot
  split
  · exact without_finish_of_mem w hcaller _
  · exact without_park_of_neg w (by simpa [Leavers.keeps] using hcaller)

/-! ### Executions -/

theorem without_storeAndPublish (w : World V) (call : Call) (value : Option V) (ttl : Duration)
    (keep : Bool) :
    (w.without l).storeAndPublish call value ttl keep =
      (w.storeAndPublish call value ttl keep).without l := by
  unfold storeAndPublish
  rw [without_write]
  obtain ⟨_ | crash, w'⟩ := w.write call.key value ttl keep true
  · exact without_settleCall w' call _
  · exact without_settleCall w' call _

theorem without_conclude (w : World V) (call : Call) (cause : Cause) (product : Loaded V) :
    (w.without l).conclude call cause product = (w.conclude call cause product).without l := by
  unfold conclude
  rw [cache_without]
  split
  · exact without_settleCall w call _
  · exact without_storeAndPublish w call _ _ true

theorem without_failLoad (w : World V) (call : Call) (text : String) :
    (w.without l).failLoad call text = (w.failLoad call text).without l :=
  without_settleCall { w with cache := _ } call _

theorem without_carryOut (w : World V) (r : Running V) :
    (w.without l).carryOut r = Prod.map (without l) id (w.carryOut r) := by
  obtain ⟨call, cause, script, last⟩ := r
  cases script with
  | done product => exact congrArg (·, none) (without_conclude w call cause product)
  | relay => exact congrArg (·, none) (without_conclude w call cause (.ofOption last))
  | fail text => exact congrArg (·, none) (without_failLoad w call text)
  | crash text => exact congrArg (·, none) (without_settleCall w call _)
  | await gate rest =>
    unfold carryOut
    dsimp only
    rw [opened_without]
    split
    · rfl
    · exact congrArg (·, none) (without_park w rfl)
  | act op rest =>
    simp only [carryOut, without_perform]
    obtain ⟨_ | _, w'⟩ := w.perform true op
    · exact congrArg (·, none) (without_settleCall w' call _)
    · rfl
  | fetch name tag loader rest =>
    simp only [carryOut, without_getOrLoad]
    obtain ⟨_ | _, w'⟩ := w.getOrLoad name ⟨tag, loader⟩
    · rfl
    · exact congrArg (·, none) (without_park w' rfl)

theorem without_restore (w : World V) (call : Call) (loader : Loader V) :
    (w.without l).restore call loader = Prod.map (without l) id (w.restore call loader) := by
  unfold restore
  dsimp only
  rw [archive_without, cache_without]
  split
  · exact congrArg (·, none) (without_settleCall (w.log _) call _)
  · cases w.archive.data[call.key]? with
    | none => rfl
    | some v => exact congrArg (·, none) (without_storeAndPublish (w.log _) call (some v) _ false)

theorem without_begin (w : World V) (call : Call) (cause : Cause) (loader : Loader V) :
    (w.without l).begin call cause loader = Prod.map (without l) id (w.begin call cause loader) := by
  cases cause with
  | refresh => rfl
  | miss =>
    unfold begin
    dsimp only
    rw [archive_without, cache_without]
    split
    · split
      · exact congrArg (·, none) (without_park w rfl)
      · exact without_restore w call loader
    · rfl

theorem without_checkFetch (w : World V) (call : Call) (cause : Cause) (name : String)
    (slot : Nat) (rest : Script V) :
    (w.without l).checkFetch call cause name slot rest =
      Prod.map (without l) id (w.checkFetch call cause name slot rest) := by
  unfold checkFetch
  rw [cache_without]
  split
  · rfl
  · exact congrArg (·, none) (without_failLoad w call _)
  · exact congrArg (·, none) (without_park w rfl)

theorem without_endSave (w : World V) (name : String) (value : V) :
    (w.without l).endSave name value = (w.endSave name value).without l := by
  unfold endSave
  simp only [archive_without]
  cases w.archive.saveMode <;> rfl

theorem without_beginSave (w : World V) (name : String) (value : V) :
    (w.without l).beginSave name value = (w.beginSave name value).without l := by
  unfold beginSave
  dsimp only
  rw [archive_without]
  split
  · exact without_park (w.log _) rfl
  · exact without_endSave (w.log _) name value

/-! ### Turns and commands -/

@[simp] theorem without_without (w : World V) : (w.without l).without l = w.without l := by
  simp only [without, List.filter_filter, Bool.and_self]

theorem finish_without (w : World V) (caller : Nat) (o : Outcome V) :
    ((w.without l).finish caller o).without l = (w.finish caller o).without l := by
  by_cases h : caller ∈ l.callers
  · rw [without_finish_of_mem _ h, without_finish_of_mem _ h, without_without]
  · rw [without_finish w h, without_without]

/-- A caller that is no leaver does not wait with a leaver's token. -/
theorem checkSlot_without (w : World V) (caller : Nat) (name : String) (slot : Nat)
    {token : Option String} (howned : ∀ s ∈ token, s ∈ l.tokens → caller ∈ l.callers) :
    ((w.without l).checkSlot caller name slot token).without l =
      (w.checkSlot caller name slot token).without l := by
  by_cases h : caller ∈ l.callers
  · rw [without_checkSlot_of_mem _ _ _ _ h, without_checkSlot_of_mem _ _ _ _ h, without_without]
  · rw [without_checkSlot w name slot h fun s hs hmem => h (howned s hs hmem), without_without]

/-- A task that stays has its turn the way it would have it with everybody there. -/
theorem without_enter (w : World V) {t : Task V} (hkept : l.keeps t = true) (howned : l.Owns t) :
    Prod.map (without l) id ((w.without l).enter t) = Prod.map (without l) id (w.enter t) := by
  have hsame {x : World V × Option (Running V)} :
      Prod.map (without l) id (Prod.map (without l) id x) = Prod.map (without l) id x :=
    congrArg (·, x.2) (without_without x.1)
  cases t with
  | request caller name loader token =>
    simp only [enter, without_getOrLoad]
    obtain ⟨value | slot, w'⟩ := w.getOrLoad name loader
    · exact congrArg (·, none) (finish_without w' caller _)
    · exact congrArg (·, none) (checkSlot_without w' caller name slot howned)
  | waiter caller name slot token =>
    exact congrArg (·, none) (checkSlot_without w caller name slot howned)
  | start call cause loader => exact (congrArg _ (without_begin w call cause loader)).trans hsame
  | restoring call loader => exact (congrArg _ (without_restore w call loader)).trans hsame
  | paused call cause gate last rest =>
    unfold enter
    dsimp only
    rw [opened_without]
    split
    · exact congrArg (·, _) (without_without w)
    · exact congrArg (·, none) ((congrArg _ (without_park w rfl)).trans (without_without _))
  | fetching call cause name slot rest =>
    exact (congrArg _ (without_checkFetch w call cause name slot rest)).trans hsame
  | save name value =>
    exact congrArg (·, none) ((congrArg _ (without_beginSave w name value)).trans
      (without_without _))
  | saving name value =>
    exact congrArg (·, none) ((congrArg _ (without_endSave w name value)).trans
      (without_without _))

theorem without_effect (w : World V) (command : Command V) :
    ((w.without l).effect command).without l = (w.effect command).without l := by
  cases command with
  | perform op inRuntime =>
    simp only [effect, act, without_perform]
    obtain ⟨crash | reply, w'⟩ := w.perform inRuntime op
    · exact without_without w'
    · exact without_without w'
  | request name loader token =>
    exact (congrArg _ (without_spawn { w with callers := w.callers + 1 } rfl)).trans
      (without_without _)
  | cancel token =>
    simp only [effect, act, ← without_wake]
    congr 1
    simp only [without, List.filter_append, List.filter_filter, Bool.and_self]
  | dropCaller caller =>
    simp only [effect, act, without]
    congr 1
    all_goals
      simp only [List.filter_filter]
      grind
  | release count => exact without_without w
  | releaseRestores count => exact without_without w
  | openGate gate => exact without_without (w.effect (.openGate gate))
  | setArchive gated saveMode restoreCrashes =>
    exact without_without (w.effect (.setArchive gated saveMode restoreCrashes))
  | holdRestores held => exact without_without (w.effect (.holdRestores held))
  | deposit name value => exact without_without (w.effect (.deposit name value))
  | advance d => exact without_without (w.effect (.advance d))

end World

end Stockroom.Cache

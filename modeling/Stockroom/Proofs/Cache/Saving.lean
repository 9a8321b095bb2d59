import Stockroom.Cache.Saving
import Stockroom.Proofs.Cache.Contents
import Stockroom.Proofs.Cache.Deeds
import Stockroom.Proofs.Cache.Totals

/-! The limit on saves. Every permit is free or held by one save that has not ended, and every value
that could be saved is saved once or counted as dropped. -/

namespace Stockroom.Cache
set_option autoImplicit false

variable {V : Type}

def Event.ofSave : Event V → Bool
  | .save .. | .saveEnd .. => true
  | _ => false

namespace World

variable {w w' w'' : World V}

/-! ### What saves have no part in -/

/-- Neither saves nor permits have changed. -/
structure Aloof (w w' : World V) : Prop where
  persists : w'.cache.config.persists = w.cache.config.persists
  permits : w'.cache.permits = w.cache.permits
  dropped : w'.cache.counters.persistDropped = w.cache.counters.persistDropped
  tasks : (w'.tasks.filter Task.isSave).Perm (w.tasks.filter Task.isSave)
  events : w'.events.filter Event.ofSave = w.events.filter Event.ofSave

namespace Aloof

theorem refl (w : World V) : w.Aloof w := ⟨rfl, rfl, rfl, .refl _, rfl⟩

theorem symm (h : w.Aloof w') : w'.Aloof w where
  persists := h.persists.symm
  permits := h.permits.symm
  dropped := h.dropped.symm
  tasks := h.tasks.symm
  events := h.events.symm

theorem trans (h : w.Aloof w') (h' : w'.Aloof w'') : w.Aloof w'' where
  persists := h'.persists.trans h.persists
  permits := h'.permits.trans h.permits
  dropped := h'.dropped.trans h.dropped
  tasks := h'.tasks.trans h.tasks
  events := h'.events.trans h.events

theorem of_cache {cache : Cache V} (hc : cache.config = w.cache.config)
    (hp : cache.permits = w.cache.permits)
    (hd : cache.counters.persistDropped = w.cache.counters.persistDropped) :
    w.Aloof { w with cache } := ⟨congrArg _ hc, hp, hd, .refl _, rfl⟩

theorem of_perm (hc : w'.cache = w.cache) (he : w'.events = w.events)
    (ht : w'.tasks.Perm w.tasks) : w.Aloof w' :=
  ⟨by rw [hc], by rw [hc], by rw [hc], ht.filter _, by rw [he]⟩

theorem of_cons {t : Task V} (hc : w'.cache = w.cache) (he : w'.events = w.events)
    (ht : w'.tasks.Perm (t :: w.tasks)) (hsave : t.isSave = false) : w.Aloof w' := by
  refine ⟨by rw [hc], by rw [hc], by rw [hc], ?_, by rw [he]⟩
  have hfilter := ht.filter Task.isSave
  rwa [List.filter_cons_of_neg (by simp [hsave])] at hfilter

theorem log (w : World V) {e : Event V} (he : e.ofSave = false) : w.Aloof (w.log e) :=
  ⟨rfl, rfl, rfl, .refl _, List.filter_cons_of_neg (by simp [he])⟩

end Aloof

theorem aloof_lookup (w : World V) (name : String) :
    w.Aloof { w with cache := (w.cache.lookup w.now name).2 } := by
  obtain ⟨_, _, _, hcounters⟩ := exists_counters_lookup w.cache w.now name
  exact .of_cache rfl rfl (by rw [hcounters])

theorem aloof_purgeShard (w : World V) (index : Nat) :
    w.Aloof { w with cache := (w.cache.purgeShard index).2 } := by
  unfold purgeShard
  split
  · exact .refl w
  · exact .of_cache rfl rfl rfl

theorem Leads.aloof {offer : Option (String × Loader V)} (h : w.Leads offer w') : w.Aloof w' := by
  cases h with
  | none => exact .refl w
  | start name cause loader hoffer hnone =>
    have htasks := (tasks_lead w name cause loader).filter Task.isSave
    refine ⟨rfl, rfl, ?_, htasks, rfl⟩
    cases cause <;> rfl

theorem Closes.aloof {h : Hand V} {r : Option (Running V)} (hc : w.Closes h w' r) (hne : h ≠ {}) :
    w.Aloof w' := by
  cases hc with
  | drops he => exact .refl w
  | goesOn r he => exact .refl w
  | begins call cause loader he => exact .log w rfl
  | parks t he hslots =>
    refine .of_cons rfl rfl (tasks_park w t) (Bool.eq_false_iff.mpr fun hsave => hne ?_)
    rw [he, t.hand_of_isSave hsave]
  | answers caller outcome he => exact .of_perm rfl rfl (.refl _)

theorem aloof_settleCall (w : World V) (call : Call) (p : Progress V) :
    w.Aloof (w.settleCall call p) := by
  have htasks := tasks_settleCall w call p
  exact ⟨rfl, rfl, rfl, htasks.filter _, rfl⟩

theorem aloof_getOrLoad (w : World V) (name : String) (loader : Loader V) :
    w.Aloof (w.getOrLoad name loader).2 := by
  have hlook := aloof_lookup w name
  rw [getOrLoad_eq]
  cases (w.cache.lookup w.now name).1 with
  | some found => exact hlook.trans (leads_considerRefresh _ _ _ _).aloof
  | none => exact hlook.trans (leads_joinLoad _ _ _).aloof

/-! ### Offers to the archive -/

/-- The world after a value has been offered to the archive, if there is one. -/
def offered (w : World V) (o : Option (String × V)) (inRuntime : Bool) : World V :=
  match o with
  | some (name, v) => w.requestSave name v inRuntime
  | none => w

theorem offered_eq (w : World V) (name : String) (v : V) (inRuntime : Bool) :
    w.offered (some (name, v)) inRuntime =
      if !w.cache.config.persists then w
      else if w.cache.permits = 0 || !inRuntime then
        { w with cache.counters.persistDropped := w.cache.counters.persistDropped + 1 }
      else { w with cache.permits := w.cache.permits - 1 }.spawn (.save name v) := by
  by_cases hfree : (decide (w.cache.permits = 0) || !inRuntime) = true <;>
    simp only [offered, requestSave, Cache.requestSave, hfree] <;> split <;> rfl

theorem Aloof.offered (h : w.Aloof w') (o : Option (String × V)) (inRuntime : Bool) :
    (w.offered o inRuntime).Aloof (w'.offered o inRuntime) := by
  obtain _ | ⟨name, v⟩ := o
  · exact h
  · rw [offered_eq, offered_eq, h.persists, h.permits]
    split
    · exact h
    · split
      · exact ⟨h.persists, h.permits, congrArg (· + 1) h.dropped, h.tasks, h.events⟩
      · refine ⟨h.persists, rfl, h.dropped, ?_, h.events⟩
        have hspawn (u : World V) := (tasks_spawn u (.save name v)).filter Task.isSave
        exact (hspawn _).trans ((h.tasks.cons _).trans (hspawn _).symm)

theorem aloof_add (w : World V) (name : String) (e : Entry V) :
    w.Aloof { w with cache := w.cache.add name e } := .of_cache rfl rfl rfl

theorem aloof_forfeit (w : World V) (name : String) :
    w.Aloof { w with cache := w.cache.forfeit name } := .of_cache rfl rfl rfl

theorem value?_write {name : String} {value : Option V} {ttl : Duration} {e : Entry V}
    (h : w.cache.entry w.now name value ttl = .ok e) :
    (Deed.write name e).value? = value.map fun v => (name, v) :=
  congrArg (Option.map _) (entry_fields h).1

theorem aloof_write (w : World V) (name : String) (value : Option V) (ttl : Duration)
    (keep inRuntime : Bool) :
    (w.offered (if keep then (w.writing? name value ttl).bind Deed.value? else none)
      inRuntime).Aloof (w.write name value ttl keep inRuntime).2 := by
  rcases w.write_cases name value ttl keep inRuntime with
    ⟨crash, he, hw⟩ | ⟨e, he, hfits, hw⟩ | ⟨e, he, hfits, hw⟩
  · rw [hw, writing?_of_error he]
    cases keep <;> exact .refl w
  · rw [hw, writing?_of_ok he, if_neg hfits]
    cases keep <;> exact aloof_forfeit w name
  · have hadd := aloof_add w name e
    rw [hw, writing?_of_ok he, if_pos hfits, Option.bind_some, value?_write he]
    cases value with
    | none => cases keep <;> exact hadd
    | some v =>
      cases keep with
      | false => exact hadd
      | true => exact hadd.offered (some (name, v)) inRuntime

theorem aloof_perform (w : World V) (inRuntime : Bool) (op : Op V) :
    (w.offered (w.fresh? (some op) none none) inRuntime).Aloof (w.perform inRuntime op).2 := by
  cases op with
  | set name value ttl =>
    rw [perform_set]
    exact aloof_write w name (some value) (ttl.getD w.cache.config.defaultTtl) true inRuntime
  | get name => exact aloof_lookup w name
  | contains name => exact .refl w
  | isLoading name => exact .refl w
  | delete name => exact .of_cache rfl rfl rfl
  | purge => exact .of_cache rfl rfl rfl
  | purgeShard index => exact aloof_purgeShard w index

theorem aloof_storeAndPublish (w : World V) (y : Yield V) :
    (w.offered (w.fresh? none none (some y)) true).Aloof
      (w.storeAndPublish y.call y.value y.ttl y.keep) := by
  have h := aloof_write w y.call.key y.value y.ttl y.keep true
  have hfresh : w.fresh? none none (some y) =
      if y.keep then (w.writing? y.call.key y.value y.ttl).bind Deed.value? else none := by
    cases hkeep : y.keep <;> simp [fresh?, hkeep, deed?, Yield.deed?]
  rw [← hfresh] at h
  rw [storeAndPublish_eq]
  exact h.trans (aloof_settleCall _ _ _)

theorem aloof_conclude (w : World V) {r : Running V} {product : Loaded V}
    (h : r.product? = some product) :
    (w.offered (w.fresh? none none (r.yield? w)) true).Aloof
      (w.conclude r.call r.cause product) := by
  rw [conclude_eq w h]
  cases r.yield? w with
  | none => exact aloof_settleCall w _ _
  | some y => exact aloof_storeAndPublish w y

theorem aloof_failLoad (w : World V) (call : Call) (text : String) :
    w.Aloof (w.failLoad call text) := by
  have hcount : w.Aloof { w with
    cache.counters.loadFailures := w.cache.counters.loadFailures + 1 } := .of_cache rfl rfl rfl
  exact hcount.trans (aloof_settleCall _ _ _)

theorem aloof_carryOut (w : World V) (r : Running V) :
    (w.offered (w.fresh? r.op? r.offer? (r.yield? w)) true).Aloof (w.carryOut r).1 := by
  obtain ⟨call, cause, script, last⟩ := r
  cases script with
  | done product => exact aloof_conclude w (r := ⟨call, cause, .done product, last⟩) rfl
  | relay => exact aloof_conclude w (r := ⟨call, cause, .relay, last⟩) rfl
  | fail text => exact aloof_failLoad w call text
  | crash text => exact aloof_settleCall w _ _
  | await gate rest =>
    simp only [carryOut]
    split
    · exact .refl w
    · exact .of_cons rfl rfl (tasks_park w _) rfl
  | act op rest =>
    have h := aloof_perform w true op
    rw [carryOut_act]
    split
    · exact h.trans (aloof_settleCall _ _ _)
    · exact h
  | fetch name tag loader rest =>
    have h := aloof_getOrLoad w name ⟨tag, loader⟩
    rw [carryOut_fetch]
    dsimp only
    split
    · exact h
    · exact h.trans (.of_cons rfl rfl (tasks_park _ _) rfl)

/-! ### Tasks -/

theorem aloof_checkSlot (w : World V) (caller : Nat) (name : String) (slot : Nat)
    (token : Option String) : w.Aloof (w.checkSlot caller name slot token) :=
  (closes_checkSlot w caller name slot token).aloof nofun

theorem fresh?_restored (w : World V) (call : Call) :
    w.fresh? none none (w.restored? call) = none := by
  cases h : w.restored? call with
  | none => rfl
  | some y =>
    unfold restored? at h
    split at h
    · cases h
    · obtain ⟨v, -, rfl⟩ := Option.map_eq_some_iff.mp h
      rfl

/-- What comes from the archive is not offered to it again. -/
theorem aloof_restore (w : World V) (call : Call) (loader : Loader V) :
    w.Aloof (w.restore call loader).1 := by
  have hlog : w.Aloof (w.log (.restore call.key w.archive.data[call.key]?.isSome)) := .log w rfl
  cases h : w.restored? call with
  | some y =>
    have hy := aloof_storeAndPublish (w.log (.restore call.key true)) y
    have hfresh := fresh?_restored (w.log (.restore call.key true)) call
    change World.fresh? _ none none (w.restored? call) = none at hfresh
    rw [← h, hfresh] at hy
    rw [(restore_of_restored? h loader).2]
    exact (Aloof.log w rfl).trans hy
  | none =>
    unfold restored? at h
    unfold restore
    dsimp only
    split
    · exact hlog.trans (aloof_settleCall _ _ _)
    · rename_i hcrash
      rw [if_neg hcrash, Option.map_eq_none_iff] at h
      rw [h]
      exact (Aloof.log w rfl).trans (.log _ rfl)

theorem aloof_begin (w : World V) (call : Call) (cause : Cause) (loader : Loader V) :
    w.Aloof (w.begin call cause loader).1 := by
  cases cause with
  | refresh => exact .log w rfl
  | miss =>
    simp only [begin]
    split
    · split
      · exact .of_cons rfl rfl (tasks_park w _) rfl
      · exact aloof_restore w call loader
    · exact .log w rfl

theorem aloof_checkFetch (w : World V) (call : Call) (cause : Cause) (name : String)
    (slot : Nat) (rest : Script V) : w.Aloof (w.checkFetch call cause name slot rest).1 := by
  unfold checkFetch
  split
  · exact .refl w
  · exact aloof_failLoad w call _
  · exact .of_cons rfl rfl (tasks_park w _) rfl

theorem aloof_enter (w : World V) {t : Task V} (ht : t.isSave = false) :
    w.Aloof (w.enter t).1 := by
  cases t with
  | request caller name loader token =>
    have h := aloof_getOrLoad w name loader
    rw [enter_request]
    dsimp only
    split
    · exact h.trans (.of_perm rfl rfl (.refl _))
    · exact h.trans (aloof_checkSlot _ _ _ _ _)
  | waiter caller name slot token => exact aloof_checkSlot w caller name slot token
  | start call cause loader => exact aloof_begin w call cause loader
  | restoring call loader => exact aloof_restore w call loader
  | paused call cause gate last rest =>
    simp only [enter]
    split
    · exact .refl w
    · exact .of_cons rfl rfl (tasks_park w _) rfl
  | fetching call cause name slot rest => exact aloof_checkFetch w call cause name slot rest
  | save name value => cases ht
  | saving name value => cases ht

/-! ### The books -/

/-- From the one world to the other the saves `new` were requested and `refused` offers dropped. No
permit is lost on the way. -/
structure Books (new : List (String × V)) (refused : Nat) (w w' : World V) : Prop where
  saves : w'.saves.Perm (new ++ w.saves)
  dropped : w'.cache.counters.persistDropped = w.cache.counters.persistDropped + refused
  permits : w'.cache.permits + w'.outstanding = w.cache.permits + w.outstanding
  ended : w'.savesEnded + w'.outstanding = w.savesEnded + w.outstanding + new.length

theorem Books.refl (w : World V) : w.Books [] 0 w := ⟨.refl _, rfl, rfl, rfl⟩

theorem Books.trans {new new' : List (String × V)} {refused refused' : Nat}
    (h : Books new refused w w') (h' : Books new' refused' w' w'') :
    Books (new' ++ new) (refused + refused') w w'' where
  saves := by
    rw [List.append_assoc]
    exact h'.saves.trans (h.saves.append_left _)
  dropped := by rw [h'.dropped, h.dropped, Nat.add_assoc]
  permits := h'.permits.trans h.permits
  ended := by
    have := h.ended
    have := h'.ended
    rw [List.length_append]
    omega

theorem filterMap_filter_save (l : List (Task V)) :
    (l.filter Task.isSave).filterMap Task.save? = l.filterMap Task.save? := by
  rw [List.filterMap_filter]
  exact List.filterMap_congr fun t _ => by cases t <;> rfl

theorem filterMap_filter_ofSave (l : List (Event V)) :
    (l.filter Event.ofSave).filterMap Event.save? = l.filterMap Event.save? := by
  rw [List.filterMap_filter]
  exact List.filterMap_congr fun e _ => by cases e <;> rfl

theorem countP_filter_ofSave (l : List (Event V)) :
    (l.filter Event.ofSave).countP Event.endsSave = l.countP Event.endsSave := by
  rw [List.countP_filter]
  exact List.countP_congr fun e _ => by cases e <;> simp [Event.endsSave, Event.ofSave]

theorem Aloof.outstanding (h : w.Aloof w') : w'.outstanding = w.outstanding := by
  rw [World.outstanding, World.outstanding, List.countP_eq_length_filter,
    List.countP_eq_length_filter]
  exact h.tasks.length_eq

theorem Aloof.savesEnded (h : w.Aloof w') : w'.savesEnded = w.savesEnded := by
  rw [World.savesEnded, World.savesEnded, ← countP_filter_ofSave, h.events, countP_filter_ofSave]

theorem Aloof.books (h : w.Aloof w') : Books [] 0 w w' where
  saves := by
    have htasks := h.tasks.filterMap Task.save?
    rw [filterMap_filter_save, filterMap_filter_save] at htasks
    have hevents := congrArg (List.filterMap Event.save?) h.events
    rw [filterMap_filter_ofSave, filterMap_filter_ofSave] at hevents
    rw [World.saves, hevents]
    exact htasks.append_left _
  dropped := h.dropped
  permits := by rw [h.permits, h.outstanding]
  ended := by rw [h.savesEnded, h.outstanding]; rfl

theorem books_spawn (w : World V) (name : String) (v : V) (hfree : 0 < w.cache.permits) :
    Books [(name, v)] 0 w
      ({ w with cache.permits := w.cache.permits - 1 }.spawn (.save name v)) := by
  let w' := { w with cache.permits := w.cache.permits - 1 }.spawn (.save name v)
  have htasks : w'.tasks.Perm (.save name v :: w.tasks) := tasks_spawn _ _
  have hout : w'.outstanding = w.outstanding + 1 :=
    (htasks.countP_eq _).trans (List.countP_cons_of_pos rfl)
  refine ⟨?_, rfl, ?_, ?_⟩
  · exact ((htasks.filterMap Task.save?).append_left _).trans List.perm_middle
  · change w.cache.permits - 1 + w'.outstanding = _
    omega
  · change w.savesEnded + w'.outstanding = _
    rw [hout]
    rfl

/-- An offer becomes a save, which takes a permit, or it is dropped. -/
def Answers (w : World V) (o : Option (String × V)) (inRuntime : Bool) (w' : World V) : Prop :=
  if 0 < w.cache.permits ∧ inRuntime then Books o.toList 0 w w'
  else Books [] o.toList.length w w'

theorem Books.answers (h : Books [] 0 w w') (inRuntime : Bool) : w.Answers none inRuntime w' := by
  unfold Answers
  split <;> exact h

theorem Aloof.answers {o : Option (String × V)} {inRuntime : Bool}
    (h : (w.offered o inRuntime).Aloof w') (hpersists : w.cache.config.persists = true) :
    w.Answers o inRuntime w' := by
  obtain _ | ⟨name, v⟩ := o
  · exact h.books.answers inRuntime
  · have hp : ¬(!w.cache.config.persists) = true := by simp [hpersists]
    rw [offered_eq, if_neg hp] at h
    unfold Answers
    split
    · rename_i hfree
      rw [if_neg (by simp [Nat.ne_of_gt hfree.1, hfree.2])] at h
      exact (books_spawn w name v hfree.1).trans h.books
    · rename_i hfull
      have hrefused : (decide (w.cache.permits = 0) || !inRuntime) = true := by
        simp at hfull ⊢
        grind
      rw [if_pos hrefused] at h
      have hdrop : Books [] 1 w
          { w with cache.counters.persistDropped := w.cache.counters.persistDropped + 1 } :=
        ⟨.refl _, rfl, rfl, rfl⟩
      exact hdrop.trans h.books

theorem endSave_eq (w : World V) (name : String) (value : V) :
    (w.endSave name value).cache = w.cache.endSave ∧
      (w.endSave name value).tasks = w.tasks ∧
      (w.endSave name value).events = .saveEnd name w.archive.saveMode :: w.events := by
  unfold endSave
  dsimp only
  split <;> exact ⟨rfl, rfl, rfl⟩

/-- A save that ends gives its permit back, however it ends. -/
theorem books_endSave {name : String} {value : V} (hcache : w'.cache = w.cache)
    (hevents : w'.events = w.events) (htasks : w.tasks.Perm (.saving name value :: w'.tasks)) :
    Books [] 0 w (w'.endSave name value) := by
  obtain ⟨hcache', htasks', hevents'⟩ := endSave_eq w' name value
  have hout : w.outstanding = w'.outstanding + 1 :=
    (htasks.countP_eq _).trans (List.countP_cons_of_pos rfl)
  have hout' : (w'.endSave name value).outstanding = w'.outstanding := by
    rw [outstanding, outstanding, htasks']
  have hended : (w'.endSave name value).savesEnded = w.savesEnded + 1 := by
    rw [savesEnded, hevents', hevents, List.countP_cons_of_pos rfl]
    rfl
  refine ⟨?_, ?_, ?_, ?_⟩
  · rw [saves, saves, hevents', htasks', ← hevents]
    exact (htasks.filterMap Task.save?).symm.append_left _
  · rw [hcache', hcache]
    rfl
  · rw [hout', hout, hcache', hcache]
    exact Nat.succ_add_eq_add_succ w.cache.permits _
  · rw [hout', hout, hended, List.length_nil]
    omega

/-- A save that begins holds the permit that it was requested with. -/
theorem books_beginSave {name : String} {value : V} (hcache : w'.cache = w.cache)
    (hevents : w'.events = w.events) (htasks : w.tasks.Perm (.save name value :: w'.tasks)) :
    Books [] 0 w (w'.beginSave name value) := by
  let begun := (w'.log (.save name value)).park (.saving name value)
  have hbegun : begun.tasks.Perm (.saving name value :: w'.tasks) := tasks_park _ _
  have hbooks : Books [] 0 w begun := by
    have hout : begun.outstanding = w.outstanding := by
      rw [outstanding, outstanding, hbegun.countP_eq, htasks.countP_eq]
      rfl
    refine ⟨?_, ?_, ?_, ?_⟩
    · rw [saves, saves, ← hevents]
      have hold := (htasks.filterMap Task.save?).append_left (w'.events.filterMap Event.save?)
      have hnew := (hbegun.filterMap Task.save?).append_left (begun.events.filterMap Event.save?)
      exact hnew.trans (List.perm_middle.symm.trans hold.symm)
    · exact congrArg (·.counters.persistDropped) hcache
    · rw [hout, ← hcache]
      rfl
    · rw [hout, savesEnded, savesEnded, ← hevents]
      rfl
  have hend : Books [] 0 begun ((w'.log (.save name value)).endSave name value) :=
    books_endSave rfl rfl hbegun
  unfold beginSave
  dsimp only
  split
  · exact hbooks
  · exact hbooks.trans hend

/-- `limit` permits are free or held by saves that have not ended, and of `offers` values each was
saved or dropped. -/
structure Accounted (limit offers : Nat) (w : World V) : Prop where
  permits : w.cache.permits + w.outstanding = limit
  ended : w.saves.length = w.savesEnded + w.outstanding
  offers : offers = w.saves.length + w.cache.counters.persistDropped

theorem Accounted.books {limit offers refused : Nat} {new : List (String × V)}
    (h : Accounted limit offers w) (hb : Books new refused w w') :
    Accounted limit (offers + (new.length + refused)) w' := by
  obtain ⟨hpermits, hended, hoffers⟩ := h
  have hsaves := hb.saves.length_eq
  rw [List.length_append] at hsaves
  have hdropped := hb.dropped
  have hpermits' := hb.permits
  have hended' := hb.ended
  constructor <;> omega

theorem Accounted.answers {limit offers : Nat} {o : Option (String × V)} {inRuntime : Bool}
    (h : Accounted limit offers w) (ha : w.Answers o inRuntime w') :
    Accounted limit (offers + o.toList.length) w' := by
  unfold Answers at ha
  split at ha
  · exact h.books ha
  · have hb := h.books ha
    rwa [List.length_nil, Nat.zero_add] at hb

/-! ### Moves -/

theorem aloof_wakeAt (w : World V) (i : Nat) : w.Aloof (w.wakeAt i) := by
  have htasks := tasks_wakeAt w i
  unfold wakeAt at htasks ⊢
  split
  · rename_i t ht
    rw [ht] at htasks
    exact .of_perm rfl rfl htasks
  · exact .refl w

theorem books_enterAt (w : World V) (i : Nat) : Books [] 0 w (w.enterAt i).1 := by
  unfold enterAt
  split
  · rename_i t ht
    have htasks := tasks_of_ready ht
    have hother (hsave : t.isSave = false) :
        Books [] 0 w ({ w with ready := w.ready.eraseIdx i }.enter t).1 := by
      have htaken : { w with ready := w.ready.eraseIdx i }.Aloof w := .of_cons rfl rfl htasks hsave
      exact (htaken.symm.trans (aloof_enter _ hsave)).books
    cases t with
    | save name value => exact books_beginSave rfl rfl htasks
    | saving name value => exact books_endSave rfl rfl htasks
    | _ => exact hother rfl
  · exact .refl w

theorem aloof_effect (w : World V) (command : Command V) :
    (w.offered (match command with
      | .perform op _ => w.fresh? (some op) none none
      | _ => none) (Move.outside command).inRuntime).Aloof (w.effect command) := by
  cases command with
  | perform op inRuntime =>
    rw [effect_perform]
    exact aloof_perform w inRuntime op
  | request name loader token =>
    exact .of_cons rfl rfl (tasks_spawn { w with callers := w.callers + 1 } _) rfl
  | cancel token => exact .of_perm rfl rfl (tasks_wake _ _)
  | dropCaller caller =>
    refine ⟨rfl, rfl, rfl, ?_, rfl⟩
    have hfilter : (w.effect (.dropCaller caller)).tasks =
        w.tasks.filter fun t => t.caller? != some caller := by
      rw [tasks, tasks, List.filter_append]
      rfl
    rw [hfilter, List.filter_filter]
    refine .of_eq (List.filter_congr fun t _ => ?_)
    cases t <;> simp [Task.isSave, Task.caller?]
  | _ => exact .of_perm rfl rfl (.refl _)

end World

namespace Moment

variable {m : Moment V}

theorem fresh?_task (w : World V) (t : Task V) : w.fresh? none t.offer? (t.yield? w) = none := by
  cases t with
  | start call cause loader =>
    cases cause with
    | refresh => rfl
    | miss =>
      simp only [Task.yield?]
      split
      · exact World.fresh?_restored _ _
      · rfl
  | restoring call loader => exact World.fresh?_restored _ _
  | _ => rfl

/-- A task that begins to run writes at most what the archive gives back. -/
theorem fresh?_run (m : Moment V) (i : Nat) : m.fresh? (.run i) = none := by
  unfold fresh?
  cases hr : m.running with
  | some r => simp [op?, offer?, yield?, hr, World.fresh?, World.deed?]
  | none =>
    cases ht : m.world.ready[i]? with
    | none => simp [op?, offer?, yield?, hr, ht, World.fresh?, World.deed?]
    | some t =>
      rw [offer?_run hr ht]
      simp only [op?, yield?, hr, ht, Option.isNone_none, if_true, Option.bind_some]
      exact fresh?_task m.world t

/-- A move that writes a fresh value requests a save of it or drops the offer; no other move does
either. -/
theorem answers_step (hpersists : m.world.cache.config.persists = true) (move : Move V) :
    m.world.Answers (m.fresh? move) move.inRuntime (m.step move).world := by
  change m.world.Answers _ _ (m.next move).1
  obtain ⟨w, running, ended⟩ := m
  have hsame (inRuntime : Bool) : w.Answers none inRuntime w := (World.Books.refl w).answers _
  cases running with
  | some r =>
    cases move with
    | goOn =>
      refine World.Aloof.answers ?_ hpersists
      rw [fresh?, offer?_goOn rfl]
      exact World.aloof_carryOut w r
    | outside command => cases command <;> exact hsame _
    | archive archive => exact hsame _
    | wake i => exact hsame _
    | run i => exact hsame _
  | none =>
    cases move with
    | goOn => exact hsame _
    | outside command =>
      have h := (World.aloof_effect w command).answers hpersists
      cases command <;> exact h
    | archive archive =>
      have h : w.Aloof { w with archive } := .of_perm rfl rfl (.refl _)
      exact h.books.answers _
    | wake i => exact (World.aloof_wakeAt w i).books.answers _
    | run i =>
      rw [fresh?_run]
      exact (World.books_enterAt w i).answers _

theorem accounted_run {limit offers : Nat} (hpersists : m.world.cache.config.persists = true)
    (h : m.world.Accounted limit offers) (moves : List (Move V)) :
    (m.run moves).world.Accounted limit
      (offers + m.count (fun m move => (m.fresh? move).isSome) moves) := by
  induction moves generalizing m offers with
  | nil => exact h
  | cons move moves ih =>
    have hconfig : (m.step move).world.cache.config = m.world.cache.config := config_run m [move]
    have hlater := ih (hconfig ▸ hpersists) (h.answers (answers_step hpersists move))
    rw [Option.length_toList, Nat.add_assoc] at hlater
    exact hlater

/-- Free permits and outstanding saves add up to the limit, and every value that is written anew
gives one save of it or is counted as dropped. -/
theorem saves_accounted (config : Config V) (hpersists : config.persists = true)
    (moves : List (Move V)) :
    let m := (new config).run moves
    m.world.cache.permits + m.world.outstanding = config.persistLimit ∧
    m.world.saves.length = m.world.savesEnded + m.world.outstanding ∧
    (new config).count (fun m move => (m.fresh? move).isSome) moves =
      m.world.saves.length + m.world.cache.counters.persistDropped ∧
    ∀ move, let w' := (m.step move).world
      match m.fresh? move with
      | none => w'.saves.Perm m.world.saves ∧
          w'.cache.counters.persistDropped = m.world.cache.counters.persistDropped
      | some saved =>
        if 0 < m.world.cache.permits ∧ move.inRuntime then
          w'.saves.Perm (saved :: m.world.saves) ∧
            w'.cache.counters.persistDropped = m.world.cache.counters.persistDropped
        else w'.saves.Perm m.world.saves ∧
          w'.cache.counters.persistDropped = m.world.cache.counters.persistDropped + 1 := by
  intro m
  have hnew : (new config).world.Accounted config.persistLimit 0 := ⟨rfl, rfl, rfl⟩
  obtain ⟨hpermits, hended, hoffers⟩ := accounted_run hpersists hnew moves
  refine ⟨hpermits, hended, (Nat.zero_add _).symm.trans hoffers, fun move => ?_⟩
  have hp : m.world.cache.config.persists = true := (config_run (new config) moves) ▸ hpersists
  have hstep := answers_step hp move
  unfold World.Answers at hstep
  cases hfresh : m.fresh? move with
  | none =>
    rw [hfresh] at hstep
    split at hstep <;> exact ⟨hstep.saves, hstep.dropped⟩
  | some saved =>
    rw [hfresh] at hstep
    dsimp only
    split <;> rename_i hfree
    · rw [if_pos hfree] at hstep
      exact ⟨hstep.saves, hstep.dropped⟩
    · rw [if_neg hfree] at hstep
      exact ⟨hstep.saves, hstep.dropped⟩

/-- With one permit, the second value is not saved while the save of the first one waits. -/
def savingOne : List (Move Nat) :=
  [.archive { data := (∅ : Std.ExtTreeMap String Nat).insert "c" 3, gated := true },
    .outside (.perform (.set "a" 1)), .run 0, .outside (.perform (.set "b" 2)),
    .outside (.request "c" ⟨none, .done (.ofValue 4)⟩), .run 0, .run 0,
    .archive { saveMode := .fail }, .wake 0, .run 1, .outside (.perform (.set "a" 5) false)]

theorem saves_accounted_one_permit :
    let config : Config Nat := { persists := true, persistLimit := 1, weigh := fun _ _ => .ok 1 }
    let m := (new config).run savingOne
    config.persists = true ∧
      m.world.saves = [("a", 1)] ∧ m.world.savesEnded = 1 ∧
      m.world.cache.counters.persistDropped = 2 ∧
      m.world.cache.permits + m.world.outstanding = 1 ∧
      (new config).count (fun m move => (m.fresh? move).isSome) savingOne = 3 := by
  refine ⟨rfl, by decide +kernel, by decide +kernel, by decide +kernel, ?_, by decide +kernel⟩
  exact (saves_accounted _ rfl savingOne).1

end Moment

end Stockroom.Cache

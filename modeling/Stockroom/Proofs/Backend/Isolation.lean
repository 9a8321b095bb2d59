import Stockroom.Backend.Shared
import Stockroom.Proofs.Backend.Tiers
import Stockroom.Proofs.Cache.OneName

/-! Stores under different namespaces that share a state do not notice each other, unless the one
namespace encloses the other. -/

namespace Stockroom
set_option autoImplicit false

/-! ### Keys -/

theorem toList_namespacedKey {space : String} (h : space ≠ "") (key : String) :
    (namespacedKey space key).toList =
      '\x7b' :: (space.toList ++ '\x7d' :: key.toList) := by
  rw [namespacedKey_of_ne h]
  simp

theorem toList_append_brace (space : String) : (space ++ "\x7d").toList = space.toList ++ ['\x7d'] := by
  simp

/-- Of two lists that begin one list, one begins the other. -/
theorem exists_append_cons_eq_iff {l l' : List Char} {c : Char} (hne : l ≠ l') :
    (∃ j k, l ++ c :: j = l' ++ c :: k) ↔ l ++ [c] <+: l' ∨ l' ++ [c] <+: l := by
  constructor
  · rintro ⟨j, k, h⟩
    rcases List.append_eq_append_iff.mp h with ⟨a, rfl, ha⟩ | ⟨a, rfl, ha⟩
    · obtain _ | ⟨x, a⟩ := a
      · exact absurd (List.append_nil l).symm hne
      · obtain ⟨rfl, -⟩ := List.cons.inj ha
        exact Or.inl ⟨a, by simp⟩
    · obtain _ | ⟨x, a⟩ := a
      · exact absurd (List.append_nil l') hne
      · obtain ⟨rfl, -⟩ := List.cons.inj ha
        exact Or.inr ⟨a, by simp⟩
  · rintro (⟨a, rfl⟩ | ⟨a, rfl⟩)
    · exact ⟨a ++ c :: [], [], by simp⟩
    · exact ⟨[], a ++ c :: [], by simp⟩

theorem exists_namespacedKey_eq_iff {m n : String} (hm : m ≠ "") (hn : n ≠ "") (hmn : m ≠ n) :
    (∃ j k, namespacedKey m j = namespacedKey n k) ↔ Encloses m n ∨ Encloses n m := by
  have hne : m.toList ≠ n.toList := fun h => hmn (String.toList_inj.mp h)
  rw [Encloses, Encloses, toList_append_brace, toList_append_brace,
    ← exists_append_cons_eq_iff hne]
  constructor
  · rintro ⟨j, k, h⟩
    have hlist := congrArg String.toList h
    rw [toList_namespacedKey hm, toList_namespacedKey hn] at hlist
    exact ⟨j.toList, k.toList, (List.cons.inj hlist).2⟩
  · rintro ⟨j, k, h⟩
    refine ⟨.ofList j, .ofList k, String.toList_inj.mp ?_⟩
    rw [toList_namespacedKey hm, toList_namespacedKey hn]
    simpa using h

/-! ### Operations that ask about one key -/

section
variable {σ V α β : Type} {key : String} {alike : String → σ → σ → Prop}
  {bad : Except Fault α → Prop}

theorem keyed_read {f : σ → Except Fault α} (hf : ∀ key s t, alike key s t → f s = f t)
    (key : String) : Act.KeyedBut bad (fun s => (f s, s)) key alike where
  own s t h _ _ := ⟨hf key s t h, h⟩
  aside _ _ _ _ h := h

theorem keyed_pure (a : Except Fault α) (key : String) (alike : String → σ → σ → Prop) :
    Act.KeyedBut bad (fun s => (a, s)) key alike := keyed_read (fun _ _ _ _ => rfl) key

/-- What follows an operation may depend on its answer. -/
theorem Act.KeyedBut.bind {act : Act σ β} {act' : Act σ α} (h : Act.Keyed act key alike)
    (hnext : ∀ a, ∃ next : Act σ α, Act.KeyedBut bad next key alike ∧
      ∀ s s', act s = (a, s') → act' s = next s') : Act.KeyedBut bad act' key alike where
  own s t hst := by
    obtain ⟨hanswer, halike⟩ := h.own s t hst not_false not_false
    obtain ⟨next, hkeyed, heq⟩ := hnext (act s).1
    rw [heq s _ rfl, heq t (act t).2 (Prod.ext hanswer.symm rfl)]
    exact hkeyed.own _ _ halike
  aside other s t hne hst := by
    obtain ⟨next, hkeyed, heq⟩ := hnext (act s).1
    rw [heq s _ rfl]
    exact hkeyed.aside other _ _ hne (h.aside other s t hne hst)

end

section
variable {σ V : Type} {key : String} {alike : String → σ → σ → Prop}
  {bad : Except Fault Bool → Prop}

namespace Backend.KeyedBut

theorem namespaced {b : Backend σ V} (h : Backend.KeyedBut bad b id alike) (space : String) :
    Backend.KeyedBut bad (b.namespaced space) (namespacedKey space) alike where
  symm := h.symm
  get key := h.get (namespacedKey space key)
  set key value ttl := h.set (namespacedKey space key) value ttl
  del key := h.del (namespacedKey space key)

variable [Wire V]

section
variable {t : Tiered σ V} {far : Backend σ String}

omit [Wire V] in
theorem keyed_wall (hwall : ∀ key s s', alike key s s' → t.wall s = t.wall s') (key : String) :
    Act.Keyed (fun s => (.ok (t.wall s), s)) key alike :=
  keyed_read (fun key s s' h => congrArg Except.ok (hwall key s s' h)) key

theorem getFar (hfar : far.Keyed id alike)
    (hwall : ∀ key s s', alike key s s' → t.wall s = t.wall s') (key : String) :
    Act.Keyed (t.getFar far key) key alike := by
  have hat (wall : UInt64) :
      Act.Keyed ({ t with wall := fun _ => wall }.getFar far key) key alike := by
    refine (hfar.get key).bind ?_
    rintro ((failure | crash) | _ | text)
    · exact ⟨_, keyed_pure (.ok none) key alike, fun s s' he => by simp only [Tiered.getFar, he]⟩
    · exact ⟨_, keyed_pure (.error (.crashed crash)) key alike,
        fun s s' he => by simp only [Tiered.getFar, he]⟩
    · exact ⟨_, keyed_pure (.ok none) key alike, fun s s' he => by simp only [Tiered.getFar, he]⟩
    · exact ⟨_, keyed_pure (Tiered.open? wall text) key alike,
        fun s s' he => by simp only [Tiered.getFar, he]⟩
  refine (keyed_wall hwall key).bind ?_
  rintro (fault | wall)
  · exact ⟨_, keyed_pure (.error fault) _ alike, fun _ _ he => by cases he⟩
  · refine ⟨_, hat wall, ?_⟩
    rintro s s' ⟨⟩
    rfl

omit [Wire V] in
theorem setFar (hnear : Backend.KeyedBut bad (Backend.memory t.near) id alike)
    (hfar : far.Keyed id alike) (key text : String) (value : V) (ttl : Duration) :
    Act.KeyedBut bad (t.setFar far key text value ttl) key alike := by
  refine (hfar.set key text ttl).bind ?_
  rintro ((failure | crash) | _ | _)
  · exact ⟨_, hnear.set key value ttl, fun s s' he => by simp only [Tiered.setFar, he]; rfl⟩
  · exact ⟨_, keyed_pure (.error (.crashed crash)) key alike,
      fun s s' he => by simp only [Tiered.setFar, he]⟩
  · exact ⟨_, hnear.set key value ttl, fun s s' he => by simp only [Tiered.setFar, he]; rfl⟩
  · have hdel : Act.KeyedBut bad (fun s => (.ok true, (t.near.del key s).2)) key alike := by
      refine (hnear.del key).bind fun a => ⟨_, keyed_pure (.ok true) key alike, fun s s' he => ?_⟩
      rw [show t.near.del key s = (a, s') from he]
    exact ⟨_, hdel, fun s s' he => by simp only [Tiered.setFar, he]⟩

omit [Wire V] in
theorem delFar (hfar : far.Keyed id alike) (here : Bool) (key : String) :
    Act.Keyed (fun s => match far.del key s with
      | (.ok there, s') => (.ok (here || there), s')
      | (.error (.failed _), s') => (.ok here, s')
      | (.error crashed, s') => (.error crashed, s')) key alike := by
  refine (hfar.del key).bind ?_
  rintro ((failure | crash) | there)
  · exact ⟨_, keyed_pure (.ok here) key alike, fun s s' he => by simp only [he]⟩
  · exact ⟨_, keyed_pure (.error (.crashed crash)) key alike,
      fun s s' he => by simp only [he]⟩
  · exact ⟨_, keyed_pure (.ok (here || there)) key alike, fun s s' he => by simp only [he]⟩

/-- A store of two tiers asks each of them about the same key. -/
theorem tiered (hnear : Backend.KeyedBut bad (Backend.memory t.near) id alike)
    (hfar : ∀ far, t.far = some far → far.Keyed id alike)
    (hwall : ∀ key s s', alike key s s' → t.wall s = t.wall s') :
    Backend.KeyedBut bad (Backend.tiered t) (namespacedKey t.space) alike where
  symm := hnear.symm
  get key := by
    refine (hnear.get (namespacedKey t.space key)).bind ?_
    rintro (fault | _ | v)
    · refine ⟨_, keyed_pure (.error fault) _ alike, fun s s' he => ?_⟩
      have he : t.near.get (namespacedKey t.space key) s = (.error fault, s') := he
      simp only [Backend.tiered, Tiered.get, he]
    · cases hf : t.far with
      | none =>
        refine ⟨_, keyed_pure (.ok none) _ alike, fun s s' he => ?_⟩
        have he : t.near.get (namespacedKey t.space key) s = (.ok none, s') := he
        simp only [Backend.tiered, Tiered.get, he, hf]
      | some far =>
        refine ⟨_, getFar (hfar far hf) hwall _, fun s s' he => ?_⟩
        have he : t.near.get (namespacedKey t.space key) s = (.ok none, s') := he
        simp only [Backend.tiered, Tiered.get, he, hf, id_eq]
    · refine ⟨_, keyed_pure (.ok (some v)) _ alike, fun s s' he => ?_⟩
      have he : t.near.get (namespacedKey t.space key) s = (.ok (some v), s') := he
      simp only [Backend.tiered, Tiered.get, he]
  set key value ttl := by
    cases hf : t.far with
    | none =>
      have hset : (Backend.tiered t).set key value ttl =
          t.near.set (namespacedKey t.space key) value ttl := by
        funext s
        simp only [Backend.tiered, Tiered.set, hf]
      rw [hset]
      exact hnear.set _ value ttl
    | some far =>
      refine (keyed_wall hwall _).bind ?_
      rintro (fault | wall)
      · exact ⟨_, keyed_pure (.error fault) _ alike, fun _ _ he => by cases he⟩
      · cases hencode : (Tiered.wrap wall value ttl).encode with
        | none =>
          refine ⟨_, keyed_pure (.error (.failed .codec)) _ alike, ?_⟩
          rintro s s' ⟨⟩
          simp only [Backend.tiered, Tiered.set, hf, hencode]
        | some text =>
          refine ⟨_, setFar hnear (hfar far hf) _ text value ttl, ?_⟩
          rintro s s' ⟨⟩
          simp only [Backend.tiered, Tiered.set, hf, hencode]
  del key := by
    refine (hnear.del (namespacedKey t.space key)).bind ?_
    rintro (fault | here)
    · refine ⟨_, keyed_pure (.error fault) _ alike, fun s s' he => ?_⟩
      have he : t.near.del (namespacedKey t.space key) s = (.error fault, s') := he
      simp only [Backend.tiered, Tiered.del, he]
    · cases hf : t.far with
      | none =>
        refine ⟨_, keyed_pure (.ok here) _ alike, fun s s' he => ?_⟩
        have he : t.near.del (namespacedKey t.space key) s = (.ok here, s') := he
        simp only [Backend.tiered, Tiered.del, he, hf]
      | some far =>
        refine ⟨_, delFar (hfar far hf) here _, fun s s' he => ?_⟩
        have he : t.near.del (namespacedKey t.space key) s = (.ok here, s') := he
        simp only [Backend.tiered, Tiered.del, he, hf]
        rfl

end

end Backend.KeyedBut

end

/-! ### Desks -/

namespace Desk

variable {τ V : Type} {alike : String → τ → τ → Prop}

/-- Two desks that are the same to whoever asks about one key. -/
structure Alike (alike : String → τ → τ → Prop) (key : String) (d e : Desk τ V) : Prop where
  now : d.now = e.now
  wall : d.wall = e.wall
  near : d.near.AgreeAt key e.near
  far : alike key d.far e.far

section
variable {β : Type} {key : String} {bad : Except Fault β → Prop}

/-- An operation on the local cache that asks about one name. -/
theorem keyed_near {f : Instant → Cache V → Except Fault β × Cache V}
    (hown : ∀ now c e, c.AgreeAt key e → ¬ bad (f now c).1 → ¬ bad (f now e).1 →
      (f now c).1 = (f now e).1 ∧ (f now c).2.AgreeAt key (f now e).2)
    (haside : ∀ now other c e, key ≠ other → c.AgreeAt other e → (f now c).2.AgreeAt other e) :
    Act.KeyedBut bad (fun d : Desk τ V => let r := f d.now d.near; (r.1, { d with near := r.2 })) key
      (Alike alike) where
  own d e h hd he := by
    dsimp only at hd he ⊢
    rw [← h.now] at he ⊢
    obtain ⟨hanswer, hnear⟩ := hown d.now d.near e.near h.near hd he
    exact ⟨hanswer, ⟨rfl, h.wall, hnear, h.far⟩⟩
  aside other d e hne h := ⟨h.now, h.wall, haside d.now other _ _ hne h.near, h.far⟩

theorem keyed_far {act : Act τ β} (h : Act.Keyed act key alike) :
    Act.Keyed (Act.on (texts : Part (Desk τ V) τ) act) key (Alike alike) where
  own d e h' _ _ := by
    obtain ⟨hanswer, hfar⟩ := h.own d.far e.far h'.far not_false not_false
    exact ⟨hanswer, ⟨h'.now, h'.wall, h'.near, hfar⟩⟩
  aside other d e hne h' := ⟨h'.now, h'.wall, h'.near, h.aside other _ _ hne h'.far⟩

end

theorem keyed_texts {far : Backend τ String} (h : far.Keyed id alike) :
    (far.on (texts : Part (Desk τ V) τ)).Keyed id (Alike alike) where
  symm key _ _ h' := ⟨h'.now.symm, h'.wall.symm, h'.near.symm, h.symm key _ _ h'.far⟩
  get key := keyed_far (h.get key)
  set key value ttl := keyed_far (h.set key value ttl)
  del key := keyed_far (h.del key)

/-- What a write to a local cache answers and leaves. -/
def store (key : String) (value : V) (ttl : Duration) (now : Instant) (c : Cache V) :
    Except Fault Bool × Cache V :=
  match c.put now key value ttl with
  | (some crash, c') => (.error (.crashed crash), c')
  | (none, c') => (.ok true, c')

theorem store_cases (key : String) (value : V) (ttl : Duration) (now : Instant) (c : Cache V) :
    (∃ crash, c.entry now key (some value) ttl = .error crash ∧
        store key value ttl now c = (.error (.crashed crash), c)) ∨
      (∃ e, c.entry now key (some value) ttl = .ok e ∧
        store key value ttl now c = (.error (.crashed .weightOverflow), c.forfeit key)) ∨
      ∃ e c', c.entry now key (some value) ttl = .ok e ∧
        store key value ttl now c = (.ok true, c') ∧ c'.store = (c.add key e).store := by
  unfold store Cache.put
  rcases c.write_cases now key (some value) ttl with
    ⟨crash, he, hw⟩ | ⟨e, he, -, hw⟩ | ⟨e, he, -, hw⟩ <;> rw [hw]
  · exact .inl ⟨crash, he, rfl⟩
  · exact .inr (.inl ⟨e, he, rfl⟩)
  · refine .inr (.inr ⟨e, _, he, rfl, ?_⟩)
    unfold Cache.requestSave
    dsimp only
    split
    · rfl
    · split <;> rfl

theorem set_memory (key : String) (value : V) (ttl : Duration) :
    (Backend.memory (cache : CacheIn (Desk τ V) V)).set key value ttl = fun d =>
      let r := store key value ttl d.now d.near
      (r.1, { d with near := r.2 }) := by
  funext d
  obtain ⟨now, wall, near, far⟩ := d
  change CacheIn.set cache key value ttl _ = _
  simp only [CacheIn.set, cache, store]
  rcases near.put now key value ttl with ⟨_ | crash, c'⟩ <;> rfl

/-- A write goes the same way in caches that agree, if there is room in both. -/
theorem store_own {key : String} {value : V} {ttl : Duration} {now : Instant} {c e : Cache V}
    (h : c.AgreeAt key e) (hc : ¬ Overflows (store key value ttl now c).1)
    (he : ¬ Overflows (store key value ttl now e).1) :
    (store key value ttl now c).1 = (store key value ttl now e).1 ∧
      (store key value ttl now c).2.AgreeAt key (store key value ttl now e).2 := by
  have hentry := Cache.entry_eq h.config now key (some value) ttl
  rcases store_cases key value ttl now c with
    ⟨crash, hleft, hput⟩ | ⟨entry, hleft, hput⟩ | ⟨entry, c', hleft, hput, hstore⟩
  · rcases store_cases key value ttl now e with
      ⟨crash', hright, hput'⟩ | ⟨entry', hright, -⟩ | ⟨entry', e', hright, -, -⟩
    · cases hleft.symm.trans (hentry.symm.trans hright)
      rw [hput, hput']
      exact ⟨rfl, h⟩
    · cases hleft.symm.trans (hentry.symm.trans hright)
    · cases hleft.symm.trans (hentry.symm.trans hright)
  · rw [hput] at hc
    exact absurd rfl hc
  · rcases store_cases key value ttl now e with
      ⟨crash', hright, -⟩ | ⟨entry', hright, hput'⟩ | ⟨entry', e', hright, hput', hstore'⟩
    · cases hleft.symm.trans (hentry.symm.trans hright)
    · rw [hput'] at he
      exact absurd rfl he
    · cases hleft.symm.trans (hentry.symm.trans hright)
      rw [hput, hput']
      exact ⟨rfl, (h.carry now (some (.write key entry))).of_store hstore hstore'⟩

theorem store_aside {key other : String} {value : V} {ttl : Duration} {now : Instant}
    {c e : Cache V} (hne : key ≠ other) (h : c.AgreeAt other e) :
    (store key value ttl now c).2.AgreeAt other e := by
  rcases store_cases key value ttl now c with
    ⟨crash, -, hput⟩ | ⟨entry, -, hput⟩ | ⟨entry, c', -, hput, hstore⟩ <;> rw [hput]
  · exact h
  · refine h.aside now (some (.forfeit key)) ?_
    rintro _ ⟨⟩
    exact hne
  · refine (h.aside now (some (.write key entry)) ?_).of_store hstore rfl
    rintro _ ⟨⟩
    exact hne

theorem keyed_memory (hsymm : ∀ key s t, alike key s t → alike key t s) :
    Backend.KeyedBut Overflows (Backend.memory (cache : CacheIn (Desk τ V) V)) id (Alike alike) where
  symm key _ _ h := ⟨h.now.symm, h.wall.symm, h.near.symm, hsymm key _ _ h.far⟩
  get key := by
    refine keyed_near (f := fun now c => (.ok (c.value? now key).1, (c.value? now key).2))
      (fun now c e h _ _ => ⟨?_, h.carry now (some (.look key))⟩)
      fun now other c e hne h => h.aside now (some (.look key)) ?_
    · dsimp only [id] at h ⊢
      rw [Cache.value?_fst, Cache.value?_fst, h.live?]
    · rintro _ ⟨⟩
      exact hne
  set key value ttl := by
    rw [set_memory]
    exact keyed_near (f := store key value ttl) (fun _ _ _ h hc he => store_own h hc he)
      fun _ _ _ _ hne h => store_aside hne h
  del key := by
    refine keyed_near (f := fun _ c => (.ok (c.delete key).1, (c.delete key).2))
      (fun now c e h _ _ => ⟨?_, h.carry now (some (.delete key))⟩)
      fun now other c e hne h => h.aside now (some (.delete key)) ?_
    · dsimp only [id] at h ⊢
      rw [h.delete_fst]
    · rintro _ ⟨⟩
      exact hne

end Desk

/-! ### Runs -/

section
variable {σ V : Type} {alike : String → σ → σ → Prop} {stores : String → Backend σ V}
  {bad : Except Fault Bool → Prop}

namespace Backend.KeyedBut

variable {b : Backend σ V} {under : String → String} {s t : σ}

theorem serve_own (h : Backend.KeyedBut bad b under alike) (q : Tiered.Request V)
    (hst : alike (under q.key) s t) (hs : ¬ (b.serve q s).1.Fails bad)
    (ht : ¬ (b.serve q t).1.Fails bad) : (b.serve q s).1 = (b.serve q t).1 ∧
      alike (under q.key) (b.serve q s).2 (b.serve q t).2 := by
  cases q with
  | get key =>
    obtain ⟨hanswer, halike⟩ := (h.get key).own s t hst not_false not_false
    exact ⟨congrArg (Tiered.Deed.get key) hanswer, halike⟩
  | set key value ttl =>
    obtain ⟨hanswer, halike⟩ := (h.set key value ttl).own s t hst hs ht
    exact ⟨congrArg (Tiered.Deed.set key value ttl) hanswer, halike⟩
  | del key =>
    obtain ⟨hanswer, halike⟩ := (h.del key).own s t hst not_false not_false
    exact ⟨congrArg (Tiered.Deed.del key) hanswer, halike⟩

theorem serve_aside (h : Backend.KeyedBut bad b under alike) (q : Tiered.Request V)
    {other : String} (hne : under q.key ≠ other) (hst : alike other s t) :
    alike other (b.serve q s).2 t := by
  cases q with
  | get key => exact (h.get key).aside other s t hne hst
  | set key value ttl => exact (h.set key value ttl).aside other s t hne hst
  | del key => exact (h.del key).aside other s t hne hst

/-- A request on both sides, under whatever key. -/
theorem serve (h : Backend.KeyedBut bad b under alike) (q : Tiered.Request V) {key : String}
    (hst : alike key s t) (hs : ¬ (b.serve q s).1.Fails bad) (ht : ¬ (b.serve q t).1.Fails bad) :
    alike key (b.serve q s).2 (b.serve q t).2 := by
  by_cases hkey : under q.key = key
  · subst hkey
    exact (h.serve_own q hst hs ht).2
  · have hleft := h.serve_aside q hkey hst
    exact h.symm _ _ _ (h.serve_aside q hkey (h.symm _ _ _ hleft))

end Backend.KeyedBut

namespace Happening

/-- Requests in spaces apart from `n` make no difference to the answers given in `n`, unless one of
these is bad. -/
theorem answers_filter
    (hstores : ∀ space, Backend.KeyedBut bad (stores space) (namespacedKey space) alike)
    {m n : String} (hapart : Apart m n) {run : List (Happening σ V)}
    (hrun : ∀ h ∈ run, h.Fair [m, n] fun f => ∀ key s t, alike key s t → alike key (f s) (f t))
    {s t : σ} (hst : ∀ k, alike (namespacedKey n k) s t)
    (hs : ∀ a ∈ answers stores n run s, ¬ a.Fails bad)
    (ht : ∀ a ∈ answers stores n (run.filter (concerns n)) t, ¬ a.Fails bad) :
    answers stores n run s = answers stores n (run.filter (concerns n)) t := by
  induction run generalizing s t with
  | nil => rfl
  | cons h run ih =>
    have hrest := fun h' hh' => hrun h' (List.mem_cons_of_mem h hh')
    have hfair := hrun h List.mem_cons_self
    cases h with
    | changes f => exact ih hrest (fun k => hfair _ s t (hst k)) hs ht
    | asked space q =>
      by_cases hspace : space = n
      · subst hspace
        rw [List.filter_cons_of_pos (by simp [concerns])] at ht ⊢
        rw [answers, if_pos rfl] at hs ht ⊢
        rw [answers, if_pos rfl]
        have hs₁ := hs _ List.mem_cons_self
        have ht₁ := ht _ List.mem_cons_self
        rw [((hstores space).serve_own q (hst q.key) hs₁ ht₁).1]
        exact congrArg _ (ih hrest (fun k => (hstores space).serve q (hst k) hs₁ ht₁)
          (fun a ha => hs a (List.mem_cons_of_mem _ ha))
          fun a ha => ht a (List.mem_cons_of_mem _ ha))
      · have hm : space = m := by
          rcases List.mem_pair.mp hfair with hm | hn
          · exact hm
          · exact absurd hn hspace
        rw [List.filter_cons_of_neg (by simp [concerns, hspace])] at ht ⊢
        rw [answers, if_neg hspace, List.nil_append] at hs ⊢
        refine ih hrest (fun k => (hstores space).serve_aside q ?_ (hst k)) hs ht
        rw [hm]
        exact hapart q.key k

end Happening

end

end Stockroom

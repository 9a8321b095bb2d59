import Stockroom.Proofs.Backend.Isolation
import Stockroom.Proofs.Pool.Seclusion

/-! What is kept under different namespaces, whether in stores or in the registry of pools, is kept
apart as long as neither namespace encloses the other. -/

namespace Stockroom
set_option autoImplicit false

theorem apart_of_not_encloses {m n : String} (hm : m ≠ "") (hn : n ≠ "") (hmn : m ≠ n)
    (hout : ¬ Encloses m n) (hin : ¬ Encloses n m) : Apart m n := by
  intro j k h
  rcases (exists_namespacedKey_eq_iff hm hn hmn).mp ⟨j, k, h⟩ with h | h
  · exact hout h
  · exact hin h

/-! ### The remote store asks about one key at a time -/

namespace Remote

/-- Two remote stores that are the same to whoever asks about one key. -/
structure Alike (key : String) (r s : Remote) : Prop where
  mode : r.mode = s.mode
  row : r.content.get? key = s.content.get? key

theorem equivalence_alike (key : String) : Equivalence (Alike key) where
  refl _ := ⟨rfl, rfl⟩
  symm h := ⟨h.mode.symm, h.row.symm⟩
  trans h h' := ⟨h.mode.trans h'.mode, h.row.trans h'.row⟩

theorem keyed_get (key : String) : Act.Keyed (Remote.get key) key Alike where
  own := by
    rintro ⟨content, mode, _⟩ ⟨content', _, _⟩ ⟨⟨⟩, hrow⟩ - -
    have hrow : content.get? key = content'.get? key := hrow
    cases mode with
    | down => exact ⟨rfl, rfl, hrow⟩
    | up | reject => exact ⟨congrArg (fun row => Except.ok (Option.map Prod.fst row)) hrow, rfl, hrow⟩
  aside other := by
    rintro ⟨content, mode, _⟩ s - ⟨hmode, hrow⟩
    cases mode <;> exact ⟨hmode, hrow⟩

theorem keyed_set (key text : String) (ttl : Duration) :
    Act.Keyed (Remote.set key text ttl) key Alike where
  own := by
    rintro ⟨content, mode, _⟩ ⟨content', _, _⟩ ⟨⟨⟩, hrow⟩ - -
    cases mode with
    | down | reject => exact ⟨rfl, rfl, hrow⟩
    | up =>
      refine ⟨rfl, rfl, ?_⟩
      exact (Table.get?_insert_self _ _ _).trans (Table.get?_insert_self _ _ _).symm
  aside other := by
    rintro ⟨content, mode, _⟩ s hne ⟨hmode, hrow⟩
    cases mode with
    | down | reject => exact ⟨hmode, hrow⟩
    | up => exact ⟨hmode, (Table.get?_insert_of_ne _ _ (Ne.symm hne)).trans hrow⟩

theorem keyed_del (key : String) : Act.Keyed (Remote.del key) key Alike where
  own := by
    rintro ⟨content, mode, _⟩ ⟨content', _, _⟩ ⟨⟨⟩, hrow⟩ - -
    have herase : (content.erase key).get? key = (content'.erase key).get? key :=
      (Table.get?_erase_self _ _).trans (Table.get?_erase_self _ _).symm
    cases mode with
    | down => exact ⟨rfl, rfl, hrow⟩
    | up | reject => exact ⟨congrArg (fun row => Except.ok (Option.isSome row)) hrow, rfl, herase⟩
  aside other := by
    rintro ⟨content, mode, _⟩ s hne ⟨hmode, hrow⟩
    cases mode with
    | down => exact ⟨hmode, hrow⟩
    | up | reject => exact ⟨hmode, (Table.get?_erase_of_ne _ (Ne.symm hne)).trans hrow⟩

theorem keyed : (Backend.remote .whole).Keyed id Alike where
  symm _ _ _ h := ⟨h.mode.symm, h.row.symm⟩
  get key := keyed_get key
  set key text ttl := keyed_set key text ttl
  del key := keyed_del key

end Remote

/-! ### Stores and pools -/

section
variable {τ V : Type} [Wire V] {alike : String → τ → τ → Prop} {far : Option (Backend τ String)}

/-- Whatever the stores at a desk, one for each namespace, each asks about its own keys. -/
theorem Desk.keyed_stores (halike : ∀ key, Equivalence (alike key))
    (hfar : ∀ b ∈ far, b.Keyed id alike) {stores : String → Backend (Desk τ V) V}
    (hstores : ∀ space, stores space = .tiered (Desk.tiered space far) ∨
      stores space = (Backend.memory Desk.cache).namespaced space) (space : String) :
    Backend.KeyedBut Overflows (stores space) (namespacedKey space) (Desk.Alike alike) := by
  have hnear : Backend.KeyedBut Overflows (Backend.memory (Desk.cache : CacheIn (Desk τ V) V)) id
      (Desk.Alike alike) := Desk.keyed_memory fun key _ _ h => (halike key).symm h
  rcases hstores space with h | h <;> rw [h]
  · refine Backend.KeyedBut.tiered hnear (fun b hb => ?_) fun _ _ _ h => h.wall
    obtain ⟨text, htext, rfl⟩ := Option.map_eq_some_iff.mp hb
    exact Desk.keyed_texts (hfar text htext)
  · exact hnear.namespaced space

omit [Wire V] in
theorem Desk.alike_elapses {key : String} {f : Desk τ V → Desk τ V} (hf : Desk.Elapses alike f)
    {d e : Desk τ V} (h : Desk.Alike alike key d e) : Desk.Alike alike key (f d) (f e) := by
  cases hf with
  | time pause wall =>
    exact ⟨congrArg (fun now => Instant.advance now pause) h.now, rfl, h.near, h.far⟩
  | texts f hf => exact ⟨h.now, h.wall, h.near, hf key _ _ h.far⟩

/-- The keys of two namespaces meet exactly if the one encloses the other. If neither does, the stores
and pools of the one are out of reach in the other, as long as weights do not overflow. -/
theorem spaces_isolated (halike : ∀ key, Equivalence (alike key))
    (hfar : ∀ b ∈ far, b.Keyed id alike) {m n : String} (hm : m ≠ "") (hn : n ≠ "")
    (hmn : m ≠ n) :
    ((∃ j k, namespacedKey m j = namespacedKey n k) ↔ Encloses m n ∨ Encloses n m) ∧
      (¬ Encloses m n → ¬ Encloses n m →
        (∀ stores : String → Backend (Desk τ V) V,
          (∀ space, stores space = .tiered (Desk.tiered space far) ∨
            stores space = (Backend.memory Desk.cache).namespaced space) →
          ∀ (run : List (Happening (Desk τ V) V)) (d : Desk τ V), d.near.Unbounded →
            (∀ h ∈ run, h.Fair [m, n] (Desk.Elapses alike)) →
            (∀ a ∈ Happening.answers stores n run d, ¬ a.Fails Overflows) →
            (∀ a ∈ Happening.answers stores n (run.filter (Happening.concerns n)) d,
              ¬ a.Fails Overflows) →
            Happening.answers stores n run d =
              Happening.answers stores n (run.filter (Happening.concerns n)) d) ∧
        (∀ b ∈ far, ∀ (run : List (Happening τ String)) (s : τ),
          (∀ h ∈ run, h.Fair [m, n] fun f => ∀ key s t, alike key s t → alike key (f s) (f t)) →
          Happening.answers b.namespaced n run s =
            Happening.answers b.namespaced n (run.filter (Happening.concerns n)) s) ∧
        (∀ (kept : String → Prop) (s t : Pool.Scene), s.Secluded n kept → s.Course n kept t →
          Apart m n ∧ t.Secluded n kept ∧
          ∀ k, t.registry.get? (namespacedKey n k) = s.registry.get? (namespacedKey n k) ∧
            ∀ p, s.registry.get? (namespacedKey n k) = some p → t.isClosed p = s.isClosed p ∧
              ∀ j, t.registry.get? (namespacedKey m j) ≠ some p)) := by
  refine ⟨exists_namespacedKey_eq_iff hm hn hmn, fun hout hin => ?_⟩
  have hapart : Apart m n := apart_of_not_encloses hm hn hmn hout hin
  refine ⟨fun stores hstores run d hnear hrun hs ht => ?_, fun b hb run s hrun => ?_,
    fun kept s t hs hcourse => ?_⟩
  · refine Happening.answers_filter (Desk.keyed_stores halike hfar hstores) hapart
      (fun h hh => ?_) (fun k => ⟨rfl, rfl, .refl hnear _, (halike _).refl _⟩) hs ht
    have hfair := hrun h hh
    cases h with
    | changes f => exact fun key d e hde => Desk.alike_elapses hfair hde
    | asked space q => exact hfair
  · exact Happening.answers_filter (fun space => (hfar b hb).namespaced space) hapart hrun
      (fun k => (halike _).refl s) (fun a _ => a.not_fails_false) fun a _ => a.not_fails_false
  · have hspares := hs.course hcourse
    refine ⟨hapart, hspares.secluded, fun k => ⟨hspares.registry k, fun p hp => ?_⟩⟩
    refine ⟨hspares.closed k p hp, fun j hj => ?_⟩
    exact hspares.secluded.unregistered (hapart j) hj k ((hspares.registry k).trans hp)

end

section

/-- Somebody writes and deletes a key in the namespace "a" while another reads and writes it in "b",
before a remote store that goes down meanwhile. -/
def neighbours : List (Happening (Desk Remote UInt64) UInt64) :=
  [.asked "a" (.set "k" 1 .zero), .asked "b" (.get "k"), .asked "b" (.set "k" 2 (.ofSeconds 5)),
    .changes (Desk.await (.ofSeconds 1) 1000), .asked "a" (.del "k"), .asked "b" (.get "k"),
    .changes fun d => { d with far := { d.far with mode := .down } }, .asked "a" (.set "k" 3 .zero),
    .asked "b" (.get "k")]

/-- A pool is built and registered in the namespace "b". -/
def lodged : Pool.Scene := (Pool.Scene.handle {} (.lookUpOrBuild "b" "k" "mine" "mine" {})).2

theorem lodged_eq : lodged =
    let s := (Pool.Scene.build {} "mine" {}).2
    { s with
      registry := Table.empty.insert (namespacedKey "b" "k") 0
      deeds := [.register (namespacedKey "b" "k") 0 false none]
      names := s.names.insert "mine" 0 } := rfl

/-- Another is built, registered and taken out again in the namespace "a". -/
def visited : Pool.Scene :=
  ((lodged.handle (.lookUpOrBuild "a" "k" "theirs" "theirs" {})).2.handle (.unregister "a" "k")).2

theorem secluded_lodged : lodged.Secluded "b" (· = "mine") := by
  rw [lodged_eq]
  have hfresh : Pool.Scripts.Foreign "b" (· = "mine") {} := ⟨nofun, nofun, nofun, nofun⟩
  refine ⟨fun _ => hfresh, fun name k p hp _ => ?_, fun key k p hp _ => ?_, fun k p hp => ?_, nofun⟩
  · by_contra hname
    simp [Pool.Scene.build, Table.get?_insert, hname] at hp
  · rw [Table.get?_insert] at hp
    split at hp
    · rename_i hkey
      exact ⟨"k", hkey⟩
    · simp at hp
  · rw [Table.get?_insert] at hp
    split at hp
    · cases hp
      decide
    · simp at hp

theorem course_visited : lodged.Course "b" (· = "mine") visited := by
  have hapart : Apart "a" "b" := by
    apply apart_of_not_encloses <;> decide
  refine .handle _ _ (.handle _ _ .refl (.lookUpOrBuild _ _ _ _ _ hapart)) (.unregister _ _ hapart)

theorem alike_mode (mode : Remote.Mode) :
    Desk.Elapses (V := UInt64) Remote.Alike fun d => { d with far := { d.far with mode } } :=
  .texts (fun r : Remote => { r with mode }) fun _ _ _ h => ⟨rfl, h.row⟩

theorem fair_neighbours : ∀ h ∈ neighbours, h.Fair ["a", "b"] (Desk.Elapses Remote.Alike) := by
  simp only [neighbours, List.forall_mem_cons]
  refine ⟨?_, ?_, ?_, .time _ _, ?_, ?_, alike_mode .down, ?_, ?_, nofun⟩ <;>
    simp [Happening.Fair]

set_option maxRecDepth 10000 in
theorem spaces_isolated_neighbours :
    (∀ j k, namespacedKey "a" j ≠ namespacedKey "b" k) ∧
      Happening.answers (fun space => .tiered (Desk.tiered space (some (.remote .whole)))) "b"
          neighbours { near := .new .weighed, far := {} } =
        [.get "k" (.ok none), .set "k" 2 (.ofSeconds 5) (.ok true), .get "k" (.ok (some 2)),
          .get "k" (.ok none)] ∧
      visited.registry.get? (namespacedKey "b" "k") = some 0 ∧ visited.isClosed 0 = false := by
  have hfar : ∀ b ∈ some (Backend.remote .whole), b.Keyed id Remote.Alike := by
    rintro _ ⟨⟩
    exact Remote.keyed
  obtain ⟨hkeys, hapart⟩ := spaces_isolated (V := UInt64) Remote.equivalence_alike hfar
    (m := "a") (n := "b") (by decide) (by decide) (by decide)
  obtain ⟨hstores, -, hpools⟩ := hapart (by decide) (by decide)
  obtain ⟨-, -, hk⟩ := hpools _ _ _ secluded_lodged course_visited
  obtain ⟨hregistry, hp⟩ := hk "k"
  refine ⟨fun j k h => ?_, ?_, hregistry, (hp 0 rfl).1⟩
  · rcases hkeys.mp ⟨j, k, h⟩ with h | h <;> revert h <;> decide
  · rw [hstores _ (fun _ => Or.inl rfl) _ _ (Cache.unbounded_new rfl) fair_neighbours (by decide)
      (by decide)]
    rfl

/-- A key in one namespace is read in another whose name goes on with a closing brace. -/
def enclosed : List (Happening (Desk Remote UInt64) UInt64) :=
  [.asked "a" (.set "b\x7dc" 1 .zero), .asked "a\x7db" (.get "c")]

/-- A pool that is registered in the one is taken out in the other. -/
def evicted : Pool.Scene :=
  ((Pool.Scene.handle {} (.lookUpOrBuild "a" "b\x7dc" "mine" "mine" {})).2.handle
    (.unregister "a\x7db" "c")).2

set_option maxRecDepth 10000 in
/-- Namespaces that differ are not always kept apart. -/
theorem spaces_meet_if_enclosed :
    ("a" ≠ "" ∧ "a\x7db" ≠ "" ∧ "a" ≠ "a\x7db") ∧
      namespacedKey "a" "b\x7dc" = namespacedKey "a\x7db" "c" ∧
      Happening.answers (fun space => .tiered (Desk.tiered space none)) "a\x7db" enclosed
        { near := .new .weighed, far := {} } = [.get "c" (.ok (some 1))] ∧
      Happening.answers (fun space => .tiered (Desk.tiered space none)) "a\x7db"
        (enclosed.filter (Happening.concerns "a\x7db")) { near := .new .weighed, far := {} } =
          [.get "c" (.ok none)] ∧
      evicted.isClosed 0 = true :=
  ⟨by decide, by decide, rfl, rfl, rfl⟩

end

end Stockroom

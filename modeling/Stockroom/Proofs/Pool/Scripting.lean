import Stockroom.Pool.Scripting

/-! Operations of a kind set up callbacks of that kind, and these have operations of that kind done. -/

namespace Stockroom.Pool
set_option autoImplicit false

variable {kind : Op → Prop}

theorem Op.Throughout.self {op : Op} (h : op.Throughout kind) : kind op := by
  cases h with
  | intro op hkind => exact hkind

theorem Op.Throughout.scripts {op : Op} (h : op.Throughout kind) {act : Scripted Op}
    (hact : act ∈ op.scripts) : act.Throughout kind := by
  cases h with
  | intro op _ hscripts => exact hscripts act hact

theorem throughout_empty (kind : Op → Prop) : ({} : Scripted Op).Throughout kind := nofun

/-- Nothing is set up in a new scene. -/
theorem Scene.throughout_new (kind : Op → Prop) : ({} : Scene).Throughout kind :=
  fun _ => ⟨nofun, throughout_empty kind, nofun, throughout_empty kind⟩

namespace Scene.Throughout

variable {s t : Scene}

theorem of_scripts (h : s.Throughout kind) (he : t.scripts = s.scripts) : t.Throughout kind := by
  intro name
  rw [scriptsOf, he]
  exact h name

theorem modifyScripts (h : s.Throughout kind) (name : String) {f : Scripts → Scripts}
    (hf : ∀ x : Scripts, x.Throughout kind → (f x).Throughout kind) :
    (s.modifyScripts name f).Throughout kind := by
  intro other
  rw [scriptsOf, Scene.modifyScripts, Table.get?_insert]
  split
  · exact hf _ (h name)
  · exact h other

/-! ### What is carried out -/

theorem nextAction (h : s.Throughout kind) (p : Nat) :
    (s.nextAction p).1.Throughout kind ∧ (s.nextAction p).2.Throughout kind := by
  have hscripts := h (s.nameOf p)
  unfold Scene.nextAction
  dsimp only
  split
  · exact ⟨hscripts.default, h⟩
  · rename_i act rest hqueue
    refine ⟨hscripts.queue act (hqueue ▸ List.mem_cons_self), ?_⟩
    refine h.modifyScripts (s.nameOf p) fun x hx => ?_
    refine ⟨fun act' hact' => ?_, hx.default, hx.checks, hx.destructor⟩
    exact hscripts.queue act' (hqueue ▸ List.mem_cons_of_mem act hact')

theorem checkAction (h : s.Throughout kind) (p : Nat) (r : ResourceId) :
    (s.checkAction p r).Throughout kind := by
  unfold Scene.checkAction
  cases hx : s.stock[r]?.bind fun x => (s.scriptsOf (s.nameOf p)).checks.get? x.serial with
  | none => exact throughout_empty kind
  | some act =>
    obtain ⟨x, -, hact⟩ := Option.bind_eq_some_iff.mp hx
    exact (h _).checks x.serial act hact

theorem destructorAction (h : s.Throughout kind) (p : Nat) :
    (s.destructorAction p).Throughout kind := (h _).destructor

/-! ### What is set up -/

theorem scriptFactory (h : s.Throughout kind) {name : String} {next : List (Scripted Op)}
    {default : Option (Scripted Op)} (hop : (Op.scriptFactory name next default).Throughout kind) :
    (s.modifyScripts name fun x =>
      { x with queue := x.queue ++ next, default := default.getD x.default }).Throughout kind := by
  refine h.modifyScripts name fun x hx => ⟨fun act hact => ?_, ?_, hx.checks, hx.destructor⟩
  · rcases List.mem_append.mp hact with hact | hact
    · exact hx.queue act hact
    · exact hop.scripts (List.mem_append_left _ hact)
  · cases default with
    | none => exact hx.default
    | some act => exact hop.scripts (List.mem_append_right _ List.mem_cons_self)

theorem scriptCheck (h : s.Throughout kind) {name : String} {serial : Nat} {act : Scripted Op}
    (hop : (Op.scriptCheck name serial act).Throughout kind) :
    (s.modifyScripts name fun x =>
      { x with checks := x.checks.insert serial act }).Throughout kind := by
  refine h.modifyScripts name fun x hx => ⟨hx.queue, hx.default, fun n act' h' => ?_, hx.destructor⟩
  rcases Table.get?_of_insert h' with ⟨-, rfl⟩ | h'
  · exact hop.scripts List.mem_cons_self
  · exact hx.checks n act' h'

theorem scriptDestructor (h : s.Throughout kind) {name : String} {act : Scripted Op}
    (hop : (Op.scriptDestructor name act).Throughout kind) :
    (s.modifyScripts name fun x => { x with destructor := act }).Throughout kind :=
  h.modifyScripts name fun _ hx =>
    ⟨hx.queue, hx.default, hx.checks, hop.scripts List.mem_cons_self⟩

end Scene.Throughout

end Stockroom.Pool

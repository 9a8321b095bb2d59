import Stockroom.Backend.Desk

/-!
Stores that share a state, each under a namespace. What is asked of one of them should not depend
on what is asked of the others.
-/

namespace Stockroom
set_option autoImplicit false

variable {σ V α : Type}

/-- An operation that asks about one key only: whatever is alike under that key, it treats alike,
unless an answer is `bad`. -/
structure Act.KeyedBut (bad : Except Fault α → Prop) (act : Act σ α) (key : String)
    (alike : String → σ → σ → Prop) : Prop where
  own : ∀ s t, alike key s t → ¬ bad (act s).1 → ¬ bad (act t).1 →
    (act s).1 = (act t).1 ∧ alike key (act s).2 (act t).2
  aside : ∀ other s t, key ≠ other → alike other s t → alike other (act s).2 t

abbrev Act.Keyed (act : Act σ α) (key : String) (alike : String → σ → σ → Prop) : Prop :=
  Act.KeyedBut (fun _ => False) act key alike

/-- A store whose operations ask about one key each, which is the key `under key` of the state. Only
its writes may answer what is `bad`. -/
structure Backend.KeyedBut (bad : Except Fault Bool → Prop) (b : Backend σ V)
    (under : String → String) (alike : String → σ → σ → Prop) : Prop where
  symm : ∀ key s t, alike key s t → alike key t s
  get : ∀ key, Act.Keyed (b.get key) (under key) alike
  set : ∀ key value ttl, Act.KeyedBut bad (b.set key value ttl) (under key) alike
  del : ∀ key, Act.Keyed (b.del key) (under key) alike

abbrev Backend.Keyed (b : Backend σ V) (under : String → String)
    (alike : String → σ → σ → Prop) : Prop :=
  Backend.KeyedBut (fun _ => False) b under alike

/-- The answer of a write whose weight does not fit. -/
def Overflows (answer : Except Fault Bool) : Prop := answer = .error (.crashed .weightOverflow)

instance : DecidablePred Overflows
  | .error (.crashed crash) =>
    decidable_of_iff (crash = .weightOverflow)
      ⟨fun h => h ▸ rfl, fun h => Fault.crashed.inj (Except.error.inj h)⟩
  | .error (.failed _) | .ok _ => isFalse nofun

/-- The request is a write whose answer is `bad`. -/
def Tiered.Deed.Fails (bad : Except Fault Bool → Prop) : Tiered.Deed V → Prop
  | .set _ _ _ answer => bad answer
  | _ => False

instance {bad : Except Fault Bool → Prop} [DecidablePred bad] (deed : Tiered.Deed V) :
    Decidable (deed.Fails bad) :=
  match deed with
  | .set _ _ _ answer => inferInstanceAs (Decidable (bad answer))
  | .get .. | .del .. => inferInstanceAs (Decidable False)

theorem Tiered.Deed.not_fails_false (deed : Tiered.Deed V) : ¬ deed.Fails fun _ => False := by
  cases deed <;> exact id

def Tiered.Request.key : Tiered.Request V → String
  | .get key | .set key _ _ | .del key => key

/-- What happens to a state that stores share. -/
inductive Happening (σ V : Type) where
  | changes (f : σ → σ)
  | asked (space : String) (request : Tiered.Request V)

namespace Happening

/-- A request in one of the spaces, or a change of the kind allowed. -/
def Fair (spaces : List String) (allowed : (σ → σ) → Prop) : Happening σ V → Prop
  | changes f => allowed f
  | asked space _ => space ∈ spaces

/-- Whether it is anything but a request in another space. -/
def concerns (space : String) : Happening σ V → Bool
  | changes _ => true
  | asked s _ => s == space

/-- What the stores of the spaces answer to the requests made in one of them. -/
def answers (stores : String → Backend σ V) (space : String) :
    List (Happening σ V) → σ → List (Tiered.Deed V)
  | [], _ => []
  | changes f :: rest, s => answers stores space rest (f s)
  | asked other request :: rest, s =>
    let r := (stores other).serve request s
    (if other = space then [r.1] else []) ++ answers stores space rest r.2

end Happening

namespace Desk

variable {τ : Type}

/-- Time passes, or the store of texts changes by itself, to all keys in the same way. -/
inductive Elapses (alike : String → τ → τ → Prop) : (Desk τ V → Desk τ V) → Prop where
  | time (pause : Duration) (wall : UInt64) : Elapses alike (Desk.await pause wall)
  | texts (f : τ → τ) : (∀ key s t, alike key s t → alike key (f s) (f t)) →
      Elapses alike fun d => { d with far := f d.far }

end Desk

end Stockroom

import Stockroom.Cache.Moments

/-!
Callers that stop waiting. A run is laid beside another one in which some callers that wait are
dropped as well, or their tokens fire, and in which all the rest goes the same way: the commands,
and the turns of all other tasks in the same order. Whoever may leave can in either run be woken and
look at its slot at any time.
-/

namespace Stockroom.Cache
set_option autoImplicit false

variable {V : Type}

/-- Callers that may leave, and the tokens that they alone wait with. -/
structure Leavers where
  callers : List Nat
  tokens : List String := []

namespace Leavers

variable (l : Leavers)

/-- Every task but a leaver that waits. -/
def keeps : Task V → Bool
  | .waiter caller .. => !l.callers.contains caller
  | _ => true

/-- Nobody but a leaver comes with a token of theirs; `caller` is who comes next. -/
def Admits (caller : Nat) : Command V → Prop
  | .request _ _ (some token) => token ∈ l.tokens → caller ∈ l.callers
  | _ => True

/-- The same task at both places, with as many tasks that are kept before it. -/
def Same (tasks : List (Task V)) (i : Nat) (tasks' : List (Task V)) (j : Nat) : Prop :=
  ∃ t, tasks[i]? = some t ∧ tasks'[j]? = some t ∧ l.keeps t = true ∧
    (tasks.take i).countP l.keeps = (tasks'.take j).countP l.keeps

end Leavers

/-- The world without the leavers that wait, their results and their tokens. -/
def World.without (l : Leavers) (w : World V) : World V :=
  { w with
    ready := w.ready.filter l.keeps
    parked := w.parked.filter l.keeps
    fired := w.fired.filter fun token => !l.tokens.contains token
    results := w.results.filter fun r => !l.callers.contains r.1 }

namespace Moment

/-- The same move in two runs. -/
inductive Alongside (l : Leavers) (m m' : Moment V) : Move V → Move V → Prop where
  | outside (command : Command V) : l.Admits m.world.callers command →
      Alongside l m m' (.outside command) (.outside command)
  | archive (archive : Archive V) : Alongside l m m' (.archive archive) (.archive archive)
  | wake {i j : Nat} : l.Same m.world.parked i m'.world.parked j →
      Alongside l m m' (.wake i) (.wake j)
  | run {i j : Nat} : l.Same m.world.ready i m'.world.ready j →
      Alongside l m m' (.run i) (.run j)
  | goOn : Alongside l m m' .goOn .goOn

/-- The move wakes a leaver that waits, or lets it look at its slot; or it does nothing. -/
def Lingers (l : Leavers) (m : Moment V) : Move V → Prop
  | .wake i => ∀ t, m.world.parked[i]? = some t → l.keeps t = false
  | .run i => ∀ t, m.world.ready[i]? = some t → l.keeps t = false
  | _ => False

/-- A leaver that waits is dropped, or a token of theirs fires. -/
def Departs (l : Leavers) (m : Moment V) : Move V → Prop
  | .outside (.dropCaller caller) => caller ∈ l.callers ∧
      ∃ name slot token, .waiter caller name slot token ∈ m.world.tasks
  | .outside (.cancel token) => token ∈ l.tokens
  | _ => False

end Moment

/-- A run, and beside it one in which leavers have left besides. -/
inductive Beside (config : Config V) (l : Leavers) : List (Move V) → List (Move V) → Prop where
  | start : Beside config l [] []
  | both {first second : List (Move V)} {move move' : Move V} : Beside config l first second →
      ((Moment.new config).run first).Alongside l ((Moment.new config).run second) move move' →
      Beside config l (first ++ [move]) (second ++ [move'])
  | first {first second : List (Move V)} {move : Move V} : Beside config l first second →
      ((Moment.new config).run first).Lingers l move → Beside config l (first ++ [move]) second
  | second {first second : List (Move V)} {move : Move V} : Beside config l first second →
      ((Moment.new config).run second).Lingers l move → Beside config l first (second ++ [move])
  | departs {first second : List (Move V)} {move : Move V} : Beside config l first second →
      ((Moment.new config).run second).Departs l move → Beside config l first (second ++ [move])

end Stockroom.Cache

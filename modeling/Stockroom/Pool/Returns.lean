import Stockroom.Pool.Runs

/-!
The order in which idle resources were returned, told by numbers: what becomes idle gets the next
number, but what takes the place of another resource takes its number over.
-/

namespace Stockroom.Pool
set_option autoImplicit false

/-- The resource that the job exchanged for `r` when it came to `next`. -/
def Job.exchangedFor (r : ResourceId) (j next : Job) : List ResourceId :=
  match j.todo with
  | .exchange old new :: _ => if new = r ∧ j ≠ next then [old] else []
  | _ => []

/-- The number of returns so far, and the number of each resource's return. -/
structure Returns where
  count : Nat := 0
  number : ResourceId → Nat := fun _ => 0

namespace Returns

def assign (n : Returns) (r : ResourceId) (k : Nat) : Returns :=
  { n with number := fun x => if x = r then k else n.number x }

/-- The resource has become idle. -/
def enter (t u : Traffic) (n : Returns) (r : ResourceId) : Returns :=
  match Traffic.between (Job.exchangedFor r) t u with
  | old :: _ => n.assign r (n.number old)
  | [] => { n.assign r (n.count + 1) with count := n.count + 1 }

def after (n : Returns) (t u : Traffic) : Returns :=
  (u.state.sets.idle.filter (· ∉ t.state.sets.idle)).foldl (enter t u) n

/-- The numbers after a run of a new pool. -/
def along (path : List (Traffic × Traffic)) : Returns :=
  path.foldl (fun n p => n.after p.1 p.2) {}

end Returns

namespace Traffic

/-- The one comes before the other among the idle resources. -/
def Before (t : Traffic) (a b : ResourceId) : Prop := [a, b].Sublist t.state.sets.idle

/-- A resource is checked out that was returned last. It is used now, it is not idle any more, and
nothing is asked of the factory. -/
structure LendsLast (number : ResourceId → Nat) (i : Nat) (purpose : Purpose) (t u : Traffic)
    (r : ResourceId) : Prop where
  last : ∀ x ∈ t.state.sets.idle, x ≠ r → number x < number r
  idle : t.state.sets.idle = u.state.sets.idle ++ [r]
  lent : u.jobs[i]? = some (match purpose with
    | .keep => { todo := [], result := .got r }
    | .lend => { todo := [.call (.body r), .giveBack r] })
  used : u.state.stock.lastUsed r = t.now
  made : u.made = t.made

end Traffic

end Stockroom.Pool

import QuadSphere.Cover.Algebra
import QuadSphere.Cover.Grow
import QuadSphere.Cover.LeafRun

/-!
# Sessions

A session keeps covers by name, all of them empty at the start.  Each call finds one cover, from its
arguments and the covers there are, and puts it in the place of the one with its target's name.
A call that is refused leaves all covers as they are, and a fault ends the session.
-/

namespace QuadSphere

/-- A call that makes or changes the cover with one name. -/
inductive Call (ν : Type) where
  | new (out : ν)
  /-- The normal form of a list of cells. -/
  | ofList (out : ν) (cells : List Cell)
  | ofLeaves (out : ν) (first last : Cell)
  | ofLeavesBefore (out : ν) (first limit : Cell)
  | clone (out a : ν)
  | union (out a b : ν)
  | intersection (out a b : ν)
  | difference (out a b : ν)
  | within (out a : ν) (c : Cell)
  | normalize (a : ν)
  | growByLevel (a : ν) (level : Nat)
  | growByRadius (a : ν) (radius : Angle) (finer : Nat)
  /-- Takes all cells out of a cover. -/
  | detach (a : ν)
  /-- Gives room back that the cells of a cover do not need. -/
  | pack (a : ν)
  | decode (a : ν) (bytes : ByteArray)

/-- The covers by their names. -/
def Session (ν : Type) : Type :=
  ν → Cover

namespace Call

variable {ν : Type}

/-- The name of the cover that the call makes or changes. -/
def target : Call ν → ν
  | new out | ofList out _ | ofLeaves out _ _ | ofLeavesBefore out _ _ | clone out _ => out
  | union out _ _ | intersection out _ _ | difference out _ _ | within out _ _ => out
  | normalize a | growByLevel a _ | growByRadius a _ _ | detach a | pack a | decode a _ => a

/-- The words that have to be cells.  The ends of a run of leaves are checked by the call. -/
def cells : Call ν → List Cell
  | ofList _ cells => cells
  | within _ _ c => [c]
  | _ => []

/-- The cover that the call finds. -/
def value (s : Session ν) : Call ν → Except Failure Cover
  | new _ => .ok .empty
  | ofList _ cells => Fault.asFailure (Cover.ofList cells)
  | ofLeaves _ first last => Cover.ofLeaves first last
  | ofLeavesBefore _ first limit => Cover.ofLeavesBefore first limit
  | clone _ a => .ok (s a)
  | union _ a b => Fault.asFailure ((s a).union (s b))
  | intersection _ a b => Fault.asFailure ((s a).intersection (s b))
  | difference _ a b => Fault.asFailure ((s a).difference (s b))
  | within _ a c => Fault.asFailure ((s a).within c)
  | normalize a => Fault.asFailure ((s a).normalize.map (·.1))
  | growByLevel a level => (s a).growByLevel level
  | growByRadius a radius finer => Fault.asFailure ((s a).growByRadius radius finer)
  | detach a => .ok (s a).detach.2
  | pack a => .ok (s a)
  | decode _ bytes => Refusal.asFailure (Cover.decode bytes)

end Call

namespace Session

variable {ν : Type}

def start : Session ν :=
  fun _ => .empty

variable [DecidableEq ν]

def put (s : Session ν) (name : ν) (A : Cover) : Session ν :=
  fun n => if n = name then A else s n

/-- The session after a call, and the refusal if there is one. -/
def step (s : Session ν) (call : Call ν) : Except Fault (Session ν × Option Refusal) :=
  match call.value s with
  | .ok A => .ok (s.put call.target A, none)
  | .error (.refused r) => .ok (s, some r)
  | .error (.broken f) => .error f

/-- The session after some calls. -/
def run (s : Session ν) : List (Call ν) → Except Fault (Session ν)
  | [] => .ok s
  | call :: calls => do
    let (s', _) ← s.step call
    s'.run calls

end Session

end QuadSphere

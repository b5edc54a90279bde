import PhraseGrammar.Graph.Basic

/-! The groups that lie on a dependency cycle, found in one depth-first walk. Groups get serial
numbers as they are opened and stay on a stack until their component is complete; a visit answers
the lowest serial number it can see among open groups. -/
namespace PhraseGrammar
namespace Graph

inductive Mark
  | fresh
  | opened (serial : Nat)
  | closed
deriving DecidableEq

structure Walk where
  marks : List Mark
  /-- Open groups, the last opened first. -/
  stack : List GroupId
  serial : Nat
  recursive : List Bool

namespace Walk

def start (n : Nat) : Walk := ⟨List.replicate n .fresh,[],0,List.replicate n false⟩

def mark (w : Walk) (id : GroupId) : Mark := w.marks.getD id .closed

def openGroup (w : Walk) (id : GroupId) : Walk :=
  { w with
    marks := w.marks.set id (.opened w.serial)
    stack := id :: w.stack
    serial := w.serial + 1 }

/-- The component that `id` completes: the open groups down to it. -/
def component (w : Walk) (id : GroupId) : List GroupId := w.stack.takeWhile (· != id) ++ [id]

/-- Closes the component of `id`. Its groups are recursive if there are several, or if `id` depends
on itself. -/
def closeComponent (w : Walk) (id : GroupId) (loop : Bool) : Walk :=
  let members := w.component id
  { w with
    marks := members.foldl (fun marks m => marks.set m .closed) w.marks
    stack := (w.stack.dropWhile (· != id)).drop 1
    recursive :=
      if members.length > 1 || loop then
        members.foldl (fun flags m => flags.set m true) w.recursive
      else w.recursive }

end Walk

/-- Follows one dependency; `low` is the lowest serial number seen so far. -/
def follow (visit : GroupId → Walk → Nat × Walk) (state : Nat × Walk) (id : GroupId) :
    Nat × Walk :=
  let (low,w) := state
  match w.mark id with
  | .fresh =>
    let (seen,w) := visit id w
    (min low seen,w)
  | .opened serial => (min low serial,w)
  | .closed => (low,w)

/-- Visits a fresh group. As only fresh groups are visited, the walk never nests deeper than there
are groups. -/
def visit (g : Graph) : Nat → GroupId → Walk → Nat × Walk
  | 0, _, w => (w.serial,w)
  | depth + 1, id, w =>
    let dependencies := (g.group id).dependencies
    let (low,after) := dependencies.foldl (follow (g.visit depth)) (w.serial,w.openGroup id)
    if low = w.serial then (low,after.closeComponent id (dependencies.contains id))
    else (low,after)

def walkFrom (g : Graph) (w : Walk) (id : GroupId) : Walk :=
  match w.mark id with
  | .fresh => (g.visit g.size id w).2
  | _ => w

/-- One mark for each group. -/
def recursiveGroups (g : Graph) : List Bool :=
  ((List.range g.size).foldl g.walkFrom (.start g.size)).recursive

end Graph

end PhraseGrammar

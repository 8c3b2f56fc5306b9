import Citator.Expansion.Basic

/-!
# `Citator.Expansion.Worklist` — an expansion without recursion

Chains of references can be long, so the expansion that runs keeps its own stack. Every file that is
attached gets a slot; a slot knows the slots of its links. The stack holds the slots that wait for
their expansion. A step takes the top slot, attaches its links, and puts the scheduled ones on the
stack so that the first of them comes off first: a slot's scheduled links are expanded, each
completely, before the slot's next sibling. When the stack is empty the slots are put together, last
slot first, since the slots of links always come after the slot that they belong to.
-/

namespace Citator

/-- A file that was attached, and the slots of its links. -/
structure Slot where
  file : Path
  links : List Nat := []
  deriving DecidableEq, Repr, Inhabited

/-- The state of an expansion between two steps. -/
structure Worklist where
  slots : Array Slot
  /-- The slots that wait for their expansion with their depths, next first. -/
  waiting : List (Nat × Nat)
  progress : Progress

namespace Worklist

/-- The work at the start: the root in slot zero waits at depth zero. -/
def start (root : Path) (p : Progress) : Worklist := ⟨#[{ file := root }], [(0, 0)], p⟩

/-- Gives a file a new slot among the links of slot `parent`. -/
def addSlot (slots : Array Slot) (parent : Nat) (file : Path) : Array Slot :=
  (slots.push { file }).modify parent fun s => { s with links := s.links ++ [slots.size] }

/-- Attaches the found files to slot `parent` until the tree is full. Answers with the slots and the
progress, and with the slots of the scheduled files in order. -/
def attachAll (q : Inquiry) (parent depth : Nat) :
    List Path → Array Slot → Progress → List Nat × Array Slot × Progress
  | [], slots, p => ([], slots, p)
  | f :: fs, slots, p =>
    if q.isFull p.stats then ([], slots, p.cut)
    else
      let v := q.verdict p.visited f depth
      let (scheduled, slots', p') :=
        attachAll q parent depth fs (addSlot slots parent f) (p.attached q f v depth)
      (if v = .scheduled then slots.size :: scheduled else scheduled, slots', p')

/-- One step: the expansion of the slot on top of the stack. Nothing happens when none waits. -/
def step (q : Inquiry) (w : Worklist) : Except Halt Worklist :=
  match w.waiting with
  | [] => .ok w
  | (id, depth) :: waiting => do
    let file := (w.slots.getD id default).file
    let (found, p) ← q.lookUp file w.progress
    let (scheduled, slots, p) := attachAll q id (depth + 1) found w.slots p
    return ⟨slots, scheduled.map (fun s => (s, depth + 1)) ++ waiting, p⟩

/-- Steps until none waits, at most as many as the first argument says. -/
def run (q : Inquiry) : Nat → Worklist → Except Halt Worklist
  | 0, w => .ok w
  | fuel + 1, w =>
    match w.waiting with
    | [] => .ok w
    | _ :: _ => do run q fuel (← step q w)

/-- The trees of the given slots, the first of which is slot `first`. -/
def assembleFrom (first : Nat) : List Slot → List RefTree
  | [] => []
  | s :: rest =>
    let later := assembleFrom (first + 1) rest
    .node s.file (s.links.filterMap fun id => later[id - (first + 1)]?) :: later

def links (w : Worklist) : List RefTree :=
  match assembleFrom 0 w.slots.toList with
  | [] => []
  | t :: _ => t.links

end Worklist

/-- The links of a root, expanded with at most `fuel` searches. -/
def Inquiry.expandRoot (q : Inquiry) (fuel : Nat) (root : Path) (p : Progress) :
    Except Halt (List RefTree × Progress) := do
  let w ← Worklist.run q fuel (.start root p)
  return (w.links, w.progress)

end Citator

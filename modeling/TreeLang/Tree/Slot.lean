import TreeLang.Tree.Traverse

/-! Slots for the types that running a tree finds out. The first evaluation of a
declaration settles its type for good. The table of settled types is kept beside the tree:
a placed tree carries in each declaration the number of its own entry. -/
namespace TreeLang

structure Slot where
  index : Nat
  deriving DecidableEq

/-- The type of each slot, once it is settled. -/
structure Resolutions where
  types : Array (Option Ty) := #[]
  deriving DecidableEq

namespace Resolutions

def empty : Resolutions := {}

def get? (table : Resolutions) (slot : Slot) : Option Ty := table.types.getD slot.index none

/-- Settles the type of a slot unless it is settled already. -/
def settle (table : Resolutions) (slot : Slot) (ty : Ty) : Resolutions :=
  match table.get? slot with
  | some _ => table
  | none => { table with types := table.types.setIfInBounds slot.index (some ty) }

/-- A new slot at the end of the table. -/
def add (known : Option Ty) : StateM Resolutions Slot :=
  modifyGet fun table => (⟨table.types.size⟩, { table with types := table.types.push known })

/-- Gives every declaration of a node a slot of its own, filled with the type it carries. -/
def placeNode (table : Resolutions) (node : Node (Option Ty)) : Node Slot × Resolutions :=
  (node.traverse add).run table

def placeProgram (table : Resolutions) (program : Program (Option Ty)) :
    Program Slot × Resolutions :=
  (program.traverse add).run table

/-- The node together with the types settled so far. -/
def snapshot (table : Resolutions) (node : Node Slot) : Node (Option Ty) := node.map table.get?

end Resolutions

/-- A tree as it was read: nothing is settled. -/
def Node.unsettled (node : Node Unit) : Node (Option Ty) := node.map fun _ => none

def Program.unsettled (program : Program Unit) : Program (Option Ty) := program.map fun _ => none

end TreeLang

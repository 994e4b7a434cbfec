import Joybus.Toml.Tree

/-!
The value of a tree that was read. A table whose first key is reserved for it stands for the date
that the key's value tells.
-/

namespace Joybus.Toml

/-- The key that makes a table a date. -/
def dateKey : String := "$__toml_private_datetime"

/-- The date that an entry with the reserved key tells. -/
def Entry.date (e : Entry Node) : Except Nat Value :=
  match e.node with
  | .leaf (.string s) =>
    match Datetime.ofText? s with
    | some d => .ok (.datetime d)
    | none => .error e.left
  | _ => .error e.left

mutual

/-- The value of a node. It fails at an entry that should tell a date and does not; what else the
table of such an entry holds does not count. -/
def Node.value : Node → Except Nat Value
  | .leaf v => .ok v
  | .array items => do return .array (← valuesOfItems items)
  | .series tables => do return .array (← valuesOfTables tables)
  | .table _ entries => valueOfTable entries

def valuesOfItems : List Node → Except Nat (List Value)
  | [] => .ok []
  | n :: ns => do return (← n.value) :: (← valuesOfItems ns)

def valuesOfTables : List (List (Entry Node)) → Except Nat (List Value)
  | [] => .ok []
  | t :: ts => do return (← valueOfTable t) :: (← valuesOfTables ts)

def valueOfTable : List (Entry Node) → Except Nat Value
  | [] => .ok (.table [])
  | e :: es =>
    if e.key = dateKey then e.date
    else do return .table ((← valueOfEntry e) :: (← valuesOfEntries es))

def valuesOfEntries : List (Entry Node) → Except Nat Table
  | [] => .ok []
  | e :: es => do return (← valueOfEntry e) :: (← valuesOfEntries es)

def valueOfEntry : Entry Node → Except Nat (String × Value)
  | ⟨key, _, n⟩ => do return (key, ← n.value)

end

end Joybus.Toml

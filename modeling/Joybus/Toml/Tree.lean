import Joybus.Toml.Failure
import Joybus.Toml.Spelling
import Joybus.Toml.Value

/-!
The tables of a file while it is read. How a table came to be decides what may still be added to
it.
-/

namespace Joybus.Toml

/-- How a table came to be. -/
inductive Origin where
  /-- On the way to a table further down that has a header. -/
  | implied
  /-- By a header. -/
  | header
  /-- By a dotted key. -/
  | dotted
  /-- Between braces, and complete with the closing one. -/
  | inline
deriving DecidableEq, Repr

/-- An entry of a table, with how many characters of the file are left where it was made. -/
structure Entry (α : Type) where
  key : String
  left : Nat
  node : α
deriving Repr

/-- A value as far as it is read. -/
inductive Node where
  | leaf (v : Value)
  | array (items : List Node)
  /-- An array of tables that headers add to. -/
  | series (tables : List (List (Entry Node)))
  | table (origin : Origin) (entries : List (Entry Node))

/-- The name of a node's kind, for nodes that keys cannot lead through. -/
def Node.kind : Node → String
  | .leaf v => v.kind
  | .array _ | .series _ => (Value.array []).kind
  | .table _ _ => (Value.table []).kind

/-- The entries of a table, in order. -/
abbrev Entries := List (Entry Node)

/-- By what a path leads through tables. -/
inductive Walk where
  | header
  /-- A dotted key of a statement. -/
  | dotted
  /-- A dotted key between braces. -/
  | braces
deriving DecidableEq, Repr

namespace Walk

/-- The origin of the tables that are missing on the way. -/
def missing : Walk → Origin
  | header => .implied
  | dotted | braces => .dotted

/-- What bars the way at a table, if anything does. Headers lead through all tables but those
between braces, dotted keys only through tables that no header has opened. -/
def clash? (w : Walk) (path : List String) (key : String) : Origin → Option Clash
  | .implied | .dotted => none
  | .header => if w = header then none else some (.duplicate key none)
  | .inline =>
    some (if w = braces then .duplicate key none else .notTable path (Value.table []).kind)

end Walk

namespace Entries

def find? (t : Entries) (key : String) : Option Node :=
  (List.find? (·.key == key) t).map (·.node)

/-- Changes the node of an entry that is there. -/
def put (t : Entries) (key : String) (n : Node) : Entries :=
  t.map fun e => if e.key == key then { e with node := n } else e

/-- Changes the table at the end of a path, given its origin. Tables missing on the way are created
there. The last table of an array of tables stands for the array. -/
def change (w : Walk) (left : Nat) (f : Origin → Entries → Except Clash Entries) :
    (passed path : List String) → Origin → Entries → Except Clash Entries
  | _, [], origin, t => f origin t
  | passed, key :: path, _, t =>
    match t.find? key with
    | none => do
      let u ← change w left f (passed ++ [key]) path w.missing []
      return t ++ [⟨key, left, .table w.missing u⟩]
    | some (.table origin u) =>
      match w.clash? (passed ++ [key]) key origin with
      | some c => .error c
      | none => do
        let u ← change w left f (passed ++ [key]) path origin u
        return t.put key (.table origin u)
    | some (.series tables) => do
      let u ← change w left f (passed ++ [key]) path .header (tables.getLast?.getD [])
      return t.put key (.series (tables.dropLast ++ [u]))
    | some n => .error (.notTable (passed ++ [key]) n.kind)

/-- Adds a node under a dotted key, `path` being all of it but the last part. A table may be
extended by dotted keys only if dotted keys made it. -/
def insert (t : Entries) (w : Walk) (header : Option (List String)) (left : Nat)
    (path : List String) (key : String) (n : Node) : Except Clash Entries :=
  let extend (origin : Origin) (u : Entries) : Except Clash Entries :=
    if !path.isEmpty && origin ≠ .dotted then .error (.duplicate key none)
    else if (u.find? key).isSome then .error (.duplicate key header)
    else .ok (u ++ [⟨key, left, n⟩])
  change w left extend [] path .header t

/-- Opens the table of a header. Only a table that no header has opened can be; it then comes after
the entries that are there. -/
def openTable (t : Entries) (left : Nat) (path : List String) (key : String) :
    Except Clash Entries :=
  let define (_ : Origin) (u : Entries) : Except Clash Entries :=
    match u.find? key with
    | none => .ok (u ++ [⟨key, left, .table .header []⟩])
    | some (.table .implied entries) =>
      .ok (u.filter (·.key != key) ++ [⟨key, left, .table .header entries⟩])
    | some _ => .error (.duplicate (spellKey key) (some path))
  change .header left define [] path .header t

/-- Opens a new last table of an array of tables. -/
def openItem (t : Entries) (left : Nat) (path : List String) (key : String) :
    Except Clash Entries :=
  let define (_ : Origin) (u : Entries) : Except Clash Entries :=
    match u.find? key with
    | none => .ok (u ++ [⟨key, left, .series [[]]⟩])
    | some (.series tables) => .ok (u.put key (.series (tables ++ [[]])))
    | some _ => .error (.duplicate (spellKey key) (some path))
  change .header left define [] path .header t

end Entries

end Joybus.Toml

/-! TOML documents as trees. Which keys may still be added to a table depends on how it came
about. -/
namespace WasmLowering.Toml

inductive TableKind where
  /-- Written in braces: complete as it stands. -/
  | closed
  /-- Named by a header. -/
  | headed
  /-- On the way to the table of a header. -/
  | implied
  /-- On the way to the last part of a dotted key. -/
  | dotted
deriving DecidableEq, Inhabited, Repr

inductive Node where
  | string (s : String)
  | number
  | bool (b : Bool)
  /-- A date, a time or both. -/
  | moment
  | array (items : List Node)
  | table (kind : TableKind) (fields : List (String × Node))
  /-- An array of tables, written with one header for each. -/
  | tables (elems : List Node)
deriving Inhabited, Repr

abbrev Fields := List (String × Node)

namespace Fields

def find? (k : String) : Fields → Option Node
  | [] => none
  | (k', v) :: fs => if k' = k then some v else find? k fs

/-- Gives a key its value, at its place or at the end. -/
def set (k : String) (v : Node) : Fields → Fields
  | [] => [(k, v)]
  | (k', v') :: fs => if k' = k then (k, v) :: fs else (k', v') :: set k v fs

end Fields

namespace Node

def emptyDocument : Node := .table .headed []

def updateLast (f : Node → Option Node) : List Node → Option (List Node)
  | [] => none
  | [v] => do return [← f v]
  | v :: vs => do return v :: (← updateLast f vs)

/-- Changes the table that a path leads to, making the tables on the way. A header may pass through
all tables but closed ones, a dotted key only through those that no header named; the way through
an array of tables is by its last one. -/
def update (byKey : Bool) (f : Node → Option Node) : (path : List String) → Node → Option Node
  | [], t => f t
  | k :: ks, .table kind fs =>
    match Fields.find? k fs with
    | none => do
      let new := .table (if byKey then .dotted else .implied) []
      return .table kind (Fields.set k (← update byKey f ks new) fs)
    | some (.table kind' fs') =>
      if kind' = .closed ∨ (byKey ∧ kind' = .headed) then none
      else do return .table kind (Fields.set k (← update byKey f ks (.table kind' fs')) fs)
    | some (.tables elems) => do
      return .table kind (Fields.set k (.tables (← updateLast (update byKey f ks) elems)) fs)
    | some _ => none
  | _ :: _, _ => none

/-- Adds a key to the table that it belongs to: the table itself for a plain key, a table made by
dotted keys for a dotted one. -/
def insert (dotted : Bool) (k : String) (v : Node) : Node → Option Node
  | .table kind fs =>
    if decide (kind = .dotted) != dotted then none
    else if (Fields.find? k fs).isSome then none
    else some (.table kind (Fields.set k v fs))
  | _ => none

def insertPath (t : Node) (path : List String) (k : String) (v : Node) : Option Node :=
  update true (insert (!path.isEmpty) k v) path t

/-- Opens the table of a header, which has no header yet. -/
def openTable (k : String) : Node → Option Node
  | .table kind fs =>
    match Fields.find? k fs with
    | none => some (.table kind (Fields.set k (.table .headed []) fs))
    | some (.table .implied fs') => some (.table kind (Fields.set k (.table .headed fs') fs))
    | some _ => none
  | _ => none

def openElement (k : String) : Node → Option Node
  | .table kind fs =>
    match Fields.find? k fs with
    | none => some (.table kind (Fields.set k (.tables [.table .headed []]) fs))
    | some (.tables elems) =>
      some (.table kind (Fields.set k (.tables (elems ++ [.table .headed []])) fs))
    | some _ => none
  | _ => none

end Node

end WasmLowering.Toml

import WasmLowering.Toml.Scalar
import WasmLowering.Toml.Text

/-! Reading TOML documents. -/
namespace WasmLowering.Toml

/-- How many parts a key may have, and how deep values may nest. -/
def maxDepth : Nat := 79

/-! ## Values -/

def stringNode (read : Option (List Char × List Char)) : Option (Node × List Char) := do
  let (s, rest) ← read
  return (.string (String.ofList s), rest)

mutual
/-- The value in front. `fuel` bounds the steps, and `room` is how many more brackets and braces
may be entered. -/
def value : (fuel room : Nat) → List Char → Option (Node × List Char)
  | 0, _, _ => none
  | fuel + 1, room, cs =>
    match cs with
    | '"' :: '"' :: '"' :: cs => stringNode (basicText false (dropLineBreak cs))
    | '"' :: cs => stringNode (basicString cs)
    | '\'' :: '\'' :: '\'' :: cs => stringNode (literalText (dropLineBreak cs))
    | '\'' :: cs => stringNode (literalString cs)
    | '[' :: cs => do
      if room = 0 then none
      let (vs, rest) ← items fuel (room - 1) cs
      return (.array vs, rest)
    | '\x7b' :: cs =>
      if room = 0 then none
      else match skipBlanks cs with
      | '\x7d' :: rest => some (.table .closed [], rest)
      | cs => do
        let (t, rest) ← pairs fuel (room - 1) .emptyDocument cs
        match t with
        | .table _ fs => return (.table .closed fs, rest)
        | _ => none
    | cs => scalar cs

/-- Items up to the closing bracket; a comma may follow the last one. -/
def items : (fuel room : Nat) → List Char → Option (List Node × List Char)
  | 0, _, _ => none
  | fuel + 1, room, cs =>
    match skipLines cs.length cs with
    | ']' :: rest => some ([], rest)
    | cs => do
      let (v, cs) ← value fuel room cs
      match skipLines cs.length cs with
      | ']' :: rest => return ([v], rest)
      | ',' :: rest => do
        let (vs, rest) ← items fuel room rest
        return (v :: vs, rest)
      | _ => none

/-- Keys with their values up to the closing brace, put into `t`. -/
def pairs : (fuel room : Nat) → (t : Node) → List Char → Option (Node × List Char)
  | 0, _, _, _ => none
  | fuel + 1, room, t, cs => do
    let (path, k, cs) ← key maxDepth cs
    match cs with
    | '=' :: cs => do
      let (v, cs) ← value fuel room (skipBlanks cs)
      let t ← t.insertPath path k v
      match skipBlanks cs with
      | '\x7d' :: rest => return (t, rest)
      | ',' :: rest => pairs fuel room t rest
      | _ => none
    | _ => none
end

/-! ## Documents -/

/-- A document in the course of reading: all of it so far, and the path to the table that the last
header opened. -/
structure Draft where
  root : Node
  current : List String

def Draft.header (d : Draft) (path : List String) (k : String) : Option Draft := do
  return ⟨← d.root.update false (Node.openTable k) path, path ++ [k]⟩

def Draft.element (d : Draft) (path : List String) (k : String) : Option Draft := do
  return ⟨← d.root.update false (Node.openElement k) path, path ++ [k]⟩

def Draft.pair (d : Draft) (path : List String) (k : String) (v : Node) : Option Draft := do
  return { d with root := ← d.root.update false (fun t => t.insertPath path k v) d.current }

/-- One line, or more if its value takes them; `none` in the first place at the end of the text. -/
def line (d : Draft) (cs : List Char) : Option (Option Draft × List Char) :=
  match skipBlanks cs with
  | [] => some (none, [])
  | '[' :: '[' :: cs => do
    let (path, k, cs) ← key maxDepth cs
    match cs with
    | ']' :: ']' :: cs => return (some (← d.element path k), ← restOfLine cs)
    | _ => none
  | '[' :: cs => do
    let (path, k, cs) ← key maxDepth cs
    match cs with
    | ']' :: cs => return (some (← d.header path k), ← restOfLine cs)
    | _ => none
  | '#' :: cs => do return (some d, ← lineEnd (cs.dropWhile isPlain))
  | '\n' :: cs => some (some d, cs)
  | '\r' :: '\n' :: cs => some (some d, cs)
  | cs => do
    let (path, k, cs) ← key maxDepth cs
    match cs with
    | '=' :: cs => do
      let (v, cs) ← value (2 * cs.length + 2) maxDepth (skipBlanks cs)
      return (some (← d.pair path k v), ← restOfLine cs)
    | _ => none

/-- All lines; `fuel` bounds their number. -/
def lines : (fuel : Nat) → Draft → List Char → Option Node
  | 0, _, _ => none
  | fuel + 1, d, cs => do
    match ← line d cs with
    | (none, _) => return d.root
    | (some d, rest) => lines fuel d rest

/-- A byte order mark may stand in front. -/
def parse (text : String) : Option Node :=
  let cs := match text.toList with
    | '\uFEFF' :: cs => cs
    | cs => cs
  lines (cs.length + 1) ⟨.emptyDocument, []⟩ cs

end WasmLowering.Toml

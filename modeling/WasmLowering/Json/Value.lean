import WasmLowering.Numeral.Layout

/-! JSON values and their written form. -/
namespace WasmLowering.Json

open Numeral (Binary64)

inductive Value where
  | null
  | bool (b : Bool)
  /-- Within the signed or the unsigned integers of 64 bits. -/
  | integer (v : Int)
  | float (x : Binary64)
  | string (s : String)
  | array (items : List Value)
  | object (fields : List (String × Value))
  /-- Well-formed text that denotes nothing: a number too large, or half of a surrogate pair. -/
  | unreadable
deriving Inhabited, Repr

namespace Value

mutual
def depth : Value → Nat
  | array items => depthItems items + 1
  | object fields => depthFields fields + 1
  | _ => 0

def depthItems : List Value → Nat
  | [] => 0
  | v :: vs => max v.depth (depthItems vs)

def depthFields : List (String × Value) → Nat
  | [] => 0
  | (_, v) :: fs => max v.depth (depthFields fs)
end

mutual
def readable : Value → Bool
  | array items => readableItems items
  | object fields => readableFields fields
  | unreadable => false
  | _ => true

def readableItems : List Value → Bool
  | [] => true
  | v :: vs => v.readable && readableItems vs

def readableFields : List (String × Value) → Bool
  | [] => true
  | (_, v) :: fs => v.readable && readableFields fs
end

/-! ## Writing -/

/-- A control character goes by its number, if it has no short escape. -/
def escape (c : Char) : List Char :=
  if c = '"' then ['\\', '"']
  else if c = '\\' then ['\\', '\\']
  else if c = '\n' then ['\\', 'n']
  else if c = '\r' then ['\\', 'r']
  else if c = '\t' then ['\\', 't']
  else if c = '\x08' then ['\\', 'b']
  else if c = '\x0c' then ['\\', 'f']
  else if c.toNat < 32 then
    ['\\', 'u', '0', '0'] ++ [Nat.digitChar (c.toNat / 16), Nat.digitChar (c.toNat % 16)]
  else [c]

def quote (s : String) : List Char := '"' :: s.toList.flatMap escape ++ ['"']

/-- Floats that are no numbers have no written form but `null`. -/
def floatText (x : Binary64) : String :=
  match x.datum with
  | .finite _ _ _ => x.text Numeral.pointed
  | _ => "null"

def newline (indent : Nat) : List Char := '\n' :: List.replicate (2 * indent) ' '

mutual
/-- Two blanks for each level; empty lists and objects stay on one line. -/
def pretty (indent : Nat) : Value → List Char
  | null => "null".toList
  | bool b => (toString b).toList
  | integer v => (toString v).toList
  | float x => (floatText x).toList
  | string s => quote s
  | array [] => ['[', ']']
  | array (v :: vs) =>
    '[' :: newline (indent + 1) ++ v.pretty (indent + 1) ++ prettyItems (indent + 1) vs
      ++ newline indent ++ [']']
  | object [] => ['\x7b', '\x7d']
  | object ((k, v) :: fs) =>
    '\x7b' :: newline (indent + 1) ++ quote k ++ [':', ' '] ++ v.pretty (indent + 1)
      ++ prettyFields (indent + 1) fs ++ newline indent ++ ['\x7d']
  | unreadable => "null".toList

def prettyItems (indent : Nat) : List Value → List Char
  | [] => []
  | v :: vs => ',' :: newline indent ++ v.pretty indent ++ prettyItems indent vs

def prettyFields (indent : Nat) : List (String × Value) → List Char
  | [] => []
  | (k, v) :: fs =>
    ',' :: newline indent ++ quote k ++ [':', ' '] ++ v.pretty indent ++ prettyFields indent fs
end

def text (v : Value) : String := String.ofList (v.pretty 0)

end Value

end WasmLowering.Json

import WasmLowering.Ir.Literal
import WasmLowering.Json.Reader
import WasmLowering.Text.Quoted

/-! Reading values of an expected shape. Errors are found in the order of the text; a missing field
is found where its object ends. -/
namespace WasmLowering.Json

open Numeral (Binary64 InRange)

/-- How a value differs from what is expected at its place. -/
inductive Mismatch where
  | missingField (name : String)
  | duplicateField (name : String)
  | unknownVariant (name : String) (known : List String)
  | unexpectedType (found expected : String)
  | outOfRange (found : Int) (expected : String)
  | shortList (found : Nat) (expected : String)
  /-- Neither a variant nor a value at all, too deep, or a list that goes on too long. -/
  | malformed
deriving DecidableEq, Inhabited, Repr

def ticked (s : String) : String := "`" ++ s ++ "`"

def Mismatch.message : Mismatch → String
  | missingField name => "missing field " ++ ticked name
  | duplicateField name => "duplicate field " ++ ticked name
  | unknownVariant name known =>
    "unknown variant " ++ ticked name ++ ", expected one of "
      ++ String.intercalate ", " (known.map ticked)
  | unexpectedType found expected => "invalid type: " ++ found ++ ", expected " ++ expected
  | outOfRange found expected =>
    "invalid value: integer " ++ ticked (toString found) ++ ", expected " ++ expected
  | shortList found expected =>
    "invalid length " ++ toString found ++ ", expected " ++ expected
  | malformed => "malformed text"

namespace Value

def describe : Value → String
  | null => "null"
  | bool b => "boolean " ++ ticked (toString b)
  | integer v => "integer " ++ ticked (toString v)
  | float x => "floating point " ++ ticked (x.text Numeral.pointed)
  | string s => "string " ++ Quoted.quote s
  | array _ => "sequence"
  | object _ => "map"
  | unreadable => "nothing"

def isReadable : Value → Bool
  | unreadable => false
  | _ => true

def refuse {α : Type} (v : Value) (expected : String) : Except Mismatch α :=
  if v.isReadable then .error (.unexpectedType v.describe expected) else .error .malformed

/-! ## Scalars -/

def readInteger (signed : Bool) (bits : Nat) (v : Value) : Except Mismatch Int :=
  let expected := (if signed then "i" else "u") ++ toString bits
  match v with
  | integer n => if InRange signed bits n then .ok n else .error (.outOfRange n expected)
  | other => other.refuse expected

def readNat (bits : Nat) (v : Value) : Except Mismatch Nat :=
  (v.readInteger false bits).map Int.toNat

def readUInt16 (v : Value) : Except Mismatch UInt16 := (v.readNat 16).map UInt16.ofNat

def readUInt32 (v : Value) : Except Mismatch UInt32 := (v.readNat 32).map UInt32.ofNat

def readUInt64 (v : Value) : Except Mismatch UInt64 := (v.readNat 64).map UInt64.ofNat

def readInt64 (v : Value) : Except Mismatch Int64 := (v.readInteger true 64).map Int64.ofInt

def readFloat : Value → Except Mismatch Binary64
  | integer n => .ok (Binary64.ofInt n)
  | float x => .ok x
  | other => other.refuse "f64"

def readBool : Value → Except Mismatch Bool
  | bool b => .ok b
  | other => other.refuse "a boolean"

def readString : Value → Except Mismatch String
  | string s => .ok s
  | other => other.refuse "a string"

/-! ## Lists, records and variants

`room` is how many more arrays and objects may be entered. -/

def readList {α : Type} (room : Nat) (item : Value → Except Mismatch α) :
    Value → Except Mismatch (List α)
  | array items => if room = 0 then .error .malformed else items.mapM item
  | other => other.refuse "a sequence"

end Value

/-- A field of a record: how its value is put into the record. -/
structure Member (σ : Type) where
  name : String
  optional : Bool
  put : Value → σ → Except Mismatch σ

namespace Member

variable {σ β : Type}

def required (name : String) (read : Value → Except Mismatch β) (set : β → σ → σ) : Member σ :=
  ⟨name, false, fun v s => (read v).map (set · s)⟩

def defaulted (name : String) (read : Value → Except Mismatch β) (set : β → σ → σ) : Member σ :=
  ⟨name, true, fun v s => (read v).map (set · s)⟩

/-- Takes the fields of an object; other fields than the known ones are passed over. -/
def putNamed (known : List (Member σ)) :
    List (String × Value) → (seen : List String) → σ → Except Mismatch (List String × σ)
  | [], seen, s => .ok (seen, s)
  | (k, v) :: rest, seen, s =>
    match known.find? fun f => f.name == k with
    | none => putNamed known rest seen s
    | some f =>
      if seen.contains k then .error (.duplicateField k)
      else do
        let s ← f.put v s
        putNamed known rest (k :: seen) s

/-- Every field that is not optional has to be among the `seen` ones. -/
def checkComplete (seen : List String) : List (Member σ) → Except Mismatch Unit
  | [] => .ok ()
  | f :: fs =>
    if f.optional || seen.contains f.name then checkComplete seen fs
    else .error (.missingField f.name)

def putItems (expected : String) : (found : Nat) → List (Member σ) → List Value → σ →
    Except Mismatch σ
  | _, [], [], s => .ok s
  | _, [], _ :: _, _ => .error .malformed
  | n, f :: fs, [], s =>
    if f.optional then putItems expected n fs [] s else .error (.shortList n expected)
  | n, f :: fs, v :: vs, s => do
    let s ← f.put v s
    putItems expected (n + 1) fs vs s

def counted (expected : String) (n : Nat) : String :=
  expected ++ " with " ++ toString n ++ (if n = 1 then " element" else " elements")

end Member

namespace Value

variable {σ : Type}

def readItems (room : Nat) (expected : String) (fields : List (Member σ)) (start : σ) :
    Value → Except Mismatch σ
  | array items =>
    if room = 0 then .error .malformed
    else Member.putItems (Member.counted expected fields.length) 0 fields items start
  | other => other.refuse expected

/-- A record is an object, or a list of its fields in order. -/
def readRecord (room : Nat) (expected : String) (fields : List (Member σ)) (start : σ) :
    Value → Except Mismatch σ
  | object given =>
    if room = 0 then .error .malformed
    else do
      let (seen, s) ← Member.putNamed fields given [] start
      Member.checkComplete seen fields
      return s
  | other => other.readItems room expected fields start

variable {α : Type}

/-- A variant is its name, or an object with its name as the only key. -/
def readVariant (room : Nat) (known : List String)
    (read : String → Option Value → Except Mismatch α) : Value → Except Mismatch α
  | string name =>
    if known.contains name then read name none else .error (.unknownVariant name known)
  | object ((name, v) :: more) =>
    if room = 0 then .error .malformed
    else if known.contains name then do
      let a ← read name (some v)
      if more.isEmpty then return a else throw .malformed
    else .error (.unknownVariant name known)
  | _ => .error .malformed

end Value

/-! The content of a variant, by its form. -/

def unitVariant {α : Type} (a : α) : Option Value → Except Mismatch α
  | none => .ok a
  | some .null => .ok a
  | some v => v.refuse "unit"

def contentOf (form : String) : Option Value → Except Mismatch Value
  | none => .error (.unexpectedType "unit variant" form)
  | some v => .ok v

end WasmLowering.Json

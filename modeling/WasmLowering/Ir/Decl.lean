import WasmLowering.Ir.Body

/-! Declarations, and the table that gives them their ids and keeps what the linker has to patch. -/
namespace WasmLowering

/-- A declaration without a body is only ever called. -/
structure Decl where
  name : String
  ty : Ty
  span : Span
  body? : Option Body
deriving BEq, Inhabited, Repr

namespace Decl

def function (name : String) (s : Signature) (body : Body) : Decl :=
  ⟨name, .ofSignature s, .synthetic, some body⟩

def external (name : String) (s : Signature) : Decl :=
  ⟨name, .ofSignature s, .synthetic, none⟩

def signature? (d : Decl) : Option Signature := d.ty.signature?

end Decl

/-- The function index of `target` is to be written at `offset` in the body. -/
structure Reloc where
  offset : UInt32
  target : DeclId
deriving DecidableEq, Inhabited, Repr

/-- A declaration of a table with the relocations handed to the linker for it. -/
structure Entry where
  decl : Decl
  relocs : List Reloc
deriving BEq, Inhabited, Repr

structure DeclTable where
  entries : Array Entry
deriving BEq, Inhabited, Repr

namespace DeclTable

def empty : DeclTable := ⟨#[]⟩

def size (t : DeclTable) : Nat := t.entries.size

def nextId (t : DeclTable) : DeclId := ⟨UInt32.ofNat t.size⟩

def push (t : DeclTable) (d : Decl) : DeclTable := ⟨t.entries.push ⟨d, []⟩⟩

def ofList (ds : List Decl) : DeclTable := ds.foldl push empty

/-- As many as 32 bits can count. -/
def ids (t : DeclTable) : List DeclId :=
  (List.range (UInt32.ofNat t.size).toNat).map fun i => ⟨UInt32.ofNat i⟩

def entry? (t : DeclTable) (i : DeclId) : Option Entry := t.entries[i.index.toNat]?

def get? (t : DeclTable) (i : DeclId) : Option Decl := (t.entry? i).map Entry.decl

def relocs? (t : DeclTable) (i : DeclId) : Option (List Reloc) := (t.entry? i).map Entry.relocs

def find? (t : DeclTable) (name : String) : Option DeclId :=
  (t.entries.findIdx? fun e => e.decl.name == name).map fun i => ⟨UInt32.ofNat i⟩

/-- Hands more relocations to the linker; an id outside the table is ignored. -/
def addRelocs (t : DeclTable) (i : DeclId) (rs : List Reloc) : DeclTable :=
  ⟨t.entries.modify i.index.toNat fun e => { e with relocs := e.relocs ++ rs }⟩

end DeclTable

end WasmLowering

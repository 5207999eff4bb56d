/-! Types of instructions and declarations, and the text by which messages name them. -/
namespace WasmLowering

inductive Ty where
  | void
  | noReturn
  | bool
  | int (signed : Bool) (bits : UInt16)
  | float (bits : UInt16)
  | ptr (pointee : Ty)
  | array (elem : Ty) (length : UInt64)
  | struct (name : String) (fields : List Ty)
  | fn (params : List Ty) (ret : Ty)
deriving BEq, Inhabited, Repr

structure Signature where
  params : List Ty
  ret : Ty
deriving BEq, Inhabited, Repr

namespace Ty

/-- Both `void` and `noReturn` mean that no value is produced. -/
def isVoid : Ty → Bool
  | void | noReturn => true
  | _ => false

def isSignedInt : Ty → Bool
  | int signed _ => signed
  | _ => false

def pointee? : Ty → Option Ty
  | ptr t => some t
  | _ => none

def signature? : Ty → Option Signature
  | fn ps r => some ⟨ps, r⟩
  | _ => none

def ofSignature (s : Signature) : Ty := fn s.params s.ret

mutual
def text : Ty → String
  | void => "void"
  | noReturn => "noreturn"
  | bool => "bool"
  | int signed bits => (if signed then "i" else "u") ++ toString bits
  | float bits => "f" ++ toString bits
  | ptr t => "*" ++ t.text
  | array t n => "[" ++ toString n ++ "]" ++ t.text
  | struct name _ => "struct " ++ name
  | fn ps r => "fn(" ++ textList ps ++ ") " ++ r.text

/-- Separated by a comma and a blank. -/
def textList : List Ty → String
  | [] => ""
  | [t] => t.text
  | t :: u :: ts => t.text ++ ", " ++ textList (u :: ts)
end

end Ty

namespace Signature

def text (s : Signature) : String := (Ty.ofSignature s).text

@[simp] theorem signature?_ofSignature (s : Signature) :
    (Ty.ofSignature s).signature? = some s := rfl

end Signature

end WasmLowering

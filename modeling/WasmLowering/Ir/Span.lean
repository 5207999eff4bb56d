/-! Source positions carried by declarations and instructions. -/
namespace WasmLowering

/-- The characters from `lo` up to `hi` of one source file. -/
structure Span where
  file : UInt64
  lo : UInt32
  hi : UInt32
deriving DecidableEq, Inhabited, Repr

namespace Span

/-- The position of something that no source text wrote. -/
def synthetic : Span := ⟨0, 0, 0⟩

/-- An inverted range is empty. -/
def length (s : Span) : Nat := s.hi.toNat - s.lo.toNat

def isEmpty (s : Span) : Bool := s.length == 0

def text (s : Span) : String :=
  toString s.file ++ ":" ++ toString s.lo ++ "-" ++ toString s.hi

end Span

end WasmLowering

/-! What stands between the parts of a TOML document: blanks, line ends and comments. -/
namespace WasmLowering.Toml

def isBlank (c : Char) : Bool := c = ' ' || c = '\t'

def skipBlanks (cs : List Char) : List Char := cs.dropWhile isBlank

/-- Characters that may stand in a comment or a string. -/
def isPlain (c : Char) : Bool := c = '\t' || (32 ≤ c.toNat && c.toNat != 127)

def lineBreak? : List Char → Option (List Char)
  | '\n' :: cs => some cs
  | '\r' :: '\n' :: cs => some cs
  | _ => none

def lineEnd (cs : List Char) : Option (List Char) :=
  if cs.isEmpty then some [] else lineBreak? cs

/-- What may follow on a line: blanks and a comment. -/
def restOfLine (cs : List Char) : Option (List Char) :=
  match skipBlanks cs with
  | '#' :: cs => lineEnd (cs.dropWhile isPlain)
  | cs => lineEnd cs

/-- Passes blanks, lines and comments inside an array; `fuel` bounds their number. -/
def skipLines : (fuel : Nat) → List Char → List Char
  | 0, cs => cs
  | fuel + 1, cs =>
    match skipBlanks cs with
    | '#' :: cs =>
      match lineBreak? (cs.dropWhile isPlain) with
      | some cs => skipLines fuel cs
      | none => '#' :: cs
    | cs =>
      match lineBreak? cs with
      | some cs => skipLines fuel cs
      | none => cs

end WasmLowering.Toml

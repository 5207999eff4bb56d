import WasmLowering.Text.Hex
import WasmLowering.Toml.Space

/-! Strings and keys of TOML documents. -/
namespace WasmLowering.Toml

/-! ## Strings on one line -/

def shortEscape? : Char → Option Char
  | '"' => some '"'
  | '\\' => some '\\'
  | 'b' => some '\x08'
  | 'f' => some '\x0c'
  | 'n' => some '\n'
  | 'r' => some '\r'
  | 't' => some '\t'
  | _ => none

def coded? (ds : List Char) : Option Char := do
  let n ← Hex.number? ds
  if h : n.isValidChar then return Char.ofNatAux n h else none

/-- Puts a character in front of a string that was read behind it. -/
def consChar (c? : Option Char) (read : Option (List Char × List Char)) :
    Option (List Char × List Char) := do
  let c ← c?
  let (s, rest) ← read
  return (c :: s, rest)

def basicString : List Char → Option (List Char × List Char)
  | [] => none
  | '"' :: cs => some ([], cs)
  | '\\' :: 'u' :: a :: b :: c :: d :: cs => consChar (coded? [a, b, c, d]) (basicString cs)
  | '\\' :: 'U' :: a :: b :: c :: d :: a' :: b' :: c' :: d' :: cs =>
    consChar (coded? [a, b, c, d, a', b', c', d']) (basicString cs)
  | '\\' :: e :: cs => consChar (shortEscape? e) (basicString cs)
  | c :: cs => if c ≠ '\\' ∧ isPlain c then consChar (some c) (basicString cs) else none

def literalString : List Char → Option (List Char × List Char)
  | [] => none
  | '\'' :: cs => some ([], cs)
  | c :: cs => if isPlain c then consChar (some c) (literalString cs) else none

/-! ## Strings of several lines

They stand in three quotes. One or two quotes may stand among the characters, also right before the
closing ones; a line end right behind the opening ones does not count, and every other one is read
as a single character. -/

/-- Behind three quotes: up to two more still belong to the string. -/
def closing (quote : Char) (cs : List Char) : List Char × List Char :=
  let more := (cs.takeWhile (· = quote)).take 2
  (more, cs.drop more.length)

/-- Whether a backslash in front of these characters continues the line: nothing but blanks is left
on it. -/
def continuesLine (cs : List Char) : Bool := (lineBreak? (skipBlanks cs)).isSome

/-- In double quotes. While `joining` two lines, blanks and line ends are passed over. -/
def basicText : (joining : Bool) → List Char → Option (List Char × List Char)
  | _, [] => none
  | _, '"' :: '"' :: '"' :: cs => some (closing '"' cs)
  | joining, '\r' :: '\n' :: cs =>
    if joining then basicText true cs else consChar (some '\n') (basicText false cs)
  | _, '\\' :: 'u' :: a :: b :: c :: d :: cs => consChar (coded? [a, b, c, d]) (basicText false cs)
  | _, '\\' :: 'U' :: a :: b :: c :: d :: a' :: b' :: c' :: d' :: cs =>
    consChar (coded? [a, b, c, d, a', b', c', d']) (basicText false cs)
  | _, '\\' :: e :: cs =>
    if continuesLine (e :: cs) then basicText true (e :: cs)
    else consChar (shortEscape? e) (basicText false cs)
  | joining, c :: cs =>
    if joining ∧ (isBlank c ∨ c = '\n') then basicText true cs
    else if c ≠ '\\' ∧ (isPlain c ∨ c = '\n') then consChar (some c) (basicText false cs)
    else none

def literalText : List Char → Option (List Char × List Char)
  | [] => none
  | '\'' :: '\'' :: '\'' :: cs => some (closing '\'' cs)
  | '\r' :: '\n' :: cs => consChar (some '\n') (literalText cs)
  | c :: cs => if isPlain c ∨ c = '\n' then consChar (some c) (literalText cs) else none

def dropLineBreak (cs : List Char) : List Char := (lineBreak? cs).getD cs

/-! ## Keys -/

def isBare (c : Char) : Bool := c.isAlphanum || c = '_' || c = '-'

def keyPart : List Char → Option (String × List Char)
  | '"' :: cs => do
    let (s, rest) ← basicString cs
    return (String.ofList s, rest)
  | '\'' :: cs => do
    let (s, rest) ← literalString cs
    return (String.ofList s, rest)
  | cs =>
    match cs.takeWhile isBare with
    | [] => none
    | s => some (String.ofList s, cs.dropWhile isBare)

/-- A key of at most `limit` parts: those on the way, and the last one. -/
def key : (limit : Nat) → List Char → Option (List String × String × List Char)
  | 0, _ => none
  | limit + 1, cs => do
    let (k, cs) ← keyPart (skipBlanks cs)
    match skipBlanks cs with
    | '.' :: cs => do
      let (path, last, rest) ← key limit cs
      return (k :: path, last, rest)
    | rest => return ([], k, rest)

end WasmLowering.Toml

import WasmLowering.Config
import WasmLowering.Error

/-! What a command meets outside: files to read, places to write to, and how both may fail. -/
namespace WasmLowering

inductive IoError where
  | missing
  | notText
  | other (reason : String)
deriving DecidableEq, Inhabited, Repr

def IoError.message : IoError → String
  | missing => "No such file or directory (os error 2)"
  | notText => "stream did not contain valid UTF-8"
  | other reason => reason

structure Environment where
  read : String → Except IoError (List UInt8)
  /-- What writing to a path would fail with. -/
  writeError? : String → Option IoError

namespace Environment

def readText (env : Environment) (path : String) : Except IoError String := do
  match String.fromUTF8? (ByteArray.mk (← env.read path).toArray) with
  | some s => return s
  | none => throw .notText

def hasFile (env : Environment) (path : String) : Bool :=
  match env.read path with
  | .error .missing => false
  | _ => true

end Environment

inductive CommandError where
  | io (e : IoError)
  | unreadableConfig (path : String) (e : IoError)
  | malformedConfig
  | compilation (e : Error)
deriving BEq, Inhabited, Repr

def CommandError.text : CommandError → String
  | io e => "IO error: " ++ e.message
  | unreadableConfig path e =>
    "Configuration error: Failed to read config file " ++ path ++ ": " ++ e.message
  | malformedConfig => "Configuration error: Failed to parse config"
  | compilation e => "Compilation error: " ++ e.text

namespace Config

/-- The file that is read when it is there and no other is named. -/
def standardFile : String := "stackgen.toml"

def loadFile (env : Environment) (path : String) : Except CommandError Config := do
  let text ← (env.readText path).mapError (.unreadableConfig path)
  match ofText? text with
  | some c => return c
  | none => throw .malformedConfig

def load (env : Environment) : (path? : Option String) → Except CommandError Config
  | some path => loadFile env path
  | none => if env.hasFile standardFile then loadFile env standardFile else .ok standard

end Config

end WasmLowering

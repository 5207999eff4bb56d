import WasmLowering.Command.Program

/-! The executable: files in, files out, and the log on standard error. -/
namespace WasmLowering.Program

open CommandLine (Options Request)

def ioError : IO.Error → IoError
  | .noFileOrDirectory _ _ _ => .missing
  | e => .other (toString e)

def readFile (path : String) : IO (String × Except IoError (List UInt8)) := do
  match ← (IO.FS.readBinFile path).toBaseIO with
  | .ok bytes => return (path, .ok bytes.toList)
  | .error e => return (path, .error (ioError e))

/-- The files as they were read, and what writing has been seen to fail with. -/
def environment (files : List (String × Except IoError (List UInt8)))
    (writeError? : Option IoError) : Environment where
  read path := ((files.find? fun f => f.1 == path).map Prod.snd).getD (.error .missing)
  writeError? _ := writeError?

def eventLine (json : Bool) (e : Event) : String :=
  if json then
    let fields := ("message", e.message) :: e.fields
    let value := Json.Value.object [("level", .string e.level.label),
      ("fields", .object (fields.map fun (k, v) => (k, .string v)))]
    value.text.map fun c => if c = '\n' then ' ' else c
  else e.level.label ++ " " ++ e.text

def finish (o? : Option Options) (e : Exit) : IO UInt32 := do
  let stdout ← IO.getStdout
  let stderr ← IO.getStderr
  match o? with
  | some o => for event in log o e do
      stderr.putStrLn (eventLine (o.logFormat? == some .json) event)
  | none => pure ()
  stdout.write (ByteArray.mk e.stdout.toArray)
  stdout.flush
  return UInt32.ofNat e.status

def execute (o : Options) (input : String) : IO UInt32 := do
  let files ← (inputs o input).mapM readFile
  let exit := run (environment files none) o input
  match exit.file? with
  | none => finish (some o) exit
  | some (path, bytes) =>
    match ← (IO.FS.writeBinFile path (ByteArray.mk bytes.toArray)).toBaseIO with
    | .ok () => finish (some o) exit
    | .error e => finish (some o) (run (environment files (some (ioError e))) o input)

def start (args : List String) : IO UInt32 :=
  match CommandLine.parse args with
  | .run o input => execute o input
  | request => finish none (answer (environment [] none) request)

end WasmLowering.Program

def main (args : List String) : IO UInt32 := WasmLowering.Program.start args

import WasmLowering.Command.Generate
import WasmLowering.Command.Line

/-! The program: from a command line to an exit status. -/
namespace WasmLowering.Program

open CommandLine (Options Request)

def version : String := "stackgen 0.1.0\n"

def usage : String :=
  "Lower stackgen IR modules to WebAssembly code section bodies\n\n"
    ++ "Usage: stackgen [OPTIONS] <INPUT>\n\n"
    ++ "  -o, --output <OUTPUT>          Output file (defaults to stdout)\n"
    ++ "      --format <FORMAT>          binary, hex or listing\n"
    ++ "      --abort-on-failure         Stop at the first function that fails to generate\n"
    ++ "  -v, --verbose...               Log more\n"
    ++ "  -q, --quiet                    Log errors only\n"
    ++ "      --log <LOG>                error, warn, info, debug or trace\n"
    ++ "      --log-format <LOG_FORMAT>  pretty or json\n"
    ++ "  -c, --config <CONFIG>          Configuration file path\n"
    ++ "  -h, --help                     Print help\n"
    ++ "  -V, --version                  Print version\n"

structure Exit where
  status : Nat
  stdout : List UInt8
  file? : Option (String × List UInt8)
  /-- The log, before anything is filtered out. -/
  events : List Event
deriving Inhabited, Repr

def summaryEvent (s : Summary) : Event :=
  if s.failed = 0 then .plain .info ("Generated " ++ toString s.generated ++ " functions")
  else .plain .error (toString s.failed ++ " of " ++ toString (s.failed + s.generated)
    ++ " functions failed to generate")

def errorEvents (o : Options) (e : CommandError) : List Event :=
  .plain .error e.text ::
    (if 0 < o.verbosity then [.plain .error "detailed error context"] else [])

def job (o : Options) (input : String) : Job := ⟨input, o.output?, o.format?⟩

def configure (o : Options) (config : Config) : Config :=
  if o.abortOnFailure then { config with policy := .abort } else config

/-- The status after a run, with what it adds to the log. -/
def conclusion (o : Options) : Except CommandStop Summary → Nat × List Event
  | .ok s => (if s.failed = 0 then 0 else 1, [summaryEvent s])
  | .error (.failed e) => (1, errorEvents o e)
  | .error (.broken _) => (101, [])

def runWith (env : Environment) (o : Options) (input : String) (config : Config) : Exit :=
  let outcome := (job o input).generate env (configure o config)
  let (status, events) := conclusion o outcome.result
  let events := outcome.events ++ events
  match outcome.written?, o.output? with
  | none, _ => ⟨status, [], none, events⟩
  | some bytes, none => ⟨status, bytes, none, events⟩
  | some bytes, some path => ⟨status, [], some (path, bytes), events⟩

/-- A configuration that cannot be used ends the program before it logs. -/
def run (env : Environment) (o : Options) (input : String) : Exit :=
  match Config.load env o.config? with
  | .error _ => ⟨1, [], none, []⟩
  | .ok config => runWith env o input config

def inputs (o : Options) (input : String) : List String :=
  [o.config?.getD Config.standardFile, input]

def log (o : Options) (e : Exit) : List Event := e.events.filter (Event.passes o.threshold)

def answer (env : Environment) : Request → Exit
  | .run o input => run env o input
  | .version => ⟨0, version.toUTF8.toList, none, []⟩
  | .help => ⟨0, usage.toUTF8.toList, none, []⟩
  | .misuse => ⟨2, [], none, []⟩

end WasmLowering.Program

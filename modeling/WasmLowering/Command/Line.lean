import WasmLowering.Config
import WasmLowering.Event

/-! The command line. Arguments are taken from left to right, and the first one that is wrong or
that asks for a text decides. -/
namespace WasmLowering.CommandLine

inductive LogFormat where
  | pretty | json
deriving DecidableEq, Inhabited, Repr

structure Options where
  input? : Option String
  output? : Option String
  format? : Option OutputFormat
  abortOnFailure : Bool
  verbosity : Nat
  quiet : Bool
  log? : Option Level
  logFormat? : Option LogFormat
  config? : Option String
deriving DecidableEq, Inhabited, Repr

def Options.empty : Options := ⟨none, none, none, false, 0, false, none, none, none⟩

inductive Request where
  | run (o : Options) (input : String)
  | version
  | help
  | misuse
deriving DecidableEq, Inhabited, Repr

inductive Flag where
  | abortOnFailure | verbose | quiet | version | help
deriving DecidableEq, Repr

inductive Valued where
  | output | format | log | logFormat | config
deriving DecidableEq, Repr

inductive Switch where
  | flag (f : Flag)
  | valued (v : Valued)
deriving DecidableEq, Repr

def long? : String → Option Switch
  | "output" => some (.valued .output)
  | "format" => some (.valued .format)
  | "log" => some (.valued .log)
  | "log-format" => some (.valued .logFormat)
  | "config" => some (.valued .config)
  | "abort-on-failure" => some (.flag .abortOnFailure)
  | "verbose" => some (.flag .verbose)
  | "quiet" => some (.flag .quiet)
  | "version" => some (.flag .version)
  | "help" => some (.flag .help)
  | _ => none

def short? : Char → Option Switch
  | 'o' => some (.valued .output)
  | 'c' => some (.valued .config)
  | 'v' => some (.flag .verbose)
  | 'q' => some (.flag .quiet)
  | 'V' => some (.flag .version)
  | 'h' => some (.flag .help)
  | _ => none

def level? : String → Option Level
  | "error" => some .error
  | "warn" => some .warn
  | "info" => some .info
  | "debug" => some .debug
  | "trace" => some .trace
  | _ => none

def logFormat? : String → Option LogFormat
  | "pretty" => some .pretty
  | "json" => some .json
  | _ => none

def path? (s : String) : Option String := if s.isEmpty then none else some s

namespace Options

/-- Fills a place that can be filled once. -/
def once {α : Type} (place : Option α) (value? : Option α) : Option (Option α) :=
  match place with
  | some _ => none
  | none => value?.map some

def setValued (o : Options) (value : String) : Valued → Option Options
  | .output => do return { o with output? := ← once o.output? (path? value) }
  | .format => do return { o with format? := ← once o.format? (OutputFormat.ofName? value) }
  | .log => do return { o with log? := ← once o.log? (level? value) }
  | .logFormat => do
    return { o with logFormat? := ← once o.logFormat? (CommandLine.logFormat? value) }
  | .config => do return { o with config? := ← once o.config? (path? value) }

def setInput (o : Options) (value : String) : Option Options := do
  return { o with input? := ← once o.input? (path? value) }

/-- The least severe level that is logged. -/
def threshold (o : Options) : Level :=
  match o.log? with
  | some level => level
  | none =>
    if o.quiet then .error
    else match o.verbosity with
    | 0 => .warn
    | 1 => .info
    | 2 => .debug
    | _ => .trace

end Options

def setFlag (o : Options) : Flag → Except Request Options
  | .abortOnFailure =>
    if o.abortOnFailure then .error .misuse else .ok { o with abortOnFailure := true }
  | .verbose => .ok { o with verbosity := o.verbosity + 1 }
  | .quiet => if o.quiet then .error .misuse else .ok { o with quiet := true }
  | .version => .error .version
  | .help => .error .help

def orMisuse {α : Type} : Option α → Except Request α
  | some a => .ok a
  | none => .error .misuse

/-- A cluster of one-letter switches; the last one may still lack its value. -/
def cluster (o : Options) : List Char → Except Request (Options × Option Valued)
  | [] => .ok (o, none)
  | c :: cs =>
    match short? c with
    | none => .error .misuse
    | some (.flag f) => do cluster (← setFlag o f) cs
    | some (.valued v) =>
      match cs with
      | [] => .ok (o, some v)
      | '=' :: value => do return (← orMisuse (o.setValued (String.ofList value) v), none)
      | value => do return (← orMisuse (o.setValued (String.ofList value) v), none)

/-- A switch by its name, maybe with a value behind `=`. -/
def named (o : Options) (cs : List Char) : Except Request (Options × Option Valued) :=
  let name := String.ofList (cs.takeWhile (· ≠ '='))
  let value? := match cs.dropWhile (· ≠ '=') with
    | [] => none
    | _ :: value => some (String.ofList value)
  match long? name, value? with
  | some (.flag f), none => do return (← setFlag o f, none)
  | some (.valued v), none => .ok (o, some v)
  | some (.valued v), some value => do return (← orMisuse (o.setValued value v), none)
  | _, _ => .error .misuse

/-- One dash alone is a plain value. -/
def isSwitch (arg : String) : Bool :=
  match arg.toList with
  | '-' :: _ :: _ => true
  | _ => false

/-- Reads the arguments. `awaiting?` is the option whose value comes next. -/
def read (o : Options) : (awaiting? : Option Valued) → List String → Except Request Options
  | none, [] => .ok o
  | some _, [] => .error .misuse
  | some v, arg :: args =>
    if isSwitch arg then .error .misuse
    else do read (← orMisuse (o.setValued arg v)) none args
  | none, arg :: args =>
    match arg.toList with
    | ['-', '-'] => args.foldlM (fun o a => orMisuse (o.setInput a)) o
    | '-' :: '-' :: cs => do
      let (o, awaiting?) ← named o cs
      read o awaiting? args
    | '-' :: c :: cs => do
      let (o, awaiting?) ← cluster o (c :: cs)
      read o awaiting? args
    | _ => do read (← orMisuse (o.setInput arg)) none args

def parse (args : List String) : Request :=
  match read .empty none args with
  | .error r => r
  | .ok o =>
    match o.input? with
    | some input => .run o input
    | none => .misuse

end WasmLowering.CommandLine

import SvgCompact.CommandLine.Arguments
import SvgCompact.Decimal.Rounding
import SvgCompact.Optimizer

/-!
What the program does for given arguments and files.
-/

namespace SvgCompact
namespace CommandLine

/-- What a run leaves behind. -/
structure Outcome where
  code : Nat
  stdout : String
  stderr : String
  file : Option (String × String)
deriving DecidableEq, Repr

/-- Why a run fails. -/
inductive Failure
  | noInput
  | noConfig
  | noOutput
  | badInput (e : DataUri.Error)
  | badConfig (misfit : Json.Misfit)
  | unknownPlugin (name : String)
  | badPipeline (e : ConfigError)
  | badMarkup (e : Markup.Error)

def Failure.message : Failure → String
  | noInput => "the input cannot be read"
  | noConfig => "the configuration cannot be read"
  | noOutput => "the output cannot be written"
  | badInput e => e.message
  | badConfig misfit => misfit.message
  | unknownPlugin name => "unknown plugin `" ++ name ++ "`"
  | badPipeline e => e.message
  | badMarkup e => e.message

/-- A failed run prints its reason and leaves no output behind. -/
def Failure.outcome (failure : Failure) : Outcome :=
  ⟨1, "", "Error: " ++ failure.message ++ "\n", none⟩

/-- The outcome after its file was written, or could not be written. -/
def Outcome.settle (o : Outcome) (written : Bool) : Outcome :=
  if o.file.isSome && !written then Failure.noOutput.outcome else o

def helpText : String :=
"A multipass SVG optimizer

Usage: svgsqueeze [OPTIONS] [INPUT]

Arguments:
  [INPUT]  Input file holding markup or an SVG data URI (use - for stdin) [default: -]

Options:
  -o, --output <OUTPUT>        Output file (use - for stdout) [default: -]
  -c, --config <CONFIG>        JSON configuration file; flags below override it
      --multipass              Repeat the pipeline while the output keeps shrinking
  -p, --precision <PRECISION>  Decimal places kept in path data
      --pretty                 Indent the output
      --datauri <DATAURI>      Print a data URI instead of markup (base64, enc or unenc)
      --disable <PLUGIN>       Disable a plugin by name (repeatable)
  -s, --stats                  Print size comparison
  -h, --help                   Print help
"

/-- Switches plugins off; all of them are in the configuration. -/
def disable (c : Config) : List String → Except Failure Config
  | [] => .ok c
  | name :: rest =>
    if (c.entry? name).isSome then disable (c.setEnabled name false) rest
    else .error (.unknownPlugin name)

/-- The configuration of a run: that of the file, changed by the arguments. -/
def configure (a : Arguments) (c : Config) : Except Failure Config :=
  let c := { c with
    multipass := c.multipass || a.multipass
    printing := { c.printing with pretty := c.printing.pretty || a.pretty }
    dataUri := a.dataUri.orElse fun _ => c.dataUri }
  let c :=
    match a.precision with
    | some n => c.setParameter "convert_path_data" "precision" (.integer n)
    | none => c
  disable c a.disabled

/-- The share of bytes that are saved, in percent. -/
def savedPercent (before after : Nat) : Float :=
  if before = 0 then 0.0 else Float.ofNat (before - after) / Float.ofNat before * 100.0

def statsLine (before after passes : Nat) : String :=
  toString before ++ " -> " ++ toString after ++ " bytes ("
    ++ String.ofList (Decimal.oneDecimal (savedPercent before after)) ++ "% smaller, "
    ++ toString passes ++ " passes)\n"

/-- Optimizes an input text, given the text of the configuration file if there is
one. -/
def process (a : Arguments) (raw : String) (config : Option String) :
    Except Failure Outcome := do
  let input ← (DataUri.decode raw).mapError .badInput
  let config ←
    match config with
    | some text => (Json.decodeText Config.decoder text).mapError .badConfig
    | none => pure Config.default
  let config ← configure a config
  let optimizer ← (Optimizer.build config).mapError .badPipeline
  let output ← (optimizer.optimize a.inputFile? input).mapError .badMarkup
  let text := output.dataUri.getD output.markup
  let stats :=
    if a.stats then
      statsLine (Text.byteSize input.toList) (Text.byteSize output.markup.toList) output.passes
    else ""
  pure <|
    match a.outputFile? with
    | some path => ⟨0, "", stats, some (path, text)⟩
    | none => ⟨0, text, stats, none⟩

/-- Looks up a file that the arguments name, if they name one. -/
def lookup (file? : String → Option String) (failure : Failure) :
    Option String → Except Failure (Option String)
  | none => .ok none
  | some path =>
    match file? path with
    | some text => .ok (some text)
    | none => .error failure

def execute (file? : String → Option String) (stdin : String) (a : Arguments) :
    Except Failure Outcome := do
  let input ← lookup file? .noInput a.inputFile?
  let config ← lookup file? .noConfig a.config
  process a (input.getD stdin) config

/-- Runs the program over files that can be read by their names. -/
def run (file? : String → Option String) (stdin : String) (args : List String) : Outcome :=
  match Arguments.read args with
  | .error .help => ⟨0, helpText, "", none⟩
  | .error .misuse => ⟨2, "", "error: invalid arguments; try '--help'\n", none⟩
  | .ok a =>
    match execute file? stdin a with
    | .ok outcome => outcome
    | .error failure => failure.outcome

def filesRead (args : List String) : List String :=
  match Arguments.read args with
  | .ok a => a.inputFile?.toList ++ a.config.toList
  | .error _ => []

def readsStdin (args : List String) : Bool :=
  match Arguments.read args with
  | .ok a => a.inputFile?.isNone
  | .error _ => false

end CommandLine
end SvgCompact

import SvgCompact.DataUri
import SvgCompact.Decimal.Reader

/-!
Reading the arguments of a command line.

Options have a long name after two dashes or a letter after one; letters without
values may be joined.  A value follows its option as the next argument or in the
same one.  After `--` nothing is an option.
-/

namespace SvgCompact
namespace CommandLine

/-- Options that take a value. -/
inductive ValueOption
  | output
  | config
  | precision
  | dataUri
  | disable
deriving DecidableEq, Repr

/-- Options that are given or not. -/
inductive Flag
  | multipass
  | pretty
  | stats
  | help
deriving DecidableEq, Repr

inductive Opt
  | value (o : ValueOption)
  | flag (f : Flag)
deriving DecidableEq, Repr

def Opt.ofLong? (name : String) : Option Opt :=
  match name with
  | "output" => some (.value .output)
  | "config" => some (.value .config)
  | "precision" => some (.value .precision)
  | "datauri" => some (.value .dataUri)
  | "disable" => some (.value .disable)
  | "multipass" => some (.flag .multipass)
  | "pretty" => some (.flag .pretty)
  | "stats" => some (.flag .stats)
  | "help" => some (.flag .help)
  | _ => none

def Opt.ofLetter? : Char → Option Opt
  | 'o' => some (.value .output)
  | 'c' => some (.value .config)
  | 'p' => some (.value .precision)
  | 's' => some (.flag .stats)
  | 'h' => some (.flag .help)
  | _ => none

structure Arguments where
  input : Option String
  output : Option String
  config : Option String
  precision : Option Nat
  dataUri : Option DataUri.Mode
  /-- The plugins that are switched off, in order. -/
  disabled : List String
  multipass : Bool
  pretty : Bool
  stats : Bool
deriving DecidableEq, Repr

/-- Why the program does not run: help is wanted, or the arguments are wrong. -/
inductive Stop
  | help
  | misuse
deriving DecidableEq, Repr

namespace Arguments

def none : Arguments := ⟨.none, .none, .none, .none, .none, [], false, false, false⟩

/-- Sets what may be set once only. -/
def once {α : Type} (held : Option α) (new : Option α) : Except Stop (Option α) :=
  match held, new with
  | .none, some a => .ok (some a)
  | _, _ => .error .misuse

/-- A path is not empty. -/
def path? (s : String) : Option String :=
  if s.isEmpty then .none else some s

/-- A number from 0 to 255, with an optional sign. -/
def byte? (s : String) : Option Nat :=
  let (negative, digits) := Decimal.takeSign s.toList
  if digits.isEmpty || !digits.all Char.isDigit then .none
  else
    let n := Decimal.ofDigits digits
    if n < 256 && (!negative || n == 0) then some n else .none

def setInput (a : Arguments) (s : String) : Except Stop Arguments := do
  pure { a with input := ← once a.input (path? s) }

def setValue (a : Arguments) (o : ValueOption) (s : String) : Except Stop Arguments := do
  match o with
  | .output => pure { a with output := ← once a.output (path? s) }
  | .config => pure { a with config := ← once a.config (path? s) }
  | .precision => pure { a with precision := ← once a.precision (byte? s) }
  | .dataUri => pure { a with dataUri := ← once a.dataUri (DataUri.Mode.ofName? s) }
  | .disable => pure { a with disabled := a.disabled ++ [s] }

def setFlag (a : Arguments) (f : Flag) : Except Stop Arguments :=
  match f with
  | .multipass => if a.multipass then .error .misuse else .ok { a with multipass := true }
  | .pretty => if a.pretty then .error .misuse else .ok { a with pretty := true }
  | .stats => if a.stats then .error .misuse else .ok { a with stats := true }
  | .help => .error .help

/-- Reads letters after a dash.  An option that takes a value takes the rest of
them; without a rest it waits for the next argument. -/
def readLetters (a : Arguments) : List Char → Except Stop (Arguments × Option ValueOption)
  | [] => .ok (a, .none)
  | c :: cs =>
    match Opt.ofLetter? c, cs with
    | some (.flag f), cs =>
      match a.setFlag f with
      | .ok a => readLetters a cs
      | .error stop => .error stop
    | some (.value o), [] => .ok (a, some o)
    | some (.value o), '=' :: value => (a.setValue o (String.ofList value)).map (·, .none)
    | some (.value o), value => (a.setValue o (String.ofList value)).map (·, .none)
    | .none, _ => .error .misuse

/-- Reads what follows two dashes: a name, and a value after an equals sign. -/
def readLong (a : Arguments) (s : List Char) : Except Stop (Arguments × Option ValueOption) :=
  let (name, value) :=
    match Text.splitAt? (· == '=') s with
    | some (name, value) => (name, some (String.ofList value))
    | .none => (s, .none)
  match Opt.ofLong? (String.ofList name), value with
  | some (.value o), some value => (a.setValue o value).map (·, .none)
  | some (.value o), .none => .ok (a, some o)
  | some (.flag f), .none => (a.setFlag f).map (·, .none)
  | _, _ => .error .misuse

/-- Reads one argument.  The result names the option that waits for a value. -/
def readOne (a : Arguments) (s : String) : Except Stop (Arguments × Option ValueOption) :=
  match s.toList with
  | '-' :: '-' :: cs => a.readLong cs
  | '-' :: c :: cs => a.readLetters (c :: cs)
  | _ => (a.setInput s).map (·, .none)

/-- Whether an argument can be the value of the option before it. -/
def isValue (s : String) : Bool :=
  s.toList.head? != some '-' || s == "-"

/-- Reads arguments; the option that waits for a value takes the first. -/
def readFrom (a : Arguments) (waiting : Option ValueOption) :
    List String → Except Stop Arguments
  | [] => if waiting.isSome then .error .misuse else .ok a
  | s :: rest =>
    match waiting with
    | some o =>
      if isValue s then
        match a.setValue o s with
        | .ok a => readFrom a .none rest
        | .error stop => .error stop
      else .error .misuse
    | .none =>
      if s == "--" then rest.foldlM setInput a
      else
        match a.readOne s with
        | .ok (a, waiting) => readFrom a waiting rest
        | .error stop => .error stop

def read (args : List String) : Except Stop Arguments :=
  readFrom none .none args

/-- The file to read markup from; none stands for standard input. -/
def inputFile? (a : Arguments) : Option String :=
  a.input.filter (· != "-")

/-- The file to write to; none stands for standard output. -/
def outputFile? (a : Arguments) : Option String :=
  a.output.filter (· != "-")

end Arguments
end CommandLine
end SvgCompact

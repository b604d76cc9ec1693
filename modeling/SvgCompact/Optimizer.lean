import SvgCompact.Markup.Reader
import SvgCompact.Pipeline
import SvgCompact.Text.Measure

/-!
The optimizer: read, run the pipeline, print, and repeat while it helps.
-/

namespace SvgCompact

/-! ## Repeating while it helps -/

namespace Convergence

variable {α ε : Type}

/-- Goes on from a value that `cycles` cycles have led to. -/
def continued (size : α → Nat) (cycle : α → Except ε α) (limit : Nat) (cycles : Nat) (a : α) :
    Except ε (α × Nat) :=
  if limit ≤ cycles then .ok (a, cycles)
  else
    match cycle a with
    | .error e => .error e
    | .ok b =>
      if _h : size b < size a then continued size cycle limit (cycles + 1) b
      else .ok (b, cycles + 1)
termination_by size a

/-- Runs a cycle once, and again while fewer than `limit` have run and the last
made its input smaller, the first one apart.  The result is the last value and the
number of cycles. -/
def run (size : α → Nat) (cycle : α → Except ε α) (limit : Nat) (a : α) : Except ε (α × Nat) :=
  match cycle a with
  | .error e => .error e
  | .ok b => continued size cycle limit 1 b

end Convergence

/-! ## Optimizing markup -/

structure Output where
  markup : String
  /-- The path of the input, if the caller gave one. -/
  path : Option String
  /-- The markup as a `data:` URI, if the configuration asks for one. -/
  dataUri : Option String
  passes : Nat
deriving DecidableEq, Repr

structure Optimizer where
  config : Config
  pipeline : Pipeline

namespace Optimizer

/-- An optimizer whose plugins come from a registry. -/
def withRegistry (r : Registry) (config : Config) : Except ConfigError Optimizer :=
  (Pipeline.build r config.plugins).map fun pipeline => ⟨config, pipeline⟩

def build (config : Config) : Except ConfigError Optimizer :=
  withRegistry .builtin config

/-- Reads markup, runs the pipeline once and prints the result. -/
def cycle (o : Optimizer) (markup : String) : Except Markup.Error String :=
  (Markup.read markup).map fun d => Markup.print o.config.printing (o.pipeline.run d)

def maxCycles (o : Optimizer) : Nat :=
  if o.config.multipass then max 1 o.config.maxPasses else 1

def optimize (o : Optimizer) (path : Option String) (markup : String) :
    Except Markup.Error Output :=
  (Convergence.run (fun s => Text.byteSize s.toList) o.cycle o.maxCycles markup).map
    fun (result, passes) =>
      ⟨result, path, o.config.dataUri.map fun mode => DataUri.encode mode result, passes⟩

end Optimizer
end SvgCompact

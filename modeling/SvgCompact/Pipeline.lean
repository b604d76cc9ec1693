import SvgCompact.Config

/-!
Pipelines: the passes of a configuration, built before any document is touched.
-/

namespace SvgCompact

/-- Why a configuration makes no pipeline. -/
inductive ConfigError
  | unknownPlugin (name : String)
  | invalidParameters (plugin : String) (misfit : Json.Misfit)

def ConfigError.message : ConfigError → String
  | unknownPlugin name => "unknown plugin `" ++ name ++ "`"
  | invalidParameters plugin misfit =>
    "invalid parameters for plugin `" ++ plugin ++ "`: " ++ misfit.message

namespace Pipeline

/-- A pass ready to run. -/
structure Stage where
  name : String
  enabled : Bool
  pass : Pass

def stageOf (r : Registry) (entry : PluginEntry) : Except ConfigError Stage :=
  match r.get? entry.name with
  | none => .error (.unknownPlugin entry.name)
  | some plugin =>
    match plugin.build entry.parameters with
    | .ok pass => .ok ⟨entry.name, entry.enabled, pass⟩
    | .error misfit => .error (.invalidParameters entry.name misfit)

def Stage.run (d : Document) (s : Stage) : Document :=
  if s.enabled then s.pass.run d else d

end Pipeline

/-- Stages in the order in which they run. -/
abbrev Pipeline := List Pipeline.Stage

namespace Pipeline

/-- Builds all passes, also those that are disabled. -/
def build (r : Registry) (entries : List PluginEntry) : Except ConfigError Pipeline :=
  entries.mapM (stageOf r)

def enabledNames (p : Pipeline) : List String :=
  (p.filter (·.enabled)).map (·.name)

def run (p : Pipeline) (d : Document) : Document :=
  p.foldl Stage.run d

end Pipeline
end SvgCompact

import SvgCompact.DataUri
import SvgCompact.Markup.Printer
import SvgCompact.Plugin

/-!
Configuration: which plugins run, how often, and what is written.
-/

namespace SvgCompact

namespace Markup

def PrintOptions.decoder : Json.Decoder PrintOptions :=
  .record "SerializeOptions"
    [.of "pretty" .bool fun v o => { o with pretty := v },
      .of "indent" .word fun v o => { o with indent := v },
      .of "self_close" .bool fun v o => { o with selfClose := v },
      .of "sort_attrs" .bool fun v o => { o with sortAttrs := v }]
    .default

end Markup

/-! ## Entries for plugins -/

/-- A plugin as a configuration names it. -/
structure PluginEntry where
  name : String
  enabled : Bool
  parameters : Parameters

namespace PluginEntry

def named (name : String) : PluginEntry := ⟨name, true, []⟩

def valuesOf (key : String) (members : List (String × Json.Draft)) : List Json.Draft :=
  (members.filter (·.1 == key)).map (·.2)

/-- The value for a key that occurs once at most; `default` stands for none. -/
def once? {α : Type} (default : Option α) (read : Json.Draft → Option α) :
    List Json.Draft → Option α
  | [] => default
  | [d] => read d
  | _ => none

def text? : Json.Draft → Option String
  | .text s => some s
  | _ => none

def bool? : Json.Draft → Option Bool
  | .bool b => some b
  | _ => none

def parameters? (d : Json.Draft) : Option Parameters :=
  match d, d.complete with
  | .object _ _, .ok (.object fields) => some fields
  | _, _ => none

/-- An entry in full.  Other keys do not matter. -/
def full? (members : List (String × Json.Draft)) : Option PluginEntry := do
  let name ← once? none text? (valuesOf "name" members)
  let enabled ← once? (some true) bool? (valuesOf "enabled" members)
  let parameters ← once? (some []) parameters? (valuesOf "params" members)
  pure ⟨name, enabled, parameters⟩

/-- A name, or an object.  The value is read to its end before its form counts. -/
def decoder : Json.Decoder PluginEntry := fun d =>
  match d.complete with
  | .error fault => .error (.fault fault)
  | .ok _ =>
    let entry :=
      match d with
      | .text name => some (named name)
      | .object members _ => full? members
      | _ => none
    match entry with
    | some entry => .ok entry
    | none => .error (.noForm "PluginConfigRepr")

end PluginEntry

def Registry.entries (r : Registry) : List PluginEntry :=
  r.map fun p => ⟨p.name, p.enabledByDefault, []⟩

/-! ## The whole -/

structure Config where
  plugins : List PluginEntry
  /-- Whether the pipeline is repeated while the output gets shorter. -/
  multipass : Bool
  /-- How often it runs at most when it is repeated. -/
  maxPasses : Nat
  printing : Markup.PrintOptions
  /-- How a `data:` URI of the result is encoded, if one is wanted. -/
  dataUri : Option DataUri.Mode

namespace Config

def ofRegistry (r : Registry) : Config :=
  ⟨r.entries, false, 10, .default, none⟩

def default : Config := ofRegistry .builtin

def decoder : Json.Decoder Config :=
  .record "Config"
    [.of "plugins" (.list PluginEntry.decoder) fun v c => { c with plugins := v },
      .of "multipass" .bool fun v c => { c with multipass := v },
      .of "max_passes" .word fun v c => { c with maxPasses := v },
      .of "js2svg" Markup.PrintOptions.decoder fun v c => { c with printing := v },
      .of "datauri" (.optional (.variant DataUri.Mode.names)) fun v c => { c with dataUri := v }]
    default

def entry? (c : Config) (name : String) : Option PluginEntry :=
  c.plugins.find? (·.name == name)

def updateEntry (c : Config) (name : String) (f : PluginEntry → PluginEntry) : Config :=
  match c.plugins.findIdx? (·.name == name) with
  | some i => { c with plugins := c.plugins.modify i f }
  | none => c

def setEnabled (c : Config) (name : String) (enabled : Bool) : Config :=
  c.updateEntry name fun e => { e with enabled }

def setParameter (c : Config) (name key : String) (value : Json) : Config :=
  c.updateEntry name fun e => { e with parameters := Json.putField key value e.parameters }

end Config
end SvgCompact

import SvgCompact.Json.Decoder
import SvgCompact.Pass.Groups
import SvgCompact.Pass.Inlining
import SvgCompact.Pass.Merging
import SvgCompact.Pass.Order
import SvgCompact.Pass.Removal
import SvgCompact.Pass.Values

/-!
Passes by name.

A plugin builds a pass from parameters; a registry lists plugins, each name
once, in the order in which they run by default.
-/

namespace SvgCompact

structure Plugin where
  name : String
  summary : String
  enabledByDefault : Bool
  decoder : Json.Decoder Pass

/-- Parameters by name, in the order of the names. -/
abbrev Parameters := List (String × Json)

namespace Plugin

open Json (Decoder)

def build (p : Plugin) (parameters : Parameters) : Except Json.Misfit Pass :=
  Json.decode p.decoder (.object parameters)

/-- A plugin whose pass has no parameters. -/
def fixed (name summary : String) (pass : Pass) : Plugin :=
  ⟨name, summary, true, Decoder.record "NoParams" [] pass⟩

/-! ## Parameters -/

def inliningDecoder : Decoder Inlining.Options :=
  .record "InlineStylesParams"
    [.of "only_matched_once" .bool fun v o => { o with onlyOnce := v },
      .of "remove_matched_selectors" .bool fun v o => { o with removesMatched := v },
      .of "use_mqs" (.list .text) fun v o => { o with media := v },
      .of "use_pseudos" (.list .text) fun v o => { o with pseudos := v }]
    .default

def precisionField : Decoder.Field PathFormat :=
  .of "precision" (.optional .byte) fun v f => { f with precision := v }

/-- The fields for the separators of path data. -/
def separatorFields : List (Decoder.Field PathFormat) :=
  [.of "leading_zero" .bool fun v f => { f with dropZeros := v },
    .of "negative_extra_space" .bool fun v f => { f with dropBlanks := v },
    .of "no_space_after_flags" .bool fun v f => { f with joinFlags := v },
    .of "collapse_repeated" .bool fun v f => { f with dropLetters := v }]

/-- A field of the format as a field of the options around it. -/
def inFormat (f : Decoder.Field PathFormat) : Decoder.Field Merging.Options :=
  ⟨f.name, fun draft options =>
    (f.fill draft options.format).map fun format => { options with format }⟩

def mergingDecoder : Decoder Merging.Options :=
  .record "MergePathsParams"
    (.of "force" .bool (fun v o => { o with force := v })
      :: (precisionField :: separatorFields).map inFormat)
    .default

/-- Three decimal places unless the parameters say otherwise. -/
def precisionDecoder : Decoder (Option Nat) :=
  .record "ConvertPathDataParams" [.of "precision" (.optional .byte) fun v _ => v] (some 3)

/-- A plugin whose pass depends on parameters. -/
def adjustable {α : Type} (name summary : String) (decoder : Decoder α) (pass : α → Pass) :
    Plugin :=
  ⟨name, summary, true, fun draft => (decoder draft).map pass⟩

end Plugin

abbrev Registry := List Plugin

namespace Registry

def get? (r : Registry) (name : String) : Option Plugin :=
  r.find? (·.name == name)

/-- Puts a plugin in the place of the one with its name, or at the end. -/
def register (r : Registry) (p : Plugin) : Registry :=
  match r.findIdx? (·.name == p.name) with
  | some i => r.set i p
  | none => r ++ [p]

open Plugin

def builtin : Registry :=
  [fixed "remove_doctype" "removes the doctype declaration" Pass.removeDoctype,
    fixed "remove_xml_proc_inst" "removes the XML declaration" Pass.removeDeclaration,
    fixed "remove_comments" "removes comments" Pass.removeComments,
    fixed "remove_metadata" "removes <metadata>, <title>, <desc> and editor data"
      Pass.removeMetadata,
    adjustable "inline_styles" "moves <style> rules into style attributes" inliningDecoder
      Pass.inlineStyles,
    fixed "minify_styles" "minifies <style> elements and style attributes" Pass.minifyStyles,
    fixed "minify_colors" "shortens color values" Pass.minifyColors,
    fixed "remove_default_attrs" "removes attributes set to their default value"
      Pass.removeDefaults,
    fixed "remove_hidden" "removes elements that never render" Pass.removeHidden,
    fixed "move_elems_attrs_to_group" "moves attributes shared by all children to the group"
      Pass.moveSharedToGroup,
    fixed "collapse_groups" "collapses useless groups" Pass.collapseGroups,
    adjustable "convert_path_data" "rounds and compacts path data" precisionDecoder
      Pass.convertPathData,
    fixed "remove_empty_containers" "removes empty container elements"
      Pass.removeEmptyContainers,
    adjustable "merge_paths" "merges adjacent paths with identical attributes" mergingDecoder
      Pass.mergePaths,
    fixed "remove_unused_namespaces" "removes unused namespace declarations"
      Pass.removeUnusedNamespaces,
    fixed "sort_defs_children" "sorts children of <defs> to improve compression" Pass.sortDefs,
    { fixed "remove_xmlns" "removes the xmlns attribute (for inline SVG)" Pass.removeXmlns with
      enabledByDefault := false }]

end Registry
end SvgCompact

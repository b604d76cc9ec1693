import SvgCompact.Pipeline
import SvgCompact.Proofs.Pass.Hidden

/-!
What a pipeline of the plugins of this library does to a document.

Its stages are sequences of edits, whatever their parameters are.  From that the
document stays sound, and an `svg` root element stays where it is unless the stage
against hidden elements comes upon it hidden.
-/

namespace SvgCompact

open Document (Edits)
open Pass (IsDroppable)

variable {P : QName → Prop}

/-! ## What plugins build -/

namespace Plugin

/-- Whether all passes that a plugin can build have a property. -/
def Yields (p : Plugin) (Q : Pass → Prop) : Prop :=
  ∀ parameters pass, p.build parameters = .ok pass → Q pass

theorem eq_of_fillByKey_nil {α : Type} {seen : List String} {start result : α}
    {members : List (String × Json.Draft)}
    (h : Json.Decoder.fillByKey [] seen start members = .ok result) : result = start := by
  cases members with
  | nil =>
    cases h
    rfl
  | cons m rest =>
    rw [Json.Decoder.fillByKey] at h
    cases h

theorem yields_fixed {Q : Pass → Prop} {name summary : String} {pass : Pass} (h : Q pass) :
    (fixed name summary pass).Yields Q := by
  intro parameters built hbuilt
  simp only [build, fixed, Json.decode, Json.Draft.ofJson, Json.Decoder.record] at hbuilt
  split at hbuilt
  · next result hresult =>
    obtain rfl := eq_of_fillByKey_nil hresult
    cases hbuilt
    exact h
  · cases hbuilt

theorem yields_adjustable {Q : Pass → Prop} {α : Type} {name summary : String}
    {decoder : Json.Decoder α} {pass : α → Pass} (h : ∀ a, Q (pass a)) :
    (adjustable name summary decoder pass).Yields Q := by
  intro parameters built hbuilt
  simp only [build, adjustable, Json.decode] at hbuilt
  cases hdecoded : decoder (Json.Draft.ofJson (.object parameters)) with
  | error e =>
    rw [hdecoded] at hbuilt
    cases hbuilt
  | ok a =>
    rw [hdecoded] at hbuilt
    cases hbuilt
    exact h a

end Plugin

/-- What a pass of this library may do, by its name. -/
def Pass.Suits (P : QName → Prop) (name : String) (pass : Pass) : Prop :=
  if name = "remove_hidden" then pass = removeHidden else pass.IsEditing P Element.IsNoSvg

/-- What a pass of this library is, by its name. -/
def Pass.SuitsStepwise (P : QName → Prop) (name : String) (pass : Pass) : Prop :=
  if name = "remove_hidden" then pass = removeHidden else pass.IsStepwise P Element.IsNoSvg

namespace Pass.SuitsStepwise

variable {name : String} {pass : Pass}

theorem suits (h : pass.SuitsStepwise P name) : pass.Suits P name := by
  rw [Pass.SuitsStepwise] at h
  rw [Pass.Suits]
  split
  · next hname => rwa [if_pos hname] at h
  · next hname =>
    rw [if_neg hname] at h
    exact h.isEditing

theorem isStepwise (h : pass.SuitsStepwise P name) : pass.IsStepwise P fun _ => True := by
  rw [Pass.SuitsStepwise] at h
  split at h
  · rw [h]
    exact Pass.isStepwise_removeHidden.mono fun _ _ => trivial
  · exact h.mono fun _ _ => trivial

end Pass.SuitsStepwise

theorem Registry.yields_builtin [QName.Admits P] :
    ∀ p ∈ builtin, p.Yields (Pass.SuitsStepwise P p.name) := by
  simp only [builtin, List.forall_mem_cons]
  refine ⟨Plugin.yields_fixed Pass.isStepwise_removeDoctype,
    Plugin.yields_fixed Pass.isStepwise_removeDeclaration,
    Plugin.yields_fixed Pass.isStepwise_removeComments,
    Plugin.yields_fixed Pass.isStepwise_removeMetadata,
    Plugin.yields_adjustable Pass.isStepwise_inlineStyles,
    Plugin.yields_fixed Pass.isStepwise_minifyStyles,
    Plugin.yields_fixed Pass.isStepwise_minifyColors,
    Plugin.yields_fixed Pass.isStepwise_removeDefaults,
    Plugin.yields_fixed rfl,
    Plugin.yields_fixed Pass.isStepwise_moveSharedToGroup,
    Plugin.yields_fixed Pass.isStepwise_collapseGroups,
    Plugin.yields_adjustable Pass.isStepwise_convertPathData,
    Plugin.yields_fixed Pass.isStepwise_removeEmptyContainers,
    Plugin.yields_adjustable Pass.isStepwise_mergePaths,
    Plugin.yields_fixed Pass.isStepwise_removeUnusedNamespaces,
    Plugin.yields_fixed Pass.isStepwise_sortDefs,
    @Plugin.yields_fixed _ "remove_xmlns" "" _ Pass.isStepwise_removeXmlns, by simp⟩

/-! ## Stages and runs -/

namespace Pipeline

section Stages

variable {Q : String → Pass → Prop} (hyields : ∀ p ∈ Registry.builtin, p.Yields (Q p.name))
include hyields

theorem holds_of_stageOf {entry : PluginEntry} {s : Stage}
    (h : stageOf .builtin entry = .ok s) : Q s.name s.pass := by
  rw [stageOf] at h
  split at h
  · cases h
  · next plugin hget =>
    split at h
    · next pass hbuild =>
      cases h
      have hname : plugin.name = entry.name := by
        simpa using List.find?_some hget
      have hpass := hyields plugin (List.mem_of_find?_eq_some hget)
      rw [hname] at hpass
      exact hpass _ _ hbuild
    · cases h

/-- What all passes of a plugin have in common, by its name, the stages have, too. -/
theorem holds_of_build {entries : List PluginEntry} {p : Pipeline}
    (h : build .builtin entries = .ok p) : ∀ s ∈ p, Q s.name s.pass := by
  induction entries generalizing p with
  | nil =>
    cases h
    simp
  | cons entry rest ih =>
    rw [build, List.mapM_cons] at h
    cases hs : stageOf .builtin entry with
    | error e =>
      rw [hs] at h
      cases h
    | ok s =>
      cases hrest : rest.mapM (stageOf .builtin) with
      | error e =>
        rw [hs, hrest] at h
        cases h
      | ok p' =>
        rw [hs, hrest] at h
        cases h
        rw [List.forall_mem_cons]
        exact ⟨holds_of_stageOf hyields hs, ih hrest⟩

end Stages

theorem suitsStepwise_of_build [QName.Admits P] {entries : List PluginEntry} {p : Pipeline}
    (h : build .builtin entries = .ok p) : ∀ s ∈ p, s.pass.SuitsStepwise P s.name :=
  holds_of_build (Q := fun name pass => pass.SuitsStepwise P name) Registry.yields_builtin h

/-- Every stage of a pipeline is made of edits or is the one against hidden elements. -/
theorem suits_of_build [QName.Admits P] {entries : List PluginEntry} {p : Pipeline}
    (h : build .builtin entries = .ok p) : ∀ s ∈ p, s.pass.Suits P s.name :=
  fun s hs => (suitsStepwise_of_build h s hs).suits

variable {p : Pipeline} {d : Document}

theorem edits_pass {s : Stage} (hs : s.pass.Suits P s.name) (hd : d.IsSound P) :
    Edits P (fun _ => True) d (s.run d) := by
  rw [Stage.run]
  split
  · rw [Pass.Suits] at hs
    split at hs
    · rw [hs]
      exact (Pass.isStepwise_removeHidden.isEditing d hd).mono fun _ _ => trivial
    · exact (hs d hd).mono fun _ _ => trivial
  · exact .refl d

theorem edits_run (hp : ∀ s ∈ p, s.pass.Suits P s.name) (hd : d.IsSound P) :
    Edits P (fun _ => True) d (p.run d) :=
  .foldl (fun _ hd s hs => edits_pass (hp s hs) hd) hd

/-- Whether an enabled stage against hidden elements comes upon a node that it drops. -/
def HidesRoot (p : Pipeline) (d : Document) (r : NodeId) : Prop :=
  ∃ before s after e, p = before ++ s :: after ∧ s.enabled = true ∧ s.name = "remove_hidden"
    ∧ (run before d).element? r = some e ∧ IsDroppable e

theorem hidesRoot_cons {s : Stage} {r : NodeId} :
    HidesRoot (s :: p) d r ↔
      (s.enabled = true ∧ s.name = "remove_hidden"
        ∧ ∃ e, d.element? r = some e ∧ IsDroppable e) ∨ HidesRoot p (s.run d) r := by
  constructor
  · intro hex
    obtain ⟨before, s', after, e, hp, henabled, hname, he, hdrop⟩ := hex
    cases before with
    | nil =>
      cases hp
      exact .inl ⟨henabled, hname, e, he, hdrop⟩
    | cons b before =>
      cases hp
      exact .inr ⟨before, s', after, e, rfl, henabled, hname, he, hdrop⟩
  · intro hcase
    rcases hcase with ⟨henabled, hname, e, he, hdrop⟩ | ⟨before, s', after, e, rfl, h⟩
    · exact ⟨[], s, p, e, rfl, henabled, hname, he, hdrop⟩
    · exact ⟨s :: before, s', after, e, rfl, h⟩

theorem not_hidesRoot_nil {r : NodeId} : ¬ HidesRoot [] d r := by
  intro hex
  obtain ⟨before, s, after, e, hp, -⟩ := hex
  cases before <;> cases hp

theorem not_isNamed_g {name : QName} (hsvg : name.isNamed "svg" = true) :
    name.isNamed "g" = false := by
  refine Bool.eq_false_iff.2 fun hg => ?_
  have h := QName.isNamed_unique (by decide) hsvg hg
  revert h
  decide

theorem parent_stage_iff {s : Stage} {r : NodeId} {e : Element} (hs : s.pass.Suits P s.name)
    (hd : d.IsSound P) (hr : d.HasRoot r e.name) (hsvg : e.isNamed "svg" = true)
    (hparent : d.parent r = some Document.root) (he : d.element? r = some e) :
    (s.run d).parent r = some Document.root ↔
      ¬ (s.enabled = true ∧ s.name = "remove_hidden" ∧ IsDroppable e) := by
  rw [Stage.run]
  rw [Pass.Suits] at hs
  by_cases henabled : s.enabled = true
  · rw [if_pos henabled]
    split at hs
    · next hname =>
      rw [hs, Pass.parent_removeHidden_iff hd hparent he]
      simp [henabled, hname]
    · next hname =>
      have hkeep := (hs d hd).parent_eq hd hr (not_isNamed_g hsvg) fun e' he' hno => by
        rw [Element.IsNoSvg, Element.isNamed, he'] at hno
        rw [Element.isNamed, hno] at hsvg
        cases hsvg
      simp [hkeep, hparent, hname]
  · simp [henabled, hparent]

/-- An `svg` root element stays if and only if it is never found hidden. -/
theorem parent_run_iff {r : NodeId} {name : QName} (hp : ∀ s ∈ p, s.pass.Suits P s.name)
    (hd : d.IsSound P) (hr : d.HasRoot r name) (hsvg : name.isNamed "svg" = true)
    (hparent : d.parent r = some Document.root) :
    (run p d).parent r = some Document.root ↔ ¬ HidesRoot p d r := by
  induction p generalizing d with
  | nil => simp [run, hparent, not_hidesRoot_nil]
  | cons s rest ih =>
    rw [List.forall_mem_cons] at hp
    have hstage := edits_pass hp.1 hd
    have hd' := hstage.isSound hd
    have hr' := hstage.hasRoot hd hr
    obtain ⟨e, he, rfl⟩ := hr.element
    have hstep := parent_stage_iff hp.1 hd hr hsvg hparent he
    rw [hidesRoot_cons, not_or]
    show (run rest (s.run d)).parent r = some Document.root ↔ _
    by_cases hhides : s.enabled = true ∧ s.name = "remove_hidden" ∧ IsDroppable e
    · have hgone : (s.run d).parent r = none := by
        rcases hr'.parent with h | h
        · exact absurd hhides (hstep.1 h)
        · exact h
      have hnone := (edits_run hp.2 hd').parent_eq_none hd' hr' hgone
      rw [hnone]
      refine ⟨fun h => (nomatch h), fun h => absurd ?_ h.1⟩
      exact ⟨hhides.1, hhides.2.1, e, he, hhides.2.2⟩
    · rw [ih hp.2 hd' hr' (hstep.2 hhides)]
      refine ⟨fun h => ⟨fun ⟨h₁, h₂, e', he', h₃⟩ => hhides ⟨h₁, h₂, ?_⟩, h⟩, fun h => h.2⟩
      obtain rfl : e' = e := Option.some.inj (he'.symm.trans he)
      exact h₃

end Pipeline

end SvgCompact

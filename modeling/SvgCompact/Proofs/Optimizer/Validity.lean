import SvgCompact.Optimizer
import SvgCompact.Proofs.Markup.Printing
import SvgCompact.Proofs.Pass.Termination
import SvgCompact.Proofs.Pipeline.Editing

/-!
When optimized markup is markup again.

The pipeline keeps everything that markup needs but its root element, which some
passes may drop.  So the printed result is read again if and only if one root element
is left, and an `svg` element is left if and only if it is never found hidden.
-/

namespace SvgCompact

open Document (root)

/-! ## Documents that were read -/

namespace Document

/-- All names are written with name characters. -/
def HasWordNames (d : Document) : Prop :=
  ∀ j e, d.element? j = some e → e.name.IsWord ∧ ∀ a ∈ e.attributes, a.name.IsWord

def HasNoBlankDoctype (d : Document) : Prop :=
  ∀ j body, d.content j = .doctype body → body ≠ ""

/-- No character data section that is printed ends before its end. -/
def HasClosedCdata (d : Document) : Prop :=
  ∀ c s, d.IsAbove root c → d.content c = .cdata s → Text.IsBody "]]>".toList s.toList

variable {d : Document} {r : NodeId} {name : QName}

theorem hasOneRoot_of_parent (hd : d.IsRooted) (hr : d.HasRoot r name)
    (hp : d.parent r = some root) : d.HasOneRoot := by
  have helement := hr.isElement
  have hmem := (hd.isForest.mem_children_iff root r).2 hp
  have hnodup := hd.isForest.nodup_children root
  have hothers : ∀ c ∈ d.children root, c = r ∨ (d.content c).isMisc = true := fun c hc =>
    hr.top (.inl hp) c ((hd.isForest.mem_children_iff root c).1 hc)
  refine ⟨r, ?_, fun c hc => ?_⟩
  · obtain ⟨front, back, hchildren⟩ := List.append_of_mem hmem
    rw [hchildren, List.nodup_append, List.nodup_cons] at hnodup
    have hbeside : ∀ c, c ∈ d.children root → c ≠ r → ¬ d.isElement c = true := by
      intro c hc hne
      rw [isElement, Content.isElement_of_isMisc ((hothers c hc).resolve_left hne)]
      simp
    have hfront : front.filter d.isElement = [] := List.filter_eq_nil_iff.2 fun c hc =>
      hbeside c (by simp [hchildren, hc]) (hnodup.2.2 c hc r (by simp))
    have hback : back.filter d.isElement = [] := List.filter_eq_nil_iff.2 fun c hc =>
      hbeside c (by simp [hchildren, hc]) (ne_of_mem_of_not_mem hc hnodup.2.1.1)
    rw [childElements, hchildren, List.filter_append, List.filter_cons_of_pos helement, hfront,
      hback, List.nil_append]
  · rcases hothers c hc with rfl | hmisc
    · obtain ⟨e, he⟩ := Option.isSome_iff_exists.1 helement
      rw [Content.eq_element_of_element? he]
      rfl
    · exact Content.characters?_of_isMisc hmisc

theorem parent_of_hasOneRoot (hd : d.IsRooted) (hr : d.HasRoot r name)
    (hg : name.isNamed "g" = false) (hone : d.HasOneRoot) : d.parent r = some root := by
  obtain ⟨r', helements, -⟩ := hone
  have hr' : r' ∈ d.childElements root := by rw [helements]; simp
  obtain ⟨hmem, helement⟩ := List.mem_filter.1 hr'
  have hp := (hd.isForest.mem_children_iff root r').1 hmem
  rcases hr.top (.inr hg) r' hp with rfl | hmisc
  · exact hp
  · rw [isElement, Content.isElement_of_isMisc hmisc] at helement
    cases helement

theorem isMisc_of_parent_ne (hd : d.IsRooted) (hr : d.HasRoot r name)
    (hg : name.isNamed "g" = false) (hp : d.parent r ≠ some root) :
    ∀ c ∈ d.children root, (d.content c).isMisc = true := by
  intro c hc
  have hparent := (hd.isForest.mem_children_iff root c).1 hc
  rcases hr.top (.inr hg) c hparent with rfl | hmisc
  · exact absurd hparent hp
  · exact hmisc

end Document

namespace Markup

theorem isPrintable_of_read {s : String} {d : Document} (hs : read s = .ok d)
    (hnames : d.HasWordNames) (hdoctype : d.HasNoBlankDoctype) :
    d.IsSound QName.IsPlain ∧ ∀ j, IsPrintable (d.content j) := by
  obtain ⟨hrooted, hcontents, -⟩ := of_read hs
  have hplain : ∀ j e, d.content j = .element e → e.IsPlain := by
    intro j e he
    have hwords := hnames j e (by rw [Document.element?, he]; rfl)
    exact Element.isPlain_of_isWord ((hcontents j).2 e he) hwords.1 hwords.2
  refine ⟨⟨hrooted, fun j e he => hplain j e (Content.eq_element_of_element? he)⟩, fun j => ?_⟩
  exact ⟨(hcontents j).1, hplain j, hdoctype j⟩

theorem hasRoot_of_read {s : String} {d : Document} (hs : read s = .ok d) {r : NodeId}
    (hr : d.rootElement? = some r) :
    ∃ e, d.element? r = some e ∧ d.HasRoot r e.name ∧ d.parent r = some root := by
  obtain ⟨hrooted, -, r', -, -, hothers⟩ := of_read hs
  have hmem : r ∈ d.childElements root := List.mem_of_head? hr
  obtain ⟨hchild, helement⟩ := List.mem_filter.1 hmem
  have hp := (hrooted.isForest.mem_children_iff root r).1 hchild
  obtain ⟨e, he⟩ := Option.isSome_iff_exists.1 helement
  have hunique : r = r' := by
    refine (hothers r hp).resolve_right fun hmisc => ?_
    rw [Document.isElement, Content.isElement_of_isMisc hmisc] at helement
    cases helement
  refine ⟨e, he, ⟨⟨e, he, rfl⟩, .inl hp, fun _ c hc => ?_⟩, hp⟩
  rw [hunique]
  exact hothers c hc

theorem hasWordNames_of_isPrintable {d : Document} (h : ∀ j, IsPrintable (d.content j)) :
    d.HasWordNames ∧ d.HasNoBlankDoctype := by
  refine ⟨fun j e he => ?_, fun j => (h j).doctype⟩
  have hplain := (h j).isPlain e (Content.eq_element_of_element? he)
  exact ⟨hplain.name.toIsWord, fun a ha => (hplain.names a ha).toIsWord⟩

theorem isPrintable_of_edits {drops : Element → Prop} {d d' : Document}
    (h : Document.Edits QName.IsPlain drops d d') (hd : ∀ j, IsPrintable (d.content j)) :
    ∀ j, IsPrintable (d'.content j) :=
  h.forall_content (fun _ _ hrevise he => isPrintable_element (hrevise.all (he.isPlain _ rfl)))
    isPrintable_text isPrintable_cdata hd

end Markup

/-! ## Cycles -/

namespace Convergence

variable {α ε : Type} {size : α → Nat} {cycle : α → Except ε α} {limit : Nat} {Inv : α → Prop}

/-- Cycles that succeed wherever they can be reached never fail.  The induction is on
the size, which every further cycle makes smaller. -/
theorem continued_isOk (hstep : ∀ a, Inv a → ∃ b, cycle a = .ok b ∧ Inv b) (cycles : Nat) {a : α}
    (ha : Inv a) : ∃ result, continued size cycle limit cycles a = .ok result := by
  induction hn : size a using Nat.strongRecOn generalizing a cycles with
  | ind n ih =>
    obtain ⟨b, hcycle, hb⟩ := hstep a ha
    rw [continued]
    split
    · exact ⟨_, rfl⟩
    · rw [hcycle]
      simp only
      split
      · next hlt => exact ih (size b) (hn ▸ hlt) (cycles + 1) hb rfl
      · exact ⟨_, rfl⟩

theorem run_isOk (hstep : ∀ a, Inv a → ∃ b, cycle a = .ok b ∧ Inv b) {a : α} (ha : Inv a) :
    ∃ result, run size cycle limit a = .ok result := by
  obtain ⟨b, hcycle, hb⟩ := hstep a ha
  rw [run, hcycle]
  exact continued_isOk hstep 1 hb

end Convergence

namespace Optimizer

/-- Whether some cycles lead from one text to another. -/
def Reaches (o : Optimizer) : String → String → Prop :=
  Relation.ReflTransGen fun s t => o.cycle s = .ok t

/-- Whether every cycle from a text on leaves one root element and no character data
that ends too early. -/
def KeepsRoot (o : Optimizer) (s : String) : Prop :=
  ∀ t d, o.Reaches s t → Markup.read t = .ok d →
    (o.pipeline.run d).HasOneRoot ∧ (o.pipeline.run d).HasClosedCdata

variable {config : Config} {o : Optimizer} {s : String} {d : Document}

theorem of_build (ho : build config = .ok o) :
    o.config = config ∧ Pipeline.build .builtin config.plugins = .ok o.pipeline := by
  unfold build withRegistry at ho
  cases hp : Pipeline.build .builtin config.plugins with
  | error e =>
    rw [hp] at ho
    cases ho
  | ok pipeline =>
    rw [hp] at ho
    cases ho
    exact ⟨rfl, rfl⟩

theorem suits_of_build {P : QName → Prop} [QName.Admits P] (ho : build config = .ok o) :
    ∀ stage ∈ o.pipeline, stage.pass.Suits P stage.name :=
  Pipeline.suits_of_build (of_build ho).2

theorem isPrintable_run (ho : build config = .ok o) (hs : Markup.read s = .ok d)
    (hnames : d.HasWordNames) (hdoctype : d.HasNoBlankDoctype) :
    (o.pipeline.run d).IsRooted ∧ ∀ j, Markup.IsPrintable ((o.pipeline.run d).content j) := by
  obtain ⟨hd, hcontents⟩ := Markup.isPrintable_of_read hs hnames hdoctype
  have hedits := Pipeline.edits_run (suits_of_build ho) hd
  exact ⟨(hedits.isSound hd).toIsRooted, Markup.isPrintable_of_edits hedits hcontents⟩

theorem isOk_of_keepsRoot (ho : build config = .ok o) (hs : Markup.read s = .ok d)
    (hnames : d.HasWordNames) (hdoctype : d.HasNoBlankDoctype) (hkeeps : o.KeepsRoot s)
    (path : Option String) : ∃ output, o.optimize path s = .ok output := by
  let Inv (t : String) : Prop :=
    o.Reaches s t ∧ ∃ d, Markup.read t = .ok d ∧ d.HasWordNames ∧ d.HasNoBlankDoctype
  have hstep : ∀ t, Inv t → ∃ t', o.cycle t = .ok t' ∧ Inv t' := by
    rintro t ⟨hreaches, d, ht, hnames, hdoctype⟩
    have hcycle : o.cycle t = .ok (Markup.print o.config.printing (o.pipeline.run d)) := by
      rw [cycle, ht]
      rfl
    obtain ⟨hrooted, hcontents⟩ := isPrintable_run ho ht hnames hdoctype
    obtain ⟨hone, hcdata⟩ := hkeeps t d hreaches ht
    obtain ⟨d', hread, hprintable⟩ :=
      Markup.read_print_of_hasOneRoot hrooted hcontents hcdata hone o.config.printing
    exact ⟨_, hcycle, hreaches.tail hcycle, d', hread,
      Markup.hasWordNames_of_isPrintable hprintable⟩
  have hinit : Inv s := ⟨.refl, d, hs, hnames, hdoctype⟩
  obtain ⟨result, hrun⟩ := @Convergence.run_isOk String Markup.Error
    (fun s => Text.byteSize s.toList) o.cycle o.maxCycles Inv hstep s hinit
  rw [optimize, hrun]
  exact ⟨_, rfl⟩

/-- The pipeline leaves one root element if and only if the root element stays, and an
`svg` element stays if and only if no stage finds it hidden; a group may also be
unwrapped around another element.  Where names and sections can be written at all, what
is printed is then read again, and it is refused when the root element is gone.  When
every cycle leaves one root element, repeating the pipeline never fails. -/
theorem read_optimized (ho : build config = .ok o) (hs : Markup.read s = .ok d) {r : NodeId}
    (hr : d.rootElement? = some r) :
    ((o.pipeline.run d).parent r = some root → (o.pipeline.run d).HasOneRoot)
      ∧ (d.isNamed r "g" = false →
        ((o.pipeline.run d).HasOneRoot ↔ (o.pipeline.run d).parent r = some root))
      ∧ (d.isNamed r "svg" = true →
        ((o.pipeline.run d).HasOneRoot ↔ ¬ o.pipeline.HidesRoot d r))
      ∧ (d.HasWordNames → d.HasNoBlankDoctype →
        ((o.pipeline.run d).HasClosedCdata → ∀ options,
          ((o.pipeline.run d).HasOneRoot →
            ∃ d', Markup.read (Markup.print options (o.pipeline.run d)) = .ok d')
          ∧ (d.isNamed r "g" = false → ¬ (o.pipeline.run d).HasOneRoot →
            ∃ e, Markup.read (Markup.print options (o.pipeline.run d)) = .error e))
        ∧ (o.KeepsRoot s → ∀ path, ∃ output, o.optimize path s = .ok output)) := by
  have hd := Markup.isSound_of_read hs
  have hsuits : ∀ stage ∈ o.pipeline, stage.pass.Suits QName.IsRead stage.name :=
    suits_of_build ho
  have hedits := Pipeline.edits_run hsuits hd
  have hrooted := (hedits.isSound hd).toIsRooted
  obtain ⟨e, he, hroot, hparent⟩ := Markup.hasRoot_of_read hs hr
  have hroot' := hedits.hasRoot hd hroot
  have hone := Document.hasOneRoot_of_parent hrooted hroot'
  have hstays : e.name.isNamed "g" = false →
      ((o.pipeline.run d).HasOneRoot ↔ (o.pipeline.run d).parent r = some root) := fun hg =>
    ⟨Document.parent_of_hasOneRoot hrooted hroot' hg, hone⟩
  rw [hroot.isNamed, hroot.isNamed]
  refine ⟨hone, hstays, fun hsvg => ?_, fun hnames hdoctype => ⟨fun hcdata options => ?_,
    isOk_of_keepsRoot ho hs hnames hdoctype⟩⟩
  · rw [hstays (Pipeline.not_isNamed_g hsvg)]
    exact Pipeline.parent_run_iff hsuits hd hroot hsvg hparent
  · obtain ⟨-, hcontents⟩ := isPrintable_run ho hs hnames hdoctype
    refine ⟨fun h => ?_, fun hg hnot => ?_⟩
    · obtain ⟨d', hread, -⟩ := Markup.read_print_of_hasOneRoot hrooted hcontents hcdata h options
      exact ⟨d', hread⟩
    · have hgone : (o.pipeline.run d).parent r ≠ some root := fun h => hnot (hone h)
      exact Markup.read_print_of_isMisc hrooted hcontents hcdata
        (Document.isMisc_of_parent_ne hrooted hroot' hg hgone) options

/-! ## A hidden root element -/

/-- An `svg` element that is not displayed. -/
def hiddenSvg : Element := ⟨.plain "svg", [⟨.plain "display", "none"⟩], .empty, .empty⟩

theorem isPlain_hiddenSvg : hiddenSvg.IsPlain where
  name := QName.isPlain_read (s := "svg") (by decide) (by decide)
  names a ha := by
    obtain rfl := List.mem_singleton.1 ha
    exact QName.isPlain_read (s := "display") (by decide) (by decide)
  nodup := by decide

theorem read_hiddenSvg : Markup.read "<svg display=\"none\"/>" =
    .ok (Document.empty.append root (.element hiddenSvg)).1 := by
  have helement : Markup.Builder.elementOf "svg display=\"none\"".toList = .ok hiddenSvg :=
    Markup.elementOf_printHead isPlain_hiddenSvg .default
  have hadd : Markup.Builder.empty.add (.start "svg display=\"none\"".toList true) =
      .ok ⟨(Document.empty.append root (.element hiddenSvg)).1, [], true⟩ := by
    rw [Markup.Builder.add, Markup.Builder.addStart_eq_ok_iff]
    exact ⟨rfl, hiddenSvg, helement, rfl⟩
  have hnext : Markup.Piece.next '<' "svg display=\"none\"/>".toList =
      .ok (.start "svg display=\"none\"".toList true, []) := rfl
  have hpieces : Markup.readPieces 0 .empty "<svg display=\"none\"/>".toList =
      .ok ⟨(Document.empty.append root (.element hiddenSvg)).1, [], true⟩ := by
    refine (Markup.readPieces_cons hnext).trans ?_
    simp only [hadd, Markup.readPieces]
  have hmark : Markup.dropMark "<svg display=\"none\"/>".toList
      = "<svg display=\"none\"/>".toList := rfl
  rw [Markup.read]
  simp only [hmark, hpieces]
  rfl

/-- With the pass against hidden elements, `<svg display="none"/>` becomes the empty text,
which is refused. -/
theorem hidden_svg_refused :
    let config : Config := { Config.default with plugins := [.named "remove_hidden"] }
    let o : Optimizer := ⟨config, [⟨"remove_hidden", true, Pass.removeHidden⟩]⟩
    let d := (Document.empty.append root (.element hiddenSvg)).1
    build config = .ok o ∧ Markup.read "<svg display=\"none\"/>" = .ok d
      ∧ ¬ (o.pipeline.run d).HasOneRoot
      ∧ ∀ options, ∃ e, Markup.read (Markup.print options (o.pipeline.run d)) = .error e := by
  intro config o d
  have hcontent : ∀ j, d.content j = if j = 1 then .element hiddenSvg else .root := by
    intro j
    rcases j with _ | _ | j
    · rfl
    · rfl
    · rfl
  have hnames : d.HasWordNames := by
    intro j e he
    rw [Document.element?, hcontent] at he
    split at he
    · cases he
      exact ⟨isPlain_hiddenSvg.name.toIsWord, fun a ha => (isPlain_hiddenSvg.names a ha).toIsWord⟩
    · cases he
  have hdoctype : d.HasNoBlankDoctype := by
    intro j body hbody
    rw [hcontent] at hbody
    split at hbody <;> cases hbody
  have hafter : ∀ j, (o.pipeline.run d).content j =
      if j = 1 then .element hiddenSvg else .root := by
    intro j
    rcases j with _ | _ | j
    · rfl
    · rfl
    · rfl
  have hcdata : (o.pipeline.run d).HasClosedCdata := by
    intro c s _ hs
    rw [hafter] at hs
    split at hs <;> cases hs
  obtain ⟨-, -, hsvg, hprinted⟩ := @read_optimized config o _ d rfl read_hiddenSvg 1 rfl
  have hhides : o.pipeline.HidesRoot d 1 :=
    ⟨[], _, [], hiddenSvg, rfl, rfl, rfl, rfl, rfl⟩
  have hnot : ¬ (o.pipeline.run d).HasOneRoot := fun h => (hsvg rfl).1 h hhides
  exact ⟨rfl, read_hiddenSvg, hnot,
    fun options => ((hprinted hnames hdoctype).1 hcdata options).2 rfl hnot⟩

end Optimizer

/-! ## The links of documents

Documents that were read have links in step, and each stage keeps them so with every edit
it makes.  Since walks end in such documents, every stage comes to an end. -/

namespace Pipeline

open Document (IsWellLinked)

/-- After reading and after each stage the links of the document are in step, and the next
stage ends after finitely many steps, all of which find them in step. -/
theorem isWellLinked_run {s : String} {d : Document} {entries : List PluginEntry} {p : Pipeline}
    (hs : Markup.read s = .ok d) (hp : build .builtin entries = .ok p) (before after : Pipeline)
    (hsplit : p = before ++ after) :
    (run before d).IsWellLinked
      ∧ ∀ stage rest, after = stage :: rest → stage.enabled = true →
        stage.pass.Ends IsWellLinked (run before d) (stage.run (run before d)) := by
  have hd := Markup.isSound_of_read hs
  have hsuits : ∀ stage ∈ p, stage.pass.SuitsStepwise QName.IsRead stage.name :=
    suitsStepwise_of_build hp
  have hedits := edits_run (p := before) (fun stage hstage =>
    (hsuits stage (hsplit ▸ List.mem_append_left after hstage)).suits) hd
  have hsound := hedits.isSound hd
  refine ⟨hsound.isWellLinked, ?_⟩
  rintro stage rest rfl henabled
  have hmem : stage ∈ p := by
    rw [hsplit]
    exact List.mem_append_right before (List.mem_cons_self ..)
  rw [Stage.run, if_pos henabled]
  exact (hsuits stage hmem).isStepwise.ends (fun _ hdoc => hdoc.isWellLinked) hsound

/-- Of two stages, the second starts with links in step and ends. -/
theorem isWellLinked_hiddenSvg :
    let comments : Stage := ⟨"remove_comments", true, Pass.removeComments⟩
    let hidden : Stage := ⟨"remove_hidden", true, Pass.removeHidden⟩
    let d := (Document.empty.append Document.root (.element Optimizer.hiddenSvg)).1
    let e := comments.run d
    Markup.read "<svg display=\"none\"/>" = .ok d
      ∧ build .builtin [.named "remove_comments", .named "remove_hidden"] = .ok [comments, hidden]
      ∧ e.IsWellLinked ∧ hidden.pass.Ends IsWellLinked e (hidden.run e) := by
  intro comments hidden d e
  have hbuild : build .builtin [.named "remove_comments", .named "remove_hidden"]
      = .ok [comments, hidden] := rfl
  obtain ⟨hlinked, hends⟩ :=
    isWellLinked_run Optimizer.read_hiddenSvg hbuild [comments] [hidden] rfl
  exact ⟨Optimizer.read_hiddenSvg, hbuild, hlinked, hends hidden [] rfl rfl⟩

end Pipeline

end SvgCompact

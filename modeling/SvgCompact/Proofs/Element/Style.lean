import Mathlib.Data.List.Induction
import SvgCompact.Element.Basic

/-!
Styles as maps from properties to declarations.

A style is seen through `Style.find?`.  Setting a declaration changes what is found
for its property only.  Styles that are resolved from declarations list each
property once, where it comes first, with the last of its most important declarations.
-/

namespace SvgCompact

namespace Style

/-! ## Setting a declaration -/

/-- The declarations after one of them is replaced, or a new one added. -/
def place (x : Declaration) : List Declaration → List Declaration
  | [] => [x]
  | y :: rest => if y.property = x.property then x :: rest else y :: place x rest

theorem declarations_set (style : Style) (x : Declaration) :
    (style.set x).declarations = place x style.declarations := by
  obtain ⟨l⟩ := style
  rw [set]
  induction l with
  | nil => rfl
  | cons y rest ih =>
    by_cases hy : y.property = x.property
    · simp [List.findIdx?_cons, place, hy]
    · rw [place, if_neg hy, ← ih]
      simp only [List.findIdx?_cons, hy, beq_iff_eq, if_false]
      cases rest.findIdx? (·.property == x.property) <;> rfl

theorem find?_place (x : Declaration) (p : String) (l : List Declaration) :
    (place x l).find? (·.property == p) =
      if x.property = p then some x else l.find? (·.property == p) := by
  induction l with
  | nil => by_cases hp : x.property = p <;> simp [place, hp]
  | cons y rest ih =>
    by_cases hy : y.property = x.property
    · by_cases hp : x.property = p <;> simp [place, hy, hp]
    · by_cases hp : x.property = p
      · simp_all [place]
      · by_cases hyp : y.property = p <;> simp_all [place]

theorem find?_set (style : Style) (x : Declaration) (p : String) :
    (style.set x).find? p = if x.property = p then some x else style.find? p := by
  rw [find?, declarations_set, find?_place, find?]

/-! ## Distinct properties -/

def properties (style : Style) : List String :=
  style.declarations.map (·.property)

/-- A new property goes to the end, a known one keeps its place. -/
theorem properties_set (style : Style) (x : Declaration) :
    (style.set x).properties =
      if x.property ∈ style.properties then style.properties
      else style.properties ++ [x.property] := by
  rw [properties, declarations_set, properties]
  induction style.declarations with
  | nil => simp [place]
  | cons y rest ih =>
    by_cases hy : y.property = x.property
    · simp [place, hy]
    · have hx : ¬x.property = y.property := fun h => hy h.symm
      by_cases hr : ∃ a ∈ rest, a.property = x.property <;> simp_all [place]

theorem nodup_properties_set {style : Style} (h : style.properties.Nodup) (x : Declaration) :
    (style.set x).properties.Nodup := by
  rw [properties_set]
  split
  · exact h
  · next hx =>
    rw [List.nodup_append]
    refine ⟨h, by simp, fun a ha b hb => ?_⟩
    rw [List.mem_singleton] at hb
    intro heq
    subst heq
    exact hx (hb ▸ ha)

theorem nodup_properties_cascade {style : Style} (h : style.properties.Nodup)
    (x : Declaration) : (style.cascade x).properties.Nodup := by
  rw [cascade]
  split
  · split
    · exact h
    · exact nodup_properties_set h x
  · exact nodup_properties_set h x

theorem nodup_properties_ofDeclarations (ds : List Declaration) :
    (ofDeclarations ds).properties.Nodup := by
  have hfold : ∀ (ds : List Declaration) (style : Style), style.properties.Nodup →
      (ds.foldl cascade style).properties.Nodup := by
    intro ds
    induction ds with
    | nil => exact fun _ h => h
    | cons x rest ih => exact fun style h => ih _ (nodup_properties_cascade h x)
  exact hfold ds empty (by simp [properties, empty])

/-! ## Resolving duplicates -/

/-- Those among rivals that none of them beats. -/
def unbeaten (rivals : List Declaration) : List Declaration :=
  rivals.filter fun x => rivals.all fun y => !y.priority.beats x.priority

/-- The declaration of a property that counts: the last one among the most important. -/
def winner? (ds : List Declaration) (property : String) : Option Declaration :=
  (unbeaten (ds.filter (·.property == property))).getLast?

theorem ofDeclarations_concat (ds : List Declaration) (x : Declaration) :
    ofDeclarations (ds ++ [x]) = (ofDeclarations ds).cascade x := by
  rw [ofDeclarations, List.foldl_append]
  rfl

theorem mem_properties_of_find? {style : Style} {p : String} {x : Declaration}
    (h : style.find? p = some x) : p ∈ style.properties := by
  have hx : x.property = p := by simpa using List.find?_some h
  exact List.mem_map.2 ⟨x, List.mem_of_find?_eq_some h, hx⟩

theorem properties_cascade (style : Style) (x : Declaration) :
    (style.cascade x).properties =
      if x.property ∈ style.properties then style.properties
      else style.properties ++ [x.property] := by
  rw [cascade]
  split
  · next held hheld =>
    split
    · rw [if_pos (mem_properties_of_find? hheld)]
    · exact properties_set style x
  · exact properties_set style x

/-- The properties stand in the order in which they come first. -/
theorem properties_ofDeclarations (ds : List Declaration) :
    (ofDeclarations ds).properties = (ds.map (·.property)).eraseDups := by
  induction ds using List.reverseRecOn with
  | nil => rfl
  | append_singleton ds x ih =>
    rw [ofDeclarations_concat, properties_cascade, ih, List.map_append, List.eraseDups_append,
      List.map_singleton]
    by_cases hx : x.property ∈ ds.map (·.property)
    · rw [if_pos (List.mem_eraseDups.2 hx), List.removeAll,
        List.filter_cons_of_neg (by simpa using hx), List.filter_nil, List.eraseDups_nil,
        List.append_nil]
    · rw [if_neg (hx ∘ List.mem_eraseDups.1), List.removeAll,
        List.filter_cons_of_pos (by simpa using hx), List.filter_nil, List.eraseDups_cons,
        List.filter_nil, List.eraseDups_nil]

theorem find?_cascade (style : Style) (x : Declaration) (p : String) :
    (style.cascade x).find? p =
      if x.property = p then
        (style.find? p).elim (some x) fun held =>
          if held.priority.beats x.priority then some held else some x
      else style.find? p := by
  by_cases hx : x.property = p
  · subst hx
    rw [cascade, if_pos rfl]
    cases hheld : style.find? x.property with
    | none => exact (find?_set ..).trans (if_pos rfl)
    | some held =>
      simp only [Option.elim_some]
      split
      · exact hheld
      · exact (find?_set ..).trans (if_pos rfl)
  · rw [if_neg hx, cascade]
    split
    · split
      · rfl
      · rw [find?_set, if_neg hx]
    · rw [find?_set, if_neg hx]

theorem mem_unbeaten {rivals : List Declaration} {x : Declaration} :
    x ∈ unbeaten rivals ↔ x ∈ rivals ∧ ∀ y ∈ rivals, y.priority.beats x.priority = false := by
  simp [unbeaten]

theorem beats_eq_true_iff {p q : Priority} :
    p.beats q = true ↔ p = .important ∧ q = .normal := by
  cases p <;> cases q <;> decide

/-- A new rival comes out last unless another one beats it. -/
theorem getLast?_unbeaten_concat (rivals : List Declaration) (x : Declaration) :
    (unbeaten (rivals ++ [x])).getLast? =
      (unbeaten rivals).getLast?.elim (some x) fun held =>
        if held.priority.beats x.priority then some held else some x := by
  by_cases hbeaten : ∃ y ∈ rivals, y.priority.beats x.priority = true
  · obtain ⟨y, hy, hbeats⟩ := hbeaten
    obtain ⟨himportant, hnormal⟩ := beats_eq_true_iff.1 hbeats
    have hharmless (q : Priority) : x.priority.beats q = false := by
      rw [hnormal]
      rfl
    have hsame : unbeaten (rivals ++ [x]) = unbeaten rivals := by
      have hout : (rivals.all fun z => !z.priority.beats x.priority) = false :=
        List.all_eq_false.2 ⟨y, hy, by simp [hbeats]⟩
      simp [unbeaten, List.filter_append, hharmless, hout]
    have hymem : y ∈ unbeaten rivals := by
      refine mem_unbeaten.2 ⟨hy, fun z _ => ?_⟩
      rw [himportant, Priority.beats]
      exact Bool.and_false _
    rw [hsame]
    cases hlast : (unbeaten rivals).getLast? with
    | none =>
      rw [List.getLast?_eq_none_iff] at hlast
      rw [hlast] at hymem
      cases hymem
    | some held =>
      have hheld := (mem_unbeaten.1 (List.mem_of_getLast? hlast)).2 y hy
      have hwins : held.priority.beats x.priority = true := by
        rw [himportant] at hheld
        rw [hnormal]
        cases hpriority : held.priority with
        | normal =>
          rw [hpriority] at hheld
          cases hheld
        | important => rfl
      simp [hwins]
  · have hnone : ∀ y ∈ rivals, y.priority.beats x.priority = false := by
      intro y hy
      by_contra h
      exact hbeaten ⟨y, hy, by simpa using h⟩
    have hself : x.priority.beats x.priority = false := by
      cases x.priority <;> rfl
    have hlast : (unbeaten (rivals ++ [x])).getLast? = some x := by
      rw [unbeaten, List.filter_append, List.filter_cons_of_pos, List.filter_nil,
        List.getLast?_concat]
      simpa [hself] using hnone
    rw [hlast]
    cases hwinner : (unbeaten rivals).getLast? with
    | none => rfl
    | some held =>
      have hheld := hnone held (mem_unbeaten.1 (List.mem_of_getLast? hwinner)).1
      simp [hheld]

theorem winner?_concat (ds : List Declaration) (x : Declaration) (p : String) :
    winner? (ds ++ [x]) p =
      if x.property = p then
        (winner? ds p).elim (some x) fun held =>
          if held.priority.beats x.priority then some held else some x
      else winner? ds p := by
  rw [winner?, List.filter_append]
  by_cases hx : x.property = p
  · rw [if_pos hx, List.filter_cons_of_pos (by simpa using hx), List.filter_nil]
    exact getLast?_unbeaten_concat _ x
  · rw [if_neg hx, List.filter_cons_of_neg (by simpa using hx), List.filter_nil, List.append_nil,
      winner?]

theorem find?_ofDeclarations (ds : List Declaration) (p : String) :
    (ofDeclarations ds).find? p = winner? ds p := by
  induction ds using List.reverseRecOn with
  | nil => rfl
  | append_singleton ds x ih =>
    rw [ofDeclarations_concat, find?_cascade, winner?_concat, ih]

/-! ### Distinct declarations -/

theorem eq_or_mem_of_mem_place {x y : Declaration} {l : List Declaration} (h : y ∈ place x l) :
    y = x ∨ y ∈ l := by
  induction l with
  | nil => exact .inl (by simpa [place] using h)
  | cons z rest ih =>
    rw [place] at h
    split at h
    · exact (List.mem_cons.1 h).imp_right (List.mem_cons_of_mem z)
    · rcases List.mem_cons.1 h with rfl | h
      · exact .inr (List.mem_cons_self ..)
      · exact (ih h).imp_right (List.mem_cons_of_mem z)

theorem eq_or_mem_of_mem_cascade {style : Style} {x y : Declaration}
    (h : y ∈ (style.cascade x).declarations) : y = x ∨ y ∈ style.declarations := by
  have hset (h : y ∈ (style.set x).declarations) : y = x ∨ y ∈ style.declarations :=
    eq_or_mem_of_mem_place (by rwa [← declarations_set])
  rw [cascade] at h
  split at h
  · split at h
    · exact .inr h
    · exact hset h
  · exact hset h

theorem mem_of_mem_ofDeclarations {ds : List Declaration} {x : Declaration}
    (h : x ∈ (ofDeclarations ds).declarations) : x ∈ ds := by
  induction ds using List.reverseRecOn with
  | nil => cases h
  | append_singleton ds y ih =>
    rw [ofDeclarations_concat] at h
    rcases eq_or_mem_of_mem_cascade h with rfl | h
    · exact List.mem_concat_self
    · exact List.mem_append_left [y] (ih h)

theorem place_of_new {x : Declaration} {l : List Declaration}
    (h : ∀ y ∈ l, y.property ≠ x.property) : place x l = l ++ [x] := by
  induction l with
  | nil => rfl
  | cons y rest ih =>
    obtain ⟨hy, hrest⟩ := List.forall_mem_cons.1 h
    rw [place, if_neg hy, ih hrest, List.cons_append]

/-- Declarations of distinct properties stay as they are. -/
theorem ofDeclarations_of_nodup {ds : List Declaration} (h : (ds.map (·.property)).Nodup) :
    (ofDeclarations ds).declarations = ds := by
  induction ds using List.reverseRecOn with
  | nil => rfl
  | append_singleton ds x ih =>
    rw [List.map_append, List.map_singleton, List.nodup_append] at h
    obtain ⟨hnodup, -, hapart⟩ := h
    have hdeclarations := ih hnodup
    have hnew : ∀ y ∈ ds, y.property ≠ x.property :=
      fun y hy => hapart _ (List.mem_map_of_mem hy) _ (List.mem_singleton_self _)
    have hnone : (ofDeclarations ds).find? x.property = none := by
      rw [find?, hdeclarations, List.find?_eq_none]
      simpa using hnew
    rw [ofDeclarations_concat, cascade, hnone]
    exact (declarations_set _ x).trans (by rw [hdeclarations, place_of_new hnew])

/-! ## Styles that come about -/

/-- Styles that are resolved or read, and what becomes of them. -/
inductive Arises : Style → Prop
  | resolved (ds : List Declaration) : Arises (ofDeclarations ds)
  | read (text : String) : Arises (read text)
  | set {style : Style} (h : Arises style) (x : Declaration) : Arises (style.set x)
  | erase {style : Style} (h : Arises style) (p : String) : Arises (style.erase p)
  | filter {style : Style} (h : Arises style) (keep : Declaration → Bool) :
    Arises (style.filter keep)
  | mapValues {style : Style} (h : Arises style) (f : String → String → String) :
    Arises (style.mapValues f)

theorem Arises.nodup_properties {style : Style} (h : Arises style) : style.properties.Nodup := by
  induction h with
  | resolved ds => exact nodup_properties_ofDeclarations ds
  | read text => exact nodup_properties_ofDeclarations _
  | set _ x ih => exact nodup_properties_set ih x
  | erase _ p ih => exact ih.sublist (List.eraseP_sublist.map _)
  | filter _ keep ih => exact ih.sublist (List.filter_sublist.map _)
  | mapValues _ f ih =>
    rw [properties, Style.mapValues, List.map_map]
    exact ih

/-- Setting a property that is there puts the declaration in its place. -/
theorem declarations_set_of_getElem? {style : Style} (h : style.properties.Nodup) {i : Nat}
    {held : Declaration} (hheld : style.declarations[i]? = some held) {x : Declaration}
    (hx : x.property = held.property) :
    (style.set x).declarations = style.declarations.set i x := by
  obtain ⟨hi, rfl⟩ := List.getElem?_eq_some_iff.1 hheld
  have hfirst : style.declarations.findIdx? (·.property == x.property) = some i := by
    refine List.findIdx?_eq_some_iff_getElem.2 ⟨hi, by simp [hx], fun j hj => ?_⟩
    have hne := List.pairwise_iff_getElem.1 h j i (by simpa [properties] using Nat.lt_trans hj hi)
      (by simpa [properties] using hi) hj
    simpa [properties, hx] using hne
  rw [set, hfirst]

/-- Duplicates are resolved by the cascade, each at its first place.  A style that comes about
lists each property once, and what is set stays in its place. -/
theorem resolves_by_cascade (ds : List Declaration) (text : String) {style : Style}
    (h : Arises style) :
    ((ofDeclarations ds).properties.Nodup ∧
        (ofDeclarations ds).properties = (ds.map (·.property)).eraseDups ∧
        ∀ p, (ofDeclarations ds).find? p = winner? ds p) ∧
      read text = ofDeclarations (Css.readDeclarations text.toList) ∧
      style.properties.Nodup ∧
      ∀ x i held, style.declarations[i]? = some held → held.property = x.property →
        (style.set x).declarations = style.declarations.set i x :=
  ⟨⟨nodup_properties_ofDeclarations ds, properties_ofDeclarations ds, find?_ofDeclarations ds⟩,
    rfl, h.nodup_properties,
    fun _ _ _ hheld hx => declarations_set_of_getElem? h.nodup_properties hheld hx.symm⟩

/-- Two properties in turns, one of them with two important declarations. -/
def interleaved : List Declaration :=
  [⟨"a", "1", .important⟩, ⟨"b", "2", .normal⟩, ⟨"a", "3", .normal⟩, ⟨"a", "4", .important⟩,
    ⟨"b", "5", .normal⟩, ⟨"a", "6", .normal⟩]

theorem resolves_interleaved :
    Arises (ofDeclarations interleaved) ∧
      (ofDeclarations interleaved).properties = ["a", "b"] ∧
      (ofDeclarations interleaved).find? "a" = some ⟨"a", "4", .important⟩ ∧
      (ofDeclarations interleaved).find? "b" = some ⟨"b", "5", .normal⟩ ∧
      (ofDeclarations interleaved).properties.Nodup := by
  have harises := Arises.resolved interleaved
  obtain ⟨⟨-, horder, hwinner⟩, -, hnodup, -⟩ := resolves_by_cascade interleaved "" harises
  exact ⟨harises, horder.trans (by decide), (hwinner "a").trans (by decide),
    (hwinner "b").trans (by decide), hnodup⟩

end Style

/-! ## Elements -/

namespace Element

variable (e : Element) (name : String)

@[simp] theorem style_writeBack (value : String) : (e.writeBack name value).style = e.style := by
  rw [writeBack]
  split <;> split <;> rfl

@[simp] theorem style_replaceStyle (style : Style) : (e.replaceStyle style).style = style :=
  style_writeBack ..

@[simp] theorem style_setStyle (x : Declaration) : (e.setStyle x).style = e.style.set x :=
  style_replaceStyle ..

@[simp] theorem style_removeClass : (e.removeClass name).style = e.style := by
  rw [removeClass]
  split
  · exact style_writeBack ..
  · rfl

/-- Only an attribute `style` has a say in the style. -/
theorem style_removeAttr_of_ne
    (h : ∀ a, e.attribute? name = some a → a.name ≠ QName.plain "style") :
    (e.removeAttr name).style = e.style := by
  rw [removeAttr]
  split
  · next a ha =>
    rw [refresh]
    split
    · rfl
    · rw [if_neg (by simpa using h a ha)]
  · rfl

end Element
end SvgCompact

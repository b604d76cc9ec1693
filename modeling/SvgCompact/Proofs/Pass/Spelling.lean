import SvgCompact.Pass.Values
import SvgCompact.Proofs.Css.Length
import SvgCompact.Proofs.Decimal.ReadBack
import SvgCompact.Proofs.Pass.Regrouping
import SvgCompact.Proofs.Path.Alphabet

/-!
Shorter spellings are no longer.

Path data is replaced by shorter data only, and what is written needs no escapes.  It has the
commands that it had, and it can be read unless a number is too large for a double or becomes
so when it is rounded.  A color is written with seven characters at most, and with four where
three digits were read.
-/

namespace SvgCompact

open Markup (IsUnescaped isUnescaped_of_all escapedSize escapedSize_of_isUnescaped
  length_le_escapedSize byteSize_le_escapedSize escapedSize_le_of_sublist)
open Text (byteSize)

/-! ## Numbers and path data -/

theorem isUnescaped_of_isDigit {c : Char} (h : c.isDigit = true) : IsUnescaped c := by
  rw [IsUnescaped]
  unfold Markup.escapeValue
  split <;> first | rfl | exact absurd h (by decide)

namespace Decimal

theorem AllDigits.isUnescaped {s : List Char} (h : AllDigits s) : ∀ c ∈ s, IsUnescaped c :=
  fun c hc => isUnescaped_of_isDigit (h c hc)

theorem isUnescaped_signText (negative : Bool) : ∀ c ∈ signText negative, IsUnescaped c := by
  cases negative <;> exact isUnescaped_of_all (by decide)

theorem isUnescaped_power (layout : Layout) (k : ℤ) : ∀ c ∈ layout.power k, IsUnescaped c := by
  have hdigits : ∀ c ∈ (toString k).toList, IsUnescaped c := by
    rw [toList_toString, List.forall_mem_append]
    exact ⟨isUnescaped_signText _, (allDigits_toDigits _).isUnescaped⟩
  rw [Layout.power]
  split
  · exact List.forall_mem_cons.2 ⟨rfl, hdigits⟩
  · exact hdigits

theorem isUnescaped_positive (layout : Layout) (x : Digits) :
    ∀ c ∈ layout.positive x, IsUnescaped c := by
  have hdigits := (allDigits_toDigits x.digits).isUnescaped
  have hzeros (k : ℤ) : ∀ c ∈ Layout.zeros k, IsUnescaped c := (allDigits_zeros k).isUnescaped
  have hpower := isUnescaped_power layout
  rw [Layout.positive]
  dsimp only
  generalize Nat.toDigits 10 x.digits = digits at hdigits
  split
  · simp only [List.forall_mem_append]
    exact ⟨⟨hdigits, hzeros _⟩, isUnescaped_of_all (by decide)⟩
  · split
    · simp only [List.forall_mem_append, List.forall_mem_cons]
      exact ⟨fun c hc => hdigits c (List.mem_of_mem_take hc), rfl,
        fun c hc => hdigits c (List.mem_of_mem_drop hc)⟩
    · split
      · simp only [List.forall_mem_append, List.forall_mem_cons]
        exact ⟨⟨rfl, rfl, hzeros _⟩, hdigits⟩
      · split
        · simp only [List.forall_mem_cons] at hdigits ⊢
          exact ⟨hdigits.1, rfl, hpower _⟩
        · simp only [List.forall_mem_append, List.forall_mem_cons] at hdigits ⊢
          exact ⟨⟨hdigits.1, rfl, hdigits.2⟩, rfl, hpower _⟩
        · exact List.forall_mem_nil _

theorem isUnescaped_write (x : Float) : ∀ c ∈ write x, IsUnescaped c := by
  have hsign (negative : Bool) :
      ∀ c ∈ (if negative then ['-'] else [] : List Char), IsUnescaped c := by
    cases negative <;> exact isUnescaped_of_all (by decide)
  rw [write, Layout.write]
  dsimp only
  split
  · exact isUnescaped_of_all (by decide)
  · rw [List.forall_mem_append]
    exact ⟨hsign _, isUnescaped_of_all (by decide)⟩
  · rw [List.forall_mem_append]
    refine ⟨hsign _, ?_⟩
    split
    · exact isUnescaped_of_all (by decide)
    · exact isUnescaped_positive _ _

theorem sublist_dropZero (s : List Char) : (dropZero s).Sublist s := by
  unfold dropZero
  split
  · exact List.sublist_cons_self ..
  · exact (List.sublist_cons_self ..).cons_cons _
  · exact .refl _

theorem isUnescaped_plain (x : Float) : ∀ c ∈ plain x, IsUnescaped c := by
  rw [plain]
  split
  · exact isUnescaped_of_all (by decide)
  · dsimp only
    split
    · exact fun c hc => isUnescaped_write x c
        (List.mem_of_mem_dropLast (List.mem_of_mem_dropLast hc))
    · exact isUnescaped_write x

end Decimal

namespace Path

theorem isUnescaped_argumentText (format : PathFormat) (a : Argument Float) :
    ∀ c ∈ (argumentText format a).1, IsUnescaped c := by
  cases a with
  | flag b => cases b <;> exact isUnescaped_of_all (by rfl)
  | number raw =>
    rw [argumentText]
    dsimp only
    split
    · exact fun c hc => Decimal.isUnescaped_plain _ c ((Decimal.sublist_dropZero _).subset hc)
    · exact Decimal.isUnescaped_plain _

theorem isUnescaped_writeArguments (format : PathFormat) (before : Option (Argument Float))
    (as : List (Argument Float)) : ∀ c ∈ writeArguments format before as, IsUnescaped c := by
  induction as generalizing before with
  | nil => exact List.forall_mem_nil _
  | cons a rest ih =>
    rw [writeArguments]
    simp only [List.forall_mem_append]
    refine ⟨⟨?_, isUnescaped_argumentText format a⟩, ih _⟩
    split
    · exact List.forall_mem_nil _
    · split
      · exact isUnescaped_of_all (by decide)
      · exact List.forall_mem_nil _

theorem isUnescaped_writeCommands (format : PathFormat) (before : Option (Command Float))
    (path : Path Float) : ∀ c ∈ writeCommands format before path, IsUnescaped c := by
  have hletter (i : Instruction) (relative : Bool) : IsUnescaped (i.letter relative) := by
    cases i <;> cases relative <;> rfl
  induction path generalizing before with
  | nil => exact List.forall_mem_nil _
  | cons k rest ih =>
    have hlettered : ∀ c ∈ k.letter :: writeArguments format none k.segment.arguments,
        IsUnescaped c :=
      List.forall_mem_cons.2 ⟨hletter _ _, isUnescaped_writeArguments format _ _⟩
    unfold writeCommands
    rw [List.forall_mem_append]
    refine ⟨?_, ih _⟩
    cases before with
    | none => exact hlettered
    | some b =>
      dsimp only
      split
      · exact isUnescaped_writeArguments format _ _
      · exact hlettered

end Path

namespace Pass

/-- Path data gives way to shorter data only. -/
theorem escapedSize_le_of_shorterPath? {format : PathFormat} {text written : String}
    (h : shorterPath? format text = some written) :
    escapedSize written.toList ≤ escapedSize text.toList := by
  rw [shorterPath?] at h
  split at h
  · next path _ =>
    dsimp only at h
    split at h
    · cases h
    · next hshorter =>
      obtain rfl := Option.some.inj h
      rw [Bool.or_eq_true, not_or, decide_eq_true_eq, not_le] at hshorter
      have hplain : ∀ c ∈ (Path.write format path).toList, IsUnescaped c := by
        rw [Path.write, String.toList_ofList]
        exact Path.isUnescaped_writeCommands format none path
      rw [escapedSize_of_isUnescaped hplain]
      exact hshorter.2.le.trans (byteSize_le_escapedSize _)
  · cases h

theorem isNoLonger_rewritePath (format : PathFormat) (e : Element) :
    e.IsNoLonger (rewritePath format e) := by
  have hread : QName.read "d" = QName.plain "d" := by decide
  rw [rewritePath]
  split
  · split
    · next written hwritten =>
      obtain ⟨text, htext, hshorter⟩ := Option.bind_eq_some_iff.1 hwritten
      have hsize := Element.attributesSize_put_of_attr? hread htext written
      have hle := escapedSize_le_of_shorterPath? hshorter
      refine ⟨Element.name_put .., ?_⟩
      rw [Element.setAttr, hread]
      omega
    · exact .refl e
  · exact .refl e

end Pass

/-! ## Path data that is written anew -/

/-- A walk that rewrites the elements rewrites each once at most. -/
theorem Visit.element?_rewriting_run {f : Element → Element} {doc : Document} (hdoc : doc.IsForest)
    {id : NodeId} {e : Element} (he : doc.element? id = some e) :
    ((Pass.topDown (Visit.rewriting f)).run doc).element? id = some e ∨
      ((Pass.topDown (Visit.rewriting f)).run doc).element? id = some (f e) := by
  have honce : (Visit.rewriting f).KeepsOnce doc fun V d => doc.IsRestyled d ∧
      (d.element? id = some e ∨ V id ∧ d.element? id = some (f e)) := by
    refine ⟨fun _ _ h => hdoc.of_links h.1.parent_eq h.1.children_eq,
      fun _ _ c p h hp => (h.1.parent_eq c).symm.trans hp, fun V d j _ h hj _ => ?_, fun _ _ => rfl⟩
    refine ⟨h.1.trans (.updateElement d j f), ?_⟩
    rw [Visit.rewriting, Document.element?_updateElement]
    split
    · next hid =>
      subst hid
      rw [h.2.resolve_right fun hV => hj hV.1]
      exact .inr ⟨.inr rfl, rfl⟩
    · exact h.2.imp_right fun hV => ⟨.inl hV.1, hV.2⟩
  obtain ⟨_, -, hrun⟩ := honce.topDown hdoc ⟨.refl doc, .inl he⟩
  exact hrun.imp_right And.right

namespace Pass

/-- What becomes of path data `d` that says `p` when it is rounded and written anew. -/
structure Respells (precision : Option Nat) (p : Path Float) (d d' : String) : Prop where
  shorter : d' = d ∨ byteSize d'.toList < byteSize d.toList
  kinds_eq : ∀ q, Path.read d' = .ok q → q.kinds = p.kinds
  readable_iff : (∃ q, Path.read d' = .ok q) ↔
    d' = d ∨ ∀ c ∈ p, Path.FinitelyRounded precision c.segment.arguments

/-- What becomes of an element with path data: nothing of it is changed but the value of that
one attribute. -/
structure RespellsIn (precision : Option Nat) (p : Path Float) (d d' : String) (e e' : Element) :
    Prop extends Respells precision p d d' where
  attr?_eq : e'.attr? "d" = some d'
  others : ∃ front back, e.attributes = front ++ ⟨.plain "d", d⟩ :: back ∧
    e' = { e with attributes := front ++ ⟨.plain "d", d'⟩ :: back }

section

variable {precision : Option Nat} {format : PathFormat} {e : Element} {d : String}
  {p : Path Float}

theorem shorterPath?_cases (format : PathFormat) (hp : Path.read d = .ok p) :
    (shorterPath? format d = none ∧
        (p ≠ [] → byteSize d.toList ≤ byteSize (Path.write format p).toList)) ∨
      shorterPath? format d = some (Path.write format p) ∧
        byteSize (Path.write format p).toList < byteSize d.toList := by
  rw [shorterPath?, hp]
  dsimp only
  split
  · next hlonger =>
    rw [Bool.or_eq_true, List.isEmpty_iff, decide_eq_true_eq] at hlonger
    exact .inl ⟨rfl, hlonger.resolve_left⟩
  · next hshorter =>
    rw [Bool.or_eq_true, not_or, decide_eq_true_eq, not_le] at hshorter
    exact .inr ⟨rfl, hshorter.2⟩

theorem respells_self (precision : Option Nat) (hp : Path.read d = .ok p) :
    Respells precision p d d := by
  refine ⟨.inl rfl, fun q hq => ?_, fun _ => .inl rfl, fun _ => ⟨p, hp⟩⟩
  rw [hp] at hq
  cases hq
  rfl

theorem respells_write (hp : Path.read d = .ok p)
    (hshorter : byteSize (Path.write format p).toList < byteSize d.toList) :
    Respells format.precision p d (Path.write format p) := by
  have hne : Path.write format p ≠ d := fun heq => hshorter.ne (by rw [heq])
  refine ⟨.inr hshorter, fun q hq => Path.kinds_of_read_write hp hq, ?_⟩
  rw [Path.exists_read_write_iff hp format, or_iff_right hne]

theorem respellsIn_self (precision : Option Nat) (hd : e.attr? "d" = some d)
    (hp : Path.read d = .ok p) : RespellsIn precision p d d e e := by
  obtain ⟨front, back, hold, -⟩ := Element.attributes_put_of_attr? (by decide) hd d
  exact ⟨respells_self precision hp, hd, front, back, hold, by rw [← hold]⟩

theorem respellsIn_setAttr {d' : String} (hd : e.attr? "d" = some d)
    (h : Respells precision p d d') : RespellsIn precision p d d' e (e.setAttr "d" d') := by
  have hread : QName.read "d" = QName.plain "d" := by decide
  obtain ⟨front, back, hold, hput⟩ := Element.attributes_put_of_attr? hread hd d'
  refine ⟨h, ?_, front, back, hold, ?_⟩
  · rw [Element.setAttr, hread, Element.attr?_put hread, if_pos rfl]
  · rw [← hput, Element.setAttr, hread]
    rfl

/-- An element with path data keeps no longer data than the data that is written anew. -/
theorem respellsIn_rewritePath (format : PathFormat) (hd : e.attr? "d" = some d)
    (hp : Path.read d = .ok p) :
    ∃ d', RespellsIn format.precision p d d' e (rewritePath format e) ∧
      (e.hasPathData = true → p ≠ [] →
        byteSize d'.toList ≤ byteSize (Path.write format p).toList) := by
  rw [rewritePath, hd, Option.bind_some]
  split
  · rcases shorterPath?_cases format hp with ⟨hnone, hleast⟩ | ⟨hsome, hshorter⟩
    · rw [hnone]
      exact ⟨d, respellsIn_self _ hd hp, fun _ => hleast⟩
    · rw [hsome]
      exact ⟨_, respellsIn_setAttr hd (respells_write hp hshorter), fun _ _ => le_rfl⟩
  · next hother => exact ⟨d, respellsIn_self _ hd hp, fun hdata => absurd hdata hother⟩

/-- A visit changes nothing of a document but the path data of the element, for shorter data,
and it does so wherever the data that is written is shorter.  The new data has the same commands
where it can be read, and it can be read if and only if it is unchanged or all of its numbers
are finite when they are rounded. -/
theorem respellsIn_visit {visit : Visit} (hvisit : convertPathData precision = .topDown visit)
    {doc : Document} {id : NodeId} (he : doc.element? id = some e) (hd : e.attr? "d" = some d)
    (hp : Path.read d = .ok p) :
    ∃ d' e', visit doc id = (doc.updateElement id fun _ => e', .keep) ∧
      RespellsIn precision p d d' e e' ∧
      (e.hasPathData = true → p ≠ [] → byteSize d'.toList ≤
        byteSize (Path.write { PathFormat.default with precision } p).toList) := by
  cases hvisit
  obtain ⟨d', hrespells⟩ := respellsIn_rewritePath { PathFormat.default with precision } hd hp
  refine ⟨d', _, ?_, hrespells⟩
  rw [Visit.rewriting, Document.updateElement, Document.updateElement, he]

namespace Overflow

def path : Element :=
  .ofAttributes (.plain "path") [⟨.plain "id", "a"⟩, ⟨.plain "d", "M 1e999 0"⟩]

def document : Document :=
  ((Document.empty.append Document.root (.element (.ofAttributes (.plain "svg") []))).1.append 1
    (.element path)).1

end Overflow

/-- A number that is too large for a double is read as infinite, and written as a word. -/
theorem respellsIn_visit_overflow :
    ∃ visit p, convertPathData (some 3) = .topDown visit ∧
      Overflow.document.element? 2 = some Overflow.path ∧
      Overflow.path.attr? "d" = some "M 1e999 0" ∧ Path.read "M 1e999 0" = .ok p ∧
      (((visit Overflow.document 2).1.element? 2).bind (·.attr? "d")) = some "Minf 0" ∧
      (Path.read "Minf 0").isOk = false ∧
      ∃ d' e', visit Overflow.document 2 =
          (Overflow.document.updateElement 2 fun _ => e', .keep) ∧
        RespellsIn (some 3) p "M 1e999 0" d' Overflow.path e' ∧
        (Overflow.path.hasPathData = true → p ≠ [] → byteSize d'.toList ≤
          byteSize (Path.write ⟨some 3, true, true, false, true⟩ p).toList) := by
  have hpath : Path.read "M 1e999 0" = .ok [⟨false, .moveTo ⟨1.0 / 0.0, 0.0⟩⟩] := by
    decide +kernel
  have helement : Overflow.document.element? 2 = some Overflow.path := by decide
  have hattr : Overflow.path.attr? "d" = some "M 1e999 0" := by decide
  exact ⟨_, _, rfl, helement, hattr, hpath, by decide +kernel, by decide +kernel,
    respellsIn_visit rfl helement hattr hpath⟩

/-- So it is with the elements of a document when the pass is over. -/
theorem respellsIn_run (precision : Option Nat) {doc : Document} (hdoc : doc.IsForest)
    {id : NodeId} (he : doc.element? id = some e) (hd : e.attr? "d" = some d)
    (hp : Path.read d = .ok p) :
    ∃ d' e', ((convertPathData precision).run doc).element? id = some e' ∧
      RespellsIn precision p d d' e e' := by
  rcases Visit.element?_rewriting_run hdoc he with h | h
  · exact ⟨d, e, h, respellsIn_self precision hd hp⟩
  · obtain ⟨d', hrespells, -⟩ :=
      respellsIn_rewritePath { PathFormat.default with precision } hd hp
    exact ⟨d', _, h, hrespells⟩

end

end Pass

/-! ## Colors -/

namespace Color

/-- Whether the two digits of each channel are the same. -/
def IsDoubled (c : Color) : Prop :=
  ([c.red, c.green, c.blue].all fun b => high b == low b) = true

theorem isDoubled_byteOf {r g b : Nat} (hr : r < 16) (hg : g < 16) (hb : b < 16) :
    IsDoubled ⟨byteOf r r, byteOf g g, byteOf b b⟩ := by
  have hsame : ∀ n < 16, (high (byteOf n n) == low (byteOf n n)) = true := by decide
  simp only [IsDoubled, List.all_cons, List.all_nil, hsame r hr, hsame g hg, hsame b hb,
    Bool.and_self]

theorem digitValue?_lt {c : Char} {n : Nat} (h : digitValue? c = some n) : n < 16 := by
  rw [digitValue?] at h
  split at h
  · next hdigit =>
    obtain rfl := Option.some.inj h
    have hle : c.toNat ≤ 57 := by
      rw [Char.isDigit, Bool.and_eq_true, decide_eq_true_eq, decide_eq_true_eq] at hdigit
      exact hdigit.2
    omega
  · split at h
    · next hletter =>
      obtain rfl := Option.some.inj h
      have hle : c.toNat ≤ 102 := hletter.2
      omega
    · cases h

theorem lt_of_mem_digits {c : Color} {n : Nat} (h : n ∈ c.digits) : n < 16 := by
  have hhalves : ∀ b : UInt8, high b < 16 ∧ low b < 16 := by
    intro b
    have hb := b.toNat_lt
    rw [high, low]
    omega
  rw [digits] at h
  split at h
  · obtain ⟨b, -, rfl⟩ := List.mem_map.1 h
    exact (hhalves b).2
  · obtain ⟨b, -, hb⟩ := List.mem_flatMap.1 h
    rcases List.mem_pair.1 hb with rfl | rfl
    · exact (hhalves b).1
    · exact (hhalves b).2

theorem escapedSize_digits (c : Color) :
    escapedSize ('#' :: c.digits.map digitChar) = c.digits.length + 1 := by
  have hsingle : ∀ n < 16, escapedSize [digitChar n] = 1 := by decide
  have hmark : escapedSize ['#'] = 1 := by decide
  have hall : ∀ l : List Nat, (∀ n ∈ l, n < 16) → escapedSize (l.map digitChar) = l.length := by
    intro l hl
    induction l with
    | nil => rfl
    | cons n rest ih =>
      rw [List.map_cons, Markup.escapedSize_cons, hsingle n (hl n (by simp)),
        ih fun m hm => hl m (List.mem_cons_of_mem n hm), List.length_cons, Nat.add_comm]
  rw [Markup.escapedSize_cons, hmark, hall _ fun n hn => lt_of_mem_digits hn, Nat.add_comm]

/-- No spelling has more than seven characters, and none of a color that three digits say has
more than four. -/
theorem escapedSize_write_le (c : Color) :
    escapedSize c.write ≤ 7 ∧ (IsDoubled c → escapedSize c.write ≤ 4) := by
  have hwords : ∀ x ∈ words, escapedSize x.2.toList ≤ 7 ∧
      (IsDoubled x.1 → escapedSize x.2.toList ≤ 4) := by
    unfold IsDoubled
    decide
  rw [write]
  split
  · next word hword =>
    have hcolor := List.find?_some hword
    have hmem := List.mem_of_find?_eq_some hword
    rw [beq_iff_eq] at hcolor
    subst hcolor
    exact hwords _ hmem
  · rw [escapedSize_digits, digits]
    refine ⟨?_, fun hdoubled => ?_⟩
    · split <;> simp
    · rw [IsDoubled] at hdoubled
      rw [if_pos hdoubled]
      simp

/-- Three parts with something between them have five characters. -/
theorem length_of_ofChannels? {s : List Char} {c : Color} (h : ofChannels? s = some c) :
    5 ≤ s.length := by
  rw [ofChannels?] at h
  generalize hparts : (s.splitOnP fun c => c == ',' || Text.isBlank c).filter (!·.isEmpty) = parts
    at h
  split at h
  · next r g b hchannels =>
    have hthree : parts.length = 3 := by
      have hlength := congrArg List.length (Pass.mapM_eq_some_iff.1 hchannels)
      simpa using hlength
    have hlong : ∀ n ∈ parts.map fun part => (part.map fun _ => 1).sum + 1, 2 ≤ n := by
      intro n hn
      obtain ⟨part, hpart, rfl⟩ := List.mem_map.1 hn
      rw [← hparts, List.mem_filter] at hpart
      have hne : part ≠ [] := by simpa using hpart.2
      have hpos := List.length_pos_of_ne_nil hne
      rw [List.map_const', List.sum_replicate, smul_eq_mul, mul_one]
      omega
    have hparted : (parts.map fun part => (part.map fun _ => 1).sum + 1).sum ≤ s.length + 1 := by
      have hall := Css.sum_splitOnP_le (p := fun c => c == ',' || Text.isBlank c)
        (fun _ => 1) (l := s) fun _ _ _ => le_rfl
      have hsub : (parts.map fun part => (part.map fun _ => 1).sum + 1).sum ≤ _ :=
        ((hparts ▸ List.filter_sublist).map _).sum_le_sum fun _ _ => Nat.zero_le _
      exact (hsub.trans hall).trans (by simp)
    have hsum := List.card_nsmul_le_sum _ 2 hlong
    rw [List.length_map, hthree, smul_eq_mul] at hsum
    omega
  · cases h

/-- A hash sign and digits are no shorter than what is written for their color. -/
theorem escapedSize_write_le_of_digits {digits : List Char} {c : Color}
    (h : (digits.mapM digitValue?).bind ofDigits? = some c) :
    escapedSize c.write ≤ digits.length + 1 := by
  obtain ⟨ns, hns, hcolor⟩ := Option.bind_eq_some_iff.1 h
  obtain ⟨hseven, hfour⟩ := escapedSize_write_le c
  have hmap := Pass.mapM_eq_some_iff.1 hns
  have hcount : digits.length = ns.length := by simpa using congrArg List.length hmap
  rw [hcount]
  unfold ofDigits? at hcolor
  split at hcolor
  · next r g b =>
    obtain rfl := Option.some.inj hcolor
    have hlt : ∀ n ∈ [r, g, b], n < 16 := by
      intro n hn
      have hmem := List.mem_map_of_mem (f := some) hn
      rw [← hmap] at hmem
      obtain ⟨ch, -, hch⟩ := List.mem_map.1 hmem
      exact digitValue?_lt hch
    exact hfour (isDoubled_byteOf (hlt r (by simp)) (hlt g (by simp)) (hlt b (by simp)))
  · exact hseven
  · cases hcolor

theorem escapedSize_write_le_of_readLower? {s : List Char} {c : Color}
    (h : readLower? s = some c) : escapedSize c.write ≤ s.length := by
  unfold readLower? at h
  split at h
  · exact escapedSize_write_le_of_digits h
  split at h
  · next hwhite =>
    obtain rfl := Option.some.inj h
    rw [eq_of_beq hwhite]
    decide
  split at h
  · next hblack =>
    obtain rfl := Option.some.inj h
    rw [eq_of_beq hblack]
    decide
  split at h
  · next rest hrest =>
    split at h
    · have hchannels := length_of_ofChannels? h
      have hrest : rest.length = s.length - 4 := Text.length_of_after? hrest
      rw [List.length_dropLast] at hchannels
      have hseven := (escapedSize_write_le c).1
      omega
    · cases h
  · cases h

/-- A text that says a color is no shorter than what is written for the color. -/
theorem escapedSize_write_le_of_read? {s : List Char} {c : Color} (h : read? s = some c) :
    escapedSize c.write ≤ s.length := by
  have hlower := escapedSize_write_le_of_readLower? h
  rwa [Text.lower, List.length_map] at hlower

/-- A shorter spelling is no longer. -/
theorem escapedSize_shorten_le (s : String) :
    escapedSize (shorten s).toList ≤ escapedSize s.toList := by
  have htrim := escapedSize_le_of_sublist (Text.isInfix_trimBy Text.isBlank s.toList).sublist
  rw [shorten]
  split
  · next c hc =>
    rw [String.toList_ofList]
    exact (escapedSize_write_le_of_read? hc).trans ((length_le_escapedSize _).trans htrim)
  · rw [String.toList_ofList]
    exact htrim

end Color

namespace Pass

theorem isNoLonger_shortenColors (e : Element) : e.IsNoLonger (shortenColors e) := by
  rw [shortenColors]
  generalize hmapped : e.mapAttrs _ = e'
  have hattributes : e.IsNoLonger e' := by
    rw [← hmapped]
    refine Element.isNoLonger_mapAttrs (fun name value value' h => ?_) e
    split at h
    · obtain rfl := Option.some.inj h
      exact Color.escapedSize_shorten_le value
    · cases h
  have hstyle : e'.style = ((e'.attr? "style").map Style.read).getD Style.empty := by
    rw [← hmapped]
    rfl
  split
  · exact hattributes
  · next hnew =>
    refine hattributes.trans ?_
    cases hheld : e'.attr? "style" with
    | none =>
      rw [hheld] at hstyle
      exact absurd (by rw [hstyle]; rfl) hnew
    | some text =>
      rw [hheld, Option.map_some, Option.getD_some] at hstyle
      have hshorter := Style.escapedSize_write_mapValues_read_le
        (f := fun p v => if Color.isProperty p then Color.shorten v else v)
        (fun p v => by
          split
          · exact Color.escapedSize_shorten_le v
          · exact le_rfl) text
      rw [← hstyle] at hshorter
      exact Element.isNoLonger_replaceStyle hheld hshorter

end Pass
end SvgCompact

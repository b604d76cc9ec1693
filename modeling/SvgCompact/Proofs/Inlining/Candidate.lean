import Mathlib.Tactic.ByContra
import SvgCompact.Pass.Inlining
import SvgCompact.Proofs.Order.Sorting

/-!
Declarations that compete for a property.

A candidate is a declaration with its origin: the style of the element itself, or a
selector of a style rule.  Important candidates beat normal ones; among equally
important ones the inline style comes first, then the more specific selector, then
the one that stands later.  `isOutcome_foldl` says that a fold which replaces what it
holds only by something more important finds the winner, if stronger origins come
first.  Candidates may be lifted out of a competition: `outcome_lifted_eq_iff`.
-/

namespace SvgCompact
namespace Inlining

/-- Where a selector stands: its sheet, its rule in the sheet and its place in the
rule. -/
structure Position where
  sheet : Nat
  rule : Nat
  place : Nat
deriving DecidableEq

/-- Source order. -/
def Position.Precedes (p q : Position) : Prop :=
  p.sheet < q.sheet ∨ (p.sheet = q.sheet ∧
    (p.rule < q.rule ∨ (p.rule = q.rule ∧ p.place < q.place)))

inductive Origin
  | inline
  | rule (specificity : Specificity) (position : Position)
deriving DecidableEq

/-- Which of two equally important declarations wins. -/
def Origin.Outranks : Origin → Origin → Prop
  | .inline, .rule _ _ => True
  | .rule s p, .rule t q => t.lt s = true ∨ (s = t ∧ q.Precedes p)
  | _, .inline => False

structure Candidate where
  declaration : Declaration
  origin : Origin
deriving DecidableEq

namespace Candidate

def Beats (a b : Candidate) : Prop :=
  a.declaration.priority.beats b.declaration.priority = true
    ∨ (a.declaration.priority = b.declaration.priority ∧ a.origin.Outranks b.origin)

/-- The candidate that beats all others. -/
def IsWinner (p : Candidate → Prop) (c : Candidate) : Prop :=
  p c ∧ ∀ other, p other → other ≠ c → c.Beats other

end Candidate

/-! ## Outranking -/

theorem Origin.Outranks.asymm {a b : Origin} (h : a.Outranks b) : ¬ b.Outranks a := by
  cases a <;> cases b <;> simp_all only [Origin.Outranks, not_false_eq_true]
  next s p t q =>
    obtain ⟨s₁, s₂, s₃⟩ := s
    obtain ⟨t₁, t₂, t₃⟩ := t
    simp only [Specificity.lt, Position.Precedes, Specificity.mk.injEq, decide_eq_true_eq] at h ⊢
    omega

theorem Priority.eq_of_not_beats {p q : Priority} (hpq : p.beats q = false)
    (hqp : q.beats p = false) : p = q := by
  cases p <;> cases q <;> simp_all [Priority.beats, Priority.isImportant]

theorem Priority.not_beats_of_beats {p q : Priority} (h : p.beats q = true) :
    q.beats p = false := by
  cases p <;> cases q <;> simp_all [Priority.beats, Priority.isImportant]

namespace Candidate

theorem Beats.asymm {a b : Candidate} (h : a.Beats b) : ¬ b.Beats a := by
  intro hcase
  rcases hcase with hb | ⟨hb, hrank⟩
  · rcases h with h | ⟨h, -⟩
    · rw [Priority.not_beats_of_beats hb] at h
      cases h
    · rw [h] at hb
      cases hp : b.declaration.priority <;> rw [hp] at hb <;> cases hb
  · rcases h with h | ⟨-, h⟩
    · rw [hb] at h
      cases hp : a.declaration.priority <;> rw [hp] at h <;> cases h
    · exact h.asymm hrank

theorem IsWinner.unique {p : Candidate → Prop} {a b : Candidate} (ha : IsWinner p a)
    (hb : IsWinner p b) : a = b := by
  refine Decidable.byContradiction fun hne => ?_
  exact (ha.2 b hb.1 (Ne.symm hne)).asymm (hb.2 a ha.1 hne)

theorem IsWinner.congr {p q : Candidate → Prop} (h : ∀ c, p c ↔ q c) {c : Candidate}
    (hc : IsWinner p c) : IsWinner q c :=
  ⟨(h c).1 hc.1, fun other ho => hc.2 other ((h other).2 ho)⟩

/-! ## Finding the winner -/

/-- Keeps what is held unless the next candidate is more important. -/
def choose : Option Candidate → Candidate → Option Candidate
  | none, c => some c
  | some held, c =>
    if c.declaration.priority.beats held.declaration.priority then some c else some held

/-- What a fold holds after some candidates: nothing after none of them, else their
winner. -/
def IsBest (l : List Candidate) : Option Candidate → Prop
  | none => l = []
  | some c => IsWinner (· ∈ l) c

/-- A candidate that every other outranks wins only if it is more important. -/
theorem isBest_choose {l : List Candidate} {best : Option Candidate} {c : Candidate}
    (hbest : IsBest l best) (hc : ∀ a ∈ l, a.origin.Outranks c.origin) :
    IsBest (l ++ [c]) (choose best c) := by
  cases best with
  | none =>
    obtain rfl : l = [] := hbest
    exact ⟨by simp, fun other ho hne => absurd (by simpa using ho) hne⟩
  | some held =>
    obtain ⟨hmem, hall⟩ := hbest
    rw [choose]
    by_cases hb : c.declaration.priority.beats held.declaration.priority = true
    · rw [if_pos hb]
      refine ⟨by simp, fun other ho hne => .inl ?_⟩
      have ho : other ∈ l := by simpa [hne] using ho
      by_cases hoh : other = held
      · exact hoh ▸ hb
      · -- `held` is normal here, so what it beats is normal too
        have hbeats := hall other ho hoh
        rw [Beats] at hbeats
        revert hb hbeats
        cases c.declaration.priority <;> cases held.declaration.priority <;>
          cases other.declaration.priority <;> simp [Priority.beats, Priority.isImportant]
    · rw [if_neg hb]
      refine ⟨by simp [hmem], fun other ho hne => ?_⟩
      rcases List.mem_append.1 ho with ho | ho
      · exact hall other ho hne
      · obtain rfl : other = c := by simpa using ho
        by_cases hh : held.declaration.priority.beats other.declaration.priority = true
        · exact .inl hh
        · exact .inr ⟨Priority.eq_of_not_beats (by simpa using hh) (by simpa using hb),
            hc held hmem⟩

/-- The fold over candidates of ever weaker origin holds the winner. -/
theorem isBest_foldl {l : List Candidate} (h : l.Pairwise fun a b => a.origin.Outranks b.origin) :
    IsBest l (l.foldl choose none) := by
  have hfold : ∀ (rest front : List Candidate) (best : Option Candidate), IsBest front best →
      ((front ++ rest).Pairwise fun a b => a.origin.Outranks b.origin) →
      IsBest (front ++ rest) (rest.foldl choose best) := by
    intro rest
    induction rest with
    | nil => intro front best hbest _; simpa using hbest
    | cons c rest ih =>
      intro front best hbest hp
      rw [List.append_cons] at hp ⊢
      refine ih _ _ (isBest_choose hbest fun a ha => ?_) hp
      rw [List.append_assoc, List.pairwise_append] at hp
      exact hp.2.2 a ha c (by simp)
  exact hfold l [] none rfl h

/-! ## Outcomes -/

/-- What a competition comes to: the declaration of the winner, or nothing if nothing
competes. -/
def IsOutcome (p : Candidate → Prop) : Option Declaration → Prop
  | none => ∀ c, ¬ p c
  | some x => ∃ c, IsWinner p c ∧ c.declaration = x

theorem IsOutcome.congr {p q : Candidate → Prop} (h : ∀ c, p c ↔ q c) {o : Option Declaration}
    (ho : IsOutcome p o) : IsOutcome q o := by
  cases o with
  | none =>
    intro c hc
    exact ho c ((h c).2 hc)
  | some x =>
    obtain ⟨c, hc, hx⟩ := ho
    exact ⟨c, hc.congr h, hx⟩

theorem IsOutcome.eq_some_iff {p : Candidate → Prop} {o : Option Declaration}
    (h : IsOutcome p o) (x : Declaration) :
    o = some x ↔ ∃ c, IsWinner p c ∧ c.declaration = x := by
  constructor
  · intro heq
    subst heq
    exact h
  · intro hex
    obtain ⟨c, hc, rfl⟩ := hex
    cases o with
    | none => exact absurd hc.1 (h c)
    | some y =>
      obtain ⟨other, hother, rfl⟩ := h
      rw [hc.unique hother]

theorem IsOutcome.eq_none_iff {p : Candidate → Prop} {o : Option Declaration}
    (h : IsOutcome p o) : o = none ↔ ∀ c, ¬ p c := by
  constructor
  · intro heq
    subst heq
    exact h
  · intro hempty
    cases o with
    | none => rfl
    | some x =>
      obtain ⟨c, hc, -⟩ := h
      exact absurd hc.1 (hempty c)

theorem IsOutcome.unique {p : Candidate → Prop} {o o' : Option Declaration}
    (h : IsOutcome p o) (h' : IsOutcome p o') : o = o' := by
  cases o' with
  | none => exact h.eq_none_iff.2 h'
  | some x => exact (h.eq_some_iff x).2 h'

/-- The fold over candidates of ever weaker origin holds the outcome. -/
theorem isOutcome_foldl {l : List Candidate}
    (h : l.Pairwise fun a b => a.origin.Outranks b.origin) :
    IsOutcome (· ∈ l) ((l.foldl choose none).map (·.declaration)) := by
  have hbest := isBest_foldl h
  cases hf : l.foldl choose none with
  | none =>
    rw [hf] at hbest
    obtain rfl : l = [] := hbest
    exact fun c => List.not_mem_nil
  | some c =>
    rw [hf] at hbest
    exact ⟨c, hbest, rfl⟩

end Candidate

/-- Things in source order, sorted by strength with the later first, have weaker and
weaker origins. -/
theorem pairwise_byStrength {α : Type} (specificity : α → Specificity) (position : α → Position)
    {l : List α} (hl : l.Pairwise fun x y => (position x).Precedes (position y)) :
    (l.reverse.mergeSort fun x y => !(specificity x).lt (specificity y)).Pairwise fun x y =>
      (Origin.rule (specificity x) (position x)).Outranks
        (Origin.rule (specificity y) (position y)) := by
  have hsource : l.reverse.Pairwise fun x y => (position y).Precedes (position x) :=
    List.pairwise_reverse.2 hl
  refine (Sorting.pairwise_mergeSort_stable (fun x y z => ?_) (fun x y => ?_) hsource).imp
    fun {x y} hxy => ?_
  · simp only [Specificity.lt, Bool.not_eq_true', decide_eq_false_iff_not]
    omega
  · simp only [Specificity.lt, Bool.or_eq_true, Bool.not_eq_true', decide_eq_false_iff_not]
    omega
  · obtain ⟨hle, hbefore⟩ := hxy
    by_cases hlt : (specificity y).lt (specificity x) = true
    · exact .inl hlt
    · refine .inr ⟨?_, hbefore (by simpa using hlt)⟩
      generalize specificity x = s at hle hlt ⊢
      generalize specificity y = t at hle hlt ⊢
      cases s
      cases t
      simp only [Specificity.lt, Bool.not_eq_true', decide_eq_false_iff_not, decide_eq_true_eq,
        Specificity.mk.injEq] at hle hlt ⊢
      omega

/-! ## Lifting candidates

Some candidates of a competition leave it, and the outcome among them comes back as an
inline declaration.  Whether this keeps the outcome depends on the winners only. -/

/-- The candidates after those of `q` have become one that is inline. -/
def Lifted (p q : Candidate → Prop) (o : Option Declaration) (c : Candidate) : Prop :=
  (∃ x, o = some x ∧ c = ⟨x, .inline⟩) ∨ (p c ∧ ¬ q c)

theorem Origin.inline_outranks {a : Origin} (h : a ≠ .inline) : Origin.inline.Outranks a := by
  cases a with
  | inline => exact absurd rfl h
  | rule s position => trivial

theorem Candidate.Beats.inline {a b : Candidate} {x : Declaration}
    (hpriority : x.priority = a.declaration.priority) (hb : b.origin ≠ .inline)
    (h : a.Beats b) : Candidate.Beats ⟨x, .inline⟩ b := by
  rcases h with h | ⟨h, -⟩
  · left
    rwa [hpriority]
  · right
    exact ⟨hpriority.trans h, Origin.inline_outranks hb⟩

section Lifting

variable {p q : Candidate → Prop}

/-- A winner that is lifted wins again. -/
theorem isWinner_lifted_of_mem (hown : ∀ c, p c → c.origin = .inline → q c)
    {w : Candidate} (hw : Candidate.IsWinner p w) (hq : q w) :
    Candidate.IsWinner (Lifted p q (some w.declaration)) ⟨w.declaration, .inline⟩ := by
  refine ⟨.inl ⟨_, rfl, rfl⟩, ?_⟩
  rintro c (⟨x, hx, rfl⟩ | ⟨hc, hcq⟩) hne
  · cases hx
    exact absurd rfl hne
  · have hcw : c ≠ w := fun h => hcq (h ▸ hq)
    exact (hw.2 c hc hcw).inline rfl fun h => hcq (hown c hc h)

/-- A winner that stays wins again over a lifted candidate that is less important. -/
theorem isWinner_lifted_of_beats {o : Option Declaration} {w : Candidate}
    (hw : Candidate.IsWinner p w) (hq : ¬ q w)
    (hbeats : ∀ x, o = some x → w.declaration.priority.beats x.priority = true) :
    Candidate.IsWinner (Lifted p q o) w := by
  refine ⟨.inr ⟨hw.1, hq⟩, ?_⟩
  rintro c (⟨x, hx, rfl⟩ | ⟨hc, -⟩) hne
  · exact .inl (hbeats x hx)
  · exact hw.2 c hc hne

/-- A lifted candidate wins over a winner that is as important and stays. -/
theorem isWinner_lifted_of_eq (hown : ∀ c, p c → c.origin = .inline → q c) {x : Declaration}
    {w : Candidate} (hw : Candidate.IsWinner p w)
    (hpriority : x.priority = w.declaration.priority) :
    Candidate.IsWinner (Lifted p q (some x)) ⟨x, .inline⟩ := by
  refine ⟨.inl ⟨_, rfl, rfl⟩, ?_⟩
  rintro c (⟨y, hy, rfl⟩ | ⟨hc, hcq⟩) hne
  · cases hy
    exact absurd rfl hne
  · have horigin : c.origin ≠ .inline := fun h => hcq (hown c hc h)
    by_cases hcw : c = w
    · right
      exact ⟨by rw [hcw, hpriority], Origin.inline_outranks horigin⟩
    · exact (hw.2 c hc hcw).inline hpriority horigin

/-- Lifting keeps the outcome unless it lifts something as important as a winner that
stays. -/
theorem outcome_lifted_eq_iff (hqp : ∀ c, q c → p c)
    (hown : ∀ c, p c → c.origin = .inline → q c) {before inline after : Option Declaration}
    (hbefore : Candidate.IsOutcome p before) (hinline : Candidate.IsOutcome q inline)
    (hafter : Candidate.IsOutcome (Lifted p q inline) after) :
    after = before ↔ ¬ ∃ w l, Candidate.IsWinner p w ∧ ¬ q w ∧ Candidate.IsWinner q l ∧
      l.declaration.priority = w.declaration.priority ∧ l.declaration ≠ w.declaration := by
  cases before with
  | none =>
    have hq : inline = none := hinline.eq_none_iff.2 fun c hc => hbefore c (hqp c hc)
    have hnone : after = none := hafter.eq_none_iff.2 (by
      rintro c (⟨x, hx, -⟩ | ⟨hc, -⟩)
      · rw [hq] at hx
        cases hx
      · exact hbefore c hc)
    exact ⟨fun _ ⟨w, _, hw, _⟩ => hbefore w hw.1, fun _ => hnone⟩
  | some x =>
    obtain ⟨w, hw, rfl⟩ := hbefore
    by_cases hqw : q w
    · have hwq : Candidate.IsWinner q w := ⟨hqw, fun c hc hne => hw.2 c (hqp c hc) hne⟩
      have hlifted : inline = some w.declaration := (hinline.eq_some_iff _).2 ⟨w, hwq, rfl⟩
      rw [hlifted] at hafter
      have hsame := (hafter.eq_some_iff _).2 ⟨_, isWinner_lifted_of_mem hown hw hqw, rfl⟩
      refine ⟨fun _ ⟨w', _, hw', hqw', _⟩ => ?_, fun _ => hsame⟩
      rw [hw'.unique hw] at hqw'
      exact hqw' hqw
    · cases inline with
      | none =>
        have hsame := (hafter.eq_some_iff _).2
          ⟨w, isWinner_lifted_of_beats hw hqw fun x hx => (by cases hx), rfl⟩
        exact ⟨fun _ ⟨_, l, _, _, hl, _⟩ => hinline l hl.1, fun _ => hsame⟩
      | some y =>
        obtain ⟨l, hl, rfl⟩ := hinline
        have hwl : w.Beats l := hw.2 l (hqp l hl.1) fun h => hqw (h ▸ hl.1)
        rcases hwl with hbeats | ⟨hpriority, -⟩
        · -- the winner is more important than what is lifted
          have hsame := (hafter.eq_some_iff _).2
            ⟨w, isWinner_lifted_of_beats hw hqw fun x hx => (by cases hx; exact hbeats), rfl⟩
          refine ⟨fun _ ⟨w', l', hw', _, hl', heq, _⟩ => ?_, fun _ => hsame⟩
          rw [hw'.unique hw, hl'.unique hl] at heq
          rw [heq] at hbeats
          cases hp : w.declaration.priority <;> rw [hp] at hbeats <;> cases hbeats
        · -- both are as important, so what is lifted wins afterwards
          have hother := (hafter.eq_some_iff _).2
            ⟨_, isWinner_lifted_of_eq hown hw hpriority.symm, rfl⟩
          rw [hother]
          constructor
          · rintro heq ⟨w', l', hw', -, hl', -, hne⟩
            rw [hw'.unique hw, hl'.unique hl] at hne
            exact hne (Option.some.inj heq)
          · intro hno
            by_contra hne
            exact hno ⟨w, l, hw, hqw, hl, hpriority.symm, fun h => hne (congrArg some h)⟩

end Lifting

end Inlining
end SvgCompact

import Mathlib.Order.Bounds.Basic
import Mathlib.Order.Lattice.Nat
import SvgCompact.Proofs.Optimizer.Validity
import SvgCompact.Proofs.Pass.Shrinking

/-!
How often the pipeline is repeated, and where markup gets longer.

Repeating stops with the first cycle that the limit allows no successor or that did not
make its input smaller, the first cycle apart.  Without a limit worth the name it stops
all the same, because sizes cannot shrink for ever.

Compact output is longer than the input only if some cycle printed more than it read, and
that can only be the first one or the last.  In such a cycle the text was spelled shorter
than it would be printed, or one of three passes made the document longer.
-/

namespace SvgCompact

namespace Convergence

variable {α ε : Type} {size : α → Nat} {cycle : α → Except ε α} {limit : Nat} {a : α}

/-! ## The values in a row -/

/-- What a number of cycles makes of a value, or the error of the first cycle that
fails. -/
def outputs (cycle : α → Except ε α) (a : α) : Nat → Except ε α
  | 0 => .ok a
  | k + 1 => (outputs cycle a k).bind cycle

theorem outputs_succ_of_ok {k : Nat} {b : α} (h : outputs cycle a k = .ok b) :
    outputs cycle a (k + 1) = cycle b := by
  rw [outputs, h]
  rfl

theorem outputs_one : outputs cycle a 1 = cycle a := rfl

/-- After an error there is nothing but that error. -/
theorem outputs_of_error {j : Nat} {e : ε} (h : outputs cycle a j = .error e) :
    ∀ {k : Nat}, j ≤ k → outputs cycle a k = .error e := by
  intro k hjk
  induction k, hjk using Nat.le_induction with
  | base => exact h
  | succ k _ ih =>
    rw [outputs, ih]
    rfl

/-- An error has a first cycle that raised it. -/
theorem exists_failing_of_error {k : Nat} {e : ε} (h : outputs cycle a k = .error e) :
    ∃ j < k, ∃ b, outputs cycle a j = .ok b ∧ cycle b = .error e := by
  induction k with
  | zero => cases h
  | succ k ih =>
    cases hk : outputs cycle a k with
    | error e' =>
      rw [outputs_of_error hk (Nat.le_succ k)] at h
      cases h
      obtain ⟨j, hj, hfails⟩ := ih hk
      exact ⟨j, by omega, hfails⟩
    | ok b =>
      rw [outputs_succ_of_ok hk] at h
      exact ⟨k, Nat.lt_succ_self k, b, hk, h⟩

/-! ## Where repeating stops -/

/-- Whether no further cycle is wanted after the `k`th: the limit is reached, or the
cycle was not the first and left no smaller value than it was given. -/
def StopsAt (size : α → Nat) (cycle : α → Except ε α) (limit : Nat) (a : α) (k : Nat) : Prop :=
  1 ≤ k ∧ (limit ≤ k ∨ 2 ≤ k ∧ ∃ b c, outputs cycle a (k - 1) = .ok b
    ∧ outputs cycle a k = .ok c ∧ size b ≤ size c)

theorem stopsAt_limit : StopsAt size cycle limit a (max 1 limit) :=
  ⟨le_max_left 1 limit, .inl (le_max_right 1 limit)⟩

theorem exists_isLeast_stopsAt (size : α → Nat) (cycle : α → Except ε α) (limit : Nat) (a : α) :
    ∃ n, IsLeast {k | StopsAt size cycle limit a k} n := by
  classical
  have hstops : ∃ k, StopsAt size cycle limit a k := ⟨_, stopsAt_limit⟩
  exact ⟨Nat.find hstops, Nat.find_spec hstops, fun _ hk => Nat.find_min' hstops hk⟩

theorem stopsAt_succ_iff {k : Nat} {b c : α} (hk : 1 ≤ k) (hb : outputs cycle a k = .ok b)
    (hc : cycle b = .ok c) :
    StopsAt size cycle limit a (k + 1) ↔ limit ≤ k + 1 ∨ size b ≤ size c := by
  have hnext : outputs cycle a (k + 1) = .ok c := by rw [outputs_succ_of_ok hb, hc]
  constructor
  · rintro ⟨-, hlimit | ⟨-, b', c', hb', hc', hle⟩⟩
    · exact .inl hlimit
    · rw [Nat.add_sub_cancel, hb] at hb'
      rw [hnext] at hc'
      cases hb'
      cases hc'
      exact .inr hle
  · rintro (hlimit | hle)
    · exact ⟨by omega, .inl hlimit⟩
    · exact ⟨by omega, .inr ⟨by omega, b, c, hb, hnext, hle⟩⟩

variable {n : Nat}

/-- Between the first cycle and the one that stops, every value is smaller than the one
before it. -/
theorem size_lt_of_lt (hn : IsLeast {k | StopsAt size cycle limit a k} n) {k : Nat} {b c : α}
    (hk : 1 ≤ k) (hlt : k + 1 < n) (hb : outputs cycle a k = .ok b)
    (hc : outputs cycle a (k + 1) = .ok c) : size c < size b := by
  by_contra hle
  have hcycle : cycle b = .ok c := by rw [← outputs_succ_of_ok hb, hc]
  have hstops : StopsAt size cycle limit a (k + 1) :=
    (stopsAt_succ_iff hk hb hcycle).2 (.inr (Nat.le_of_not_lt hle))
  exact absurd (hn.2 hstops) (by omega)

/-- As many cycles can follow the first as its output is long. -/
theorem size_add_le (hn : IsLeast {k | StopsAt size cycle limit a k} n) {b : α}
    (hfirst : cycle a = .ok b) {k : Nat} :
    ∀ {c : α}, k + 1 < n → outputs cycle a (k + 1) = .ok c → size c + k ≤ size b := by
  induction k with
  | zero =>
    intro c _ hc
    rw [Nat.zero_add, outputs_one, hfirst] at hc
    cases hc
    exact le_rfl
  | succ k ih =>
    intro c hlt hc
    cases hprevious : outputs cycle a (k + 1) with
    | error e =>
      rw [outputs_of_error hprevious (Nat.le_succ _)] at hc
      cases hc
    | ok p =>
      have hdecreases := size_lt_of_lt hn (by omega) hlt hprevious hc
      have := ih (by omega) hprevious
      omega

/-! ## The loop -/

/-- What only the limit can stop, and the limit does not stop, is not the last cycle. -/
theorem lt_of_goes (hn : IsLeast {k | StopsAt size cycle limit a k} n) {k : Nat} (hkn : k ≤ n)
    (hgoes : StopsAt size cycle limit a k → limit ≤ k) (hlimit : ¬ limit ≤ k) : k < n := by
  rcases Nat.lt_or_eq_of_le hkn with hlt | rfl
  · exact hlt
  · exact absurd (hgoes hn.1) hlimit

/-- From any of its values on, the loop arrives at the cycle that stops.  `hgoes` is what
the loop has checked when it comes to a value: only the limit can stop it there. -/
theorem continued_eq (hn : IsLeast {k | StopsAt size cycle limit a k} n) {k : Nat} {b : α}
    (hk : 1 ≤ k) (hkn : k ≤ n) (hb : outputs cycle a k = .ok b)
    (hgoes : StopsAt size cycle limit a k → limit ≤ k) :
    continued size cycle limit k b = (outputs cycle a n).map fun c => (c, n) := by
  induction k, b using continued.induct size cycle limit with
  | case1 k b hlimit =>
    have hnk : n = k := le_antisymm (hn.2 ⟨hk, .inl hlimit⟩) hkn
    rw [continued, if_pos hlimit, hnk, hb]
    rfl
  | case2 k b hlimit e he =>
    have hlt := lt_of_goes hn hkn hgoes hlimit
    have herror : outputs cycle a (k + 1) = .error e := by rw [outputs_succ_of_ok hb, he]
    rw [continued, if_neg hlimit, he, outputs_of_error herror hlt]
    rfl
  | case3 k b hlimit c hc hsmaller ih =>
    have hlt := lt_of_goes hn hkn hgoes hlimit
    rw [continued, if_neg hlimit, hc]
    simp only [hsmaller, dite_true]
    refine ih (by omega) hlt (by rw [outputs_succ_of_ok hb, hc]) fun hstops => ?_
    rcases (stopsAt_succ_iff hk hb hc).1 hstops with hlimit' | hle
    · exact hlimit'
    · omega
  | case4 k b hlimit c hc hlarger =>
    have hlt := lt_of_goes hn hkn hgoes hlimit
    have hstops : StopsAt size cycle limit a (k + 1) :=
      (stopsAt_succ_iff hk hb hc).2 (.inr (Nat.le_of_not_lt hlarger))
    have hnk : n = k + 1 := le_antisymm (hn.2 hstops) hlt
    rw [continued, if_neg hlimit, hc, hnk, outputs_succ_of_ok hb, hc]
    simp only [hlarger, dite_false]
    rfl

theorem run_eq (hn : IsLeast {k | StopsAt size cycle limit a k} n) :
    run size cycle limit a = (outputs cycle a n).map fun b => (b, n) := by
  have hpos : 1 ≤ n := hn.1.1
  rw [run]
  cases hfirst : cycle a with
  | error e =>
    rw [outputs_of_error (outputs_one.trans hfirst) hpos]
    rfl
  | ok b =>
    refine continued_eq hn le_rfl hpos (outputs_one.trans hfirst) ?_
    rintro ⟨-, hlimit | ⟨htwo, -⟩⟩
    · exact hlimit
    · omega

/-! ## Counting the calls -/

/-- A cycle that counts how often it is called. -/
def counted (cycle : α → Except ε α) (p : Nat × α) : Except (Nat × ε) (Nat × α) :=
  match cycle p.2 with
  | .error e => .error (p.1 + 1, e)
  | .ok b => .ok (p.1 + 1, b)

/-- How often the loop calls its cycle. -/
def calls (size : α → Nat) (cycle : α → Except ε α) (limit : Nat) (a : α) : Nat :=
  match run (fun p => size p.2) (counted cycle) limit (0, a) with
  | .error p => p.1
  | .ok p => p.1.1

theorem outputs_counted_of_ok {k : Nat} {b : α} (h : outputs cycle a k = .ok b) :
    outputs (counted cycle) (0, a) k = .ok (k, b) := by
  induction k generalizing b with
  | zero =>
    cases h
    rfl
  | succ k ih =>
    cases hk : outputs cycle a k with
    | error e =>
      rw [outputs_of_error hk (Nat.le_succ k)] at h
      cases h
    | ok p =>
      rw [outputs_succ_of_ok hk] at h
      rw [outputs_succ_of_ok (ih hk), counted, h]

theorem outputs_counted_of_failing {j k : Nat} {b : α} {e : ε} (hjk : j < k)
    (hb : outputs cycle a j = .ok b) (he : cycle b = .error e) :
    outputs (counted cycle) (0, a) k = .error (j + 1, e) := by
  refine outputs_of_error ?_ hjk
  rw [outputs_succ_of_ok (outputs_counted_of_ok hb), counted, he]

theorem outputs_of_outputs_counted {k : Nat} {p : Nat × α}
    (h : outputs (counted cycle) (0, a) k = .ok p) : outputs cycle a k = .ok p.2 := by
  cases hk : outputs cycle a k with
  | ok b =>
    rw [outputs_counted_of_ok hk] at h
    cases h
    rfl
  | error e =>
    obtain ⟨j, hj, b, hb, he⟩ := exists_failing_of_error hk
    rw [outputs_counted_of_failing hj hb he] at h
    cases h

/-- Counting changes nothing about where the loop stops. -/
theorem stopsAt_counted_iff {k : Nat} :
    StopsAt (fun p => size p.2) (counted cycle) limit (0, a) k
      ↔ StopsAt size cycle limit a k := by
  refine and_congr_right fun _ => or_congr_right (and_congr_right fun _ => ⟨?_, ?_⟩)
  · rintro ⟨p, q, hp, hq, hle⟩
    exact ⟨p.2, q.2, outputs_of_outputs_counted hp, outputs_of_outputs_counted hq, hle⟩
  · rintro ⟨b, c, hb, hc, hle⟩
    exact ⟨_, _, outputs_counted_of_ok hb, outputs_counted_of_ok hc, hle⟩

theorem run_counted (hn : IsLeast {k | StopsAt size cycle limit a k} n) :
    run (fun p => size p.2) (counted cycle) limit (0, a)
      = (outputs (counted cycle) (0, a) n).map fun b => (b, n) := by
  refine run_eq ?_
  have hsame : {k | StopsAt (fun p => size p.2) (counted cycle) limit (0, a) k}
      = {k | StopsAt size cycle limit a k} := Set.ext fun k => stopsAt_counted_iff
  rwa [hsame]

/-- A loop that ends well calls its cycle as often as it says. -/
theorem calls_of_ok (hn : IsLeast {k | StopsAt size cycle limit a k} n) {b : α}
    (h : outputs cycle a n = .ok b) : calls size cycle limit a = n := by
  rw [calls, run_counted hn, outputs_counted_of_ok h]
  rfl

/-- The cycle that fails is the last that is called. -/
theorem calls_of_failing (hn : IsLeast {k | StopsAt size cycle limit a k} n) {j : Nat} {b : α}
    {e : ε} (hj : j < n) (hb : outputs cycle a j = .ok b) (he : cycle b = .error e) :
    calls size cycle limit a = j + 1 := by
  rw [calls, run_counted hn, outputs_counted_of_failing hj hb he]
  rfl

theorem calls_le (hn : IsLeast {k | StopsAt size cycle limit a k} n) :
    calls size cycle limit a ≤ n := by
  cases h : outputs cycle a n with
  | ok b => exact (calls_of_ok hn h).le
  | error e =>
    obtain ⟨j, hj, b, hb, he⟩ := exists_failing_of_error h
    rw [calls_of_failing hn hj hb he]
    exact hj

/-- Whatever the limit, the length of the first output bounds the number of calls. -/
theorem calls_le_size (hn : IsLeast {k | StopsAt size cycle limit a k} n) {b : α}
    (hfirst : cycle a = .ok b) : calls size cycle limit a ≤ size b + 2 := by
  have hbound : ∀ j c, j < n → outputs cycle a j = .ok c → j ≤ size b + 1 := by
    intro j c hj hc
    rcases j with _ | k
    · omega
    · have := size_add_le hn hfirst hj hc
      omega
  cases h : outputs cycle a n with
  | error e =>
    obtain ⟨j, hj, c, hc, he⟩ := exists_failing_of_error h
    rw [calls_of_failing hn hj hc he]
    exact Nat.succ_le_succ (hbound j c hj hc)
  | ok c =>
    rw [calls_of_ok hn h]
    obtain ⟨m, rfl⟩ : ∃ m, n = m + 1 := ⟨n - 1, (Nat.succ_pred_eq_of_pos hn.1.1).symm⟩
    cases hm : outputs cycle a m with
    | error e =>
      rw [outputs_of_error hm (Nat.le_succ m)] at h
      cases h
    | ok p => exact Nat.succ_le_succ (hbound m p (Nat.lt_succ_self m) hm)

end Convergence

/-! ## Optimizing in several passes -/

namespace Optimizer

open Convergence

/-- The optimizer with the same pipeline that runs it once. -/
def singlePass (o : Optimizer) : Optimizer :=
  { o with config := { o.config with multipass := false } }

variable {o : Optimizer} {path : Option String}

/-- The single pass is one cycle. -/
theorem optimize_singlePass (s : String) :
    (o.singlePass.optimize path s).map Output.markup = o.cycle s := by
  have hlimit : o.singlePass.maxCycles = 1 := rfl
  have hcycle : o.singlePass.cycle s = o.cycle s := rfl
  rw [optimize, Convergence.run, hlimit, hcycle]
  cases o.cycle s with
  | error e => rfl
  | ok t =>
    simp only
    rw [continued, if_pos le_rfl]
    rfl

theorem outputs_singlePass (s : String) (n : Nat) :
    outputs (fun t => (o.singlePass.optimize path t).map Output.markup) s n
      = outputs o.cycle s n := by
  have hcycles : (fun t => (o.singlePass.optimize path t).map Output.markup) = o.cycle :=
    funext optimize_singlePass
  rw [hcycles]

/-- A loop ends with the first cycle that the limit or the sizes make the last, after the
values it has gone through have become smaller and smaller, with the value of that cycle
or with the first error on the way, which is then the last call it makes.  A cycle that
keeps a state is one on pairs, measured by their second part.  So an optimizer in several
passes applies the one in a single pass as often as it reports. -/
theorem optimize_multipass {α ε : Type} (size : α → Nat) (cycle : α → Except ε α) (limit : Nat)
    (a : α) (o : Optimizer) (path : Option String) (s : String) :
    (∃ n, IsLeast {k | StopsAt size cycle limit a k} n ∧ n ≤ max 1 limit
      ∧ Convergence.run size cycle limit a = (outputs cycle a n).map (fun b => (b, n))
      ∧ (∀ k b e, k < n → outputs cycle a k = .ok b → cycle b = .error e →
        Convergence.run size cycle limit a = .error e ∧ calls size cycle limit a = k + 1)
      ∧ (∀ k b c, 1 ≤ k → k + 1 < n → outputs cycle a k = .ok b →
        outputs cycle a (k + 1) = .ok c → size c < size b)
      ∧ calls size cycle limit a ≤ n
      ∧ ∀ b, cycle a = .ok b → calls size cycle limit a ≤ size b + 2)
    ∧ (o.config.multipass = true →
      ∃ n, IsLeast {k |
          StopsAt (fun t => Text.byteSize t.toList) o.cycle (max 1 o.config.maxPasses) s k} n
        ∧ n ≤ max 1 o.config.maxPasses
        ∧ o.optimize path s =
          (outputs (fun t => (o.singlePass.optimize path t).map Output.markup) s n).map fun t =>
            ⟨t, path, o.config.dataUri.map fun mode => DataUri.encode mode t, n⟩) := by
  constructor
  · obtain ⟨n, hn⟩ := exists_isLeast_stopsAt size cycle limit a
    refine ⟨n, hn, hn.2 stopsAt_limit, run_eq hn, fun k b e hk hb he => ?_,
      fun k b c hk hlt hb hc => size_lt_of_lt hn hk hlt hb hc, calls_le hn,
      fun b hb => calls_le_size hn hb⟩
    have herror : outputs cycle a (k + 1) = .error e := by rw [outputs_succ_of_ok hb, he]
    refine ⟨?_, calls_of_failing hn hk hb he⟩
    rw [run_eq hn, outputs_of_error herror hk]
    rfl
  · intro hmulti
    obtain ⟨n, hn⟩ := exists_isLeast_stopsAt (fun t => Text.byteSize t.toList) o.cycle
      (max 1 o.config.maxPasses) s
    have hlimit : o.maxCycles = max 1 o.config.maxPasses := if_pos hmulti
    have hrun : Convergence.run (fun t => Text.byteSize t.toList) o.cycle o.maxCycles s
        = (outputs o.cycle s n).map fun b => (b, n) := by
      rw [hlimit]
      exact run_eq hn
    have hle : n ≤ max 1 (max 1 o.config.maxPasses) := hn.2 stopsAt_limit
    refine ⟨n, hn, by omega, ?_⟩
    rw [outputs_singlePass, optimize, hrun]
    cases outputs o.cycle s n with
    | error e => rfl
    | ok t => rfl

/-- Without plugins, `<svg display="none"/>` is read and printed twice: the second time it
has not become shorter. -/
theorem optimize_hiddenSvg :
    let o : Optimizer := ⟨{ Config.default with multipass := true }, []⟩
    let s := "<svg display=\"none\"/>"
    o.config.multipass = true ∧ o.optimize none s = .ok ⟨s, none, none, 2⟩ := by
  intro o s
  have hcycle : o.cycle s = .ok s := by
    rw [cycle, read_hiddenSvg]
    rfl
  have hsame : ∀ k, outputs o.cycle s k = .ok s := by
    intro k
    induction k with
    | zero => rfl
    | succ k ih => rw [outputs_succ_of_ok ih, hcycle]
  obtain ⟨-, hmulti⟩ := optimize_multipass (fun t => Text.byteSize t.toList) o.cycle 0 s o none s
  obtain ⟨n, ⟨⟨hpos, hstops⟩, hleast⟩, -, hoptimize⟩ := hmulti rfl
  have hle : n ≤ 2 := hleast ⟨by omega, .inr ⟨le_rfl, s, s, hsame 1, hsame 2, le_rfl⟩⟩
  have htwo : n = 2 := by
    rcases hstops with hlimit | ⟨hge, -⟩
    · have hten : (10 : Nat) ≤ n := hlimit
      omega
    · omega
  rw [outputs_singlePass, hsame, htwo] at hoptimize
  exact ⟨rfl, hoptimize⟩

end Optimizer

open Markup (PrintOptions)
open Text (byteSize)

/-! ## Passes -/

namespace Pipeline

/-- The names of the passes that can make markup longer. -/
def enlarging : List String := ["inline_styles", "minify_styles", "merge_paths"]

variable {options : PrintOptions} {p : Pipeline} {d : Document}

theorem yields_neverGrows (options : PrintOptions) : ∀ p ∈ Registry.builtin,
    p.Yields fun pass => p.name ∈ enlarging ∨ pass.NeverGrows options := by
  have hdropping (p : Content → Bool) : (Pass.topDown (.dropping p)).NeverGrows options :=
    Visit.neverGrows_dropping p
  have hconvert (precision : Option Nat) : (Pass.convertPathData precision).NeverGrows options :=
    Visit.neverGrows_rewriting (Pass.isNoLonger_rewritePath _)
  simp only [Registry.builtin, List.forall_mem_cons]
  refine ⟨Plugin.yields_fixed (.inr (hdropping _)), Plugin.yields_fixed (.inr (hdropping _)),
    Plugin.yields_fixed (.inr (hdropping _)),
    Plugin.yields_fixed (.inr Pass.neverGrows_removeMetadata),
    Plugin.yields_adjustable fun _ => .inl (by decide), Plugin.yields_fixed (.inl (by decide)),
    Plugin.yields_fixed (.inr (Visit.neverGrows_rewriting Pass.isNoLonger_shortenColors)),
    Plugin.yields_fixed (.inr Pass.neverGrows_removeDefaults),
    Plugin.yields_fixed (.inr Pass.neverGrows_removeHidden),
    Plugin.yields_fixed (.inr Pass.neverGrows_moveSharedToGroup),
    Plugin.yields_fixed (.inr Pass.neverGrows_collapseGroups),
    Plugin.yields_adjustable fun precision => .inr (hconvert precision),
    Plugin.yields_fixed (.inr Pass.neverGrows_removeEmptyContainers),
    Plugin.yields_adjustable fun _ => .inl (by decide),
    Plugin.yields_fixed (.inr Pass.neverGrows_removeUnusedNamespaces),
    Plugin.yields_fixed (.inr Pass.neverGrows_sortDefs),
    @Plugin.yields_fixed _ "remove_xmlns" "" _ (.inr Pass.neverGrows_removeXmlns), by simp⟩

/-- Whether a pass of a run makes the document longer that the passes before it left. -/
def Grows (options : PrintOptions) (p : Pipeline) (d : Document) : Prop :=
  ∃ before s after, p = before ++ s :: after ∧ s.enabled = true ∧ s.name ∈ enlarging ∧
    byteSize (Markup.print options (run before d)).toList <
      byteSize (Markup.print options (s.pass.run (run before d))).toList

theorem grows_cons {s : Stage} (h : Grows options p (s.run d)) : Grows options (s :: p) d := by
  obtain ⟨before, s', after, rfl, hgrows⟩ := h
  exact ⟨s :: before, s', after, rfl, hgrows⟩

/-- A run that leaves a longer document went through a pass that can do that and did. -/
theorem grows_of_lt (hcompact : options.pretty = false)
    (hp : ∀ s ∈ p, s.pass.SuitsStepwise (fun _ => True) s.name ∧
      (s.name ∈ enlarging ∨ s.pass.NeverGrows options))
    (hd : d.IsSound fun _ => True) (hholds : d.HoldsInElements)
    (hlt : byteSize (Markup.print options d).toList <
      byteSize (Markup.print options (p.run d)).toList) : Grows options p d := by
  induction p generalizing d with
  | nil => exact absurd hlt (Nat.lt_irrefl _)
  | cons s rest ih =>
    obtain ⟨⟨hsuits, hname⟩, hrest⟩ := List.forall_mem_cons.1 hp
    have hedits := edits_pass hsuits.suits hd
    have hd' := hedits.isSound hd
    have hholds' := hedits.holdsInElements hd hholds
    by_cases hstage : byteSize (Markup.print options (s.run d)).toList ≤
        byteSize (Markup.print options d).toList
    · exact grows_cons (ih hrest hd' hholds' (hstage.trans_lt hlt))
    · by_cases henabled : s.enabled = true
      · have hrun : s.run d = s.pass.run d := if_pos henabled
        refine ⟨[], s, rest, rfl, henabled, hname.resolve_right fun hnever => hstage ?_, ?_⟩
        · rw [Document.byteSize_print hd'.toIsRooted hholds' hcompact,
            Document.byteSize_print hd.toIsRooted hholds hcompact, hrun]
          exact hnever.markupSize_run_le hsuits.isStepwise hd
        · rw [hrun] at hstage
          exact Nat.lt_of_not_le hstage
      · have hrun : s.run d = d := if_neg henabled
        rw [hrun] at hstage
        exact absurd (Nat.le_refl _) hstage

end Pipeline

/-! ## Cycles -/

namespace Convergence

variable {α ε : Type} {cycle : α → Except ε α} {a b : α}

/-- If values grow from one to another, they do in some cycle between the two. -/
theorem exists_growing (size : α → Nat) (n : Nat) (h : outputs cycle a n = .ok b)
    (hlt : size a < size b) :
    ∃ k < n, ∃ t t', outputs cycle a k = .ok t ∧ cycle t = .ok t' ∧ size t < size t' := by
  induction n generalizing b with
  | zero =>
    cases h
    exact absurd hlt (Nat.lt_irrefl _)
  | succ n ih =>
    cases ht : outputs cycle a n with
    | error e =>
      rw [outputs_of_error ht (Nat.le_succ n)] at h
      cases h
    | ok t =>
      rw [outputs_succ_of_ok ht] at h
      by_cases hgrows : size t < size b
      · exact ⟨n, Nat.lt_succ_self n, t, b, ht, h, hgrows⟩
      · obtain ⟨k, hk, hfound⟩ := ih ht (by omega)
        exact ⟨k, Nat.lt_succ_of_lt hk, hfound⟩

end Convergence

namespace Optimizer

open Convergence

variable {config : Config} {o : Optimizer} {path : Option String} {s : String} {out : Output}

/-- Compact output is no longer than the input, or there is a cycle to blame for that, the
first or the last one: it read a text that is shorter than what it would be printed as, or
one of its passes made the document longer, which only three passes can. -/
theorem optimize_growth (ho : build config = .ok o) (hcompact : config.printing.pretty = false)
    (hout : o.optimize path s = .ok out) :
    byteSize out.markup.toList ≤ byteSize s.toList ∨
      ∃ k t d, k < out.passes ∧ (k = 0 ∨ k + 1 = out.passes) ∧ outputs o.cycle s k = .ok t ∧
        Markup.read t = .ok d ∧
        (byteSize t.toList < byteSize (Markup.print config.printing d).toList ∨
          o.pipeline.Grows config.printing d) := by
  obtain ⟨hconfig, hpipeline⟩ := of_build ho
  obtain ⟨n, hn⟩ := exists_isLeast_stopsAt (fun t : String => byteSize t.toList) o.cycle
    o.maxCycles s
  rw [optimize, run_eq hn] at hout
  cases hlast : outputs o.cycle s n with
  | error e =>
    rw [hlast] at hout
    cases hout
  | ok result =>
    rw [hlast] at hout
    cases hout
    by_cases hle : byteSize result.toList ≤ byteSize s.toList
    · exact .inl hle
    obtain ⟨k, hk, t, t', ht, hcycle, hgrows⟩ :=
      exists_growing (fun t : String => byteSize t.toList) n hlast (Nat.lt_of_not_le hle)
    have hend : k = 0 ∨ k + 1 = n := by
      by_contra hbetween
      have hshrinks := size_lt_of_lt hn (by omega : 1 ≤ k) (by omega) ht
        ((outputs_succ_of_ok ht).trans hcycle)
      exact absurd hshrinks (Nat.lt_asymm hgrows)
    cases hread : Markup.read t with
    | error e =>
      rw [cycle, hread] at hcycle
      cases hcycle
    | ok d =>
      rw [cycle, hread, hconfig] at hcycle
      obtain rfl : Markup.print config.printing (o.pipeline.run d) = t' := Except.ok.inj hcycle
      refine .inr ⟨k, t, d, hk, hend, ht, hread, ?_⟩
      refine (Nat.lt_or_ge _ _).imp_right fun hshort => ?_
      have hstages := Pipeline.holds_of_build
        (Q := fun name pass => pass.SuitsStepwise (fun _ => True) name ∧
          (name ∈ Pipeline.enlarging ∨ pass.NeverGrows config.printing))
        (fun p hp parameters pass hpass => ⟨Registry.yields_builtin p hp parameters pass hpass,
          Pipeline.yields_neverGrows config.printing p hp parameters pass hpass⟩) hpipeline
      exact Pipeline.grows_of_lt hcompact hstages (Markup.isCoherent_of_read hread).toIsSound
        (Markup.isOrderly_of_read hread).1.holder (hshort.trans_lt hgrows)

/-- The plugins that run by default leave nothing of `<svg display="none"/>`. -/
theorem optimize_growth_hiddenSvg :
    ∃ o out, build Config.default = .ok o ∧ Config.default.printing.pretty = false ∧
      o.optimize none "<svg display=\"none\"/>" = .ok out ∧ out.markup = "" ∧
      (byteSize out.markup.toList ≤ byteSize "<svg display=\"none\"/>".toList ∨
        ∃ k t d, k < out.passes ∧ (k = 0 ∨ k + 1 = out.passes) ∧
          outputs o.cycle "<svg display=\"none\"/>" k = .ok t ∧ Markup.read t = .ok d ∧
          (byteSize t.toList < byteSize (Markup.print Config.default.printing d).toList ∨
            o.pipeline.Grows Config.default.printing d)) := by
  obtain ⟨o, ho⟩ : ∃ o, build Config.default = .ok o := ⟨_, rfl⟩
  have hprint : Markup.print o.config.printing
      (o.pipeline.run (Document.empty.append Document.root (.element hiddenSvg)).1) = "" := by
    cases ho
    decide +kernel
  have hcycle : o.cycle "<svg display=\"none\"/>" = .ok "" := by
    rw [cycle, read_hiddenSvg]
    exact congrArg Except.ok hprint
  have hout : o.optimize none "<svg display=\"none\"/>" = .ok ⟨"", none, none, 1⟩ := by
    have hlimit : o.maxCycles = 1 := by
      cases ho
      rfl
    have huri : o.config.dataUri = none := by
      cases ho
      rfl
    rw [optimize, Convergence.run, hcycle, hlimit]
    dsimp only
    rw [continued, if_pos (Nat.le_refl 1), huri]
    rfl
  exact ⟨o, _, ho, rfl, hout, rfl, optimize_growth ho rfl hout⟩

end Optimizer
end SvgCompact

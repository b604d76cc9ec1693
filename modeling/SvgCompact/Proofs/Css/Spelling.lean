import SvgCompact.Css.Spelling
import SvgCompact.Proofs.Css.Stopping

/-!
Spelled names and strings are read back.

A spelled name is one token in front of everything that neither goes on with a name nor
opens a bracket (`lexemes_ident`), but for the name `--` in front of `>`, with which it
would close a comment of a page.  The character without number has no spelling of its own,
and no name or string that was read holds it.
-/

namespace SvgCompact
namespace Css

section

variable {c : Char} {s t rest : List Char}

/-! ## Escapes -/

/-- A text that behind a backslash stands for a character, whatever follows it. -/
structure IsEscape (c : Char) (t : List Char) : Prop where
  line : ∀ rest, startsLine (t ++ rest) = false
  taken : ∀ rest, escape (t ++ rest) = (c, t.length)

theorem IsEscape.ne_nil (h : IsEscape c t) : t ≠ [] := by
  rintro rfl
  have hline := h.line ['\n']
  cases hline

theorem IsEscape.drop (h : IsEscape c t) (rest : List Char) :
    (t ++ rest).drop (escape (t ++ rest)).2 = rest := by
  rw [h.taken, List.drop_left]

theorem isEscape_self (hhex : isHexDigit c = false) (hnull : c ≠ '\x00')
    (hline : Text.isLineEnd c = false) : IsEscape c [c] where
  line _ := hline
  taken _ := by
    rw [List.singleton_append, escape, if_neg (by simp [hhex]), if_neg (by simpa using hnull)]
    rfl

theorem isHexDigit_hexDigit : ∀ n < 16, isHexDigit (hexDigit n) = true := by
  decide

theorem value_hexDigit : ∀ n < 16,
    (if (hexDigit n).isDigit then (hexDigit n).toNat - 48 else (hexDigit n).toLower.toNat - 87) =
      n := by
  decide

theorem charOf_toNat (h : c ≠ '\x00') : charOf c.toNat = c := by
  have hne : c.toNat ≠ 0 := fun heq => h (Char.toNat_inj.1 heq)
  rw [charOf, if_pos ⟨hne, c.valid⟩, Char.ofNat_toNat]

/-- Hexadecimal digits with a blank behind them. -/
theorem isEscape_digits (digits : List Char) (hne : digits ≠ []) (hlen : digits.length ≤ 2)
    (hhex : ∀ d ∈ digits, isHexDigit d = true) :
    IsEscape (charOf (hexValue digits)) (digits ++ [' ']) where
  line rest := by
    obtain ⟨d, ds, rfl⟩ := List.exists_cons_of_ne_nil hne
    have hd := hhex d (by simp)
    change Text.isLineEnd d = false
    by_contra hline
    simp only [Text.isLineEnd, Bool.not_eq_false, Bool.or_eq_true, beq_iff_eq] at hline
    rcases hline with (rfl | rfl) | rfl <;> exact absurd hd (by decide)
  taken rest := by
    have htake : ((digits ++ ' ' :: rest).take 6).takeWhile isHexDigit = digits := by
      have hsplit : (digits ++ ' ' :: rest).take 6 =
          digits ++ ' ' :: rest.take (5 - digits.length) := by
        rw [List.take_append, List.take_of_length_le (by omega),
          show 6 - digits.length = (5 - digits.length) + 1 by omega, List.take_succ_cons]
      rw [hsplit, List.takeWhile_append_of_pos hhex, List.takeWhile_cons_of_neg (by decide),
        List.append_nil]
    obtain ⟨d, ds, rfl⟩ := List.exists_cons_of_ne_nil hne
    rw [List.append_assoc, List.singleton_append, List.cons_append, escape,
      if_pos (hhex d (by simp))]
    rw [List.cons_append] at htake
    simp only [htake]
    rw [← List.cons_append, List.drop_left, List.length_append]
    rfl

theorem exists_numberEscape (hsmall : c.toNat < 256) (hnull : c ≠ '\x00') :
    ∃ t, numberEscape c = '\\' :: t ∧ IsEscape c t := by
  have hmod : c.toNat % 16 < 16 := Nat.mod_lt _ (by decide)
  rw [numberEscape]
  split
  · next hlarge =>
    have hdiv : c.toNat / 16 < 16 := by omega
    have hvalue : hexValue [hexDigit (c.toNat / 16), hexDigit (c.toNat % 16)] = c.toNat := by
      simp only [hexValue, List.foldl_cons, List.foldl_nil, value_hexDigit _ hdiv,
        value_hexDigit _ hmod, Nat.mul_zero, Nat.zero_add]
      exact Nat.div_add_mod c.toNat 16
    have hescape := isEscape_digits [hexDigit (c.toNat / 16), hexDigit (c.toNat % 16)]
      (by simp) (by simp) (by simp [isHexDigit_hexDigit _ hdiv, isHexDigit_hexDigit _ hmod])
    rw [hvalue, charOf_toNat hnull] at hescape
    exact ⟨_, rfl, hescape⟩
  · next hlarge =>
    have hlt : c.toNat < 16 := by omega
    have hvalue : hexValue [hexDigit c.toNat] = c.toNat := by
      simp only [hexValue, List.foldl_cons, List.foldl_nil, value_hexDigit _ hlt]
      omega
    have hescape := isEscape_digits [hexDigit c.toNat] (by simp) (by simp)
      (by simp [isHexDigit_hexDigit _ hlt])
    rw [hvalue, charOf_toNat hnull] at hescape
    exact ⟨_, rfl, hescape⟩

theorem lt_of_isControl (h : isControl c = true) : c.toNat < 256 := by
  simp only [isControl, Bool.or_eq_true, decide_eq_true_eq, beq_iff_eq] at h
  omega

theorem lt_of_isDigit (h : c.isDigit = true) : c.toNat < 256 := by
  simp only [Char.isDigit, Bool.and_eq_true, decide_eq_true_eq, UInt32.le_iff_toNat_le] at h
  exact lt_of_le_of_lt h.2 (by decide)

theorem isNameChar_of_isHexDigit (h : isHexDigit c = true) : isNameChar c = true := by
  simp only [isHexDigit, Bool.or_eq_true, Bool.and_eq_true, decide_eq_true_eq, or_assoc] at h
  rcases h with hdigit | ⟨hlow, hhigh⟩ | ⟨hlow, hhigh⟩
  · simp [isNameChar, Char.isAlphanum, hdigit]
  · have hlower : c.isLower = true := by
      rw [Char.isLower, Bool.and_eq_true, decide_eq_true_eq, decide_eq_true_eq]
      exact ⟨hlow, Nat.le_trans hhigh (by decide : 'f'.toNat ≤ 'z'.toNat)⟩
    simp [isNameChar, Char.isAlphanum, Char.isAlpha, hlower]
  · have hupper : c.isUpper = true := by
      rw [Char.isUpper, decide_eq_true_eq]
      exact ⟨hlow, Nat.le_trans hhigh (by decide : 'F'.toNat ≤ 'Z'.toNat)⟩
    simp [isNameChar, Char.isAlphanum, Char.isAlpha, hupper]

theorem not_isLineEnd_of_not_isControl (h : isControl c = false) : Text.isLineEnd c = false := by
  by_contra hline
  simp only [Text.isLineEnd, Bool.not_eq_false, Bool.or_eq_true, beq_iff_eq] at hline
  rcases hline with (rfl | rfl) | rfl <;> exact absurd h (by decide)

/-! ## Names -/

theorem IsEscape.takeName (h : IsEscape c t) (rest : List Char) :
    takeName ('\\' :: (t ++ rest)) = (c :: (Css.takeName rest).1, (Css.takeName rest).2) := by
  rw [Css.takeName, if_neg (by decide), if_neg (by decide), h.line, if_pos (by decide), h.drop,
    h.taken]

/-- A character of a name, as it is or escaped. -/
inductive Spells (c : Char) : List Char → Prop
  | plain (h : isNameChar c = true) : Spells c [c]
  | escaped {t : List Char} (h : IsEscape c t) : Spells c ('\\' :: t)

theorem Spells.takeName (h : Spells c s) (rest : List Char) :
    takeName (s ++ rest) = (c :: (Css.takeName rest).1, (Css.takeName rest).2) := by
  cases h with
  | plain h => rw [List.singleton_append, Css.takeName, if_pos h]
  | escaped h => exact h.takeName rest

theorem spells_numberEscape (hsmall : c.toNat < 256) (hnull : c ≠ '\x00') :
    Spells c (numberEscape c) := by
  obtain ⟨t, ht, hescape⟩ := exists_numberEscape hsmall hnull
  exact ht ▸ .escaped hescape

theorem spells_spellNameChar (hnull : c ≠ '\x00') : Spells c (spellNameChar c) := by
  rw [spellNameChar]
  split
  · next hname => exact .plain hname
  · next hname =>
    rw [if_neg (by simpa using hnull)]
    split
    · next hcontrol => exact spells_numberEscape (lt_of_isControl hcontrol) hnull
    · next hcontrol =>
      have hhex : isHexDigit c = false :=
        Bool.eq_false_iff.2 fun hhex => hname (isNameChar_of_isHexDigit hhex)
      have hline := not_isLineEnd_of_not_isControl (Bool.eq_false_iff.2 hcontrol)
      exact .escaped (isEscape_self hhex hnull hline)

theorem takeName_spellName (hs : '\x00' ∉ s) (rest : List Char) :
    takeName (spellName s ++ rest) = (s ++ (takeName rest).1, (takeName rest).2) := by
  induction s with
  | nil => rfl
  | cons c cs ih =>
    rw [List.mem_cons, not_or] at hs
    have hrest := ih hs.2
    rw [spellName] at hrest ⊢
    rw [List.flatMap_cons, List.append_assoc,
      (spells_spellNameChar (Ne.symm hs.1)).takeName, hrest]
    rfl

/-- The first character of an identifier is no digit unless it is escaped. -/
theorem exists_spellIdentStart (hnull : c ≠ '\x00') (cs : List Char) :
    ∃ front, spellIdentStart (c :: cs) = front ++ spellName cs ∧ Spells c front ∧
      (front = [c] → c.isDigit = false) := by
  rw [spellIdentStart]
  split
  · next hdigit =>
    refine ⟨_, rfl, spells_numberEscape (lt_of_isDigit hdigit) hnull, fun heq => ?_⟩
    cases heq
  · next hdigit =>
    exact ⟨_, List.flatMap_cons, spells_spellNameChar hnull, fun _ => Bool.eq_false_iff.2 hdigit⟩

theorem takeName_spellIdentStart (hs : '\x00' ∉ s) (rest : List Char) :
    takeName (spellIdentStart s ++ rest) = (s ++ (takeName rest).1, (takeName rest).2) := by
  cases s with
  | nil => rfl
  | cons c cs =>
    rw [List.mem_cons, not_or] at hs
    obtain ⟨front, hfront, hspells, -⟩ := exists_spellIdentStart (Ne.symm hs.1) cs
    rw [hfront, List.append_assoc, hspells.takeName, takeName_spellName hs.2]
    rfl

theorem isEscape_hyphen : IsEscape '-' ['-'] :=
  isEscape_self (by decide) (by decide) (by decide)

theorem takeName_spellIdent (hs : '\x00' ∉ s) (rest : List Char) :
    takeName (spellIdent s ++ rest) = (s ++ (takeName rest).1, (takeName rest).2) := by
  have hhyphen (t : List Char) :
      takeName ('-' :: t) = ('-' :: (takeName t).1, (takeName t).2) := by
    rw [takeName, if_pos (by decide)]
  unfold spellIdent
  split
  · next cs =>
    simp only [List.mem_cons, not_or] at hs
    rw [List.cons_append, List.cons_append, hhyphen, hhyphen, takeName_spellName hs.2.2]
    rfl
  · exact isEscape_hyphen.takeName rest
  · next cs _ _ =>
    rw [List.mem_cons, not_or] at hs
    rw [List.cons_append, hhyphen, takeName_spellIdentStart hs.2]
    rfl
  · exact takeName_spellIdentStart hs rest

/-! ### How names begin -/

theorem isNameStart_of_isNameChar (h : isNameChar c = true) (hdigit : c.isDigit = false)
    (hhyphen : c ≠ '-') : isNameStart c = true := by
  simp only [isNameChar, Char.isAlphanum, hdigit, Bool.or_false, beq_eq_false_iff_ne.2 hhyphen]
    at h
  rw [isNameStart, Bool.or_assoc, Bool.or_comm (c == '\x00'), ← Bool.or_assoc, h, Bool.true_or]

theorem not_isDigit_of_isNameStart (h : isNameStart c = true) : c.isDigit = false := by
  rw [Bool.eq_false_iff]
  intro hdigit
  simp only [isNameStart, Char.isAlpha, Char.isUpper, Char.isLower, Char.isDigit, Bool.or_eq_true,
    Bool.and_eq_true, decide_eq_true_eq, beq_iff_eq] at h hdigit
  have hfig : 48 ≤ c.toNat ∧ c.toNat ≤ 57 := hdigit
  rcases h with (((hupper | hlower) | rfl) | rfl) | hlarge
  · have hupper : 65 ≤ c.toNat ∧ c.toNat ≤ 90 := hupper
    omega
  · have hlower : 97 ≤ c.toNat ∧ c.toNat ≤ 122 := hlower
    omega
  · exact absurd hfig (by decide)
  · exact absurd hfig (by decide)
  · omega

/-- What a name begins with behind its first hyphen. -/
inductive IsStem : List Char → Prop
  | plain {c : Char} (h : isNameStart c = true) (cs : List Char) : IsStem (c :: cs)
  | escaped {cs : List Char} (h : startsLine cs = false) : IsStem ('\\' :: cs)

theorem isStem_spellIdentStart (hne : s ≠ []) (hs : '\x00' ∉ s) (hhyphen : s.head? ≠ some '-')
    (rest : List Char) : IsStem (spellIdentStart s ++ rest) := by
  obtain ⟨c, cs, rfl⟩ := List.exists_cons_of_ne_nil hne
  rw [List.mem_cons, not_or] at hs
  obtain ⟨front, hfront, hspells, hdigit⟩ := exists_spellIdentStart (Ne.symm hs.1) cs
  rw [hfront, List.append_assoc]
  cases hspells with
  | plain h =>
    exact .plain (isNameStart_of_isNameChar h (hdigit rfl) (by simpa using hhyphen)) _
  | escaped h => exact .escaped (h.line _)

theorem IsStem.startsIdent (h : IsStem s) : startsIdent s = true := by
  cases h with
  | plain h cs =>
    rw [startsIdent_cons]
    split
    · next hhyphen =>
      rw [hhyphen] at h
      cases h
    · split
      · next hslash =>
        rw [hslash] at h
        cases h
      · exact h
  | escaped h => rw [Css.startsIdent, h]; rfl

/-- A character that is neither of a kind nor in the way of a name. -/
theorem IsStem.head (h : IsStem s) {p : Char → Bool} (hslash : p '\\' = false)
    (hp : ∀ c, isNameStart c = true → p c = false) : s.head?.any p = false := by
  cases h with
  | plain h cs => exact hp _ h
  | escaped h => exact hslash

theorem IsStem.ne (h : IsStem s) {d : Char} (hd : (isNameStart d || d == '\\') = false) :
    s.head? ≠ some d := by
  rw [Bool.or_eq_false_iff] at hd
  cases h with
  | plain h cs =>
    intro heq
    rw [Option.some.inj heq, hd.1] at h
    cases h
  | escaped h =>
    intro heq
    rw [← Option.some.inj heq] at hd
    cases hd.2

theorem IsStem.takeSign (h : IsStem s) : Decimal.takeSign s = (false, s) := by
  obtain ⟨c, cs, rfl⟩ : ∃ c cs, s = c :: cs := by cases h <;> exact ⟨_, _, rfl⟩
  have hminus : c ≠ '-' := fun heq => h.ne (d := '-') (by decide) (by rw [heq]; rfl)
  have hplus : c ≠ '+' := fun heq => h.ne (d := '+') (by decide) (by rw [heq]; rfl)
  rw [takeSign_cons, if_neg hminus, if_neg hplus]

theorem IsStem.startsNumber (h : IsStem s) (ht : (Decimal.takeSign t).2 = s) :
    startsNumber t = false := by
  rw [startsNumber_eq, ht]
  refine h.head rfl fun c hc => ?_
  rw [if_neg, not_isDigit_of_isNameStart hc]
  rintro rfl
  cases hc

theorem IsStem.startsName (h : IsStem (c :: s)) : StartsName c s where
  ident := h.startsIdent
  number := h.startsNumber (by rw [h.takeSign])
  arrow heq := absurd (by rw [heq]; rfl) (h.ne (d := '-') (by decide))

theorem IsStem.startsName_hyphen (h : IsStem s) : StartsName '-' s where
  ident := by
    rw [startsIdent_cons, if_pos rfl]
    cases h with
    | plain h cs => simp [h]
    | escaped h => rfl
  number := h.startsNumber (by rw [takeSign_cons, if_pos rfl])
  arrow _ := by
    rw [Option.eq_none_iff_forall_ne_some]
    intro rest harrow
    refine h.ne (d := '-') (by decide) ?_
    rw [after?_arrow_eq_some.1 harrow]
    rfl

theorem startsName_hyphens (h : s.head? ≠ some '>') : StartsName '-' ('-' :: s) where
  ident := rfl
  number := by rw [startsNumber_eq, takeSign_cons, if_pos rfl]; rfl
  arrow _ := by
    rw [Option.eq_none_iff_forall_ne_some]
    intro rest harrow
    obtain ⟨-, rfl⟩ := List.cons.inj (after?_arrow_eq_some.1 harrow)
    exact h rfl

theorem head?_spellName_append (hs : s ≠ []) (hnull : '\x00' ∉ s) (rest : List Char) :
    (spellName s ++ rest).head? ≠ some '>' := by
  obtain ⟨c, cs, rfl⟩ := List.exists_cons_of_ne_nil hs
  rw [List.mem_cons, not_or] at hnull
  rw [spellName, List.flatMap_cons, List.append_assoc]
  have hspells := spells_spellNameChar (Ne.symm hnull.1)
  generalize spellNameChar c = front at hspells ⊢
  cases hspells with
  | plain h =>
    intro heq
    rw [Option.some.inj heq] at h
    cases h
  | escaped h => exact fun heq => absurd (Option.some.inj heq) (by decide)

/-- A spelled identifier begins a name, but `--` in front of `>` does not. -/
theorem exists_startsName (rest : List Char) (hne : s ≠ []) (hs : '\x00' ∉ s)
    (hdash : s = ['-', '-'] → rest.head? ≠ some '>') :
    ∃ c x, spellIdent s = c :: x ∧ StartsName c (x ++ rest) := by
  unfold spellIdent
  split
  · next cs =>
    refine ⟨_, _, rfl, startsName_hyphens ?_⟩
    cases cs with
    | nil => exact hdash rfl
    | cons d ds =>
      simp only [List.mem_cons, not_or] at hs
      exact head?_spellName_append (by simp) (by simpa using hs.2.2) rest
  · exact ⟨_, _, rfl, (IsStem.escaped (isEscape_hyphen.line rest)).startsName⟩
  · next cs hhyphens hsingle =>
    rw [List.mem_cons, not_or] at hs
    refine ⟨_, _, rfl, (isStem_spellIdentStart (by rintro rfl; exact hsingle rfl) hs.2 ?_
      rest).startsName_hyphen⟩
    intro hhead
    obtain ⟨ds, hds⟩ := List.head?_eq_some_iff.1 hhead
    exact hhyphens ds hds
  · next hhyphen =>
    have hstem := isStem_spellIdentStart hne hs fun hhead => by
      obtain ⟨ds, hds⟩ := List.head?_eq_some_iff.1 hhead
      exact hhyphen ds hds
    obtain ⟨c, x, hx⟩ : ∃ c x, spellIdentStart s = c :: x := by
      have hstem := hstem []
      cases h : spellIdentStart s with
      | nil =>
        rw [h] at hstem
        cases hstem
      | cons c x => exact ⟨c, x, rfl⟩
    refine ⟨c, x, hx, ?_⟩
    have hstem := hstem rest
    rw [hx] at hstem
    exact hstem.startsName

/-! ## Tokens -/

/-- What a name is like that was read. -/
structure IsName (name : String) : Prop where
  ne_nil : name.toList ≠ []
  free : '\x00' ∉ name.toList

variable {name : String}

theorem lexemes_of_start_append {x : List Char} {token : Token}
    (h : start c (x ++ rest) = (token, rest)) :
    lexemes (c :: x ++ rest) = ⟨token, c :: x⟩ :: lexemes rest := by
  rw [List.cons_append, lexemes_cons, first_of_start_append h]

theorem IsName.takeName (h : IsName name) (hrest : continuesName rest = false) :
    takeName (spellIdent name.toList ++ rest) = (name.toList, rest) := by
  rw [takeName_spellIdent h.free, takeName_of_not_continues hrest, List.append_nil]

theorem IsName.exists_start (h : IsName name) (hrest : continuesName rest = false)
    (hdash : name = "--" → rest.head? ≠ some '>') :
    ∃ c x, spellIdent name.toList = c :: x ∧ start c (x ++ rest) = afterName name.toList rest := by
  obtain ⟨c, x, hx, hstart⟩ := exists_startsName rest h.ne_nil h.free fun heq =>
    hdash (String.toList_inj.1 heq)
  refine ⟨c, x, hx, ?_⟩
  rw [hstart.start_eq, ← List.cons_append, ← hx]
  change afterName (Css.takeName _).1 (Css.takeName _).2 = _
  rw [h.takeName hrest]

theorem lexemes_ident (h : IsName name) (hrest : continuesName rest = false)
    (hbracket : rest.head? ≠ some '(') (hdash : name = "--" → rest.head? ≠ some '>') :
    lexemes (spellIdent name.toList ++ rest) =
      ⟨.ident name, spellIdent name.toList⟩ :: lexemes rest := by
  obtain ⟨c, x, hx, hstart⟩ := h.exists_start hrest hdash
  rw [afterName_of_not, String.ofList_toList] at hstart
  · rw [hx]
    exact lexemes_of_start_append hstart
  · cases rest with
    | nil => rfl
    | cons d rest => simpa using hbracket

theorem lexemes_function (h : IsName name)
    (hurl : Text.sameLetters name.toList "url".toList = false) (rest : List Char) :
    lexemes (spellIdent name.toList ++ '(' :: rest) =
      ⟨.function name, spellIdent name.toList ++ ['(']⟩ :: lexemes rest := by
  have hends : continuesName ('(' :: rest) = false := rfl
  obtain ⟨c, x, hx, hstart⟩ := h.exists_start hends (by simp)
  rw [afterName, hurl, if_neg (by decide), String.ofList_toList] at hstart
  have hlexemes : lexemes (c :: (x ++ ['(']) ++ rest) =
      ⟨.function name, c :: (x ++ ['('])⟩ :: lexemes rest :=
    lexemes_of_start_append (by rw [List.append_assoc]; exact hstart)
  simpa [hx] using hlexemes

theorem lexemes_idHash (h : IsName name) (hrest : continuesName rest = false) :
    lexemes ('#' :: spellIdent name.toList ++ rest) =
      ⟨.idHash name, '#' :: spellIdent name.toList⟩ :: lexemes rest := by
  have hident : startsIdent (spellIdent name.toList ++ rest) = true := by
    by_cases hdash : name = "--"
    · rw [hdash]
      rfl
    · obtain ⟨c, x, hx, hstart⟩ := exists_startsName rest h.ne_nil h.free fun heq =>
        absurd (String.toList_inj.1 heq) hdash
      rw [hx]
      exact hstart.ident
  refine lexemes_of_start_append ?_
  rw [start_hash, if_pos hident, h.takeName hrest, String.ofList_toList]

/-! ## Strings -/

/-- A character of a string in double quotes, as it is or escaped. -/
inductive SpellsQuoted (c : Char) : List Char → Prop
  | plain (hquote : c ≠ '"') (hline : Text.isLineEnd c = false) (hslash : c ≠ '\\') :
      SpellsQuoted c [c]
  | escaped {t : List Char} (h : IsEscape c t) : SpellsQuoted c ('\\' :: t)

theorem spellsQuoted_spellStringChar (hnull : c ≠ '\x00') :
    SpellsQuoted c (spellStringChar c) := by
  rw [spellStringChar]
  split
  · next hspecial =>
    rw [Bool.or_eq_true, beq_iff_eq, beq_iff_eq] at hspecial
    refine .escaped (isEscape_self ?_ hnull ?_) <;> rcases hspecial with rfl | rfl <;> decide
  · next hspecial =>
    rw [Bool.or_eq_true, beq_iff_eq, beq_iff_eq, not_or] at hspecial
    rw [if_neg (by simpa using hnull)]
    split
    · next hcontrol =>
      obtain ⟨t, ht, hescape⟩ := exists_numberEscape (lt_of_isControl hcontrol) hnull
      exact ht ▸ .escaped hescape
    · next hcontrol =>
      exact .plain hspecial.1 (not_isLineEnd_of_not_isControl (Bool.eq_false_iff.2 hcontrol))
        hspecial.2

theorem SpellsQuoted.takeQuoted (h : SpellsQuoted c s) (hnull : c ≠ '\x00') (rest : List Char) :
    takeQuoted '"' (s ++ rest) =
      ((Css.takeQuoted '"' rest).1, c :: (Css.takeQuoted '"' rest).2.1,
        (Css.takeQuoted '"' rest).2.2) := by
  cases h with
  | plain hquote hline hslash =>
    rw [List.singleton_append, Css.takeQuoted, if_neg (by simpa using hquote), hline,
      if_neg (by decide), if_neg (by simpa using hslash), if_neg (by simpa using hnull)]
  | escaped h =>
    rw [List.cons_append, Css.takeQuoted, if_neg (by decide), if_neg (by decide),
      if_pos (by decide), if_neg (by simp [h.ne_nil]), h.line, if_neg (by decide), h.drop, h.taken]

theorem takeQuoted_spelled (hs : '\x00' ∉ s) (rest : List Char) :
    takeQuoted '"' (s.flatMap spellStringChar ++ '"' :: rest) = (true, s, rest) := by
  induction s with
  | nil => rw [List.flatMap_nil, List.nil_append, takeQuoted, if_pos (by decide)]
  | cons c cs ih =>
    rw [List.mem_cons, not_or] at hs
    rw [List.flatMap_cons, List.append_assoc,
      (spellsQuoted_spellStringChar (Ne.symm hs.1)).takeQuoted (Ne.symm hs.1), ih hs.2]

theorem lexemes_quoted {text : String} (h : '\x00' ∉ text.toList) (rest : List Char) :
    lexemes (spellString text.toList ++ rest) =
      ⟨.quoted text, spellString text.toList⟩ :: lexemes rest := by
  have hstart : start '"' (text.toList.flatMap spellStringChar ++ '"' :: rest) =
      (.quoted text, rest) := by
    rw [start_quote rfl, takeQuoted_spelled h, String.ofList_toList]
    rfl
  have hlexemes : lexemes ('"' :: (text.toList.flatMap spellStringChar ++ ['"']) ++ rest) =
      ⟨.quoted text, '"' :: (text.toList.flatMap spellStringChar ++ ['"'])⟩ :: lexemes rest :=
    lexemes_of_start_append (by rw [List.append_assoc]; exact hstart)
  simpa [spellString] using hlexemes

end

end Css
end SvgCompact

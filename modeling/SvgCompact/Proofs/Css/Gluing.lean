import SvgCompact.Css.Component
import SvgCompact.Proofs.Css.Cutting

/-!
Texts that are put together have the components of their parts.

A whole text leaves nothing open at its end, neither a token nor a block.  What is
written behind a mark then stands beside it, and between curly brackets it is the body
of a block, unless a bracket in it closes the block early.
-/

namespace SvgCompact

/-! ## What grouping makes of lexemes

A property that holds of plain tokens, and of blocks when it holds of what is inside them,
holds of everything that grouping makes (`forall_components`).  So every block, however
deep, is opened by a lexeme that opens its kind of bracket, and no component is without
text. -/

namespace Css
namespace Component

inductive IsOpened : Component → Prop
  | token (lexeme : Lexeme) : IsOpened (.token lexeme)
  | block {opener : Lexeme} {bracket : Bracket} {body : List Component} {closer : List Char}
      (h : opener.token.opens? = some bracket) (hbody : ∀ c ∈ body, IsOpened c) :
      IsOpened (.block opener bracket body closer)

theorem IsOpened.forall_body {opener : Lexeme} {bracket : Bracket} {body : List Component}
    {closer : List Char} (h : IsOpened (.block opener bracket body closer)) :
    ∀ c ∈ body, c.IsOpened := by
  cases h with
  | block _ hbody => exact hbody

theorem IsOpened.isComment_block {opener : Lexeme} {bracket : Bracket} {body : List Component}
    {closer : List Char} (h : IsOpened (.block opener bracket body closer)) :
    (Component.block opener bracket body closer).isComment = false := by
  cases h with
  | block h _ =>
    rw [isComment, head]
    cases ht : opener.token <;> simp [ht, Token.opens?, Token.isComment] at h ⊢

theorem IsOpened.isBlank_block {opener : Lexeme} {bracket : Bracket} {body : List Component}
    {closer : List Char} (h : IsOpened (.block opener bracket body closer)) :
    (Component.block opener bracket body closer).isBlank = false := by
  cases h with
  | block h _ =>
    rw [isBlank, head]
    cases ht : opener.token <;> simp [ht, Token.opens?, Token.isBlank] at h ⊢

namespace Nesting

/-- Whether all components so far have a property, and all open blocks begin with lexemes of
a list that open them. -/
structure Holds (P : Component → Prop) (ls : List Lexeme) (p : Nesting) : Prop where
  body : ∀ c ∈ p.body, P c
  opener : ∀ f ∈ p.frames, f.opener ∈ ls ∧ f.opener.token.opens? = some f.bracket
  before : ∀ f ∈ p.frames, ∀ c ∈ f.before, P c

section

variable {P : Component → Prop} {ls : List Lexeme} {p : Nesting}
  (htoken : ∀ l ∈ ls, P (.token l))
  (hblock : ∀ opener ∈ ls, ∀ bracket body closer, opener.token.opens? = some bracket →
    (∀ c ∈ body, P c) → P (.block opener bracket body closer))

include hblock in
/-- A block that is closed, by whatever, with what stands before it. -/
theorem Holds.block_cons {f : Frame} {frames : List Frame} {body : List Component}
    (h : Holds P ls ⟨f :: frames, body⟩) (closer : List Char) :
    Holds P ls ⟨frames, .block f.opener f.bracket body.reverse closer :: f.before⟩ where
  body c hc := by
    obtain ⟨hmem, hopens⟩ := h.opener f (by simp)
    rcases List.mem_cons.1 hc with rfl | hc
    · exact hblock _ hmem _ _ _ hopens fun c hc => h.body c (List.mem_reverse.1 hc)
    · exact h.before f (by simp) c hc
  opener g hg := h.opener g (List.mem_cons_of_mem f hg)
  before g hg := h.before g (List.mem_cons_of_mem f hg)

include hblock in
theorem Holds.close (h : p.Holds P ls) (closer : List Char) : (p.close closer).Holds P ls := by
  obtain ⟨frames, body⟩ := p
  cases frames with
  | nil => exact h
  | cons f frames => exact h.block_cons hblock closer

include htoken in
theorem Holds.token (h : p.Holds P ls) {l : Lexeme} (hl : l ∈ ls) :
    Holds P ls { p with body := .token l :: p.body } where
  body c hc := by
    rcases List.mem_cons.1 hc with rfl | hc
    · exact htoken l hl
    · exact h.body c hc
  opener := h.opener
  before := h.before

include htoken hblock in
theorem Holds.add (h : p.Holds P ls) {l : Lexeme} (hl : l ∈ ls) : (p.add l).Holds P ls := by
  rw [Nesting.add]
  split
  · next bracket hopens =>
    refine ⟨by simp, ?_, ?_⟩
    · intro f hf
      rcases List.mem_cons.1 hf with rfl | hf
      · exact ⟨hl, hopens⟩
      · exact h.opener f hf
    · intro f hf
      rcases List.mem_cons.1 hf with rfl | hf
      · exact h.body
      · exact h.before f hf
  · split
    · split
      · exact h.close hblock _
      · exact h.token htoken hl
    · exact h.token htoken hl

include hblock in
theorem Holds.finish (h : p.Holds P ls) : ∀ c ∈ p.finish, P c := by
  obtain ⟨frames, body⟩ := p
  intro c hc
  rw [Nesting.finish, List.mem_reverse] at hc
  induction frames generalizing body with
  | nil => exact h.body c hc
  | cons f frames ih => exact ih _ (h.block_cons hblock []) hc

end

end Nesting
end Component

open Component (IsOpened Nesting)

theorem forall_components {P : Component → Prop} {s : List Char}
    (htoken : ∀ l ∈ lexemes s, P (.token l))
    (hblock : ∀ opener ∈ lexemes s, ∀ bracket body closer, opener.token.opens? = some bracket →
      (∀ c ∈ body, P c) → P (.block opener bracket body closer)) :
    ∀ c ∈ components s, P c := by
  have hempty : Nesting.empty.Holds P (lexemes s) := ⟨nofun, nofun, nofun⟩
  exact (List.foldlRecOn (lexemes s) Nesting.add hempty
    fun _ hp _ hl => hp.add htoken hblock hl).finish hblock

theorem isOpened_components (s : List Char) : ∀ c ∈ components s, c.IsOpened :=
  forall_components (fun l _ => .token l) fun _ _ _ _ _ hopens hbody => .block hopens hbody

theorem text_ne_nil_of_mem_lexemes {s : List Char} {l : Lexeme} (h : l ∈ lexemes s) :
    l.text ≠ [] := by
  induction s using lexemes.induct with
  | case1 =>
    rw [lexemes] at h
    cases h
  | case2 c cs ih =>
    rw [lexemes] at h
    rcases List.mem_cons.1 h with rfl | h
    · exact List.cons_ne_nil _ _
    · exact ih h

theorem text_ne_nil_of_mem_components (s : List Char) : ∀ c ∈ components s, c.text ≠ [] := by
  refine forall_components (fun l hl => ?_) fun opener hopener _ _ _ _ _ => ?_
  · rw [Component.text]
    exact text_ne_nil_of_mem_lexemes hl
  · rw [Component.text]
    simp [text_ne_nil_of_mem_lexemes hopener]

/-! ## Texts of components -/

open Component

/-- The text that lexemes were read from. -/
def source (ls : List Lexeme) : List Char :=
  ls.flatMap Lexeme.text

@[simp] theorem source_nil : source [] = [] :=
  rfl

@[simp] theorem source_cons (l : Lexeme) (ls : List Lexeme) :
    source (l :: ls) = l.text ++ source ls :=
  List.flatMap_cons

@[simp] theorem source_append (a b : List Lexeme) : source (a ++ b) = source a ++ source b :=
  List.flatMap_append

theorem source_lexemes (s : List Char) : source (lexemes s) = s :=
  flatMap_lexemes s

namespace Component

theorem textOf_append (a b : List Component) : textOf (a ++ b) = textOf a ++ textOf b := by
  induction a with
  | nil => rfl
  | cons c cs ih => rw [List.cons_append, textOf, textOf, ih, List.append_assoc]

/-- The lexeme that closes a block, if there is one. -/
def closing (bracket : Bracket) (closer : List Char) : List Lexeme :=
  if closer.isEmpty then [] else [⟨.closing bracket, closer⟩]

mutual

/-- The lexemes that a component was grouped from. -/
def flat : Component → List Lexeme
  | token lexeme => [lexeme]
  | block opener bracket body closer => opener :: flatOf body ++ closing bracket closer

def flatOf : List Component → List Lexeme
  | [] => []
  | c :: cs => flat c ++ flatOf cs

end

theorem flatOf_append (a b : List Component) : flatOf (a ++ b) = flatOf a ++ flatOf b := by
  induction a with
  | nil => rfl
  | cons c cs ih => rw [List.cons_append, flatOf, flatOf, ih, List.append_assoc]

theorem source_closing (bracket : Bracket) (closer : List Char) :
    source (closing bracket closer) = closer := by
  cases closer <;> simp [closing]

mutual

theorem source_flat (c : Component) : source c.flat = c.text := by
  cases c with
  | token lexeme => simp [flat, text]
  | block opener bracket body closer =>
    rw [flat, text, source_append, source_cons, source_flatOf body, source_closing]

theorem source_flatOf (cs : List Component) : source (flatOf cs) = textOf cs := by
  cases cs with
  | nil => rfl
  | cons c cs => rw [flatOf, textOf, source_append, source_flat c, source_flatOf cs]

end

namespace Nesting

/-- The lexemes of open blocks whose innermost one goes on with `inner`. -/
def flatUnder (frames : List Frame) (inner : List Lexeme) : List Lexeme :=
  frames.foldl (fun inner f => flatOf f.before.reverse ++ f.opener :: inner) inner

theorem flatUnder_append (frames : List Frame) (a b : List Lexeme) :
    flatUnder frames (a ++ b) = flatUnder frames a ++ b := by
  induction frames generalizing a with
  | nil => rfl
  | cons f frames ih =>
    rw [flatUnder, List.foldl_cons, ← List.cons_append, ← List.append_assoc]
    exact ih _

def flat (p : Nesting) : List Lexeme :=
  flatUnder p.frames (flatOf p.body.reverse)

theorem flat_token (frames : List Frame) (c : Component) (body : List Component) :
    flat ⟨frames, c :: body⟩ = flat ⟨frames, body⟩ ++ c.flat := by
  rw [flat, flat, List.reverse_cons, flatOf_append, flatUnder_append]
  simp [flatOf]

theorem flat_close (f : Frame) (frames : List Frame) (body : List Component)
    (closer : List Char) :
    flat (close ⟨f :: frames, body⟩ closer) =
      flat ⟨f :: frames, body⟩ ++ closing f.bracket closer := by
  rw [close, flat_token, Component.flat, flat, flat, flatUnder, flatUnder, List.foldl_cons]
  change flatUnder frames _ ++ _ = flatUnder frames _ ++ _
  simp only [flatUnder_append, List.append_assoc]

theorem flat_add (p : Nesting) {l : Lexeme} (hl : l.text ≠ []) :
    (p.add l).flat = p.flat ++ [l] := by
  obtain ⟨frames, body⟩ := p
  rw [add]
  split
  · rw [flat, flatUnder, List.foldl_cons]
    change flatUnder frames _ = _
    rw [List.reverse_nil, flatOf, flatUnder_append]
    rfl
  · split
    · next bracket f rest htoken hframes =>
      split
      · next hbracket =>
        simp only at hframes
        subst hframes
        rw [flat_close, closing, if_neg (by simpa using hl), ← hbracket, ← htoken]
      · exact flat_token frames (.token l) body
    · exact flat_token frames (.token l) body

theorem flat_foldl (ls : List Lexeme) (hls : ∀ l ∈ ls, l.text ≠ []) (p : Nesting) :
    (ls.foldl add p).flat = p.flat ++ ls := by
  induction ls generalizing p with
  | nil => rw [List.foldl_nil, List.append_nil]
  | cons l ls ih =>
    obtain ⟨hl, hls⟩ := List.forall_mem_cons.1 hls
    rw [List.foldl_cons, ih hls, flat_add p hl, List.append_assoc]
    rfl

theorem flatOf_finish (p : Nesting) : flatOf p.finish = p.flat := by
  obtain ⟨frames, body⟩ := p
  induction frames generalizing body with
  | nil => rfl
  | cons f frames ih =>
    have hclose := flat_close f frames body []
    rw [closing, List.isEmpty_nil, if_pos rfl, List.append_nil] at hclose
    exact (ih _).trans hclose

end Nesting
end Component

/-- The components hold the lexemes of the text, one by one. -/
theorem flatOf_components (s : List Char) : flatOf (components s) = lexemes s := by
  rw [components, group, Nesting.flatOf_finish,
    Nesting.flat_foldl _ fun l hl => text_ne_nil_of_mem_lexemes hl]
  rfl

/-- The texts of the components are the text. -/
theorem textOf_components (s : List Char) : textOf (components s) = s := by
  rw [← source_flatOf, flatOf_components, source_lexemes]

/-! ## Reading inside what is open -/

namespace Component
namespace Nesting

theorem add_opening {p : Nesting} {l : Lexeme} {bracket : Bracket}
    (h : l.token.opens? = some bracket) :
    p.add l = ⟨⟨l, bracket, p.body⟩ :: p.frames, []⟩ := by
  rw [add, h]

theorem add_closing {f : Frame} {frames : List Frame} {body : List Component} {l : Lexeme}
    (h : l.token = .closing f.bracket) :
    add ⟨f :: frames, body⟩ l = close ⟨f :: frames, body⟩ l.text := by
  simp [add, h, Token.opens?]

theorem add_token {p : Nesting} {l : Lexeme} (hopens : l.token.opens? = none)
    (h : ∀ f ∈ p.frames.head?, l.token ≠ .closing f.bracket) :
    p.add l = { p with body := .token l :: p.body } := by
  rw [add, hopens]
  simp only
  split
  · next bracket f frames hclosing hframes =>
    refine if_neg ?_
    rintro rfl
    exact h f (by rw [hframes]; rfl) hclosing
  · rfl

/-- What was read with `q` around it: frames, each over what stands before it. -/
def onFrames (q : Nesting) : List Frame → List Component → Nesting
  | [], body => ⟨q.frames, body ++ q.body⟩
  | f :: frames, body =>
    ⟨{ f with before := (onFrames q frames f.before).body } :: (onFrames q frames f.before).frames,
      body⟩

def on (p q : Nesting) : Nesting :=
  onFrames q p.frames p.body

theorem empty_on (q : Nesting) : empty.on q = q :=
  rfl

theorem onFrames_cons (q : Nesting) (frames : List Frame) (c : Component)
    (body : List Component) :
    onFrames q frames (c :: body) =
      { onFrames q frames body with body := c :: (onFrames q frames body).body } := by
  cases frames <;> rfl

theorem close_on (f : Frame) (frames : List Frame) (body : List Component)
    (closer : List Char) (q : Nesting) :
    (close ⟨f :: frames, body⟩ closer).on q = close (on ⟨f :: frames, body⟩ q) closer := by
  rw [close, on, onFrames_cons]
  rfl

/-- Reading goes on the same inside `q`, except where a lexeme closes a block of `q`. -/
theorem add_on (p q : Nesting) (l : Lexeme)
    (h : p.frames = [] → ∀ f ∈ q.frames.head?, l.token ≠ .closing f.bracket) :
    (p.on q).add l = (p.add l).on q := by
  obtain ⟨frames, body⟩ := p
  cases hopens : l.token.opens? with
  | some bracket =>
    rw [add_opening hopens, add_opening hopens]
    rfl
  | none =>
    cases frames with
    | nil =>
      have hon : (on ⟨[], body⟩ q).add l = _ := add_token hopens (h rfl)
      rw [hon, add_token hopens (by simp)]
      rfl
    | cons f frames =>
      by_cases hclosing : l.token = .closing f.bracket
      · rw [add_closing hclosing, close_on]
        exact add_closing hclosing
      · rw [add_token hopens (by simpa [on, onFrames] using hclosing),
          add_token hopens (by simpa using hclosing)]
        rfl

theorem foldl_on {q : Nesting} (hq : q.frames = []) (ls : List Lexeme) (p : Nesting) :
    ls.foldl add (p.on q) = (ls.foldl add p).on q := by
  induction ls generalizing p with
  | nil => rfl
  | cons l ls ih => rw [List.foldl_cons, List.foldl_cons, add_on p q l (by simp [hq]), ih]

theorem finish_on {q : Nesting} (hq : q.frames = []) (p : Nesting) :
    (p.on q).finish = q.body.reverse ++ p.finish := by
  obtain ⟨frames, body⟩ := p
  induction frames generalizing body with
  | nil => simp [on, onFrames, finish, hq]
  | cons f frames ih =>
    have hclose := close_on f frames body [] q
    exact (congrArg finish hclose).symm.trans (ih _)

/-- What was read goes on as if nothing were in front of it, when nothing is open. -/
theorem finish_foldl {p : Nesting} (hp : p.frames = []) (ls : List Lexeme) :
    (ls.foldl add p).finish = p.body.reverse ++ group ls := by
  rw [← empty_on p, foldl_on hp, finish_on hp, group, empty_on]

/-- A block takes what is read in it, when no bracket there closes it. -/
theorem foldl_on_block {q : Nesting} {f : Frame} (hq : q.frames.head? = some f)
    (ls : List Lexeme) (p : Nesting)
    (h : ∀ l, .token l ∈ (ls.foldl add p).finish → l.token ≠ .closing f.bracket) :
    ls.foldl add (p.on q) = (ls.foldl add p).on q := by
  induction ls generalizing p with
  | nil => rfl
  | cons l ls ih =>
    rw [List.foldl_cons, List.foldl_cons, add_on, ih _ h]
    intro hp g hg hclosing
    obtain rfl : f = g := Option.some.inj (hq.symm.trans hg)
    -- the bracket would stand for itself among what was read
    have hadd : p.add l = { p with body := .token l :: p.body } :=
      add_token (by rw [hclosing]; rfl) (by simp [hp])
    rw [List.foldl_cons, hadd, finish_foldl (p := ⟨p.frames, .token l :: p.body⟩) hp] at h
    exact h l (by simp) hclosing

end Nesting
end Component

/-! ## Whole texts -/

section

variable {P Q : List Char → Prop} {s t tail : List Char}

/-- A text with nothing open at its end: a bracket behind it is a token of its own and
closes no block of the text. -/
structure IsWhole (s : List Char) : Prop where
  apart : EndsApart s
  closed : ((lexemes s).foldl Nesting.add Nesting.empty).frames = []

/-- A whole text that ends with a token of one character, so that nothing behind it
belongs to that token. -/
structure IsClosed (s : List Char) : Prop where
  splits : ∀ rest, lexemes (s ++ rest) = lexemes s ++ lexemes rest
  closed : ((lexemes s).foldl Nesting.add Nesting.empty).frames = []

/-- A text with nothing open at its end that keeps its lexemes in front of some texts. -/
structure IsWholeBefore (P : List Char → Prop) (s : List Char) : Prop where
  splits : ∀ rest, P rest → lexemes (s ++ rest) = lexemes s ++ lexemes rest
  closed : ((lexemes s).foldl Nesting.add Nesting.empty).frames = []

theorem body_reverse_of_closed
    (h : ((lexemes s).foldl Nesting.add Nesting.empty).frames = []) :
    ((lexemes s).foldl Nesting.add Nesting.empty).body.reverse = components s := by
  rw [components, group, Nesting.finish, h, List.foldl_nil]

theorem components_of_splits
    (h : ((lexemes s).foldl Nesting.add Nesting.empty).frames = [])
    (hsplits : lexemes (s ++ t) = lexemes s ++ lexemes t) :
    components (s ++ t) = components s ++ components t := by
  rw [components, group, hsplits, List.foldl_append, Nesting.finish_foldl h,
    body_reverse_of_closed h]
  rfl

theorem closed_of_splits
    (hs : ((lexemes s).foldl Nesting.add Nesting.empty).frames = [])
    (ht : ((lexemes t).foldl Nesting.add Nesting.empty).frames = [])
    (hsplits : lexemes (s ++ t) = lexemes s ++ lexemes t) :
    ((lexemes (s ++ t)).foldl Nesting.add Nesting.empty).frames = [] := by
  rw [hsplits, List.foldl_append, ← Nesting.empty_on (List.foldl _ _ (lexemes s)),
    Nesting.foldl_on hs, Nesting.on, ht]
  exact hs

theorem IsWhole.components_append (h : IsWhole s) (htail : IsTail tail) :
    components (s ++ tail) = components s ++ components tail :=
  components_of_splits h.closed (lexemes_append h.apart htail)

theorem IsClosed.components_append (h : IsClosed s) (rest : List Char) :
    components (s ++ rest) = components s ++ components rest :=
  components_of_splits h.closed (h.splits rest)

theorem IsWholeBefore.components_append (h : IsWholeBefore P s) (ht : P t) :
    components (s ++ t) = components s ++ components t :=
  components_of_splits h.closed (h.splits t ht)

theorem IsClosed.before (h : IsClosed s) : IsWholeBefore P s where
  splits rest _ := h.splits rest
  closed := h.closed

theorem IsWholeBefore.mono (h : IsWholeBefore P s) (hQ : ∀ rest, Q rest → P rest) :
    IsWholeBefore Q s where
  splits rest hrest := h.splits rest (hQ rest hrest)
  closed := h.closed

theorem IsWhole.before (h : IsWhole s) (hP : ∀ rest, P rest → IsTail rest) : IsWholeBefore P s where
  splits rest hrest := lexemes_append h.apart (hP rest hrest)
  closed := h.closed

theorem IsWholeBefore.append (hs : IsWholeBefore P s) (ht : IsWholeBefore Q t) (hP : P t)
    (hQ : ∀ rest, Q rest → P (t ++ rest)) : IsWholeBefore Q (s ++ t) where
  splits rest hrest := by
    rw [List.append_assoc, hs.splits _ (hQ rest hrest), ht.splits rest hrest, hs.splits t hP,
      List.append_assoc]
  closed := closed_of_splits hs.closed ht.closed (hs.splits t hP)

theorem components_nil : components [] = [] := by
  rw [components, lexemes_nil]
  rfl

/-! ### Single lexemes -/

theorem first_of_start {c : Char} {cs : List Char} {token : Token}
    (h : start c cs = (token, cs)) : first c cs = (⟨token, [c]⟩, cs) := by
  simp [first, h]

theorem lexemes_of_start {c : Char} {token : Token} (h : ∀ cs, start c cs = (token, cs))
    (cs : List Char) : lexemes (c :: cs) = ⟨token, [c]⟩ :: lexemes cs := by
  rw [lexemes_cons, first_of_start (h cs)]

theorem lexemes_bracket (cs : List Char) :
    lexemes ('\x7d' :: cs) = ⟨.closing .curly, ['\x7d']⟩ :: lexemes cs :=
  lexemes_of_start (fun _ => rfl) cs

theorem EndsApart.of_lexemes {l : List Lexeme}
    (h : lexemes (s ++ ['\x7d']) = l ++ lexemes ['\x7d']) : EndsApart s := by
  rw [EndsApart, h, lexemes_bracket, lexemes_nil, List.getLast?_concat]
  rfl

/-- A lexeme in front that neither opens a block nor closes one. -/
theorem components_of_first {c : Char} {cs rest : List Char} {l : Lexeme}
    (hfirst : first c cs = (l, rest)) (h : l.token.opens? = none) :
    components (c :: cs) = .token l :: components rest := by
  have hadd : Nesting.empty.add l = ⟨[], [.token l]⟩ := by
    rw [Nesting.add_token h (by simp [Nesting.empty])]
    rfl
  rw [components, group, lexemes_cons, hfirst, List.foldl_cons, hadd, Nesting.finish_foldl rfl]
  rfl

theorem closed_of_first {c : Char} {cs rest : List Char} {l : Lexeme}
    (hfirst : first c cs = (l, rest)) (h : l.token.opens? = none)
    (hrest : ((lexemes rest).foldl Nesting.add Nesting.empty).frames = []) :
    ((lexemes (c :: cs)).foldl Nesting.add Nesting.empty).frames = [] := by
  have hadd : Nesting.empty.add l = Nesting.empty.on ⟨[], [.token l]⟩ := by
    rw [Nesting.add_token h (by simp [Nesting.empty])]
    rfl
  rw [lexemes_cons, hfirst, List.foldl_cons, hadd, Nesting.foldl_on rfl, Nesting.on, hrest]
  rfl

theorem IsWhole.of_first {c : Char} {cs rest : List Char} {l : Lexeme}
    (hfirst : ∀ tail, IsTail tail → first c (cs ++ tail) = (l, rest ++ tail))
    (h : l.token.opens? = none) (hrest : IsWhole rest) : IsWhole (c :: cs) where
  apart := by
    refine EndsApart.of_lexemes (l := l :: lexemes rest) ?_
    rw [List.cons_append, lexemes_cons, hfirst _ isTail_bracket,
      lexemes_append hrest.apart isTail_bracket, List.cons_append]
  closed := by
    have hnil := hfirst [] isTail_nil
    rw [List.append_nil, List.append_nil] at hnil
    exact closed_of_first hnil h hrest.closed

theorem foldl_plain {ls : List Lexeme} (h : ∀ l ∈ ls, l.token.opens? = none)
    (body : List Component) :
    ls.foldl Nesting.add ⟨[], body⟩ = ⟨[], (ls.map Component.token).reverse ++ body⟩ := by
  induction ls generalizing body with
  | nil => rfl
  | cons l ls ih =>
    obtain ⟨hl, hls⟩ := List.forall_mem_cons.1 h
    have hadd : Nesting.add ⟨[], body⟩ l = ⟨[], .token l :: body⟩ :=
      Nesting.add_token hl (by simp)
    rw [List.foldl_cons, hadd, ih hls]
    simp

/-- Whether a token neither opens a block nor closes one. -/
def Token.isFlat : Token → Bool
  | function _ | opening _ | closing _ => false
  | _ => true

theorem Token.opens?_of_isFlat {token : Token} (h : token.isFlat = true) :
    token.opens? = none := by
  cases token <;> first | rfl | cases h

/-- Components that close nothing around them. -/
theorem ne_closing_of_isFlat {ls : List Lexeme} (h : ∀ l ∈ ls, l.token.isFlat = true)
    (bracket : Bracket) :
    ∀ l, .token l ∈ ls.map Component.token → l.token ≠ .closing bracket := by
  intro l hl hclosing
  obtain ⟨other, hother, heq⟩ := List.mem_map.1 hl
  have hflat := h other hother
  rw [Component.token.inj heq, hclosing] at hflat
  cases hflat

/-- A text that is cut into lexemes of which none opens or closes a block. -/
theorem isWholeBefore_of_lexemes {ls : List Lexeme} (hnil : P [])
    (hs : ∀ rest, P rest → lexemes (s ++ rest) = ls ++ lexemes rest)
    (hflat : ∀ l ∈ ls, l.token.isFlat = true) :
    IsWholeBefore P s ∧ components s = ls.map .token := by
  have hlexemes : lexemes s = ls := by
    have hs := hs [] hnil
    rwa [List.append_nil, lexemes_nil, List.append_nil] at hs
  have hfold : (lexemes s).foldl Nesting.add Nesting.empty =
      ⟨[], (ls.map Component.token).reverse ++ []⟩ := by
    rw [hlexemes]
    exact foldl_plain (fun l hl => Token.opens?_of_isFlat (hflat l hl)) []
  refine ⟨⟨fun rest hrest => by rw [hs rest hrest, hlexemes], by rw [hfold]⟩, ?_⟩
  rw [components, group, hfold]
  simp [Nesting.finish]

theorem isClosed_nil : IsClosed [] where
  splits rest := by rw [lexemes_nil, List.nil_append, List.nil_append]
  closed := by rw [lexemes_nil]; rfl

theorem IsClosed.isWhole (h : IsClosed s) : IsWhole s where
  apart := EndsApart.of_lexemes (h.splits _)
  closed := h.closed

/-- What begins with a mark is apart from what stands in front of it. -/
theorem IsWhole.append_isClosed {c : Char} (hc : isMark c = true) (hs : IsWhole s)
    (ht : IsClosed (c :: t)) : IsClosed (s ++ c :: t) where
  splits rest := by
    rw [List.append_assoc, List.cons_append, lexemes_append hs.apart (isTail_cons hc _),
      ← List.cons_append, ht.splits, lexemes_append hs.apart (isTail_cons hc _), List.append_assoc]
  closed := closed_of_splits hs.closed ht.closed (lexemes_append hs.apart (isTail_cons hc _))

theorem IsClosed.append (hs : IsClosed s) (ht : IsClosed t) : IsClosed (s ++ t) where
  splits rest := by
    rw [List.append_assoc, hs.splits, ht.splits, hs.splits, List.append_assoc]
  closed := closed_of_splits hs.closed ht.closed (hs.splits t)

theorem IsClosed.append_isWhole (hs : IsClosed s) (ht : IsWhole t) : IsWhole (s ++ t) where
  apart := by
    refine EndsApart.of_lexemes (l := lexemes (s ++ t)) ?_
    rw [List.append_assoc, hs.splits, lexemes_append ht.apart isTail_bracket, hs.splits,
      List.append_assoc]
  closed := closed_of_splits hs.closed ht.closed (hs.splits t)

theorem isClosed_single {c : Char} {token : Token} (hstart : ∀ cs, start c cs = (token, cs))
    (h : token.opens? = none) : IsClosed [c] where
  splits rest := by
    rw [lexemes_of_start hstart, lexemes_nil, List.singleton_append, lexemes_of_start hstart,
      List.singleton_append]
  closed := by
    refine closed_of_first (first_of_start (hstart [])) h ?_
    rw [lexemes_nil]
    rfl

theorem components_of_start {c : Char} {token : Token} (hstart : ∀ cs, start c cs = (token, cs))
    (h : token.opens? = none) (rest : List Char) :
    components (c :: rest) = .token ⟨token, [c]⟩ :: components rest :=
  components_of_first (first_of_start (hstart rest)) h

/-! ### Blocks -/

/-- The lexeme that opens a kind of block and the character that closes it, both of them
whatever follows. -/
structure Encloses (opener : Lexeme) (bracket : Bracket) (closer : Char) : Prop where
  opens : opener.token.opens? = some bracket
  front : ∀ rest, lexemes (opener.text ++ rest) = opener :: lexemes rest
  back : ∀ rest, start closer rest = (.closing bracket, rest)

theorem encloses_curly : Encloses ⟨.opening .curly, ['\x7b']⟩ .curly '\x7d' where
  opens := rfl
  front := lexemes_of_start fun _ => rfl
  back _ := rfl

namespace Encloses

variable {opener : Lexeme} {bracket : Bracket} {closer : Char}

theorem lexemes_block (h : Encloses opener bracket closer)
    (hs : IsWholeBefore (·.head? = some closer) s) (rest : List Char) :
    lexemes (opener.text ++ s ++ closer :: rest) =
      opener :: lexemes s ++ ⟨.closing bracket, [closer]⟩ :: lexemes rest := by
  rw [List.append_assoc, h.front, hs.splits _ rfl, lexemes_of_start h.back, List.cons_append]

theorem foldl_block (h : Encloses opener bracket closer)
    (hs : IsWholeBefore (·.head? = some closer) s)
    (hfree : ∀ l, .token l ∈ components s → l.token ≠ .closing bracket) :
    (lexemes (opener.text ++ s ++ [closer])).foldl Nesting.add Nesting.empty =
      ⟨[], [.block opener bracket (components s) [closer]]⟩ := by
  have hopen : Nesting.empty.add opener = Nesting.empty.on ⟨[⟨opener, bracket, []⟩], []⟩ :=
    Nesting.add_opening h.opens
  have hinside : (lexemes s).foldl Nesting.add (Nesting.empty.on ⟨[⟨opener, bracket, []⟩], []⟩) =
      ((lexemes s).foldl Nesting.add Nesting.empty).on ⟨[⟨opener, bracket, []⟩], []⟩ :=
    Nesting.foldl_on_block (f := ⟨opener, bracket, []⟩) rfl _ _ hfree
  rw [h.lexemes_block hs, lexemes_nil, List.cons_append, List.foldl_cons, hopen,
    List.foldl_append, hinside, ← body_reverse_of_closed hs.closed, Nesting.on, hs.closed,
    List.foldl_cons, List.foldl_nil]
  simp only [Nesting.onFrames, List.append_nil]
  exact Nesting.add_closing rfl

theorem isClosed_block (h : Encloses opener bracket closer)
    (hs : IsWholeBefore (·.head? = some closer) s)
    (hfree : ∀ l, .token l ∈ components s → l.token ≠ .closing bracket) :
    IsClosed (opener.text ++ s ++ [closer]) where
  splits rest := by
    rw [List.append_assoc _ [closer], List.singleton_append, h.lexemes_block hs,
      h.lexemes_block hs, lexemes_nil, List.append_assoc, List.singleton_append]
  closed := by rw [h.foldl_block hs hfree]

theorem components_block (h : Encloses opener bracket closer)
    (hs : IsWholeBefore (·.head? = some closer) s)
    (hfree : ∀ l, .token l ∈ components s → l.token ≠ .closing bracket) (rest : List Char) :
    components (opener.text ++ s ++ closer :: rest) =
      .block opener bracket (components s) [closer] :: components rest := by
  have hblock : components (opener.text ++ s ++ [closer]) =
      [.block opener bracket (components s) [closer]] := by
    rw [components, group, h.foldl_block hs hfree]
    rfl
  have happend := (h.isClosed_block hs hfree).components_append rest
  rw [hblock, List.append_assoc _ [closer], List.singleton_append] at happend
  exact happend

end Encloses

theorem IsWhole.beforeMark {c : Char} (h : IsWhole s) (hc : isMark c = true) :
    IsWholeBefore (·.head? = some c) s :=
  h.before fun _ hrest _ hd => Option.some.inj (hrest.symm.trans hd) ▸ hc

end

end Css
end SvgCompact

import Officium.Strips

/-! The tokens whose operand is read without an expression around it, and how many of them come one
after another. No other token makes the reading of operands nest. -/
namespace Officium.Parser
open Bounded
open Lexer (Tok rhymeLabel)

/- A sung line's label and text and the semicolon behind them. -/
def sungHead : List Tok → Bool
  | .ident l :: .str _ :: .semi :: _ => (rhymeLabel l).isSome
  | _ => false

def isName : Tok → Bool
  | .ident _ | .str _ => true
  | _ => false

def resolves : Tok → Bool
  | .ident s => s == "resolve"
  | _ => false

/- How many of the tokens that stand before an operand come one after another from the first token on,
`resolve` with a name behind it. Newlines and the heads of sung lines in between are looked past. -/
def chainFrom : Nat → Bool → List Tok → Nat
  | _, _, [] => 0
  | k+1, name, _ :: ts => chainFrom k name ts
  | 0, name, t :: ts =>
    if sungHead (t :: ts) then chainFrom 2 name ts
    else if t.isNewline then chainFrom 0 name ts
    else if name then (if isName t then chainFrom 0 false ts else 0)
    else if resolves t then chainFrom 0 true ts + 1
    else if unary t then chainFrom 0 false ts + 1
    else 0

/- The longest such chain from any token on. -/
def longest : List Tok → Nat
  | [] => 0
  | t :: ts => max (chainFrom 0 false (t :: ts)) (longest ts)

example : longest [.minus,.newline,.ident "resolve",.str "vox",.ident "leva",.ident "arg",.minus,.lparen,.minus] = 3 := by decide

section Chains
variable {ts us heads : List Tok} {t : Tok} {k c d : Nat} {b name : Bool} {rs : List (Char × String)}

theorem chainNewline : chainFrom 0 name (.newline :: ts) = chainFrom 0 name ts := rfl

theorem chainHead {l s : String} (label : (rhymeLabel l).isSome = true) :
    chainFrom 0 name (.ident l :: .str s :: .semi :: ts) = chainFrom 0 name ts := if_pos label

/- A label is one letter. -/
theorem headWord {s : String} (long : 1 < s.toList.length) : sungHead (.ident s :: ts) = false := by
  have none_ : rhymeLabel s = none := by
    unfold rhymeLabel
    split
    · rename_i same
      rw [same] at long
      exact absurd long (Nat.lt_irrefl 1)
    · rfl
  unfold sungHead
  split
  · rename_i same
    cases same
    rw [none_]
    rfl
  · rfl

theorem chainUnary (h : unary t = true) : chainFrom 0 false (t :: ts) = chainFrom 0 false ts + 1 := by
  cases t
  case minus => rfl
  case ident s =>
    simp only [unary,Bool.or_eq_true,beq_iff_eq] at h
    rcases h with (rfl | rfl) | rfl
    all_goals exact if_neg (by rw [headWord (by decide)]; decide)
  all_goals cases h

theorem chainResolve : chainFrom 0 false (.ident "resolve" :: ts) = chainFrom 0 true ts + 1 :=
  if_neg (by rw [headWord (by decide)]; decide)

/- Past a name stands what its operand makes of it. -/
theorem chainNamed (name_ : isName t = true) : chainFrom 0 false ts ≤ chainFrom 0 true (t :: ts) := by
  rw [chainFrom]
  split
  · rename_i head
    unfold sungHead at head
    split at head
    · rename_i same
      cases same
      exact Nat.zero_le _
    · cases head
  · cases t <;> first | exact Nat.le_refl _ | cases name_

theorem chainLongest : chainFrom 0 false ts ≤ longest ts := by
  cases ts with
  | nil => exact Nat.le_refl 0
  | cons t ts => exact Nat.le_max_left _ _

theorem longestSuffix (h : us <:+ ts) : longest us ≤ longest ts := by
  induction ts with
  | nil =>
    cases List.suffix_nil.mp h
    exact Nat.le_refl _
  | cons t ts ih =>
    rcases List.suffix_cons_iff.mp h with rfl | h
    · exact Nat.le_refl _
    · exact Nat.le_trans (ih h) (Nat.le_max_right _ _)

/- Behind a first token that stays, the next two are a text and a semicolon or they are not. -/
theorem stripsHead (h : Strips d false ts us rs) : sungHead (t :: us) = sungHead (t :: ts) := by
  cases t
  case ident l =>
    cases h with
    | over_ => rfl
    | close => rfl
    | rbrace => rfl
    | lbrace => rfl
    | newline => rfl
    | @other _ _ u _ _ _ flat_ _ more =>
      cases u
      case str =>
        cases more with
        | @other _ _ v => cases v <;> rfl
        | _ => rfl
      all_goals rfl
  all_goals rfl

theorem keptChain (head : sungHead (t :: us) = sungHead (t :: ts)) (next : ∀ name, chainFrom 0 name us = chainFrom 0 name ts)
    (past : sungHead (t :: ts) = true → ∀ name, chainFrom 2 name us = chainFrom 2 name ts) (name : Bool) :
    chainFrom 0 name (t :: us) = chainFrom 0 name (t :: ts) := by
  rw [chainFrom,chainFrom,head]
  simp only [next]
  split
  · rename_i looked
    exact past looked name
  · rfl

/- What may be looked past unread: tokens of one line. -/
def Passed (k : Nat) (b : Bool) (ts : List Tok) : Prop := k = 0 ∨ b = false ∧ k ≤ ts.length ∧ ∀ t ∈ ts.take k, flat t = true

theorem passedHead (h : sungHead (t :: ts) = true) : Passed 2 false ts := by
  unfold sungHead at h
  split at h
  · rename_i same
    cases same
    exact .inr ⟨rfl,by simp,fun t mem => by simp at mem; rcases mem with rfl | rfl <;> rfl⟩
  · cases h

/- The chains are the same in what is left of a verse. -/
theorem stripsChain (h : Strips d b ts us rs) : ∀ k, Passed k b ts → ∀ name, chainFrom k name us = chainFrom k name ts := by
  have line {k : Nat} {b : Bool} {t : Tok} {ts : List Tok} (other : flat t = false) (passed : Passed k b (t :: ts)) : k = 0 := by
    rcases passed with zero | ⟨-,-,flat_⟩
    · exact zero
    · cases k with
      | zero => rfl
      | succ k => exact absurd (flat_ t List.mem_cons_self) (by rw [other]; decide)
  induction h with
  | over_ => exact fun _ _ _ => rfl
  | close => exact fun _ _ _ => rfl
  | rbrace deeper more ih =>
    intro k passed
    rw [line rfl passed]
    exact keptChain rfl (ih 0 (.inl rfl)) (fun never => by cases never)
  | lbrace more ih =>
    intro k passed
    rw [line rfl passed]
    exact keptChain rfl (ih 0 (.inl rfl)) (fun never => by cases never)
  | newline more ih =>
    intro k passed
    rw [line rfl passed]
    exact keptChain rfl (ih 0 (.inl rfl)) (fun never => by cases never)
  | head label more ih =>
    intro k passed name
    rcases passed with rfl | ⟨never,-⟩
    · rw [chainHead (label ▸ rfl)]
      exact ih 0 (.inl rfl) name
    · cases never
  | other flat_ untold more ih =>
    intro k passed
    cases k with
    | zero => exact keptChain (stripsHead more) (ih 0 (.inl rfl)) (fun head => ih 2 (passedHead head))
    | succ k =>
      refine fun name => ih k ?_ name
      rcases passed with never | ⟨-,long,flats⟩
      · cases never
      · exact .inr ⟨rfl,Nat.le_of_succ_le_succ long,fun t mem => flats t (List.mem_cons_of_mem _ mem)⟩

theorem stripsLongest (h : Strips d b ts us rs) : longest us ≤ longest ts := by
  have kept {t : Tok} {d : Nat} {b : Bool} {ts us : List Tok} {rs : List (Char × String)} (h : Strips d b (t :: ts) (t :: us) rs)
      (le : longest us ≤ longest ts) : longest (t :: us) ≤ longest (t :: ts) := by
    have same := stripsChain h 0 (.inl rfl) false
    rw [longest,longest,same]
    exact Nat.max_le.mpr ⟨Nat.le_max_left _ _,Nat.le_trans le (Nat.le_max_right _ _)⟩
  induction h with
  | over_ => exact Nat.le_refl _
  | close => exact Nat.le_refl _
  | head label more ih => exact Nat.le_trans ih (longestSuffix ⟨[_,_,_],rfl⟩)
  | @rbrace d b _ _ _ deeper more ih => exact kept (b := b) (.rbrace deeper more) ih
  | @lbrace d b _ _ _ more ih => exact kept (b := b) (.lbrace more) ih
  | @newline d b _ _ _ more ih => exact kept (b := b) (.newline more) ih
  | other flat_ untold more ih => exact kept (.other flat_ untold more) ih

theorem stripsBehind {newlines : List Tok} (all : ∀ t ∈ newlines, t.isNewline = true) (h : Strips d true ts us rs) :
    Strips d true (newlines ++ ts) (newlines ++ us) rs := by
  induction newlines with
  | nil => exact h
  | cons t newlines ih =>
    have more := ih fun u mem => all u (List.mem_cons_of_mem _ mem)
    have newline := all t List.mem_cons_self
    cases t <;> first | exact .newline more | cases newline

end Chains

section Near
variable {l m : Nesting} {d k n c K : Nat} {p p' q : Parser} {t : Tok}

/- The same parser twice, and no chain ahead of it longer than `K`. -/
def Near (K : Nat) : Relation := fun _ d k p p' => p = p' ∧ p.parenDepth = d ∧ p.exprDepth = k ∧ longest (ahead p) ≤ K

theorem nearOn {j d' k' : Nat} (near : Near K l d k p p') (here : ahead q = (ahead p).drop j) (depths : q.parenDepth = d' ∧ q.exprDepth = k') :
    Near K m d' k' q q :=
  ⟨rfl,depths.1,depths.2,by rw [here]; exact Nat.le_trans (longestSuffix (List.drop_suffix _ _)) near.2.2.2⟩

theorem nearFooting (K : Nat) : Footing True (Near K) where
  same := fun _ near => near.1
  depths := by
    rintro l d k p p' ⟨rfl,depth,nested,-⟩
    exact ⟨⟨depth,depth⟩,nested,nested⟩
  head := by
    rintro l d k p p' - ⟨rfl,-⟩ -
    rfl
  past := by
    rintro l d k p p' - ⟨rfl,near⟩
    refine ⟨rfl,near.1,near.2.1,?_⟩
    rw [aheadPastNewlines]
    exact Nat.le_trans (longestSuffix (List.dropWhile_suffix _)) near.2.2
  nested := by
    rintro l d k p p' m ⟨rfl,near⟩
    exact ⟨rfl,near.1,rfl,near.2.2⟩
  take := by
    rintro l d k p p' t - - ⟨⟨rfl,near⟩,-⟩
    exact nearOn (l := l) ⟨rfl,near⟩ aheadSkip ⟨near.1,near.2.1⟩
  opened := by
    rintro l d k p p' - ⟨⟨rfl,near⟩,-⟩
    exact nearOn (l := l) ⟨rfl,near⟩ (aheadSkip (p := p)) ⟨rfl,near.2.1⟩
  closed := by
    rintro l d k p p' - ⟨⟨rfl,near⟩,-⟩
    exact nearOn (l := l) ⟨rfl,near⟩ (aheadSkip (p := p)) ⟨rfl,near.2.1⟩
  brace := by
    rintro l m k p p' t - - - ⟨⟨rfl,near⟩,-⟩
    exact nearOn (l := l) ⟨rfl,near⟩ aheadSkip ⟨near.1,near.2.1⟩
  equals := by
    rintro l k p p' s - ⟨⟨rfl,near⟩,-⟩ -
    exact nearOn (l := l) ⟨rfl,near⟩ aheadSkip ⟨near.1,near.2.1⟩
  bound := by
    rintro l k p p' s rest - ⟨⟨rfl,near⟩,-⟩ found
    exact ⟨⟨rest,found⟩,nearOn (l := l) ⟨rfl,near⟩ (aheadSkip (p := p)) ⟨rfl,near.2.1⟩⟩

theorem nearStrip (n : Nat) : Tracks True (Near K l 0 k) (liturgicalStrip n) (liturgicalStrip n) (fun _ => Near K m 0 k) := by
  refine footed (fun p p' _ near => near.1) fun p p' rhymes q near returned => ?_
  obtain ⟨rfl,near⟩ := near
  refine ⟨q,returned,rfl,?_⟩
  rcases stripReturns.mp returned with ⟨-,-,rfl⟩ | ⟨opens,-,stripped⟩
  · exact near
  · obtain ⟨us,heads,strips,-,replaced⟩ := stripLoopStrips stripped
    refine ⟨replaced.others.2.1.trans near.1,replaced.others.2.2.trans near.2.1,?_⟩
    have here : tokensFrom p p.pastNewlines.pos = (ahead p).dropWhile Tok.isNewline :=
      (aheadTokens p.pastNewlines).symm.trans (aheadPastNewlines p)
    rw [here] at strips
    have whole := stripsBehind (List.all_eq_true.mp (List.all_takeWhile (l := ahead p))) strips
    rw [List.takeWhile_append_dropWhile,← replacedAhead opens replaced] at whole
    exact Nat.le_trans (stripsLongest whole) near.2.2

end Near

end Officium.Parser

import Officium.Given
import Officium.Reading
import Officium.Library.Following

/-! Two parsers that read alike. What relates their states is left open: whatever it is, if it is kept
by taking each kind of token, then it is kept by everything that reads, and the two read the same. -/
namespace Officium.Parser
open Bounded
open Lexer (Tok)

/- Where the parser stands in what it reads up to a brace: before the one that opens, or within so many. -/
inductive Nesting where
  | header
  | inside (d : Nat)

namespace Nesting

/- Where a token takes it, if it takes the token at all. -/
def after : Nesting → Tok → Option Nesting
  | _, .semi => none
  | inside 0, _ => none
  | header, .lbrace => some (inside 0)
  | header, .rbrace => none
  | inside (d+1), .lbrace => some (inside (d+2))
  | inside (d+1), .rbrace => some (inside d)
  | l, _ => some l

def Live (l : Nesting) : Prop := l ≠ .inside 0

theorem headerLive : header.Live := fun same => by cases same

theorem insideLive {d : Nat} : (inside (d+1)).Live := fun same => by cases same

end Nesting

/- What two parsers have in common at a nesting, within so many parentheses and so many expressions. -/
abbrev Relation := Nesting → Nat → Nat → Parser → Parser → Prop

/- Both stand at this token, and at no newline within parentheses. -/
structure At (R : Relation) (l : Nesting) (d k : Nat) (t : Option Tok) (p p' : Parser) : Prop where
  related : R l d k p p'
  here : (ahead p).head? = t
  here' : (ahead p').head? = t
  settled : 0 < d → t ≠ some .newline

/- Both have looked at the token behind an expression. -/
def Ended (R : Relation) (l : Nesting) (d k : Nat) (p p' : Parser) : Prop := ∃ t, At R l d k t p p'

/- Tokens that neither nest anything nor end a line, a header or a head. -/
def inner : Tok → Bool
  | .newline | .semi | .lbrace | .rbrace | .lparen | .rparen | .eq => false
  | _ => true

def inParens (p : Parser) (d : Nat) : Parser := { p with parenDepth := d }

def inExprs (p : Parser) (k : Nat) : Parser := { p with exprDepth := k }

/- The relation says how deep both are nested, gives them the same next token and is kept by taking it. -/
structure Footing (strict : Prop) (R : Relation) : Prop where
  same : ∀ {l d k p p'}, strict → R l d k p p' → p = p'
  depths : ∀ {l d k p p'}, R l d k p p' → (p.parenDepth = d ∧ p'.parenDepth = d) ∧ p.exprDepth = k ∧ p'.exprDepth = k
  head : ∀ {l d k p p'}, l.Live → R l d k p p' → (0 < d → Settled p ∧ Settled p') → (ahead p).head? = (ahead p').head?
  past : ∀ {l d k p p'}, l.Live → R l d k p p' → R l d k p.pastNewlines p'.pastNewlines
  nested : ∀ {l d k p p'} m, R l d k p p' → R l d m (inExprs p m) (inExprs p' m)
  take : ∀ {l d k p p' t}, l.Live → inner t = true → At R l d k (some t) p p' → R l d k (skip p 1) (skip p' 1)
  opened : ∀ {l d k p p'}, l.Live → At R l d k (some .lparen) p p' → R l (d+1) k (inParens (skip p 1) (d+1)) (inParens (skip p' 1) (d+1))
  closed : ∀ {l d k p p'}, l.Live → At R l (d+1) k (some .rparen) p p' → R l d k (inParens (skip p 1) d) (inParens (skip p' 1) d)
  brace : ∀ {l m k p p' t}, l.Live → t = .lbrace ∨ t = .rbrace → l.after t = some m → At R l 0 k (some t) p p' → R m 0 k (skip p 1) (skip p' 1)
  equals : ∀ {l k p p' s}, l.Live → At R l 0 k (some (.ident s)) p p' → At R l 0 k (some .eq) (skip p 1) (skip p' 1) →
    R l 0 k (skip p 2) (skip p' 2)
  bound : ∀ {l k p p' s rest}, l.Live → At R l 1 k (some (.ident s)) p p' → ahead p = .ident s :: .rparen :: .eq :: rest →
    (∃ rest', ahead p' = .ident s :: .rparen :: .eq :: rest') ∧ R l 0 k (inParens (skip p 3) 0) (inParens (skip p' 3) 0)

section Looking
variable {α : Type} {strict : Prop} {R : Relation} {l : Nesting} {d k : Nat} {p p' q : Parser} {t : Tok}

/- Where `peek` leaves the parser. -/
def settle (p : Parser) : Parser := if 0 < p.parenDepth then p.pastNewlines else p

theorem peekIs (p : Parser) : peek p = some (.ok ((ahead (settle p)).head?,settle p)) := by
  rw [peek,updateThen,stateThen,← aheadHere]
  rfl

theorem headCons {ts : List Tok} (h : ts.head? = some t) : ∃ rest, ts = t :: rest := by
  cases ts with
  | nil => cases h
  | cons u rest =>
    cases h
    exact ⟨rest,rfl⟩

theorem headSettled (h : (ahead p).head? ≠ some .newline) : Settled p := by
  intro u found
  have same := aheadHere (p := p)
  rw [found] at same
  cases newline : u.1.isNewline with
  | false => rfl
  | true =>
    obtain ⟨u,line⟩ := u
    cases u <;> cases newline
    exact absurd same.symm h

theorem settledHead (h : Settled p) : (ahead p).head? ≠ some .newline := by
  intro newline
  rw [← aheadHere] at newline
  cases found : p.toks[p.pos]? with
  | none => rw [found] at newline; cases newline
  | some u =>
    have plain := h u found
    rw [found] at newline
    obtain ⟨u,line⟩ := u
    cases newline
    cases plain

/- A computation that is the same on both sides only has to return alike. -/
theorem footed {x : ParseM α} {post : α → Parser → Parser → Prop} {pre : Parser → Parser → Prop} (same : ∀ p p', strict → pre p p' → p = p')
    (returns : ∀ p p' a q, pre p p' → Returns x p a q → ∃ q', Returns x p' a q' ∧ post a q q') : Tracks strict pre x x post where
  returns := fun p p' a q related => returns p p' a q related
  fails := by
    intro strictly p p' e related failed
    cases same p p' strictly related
    exact failed

variable (F : Footing strict R)
include F

theorem settleRelated (live : l.Live) (related : R l d k p p') : At R l d k (ahead (settle p)).head? (settle p) (settle p') := by
  have depths := (F.depths related).1
  by_cases inside : 0 < d
  · rw [settle,settle,if_pos (depths.1 ▸ inside),if_pos (depths.2 ▸ inside)]
    have past := F.past live related
    refine ⟨past,rfl,(F.head live past fun _ => ⟨settledPast p,settledPast p'⟩).symm,fun _ => settledHead (settledPast p)⟩
  · rw [settle,settle,if_neg (depths.1 ▸ inside),if_neg (depths.2 ▸ inside)]
    exact ⟨related,rfl,(F.head live related fun pos => absurd pos inside).symm,fun pos => absurd pos inside⟩

theorem tracksPeek (live : l.Live) : Tracks strict (R l d k) peek peek (At R l d k) := by
  refine footed (fun p p' strictly => F.same strictly) fun p p' t q related returned => ?_
  rw [Returns,peekIs] at returned
  cases returned
  have at_ := settleRelated F live related
  refine ⟨settle p',?_,at_⟩
  rw [Returns,peekIs,at_.here']

theorem atSame {t : Option Tok} (p p' : Parser) (strictly : strict) (at_ : At R l d k t p p') : p = p' := F.same strictly at_.related

theorem tracksTake (live : l.Live) (is_ : inner t = true) : Tracks strict (At R l d k (some t)) advance advance (fun _ => R l d k) :=
  tracksUpdate fun _ _ at_ => F.take live is_ at_

theorem tracksBrace {m : Nesting} (live : l.Live) (is_ : t = .lbrace ∨ t = .rbrace) (taken : l.after t = some m) :
    Tracks strict (At R l 0 k (some t)) advance advance (fun _ => R m 0 k) :=
  tracksUpdate fun _ _ at_ => F.brace live is_ taken at_

theorem tracksSkip (live : l.Live) : Tracks strict (R l 0 k) skipNewlines skipNewlines (fun _ => R l 0 k) :=
  tracksUpdate fun _ _ related => F.past live related

omit F in
theorem tracksRefuse {pre : Parser → Parser → Prop} {post : α → Parser → Parser → Prop} (same : ∀ p p', strict → pre p p' → p = p') (msg : String) :
    Tracks strict pre (refuse msg : ParseM α) (refuse msg) post := by
  refine footed same fun p p' a q related returned => ?_
  have never : Gives (fun _ : α => False) (refuse msg : ParseM α) := givesRefuse msg
  exact (never p a q returned).elim

end Looking

section Words
variable {α : Type} {strict : Prop} {R : Relation} {l m : Nesting} {d k : Nat} {p p' q : Parser} {t : Tok}

/- Both return alike and stand as before. -/
def Stable (strict : Prop) (R : Relation) (l : Nesting) (d k : Nat) (x : ParseM α) : Prop := Tracks strict (R l d k) x x (fun _ => R l d k)

/- A token that is known by comparing it. -/
def Known (want : Tok) : Prop := ∀ t, (some t == some want) = true ↔ t = want

/- A token that carries nothing. -/
def bare : Tok → Bool
  | .num _ | .str _ | .ident _ => false
  | _ => true

theorem knownBare {want : Tok} (h : bare want = true) : Known want := by
  intro t
  cases want
  case num | str | ident => cases h
  all_goals
    cases t <;> first | exact iff_of_true rfl rfl | exact iff_of_false (fun same => by cases same) fun same => by cases same

variable (F : Footing strict R)
include F

theorem tracksNext (live : l.Live) : Tracks strict (R l d k) next next (fun t p p' => t.any inner = true → R l d k p p') := by
  refine tracksBind (tracksPeek F live) fun t => ?_
  cases t with
  | none => exact tracksPure fun _ _ _ never => by cases never
  | some t =>
    by_cases is_ : inner t = true
    · exact tracksBind (tracksTake F live is_) fun _ => tracksPure fun _ _ related _ => related
    · have any : Tracks strict (At R l d k (some t)) advance advance (fun _ _ _ => True) := tracksUpdate fun _ _ _ => trivial
      exact tracksBind any fun _ => tracksPure fun _ _ _ is => absurd is is_

/- What comes after a token of an expression; any other is refused. -/
theorem tracksNextThen {β : Type} {f : Option Tok → ParseM β} {post : β → Parser → Parser → Prop} (live : l.Live)
    (rest : ∀ t, t.any inner = true → Tracks strict (R l d k) (f t) (f t) post)
    (refused : ∀ t, t.any inner = false → ∃ msg, f t = refuse msg) : Tracks strict (R l d k) (next >>= f) (next >>= f) post := by
  refine footed (fun p p' strictly => F.same strictly) fun p p' b q related returned => ?_
  obtain ⟨t,r,here,there⟩ := returnsBind.mp returned
  obtain ⟨r',here',met⟩ := (tracksNext F live).returns p p' t r related here
  cases is_ : t.any inner with
  | true =>
    obtain ⟨q',there',last⟩ := (rest t is_).returns r r' b q (met is_) there
    exact ⟨q',returnsBind.mpr ⟨t,r',here',there'⟩,last⟩
  | false =>
    obtain ⟨msg,same⟩ := refused t is_
    rw [same] at there
    have never : Gives (fun _ : β => False) (refuse msg : ParseM β) := givesRefuse msg
    exact (never r b q there).elim

theorem stableIdent (live : l.Live) (what : String) : Stable strict R l d k (ident what) := by
  refine tracksNextThen F live (fun t is_ => ?_) fun t is_ => ?_
  · split
    · exact tracksPure fun _ _ related => related
    · exact tracksRefuse (fun _ _ strictly => F.same strictly) what
  · split
    · cases is_
    · exact ⟨what,rfl⟩

theorem stableNameArg (live : l.Live) (what : String) : Stable strict R l d k (nameArg what) := by
  refine tracksNextThen F live (fun t is_ => ?_) fun t is_ => ?_
  · split
    · exact tracksPure fun _ _ related => related
    · exact tracksPure fun _ _ related => related
    · exact tracksRefuse (fun _ _ strictly => F.same strictly) what
  · split
    · cases is_
    · cases is_
    · exact ⟨what,rfl⟩

theorem stableLiteral (live : l.Live) : Stable strict R l d k literal := by
  have refused {α : Type} (msg : String) {post : α → Parser → Parser → Prop} : Tracks strict (R l d k) (refuse msg) (refuse msg) post :=
    tracksRefuse (fun _ _ strictly => F.same strictly) msg
  refine tracksNextThen F live (fun t is_ => ?_) fun t is_ => ?_
  · split
    · exact tracksPure fun _ _ related => related
    · refine tracksNextThen F live (fun t is_ => ?_) fun t is_ => ?_
      · split
        · exact tracksPure fun _ _ related => related
        · exact refused _
      · split
        · cases is_
        · exact ⟨_,rfl⟩
    · exact tracksPure fun _ _ related => related
    · split
      · exact tracksPure fun _ _ related => related
      · split
        · exact tracksPure fun _ _ related => related
        · exact refused _
    · exact refused _
  · split <;> first | cases is_ | exact ⟨_,rfl⟩

theorem stableKeyword (live : l.Live) (kw : String) : Stable strict R l d k (keyword kw) := by
  refine tracksBind (tracksPeek F live) fun t => ?_
  split
  · split
    · exact tracksBind (tracksTake F live rfl) fun _ => tracksPure fun _ _ related => related
    · exact tracksPure fun _ _ at_ => at_.related
  · exact tracksPure fun _ _ at_ => at_.related

/- Whether an argument follows; if none does they have looked at what does. -/
theorem tracksStartsAtom (live : l.Live) :
    Tracks strict (R l d k) startsAtom startsAtom (fun b p p' => R l d k p p' ∧ (b = false → Ended R l d k p p')) := by
  refine tracksBind (tracksPeek F live) fun t => ?_
  split <;> exact tracksPure fun _ _ at_ => ⟨at_.related,fun _ => ⟨_,at_⟩⟩

theorem tracksEat {want : Tok} (known : Known want) (live : l.Live)
    (taken : Tracks strict (At R l d k (some want)) advance advance (fun _ => R m d k)) :
    Tracks strict (R l d k) (eat want) (eat want) (fun b => R (if b then m else l) d k) := by
  refine tracksBind (tracksPeek F live) fun t => ?_
  split
  · rename_i same
    cases t with
    | none => cases same
    | some t =>
      cases (known t).mp same
      exact tracksBind taken fun _ => tracksPure fun _ _ related => related
  · exact tracksPure fun _ _ at_ => at_.related

theorem tracksExpect {want : Tok} (known : Known want) (live : l.Live)
    (taken : Tracks strict (At R l d k (some want)) advance advance (fun _ => R m d k)) (what : String) :
    Tracks strict (R l d k) (expect want what) (expect want what) (fun _ => R m d k) := by
  refine tracksBind (tracksEat F known live taken) fun b => ?_
  cases b with
  | true => exact tracksPure fun _ _ related => related
  | false => exact tracksRefuse (fun _ _ strictly => F.same strictly) what

theorem stableExpect {want : Tok} (known : Known want) (live : l.Live) (is_ : inner want = true) (what : String) :
    Stable strict R l d k (expect want what) := tracksExpect F known live (tracksTake F live is_) what

theorem tracksOpen {m : Nesting} (live : l.Live) (opens : l.after .lbrace = some m) (msg : String) :
    Tracks strict (R l 0 k) (expect .lbrace msg) (expect .lbrace msg) (fun _ => R m 0 k) :=
  tracksExpect F (knownBare rfl) live (tracksBrace F live (.inl rfl) opens) msg

theorem tracksCloseStmts {d : Nat} : Tracks strict (R (.inside (d+1)) 0 k) closeStmts closeStmts (fun _ => R (.inside d) 0 k) :=
  tracksBind (tracksSkip F Nesting.insideLive) fun _ =>
    tracksExpect F (knownBare rfl) Nesting.insideLive (tracksBrace F Nesting.insideLive (.inr rfl) rfl) _

/- What is put in parentheses is read one deeper. -/
theorem tracksParens {β : Type} {f g : Unit → ParseM β} {post : β → Parser → Parser → Prop} (live : l.Live)
    (rest : Tracks strict (R l (d+1) k) (f ()) (g ()) post) :
    Tracks strict (At R l d k (some .lparen)) (advance >>= fun _ => enterParen >>= f) (advance >>= fun _ => enterParen >>= g) post := by
  have unit : Tracks strict (At R l d k (some .lparen)) (advance >>= fun _ => enterParen) (advance >>= fun _ => enterParen) (fun _ => R l (d+1) k) := by
    refine footed (atSame F) fun p p' a q at_ returned => ?_
    obtain ⟨_,r,here,there⟩ := returnsBind.mp returned
    obtain rfl := returnsUpdate.mp here
    obtain rfl := returnsUpdate.mp there
    have related := F.opened live at_
    have depths := (F.depths at_.related).1
    refine ⟨_,returnsBind.mpr ⟨(),_,returnsUpdate.mpr rfl,returnsUpdate.mpr rfl⟩,?_⟩
    have shape {p : Parser} (same : p.parenDepth = d) : inParens (skip p 1) (d+1) = { skip p 1 with parenDepth := (skip p 1).parenDepth + 1 } := by
      rw [inParens,skipParen,same]
    rw [shape depths.1,shape depths.2] at related
    exact related
  rw [← bindAssoc,← bindAssoc]
  exact tracksBind unit fun _ => rest

omit F in
theorem leaveIs (depth : p.parenDepth = d + 1) : leaveParen p = some (.ok ((),inParens p d)) := by
  obtain rfl : d = p.parenDepth - 1 := by omega
  rw [leaveParen,stateThen,if_neg (by omega)]
  rfl

omit F in
theorem expectIs {want : Tok} {what : String} {u : Unit} : Returns (expect want what) p u q ↔
    ((ahead (settle p)).head? == some want) = true ∧ q = skip (settle p) 1 := by
  have peeked : Returns peek p (ahead (settle p)).head? (settle p) := peekIs p
  rw [Returns,expect,eat,bindAssoc,returnsThen peeked,iteThen]
  split
  · rename_i same
    refine Iff.trans ?_ (and_iff_right same).symm
    exact ⟨fun returned => (by cases returned; rfl),fun is_ => by rw [is_]; rfl⟩
  · rename_i other
    refine iff_of_false (fun returned => ?_) fun both => other both.1
    have never : Gives (fun _ : Unit => False) (refuse what : ParseM Unit) := givesRefuse what
    exact never _ _ _ returned

/- And closed behind what was read in them. -/
theorem tracksClosed {β : Type} {msg : String} {f g : Unit → ParseM β} {post : β → Parser → Parser → Prop} (live : l.Live)
    (rest : Tracks strict (R l d k) (f ()) (g ()) post) :
    Tracks strict (Ended R l (d+1) k) (leaveParen >>= fun _ => expect .rparen msg >>= f) (leaveParen >>= fun _ => expect .rparen msg >>= g) post := by
  have unit : Tracks strict (Ended R l (d+1) k) (leaveParen >>= fun _ => expect .rparen msg) (leaveParen >>= fun _ => expect .rparen msg)
      (fun _ => R l d k) := by
    refine footed (fun p p' strictly ⟨_,at_⟩ => F.same strictly at_.related) fun p p' a q ended returned => ?_
    obtain ⟨t,at_⟩ := ended
    have depths := (F.depths at_.related).1
    have left {p : Parser} (depth : p.parenDepth = d + 1) : Returns leaveParen p () (inParens p d) := leaveIs depth
    have stays {p : Parser} (here : (ahead p).head? = t) : settle (inParens p d) = inParens p d := by
      have settled : Settled (inParens p d) := headSettled (p := inParens p d) (here.symm ▸ at_.settled (Nat.succ_pos d) : (ahead p).head? ≠ some .newline)
      rw [settle,settledStays settled,ite_self]
    rw [Returns,returnsThen (left depths.1)] at returned
    obtain ⟨same,rfl⟩ := expectIs.mp returned
    rw [stays at_.here] at same ⊢
    refine ⟨skip (inParens p' d) 1,?_,?_⟩
    · rw [Returns,returnsThen (left depths.2)]
      refine expectIs.mpr ⟨?_,?_⟩
      · rw [stays at_.here']
        exact (at_.here'.trans at_.here.symm : (ahead p').head? = (ahead p).head?) ▸ same
      · rw [stays at_.here']
    · rw [show (ahead (inParens p d)).head? = t from at_.here] at same
      cases t with
      | none => cases same
      | some t =>
        cases (knownBare rfl t).mp same
        exact F.closed live at_
  rw [← bindAssoc,← bindAssoc]
  exact tracksBind unit fun _ => rest

omit F in
theorem identIs {what s : String} : Returns (ident what) p s q ↔ (ahead (settle p)).head? = some (.ident s) ∧ q = skip (settle p) 1 := by
  have peeked : Returns peek p (ahead (settle p)).head? (settle p) := peekIs p
  have never {q : Parser} : ¬Returns (refuse what : ParseM String) q s q := fun returned =>
    givesRefuse (p := fun _ => False) what _ _ _ returned
  rw [Returns,ident,next,bindAssoc,returnsThen peeked]
  cases (ahead (settle p)).head? with
  | none => exact iff_of_false (fun returned => givesRefuse (p := fun _ => False) what _ _ _ returned) fun both => by cases both.1
  | some t =>
    cases t
    case ident s' =>
      constructor
      · intro returned
        cases returned
        exact ⟨rfl,rfl⟩
      · rintro ⟨same,rfl⟩
        cases same
        rfl
    all_goals exact iff_of_false (fun returned => givesRefuse (p := fun _ => False) what _ _ _ returned) fun both => by cases both.1

omit F in
theorem settleOutside (depth : p.parenDepth = 0) : settle p = p := if_neg (by omega)

omit F in
theorem knownHead {want : Tok} (known : Known want) {ts : List Tok} : (ts.head? == some want) = true ↔ ∃ rest, ts = want :: rest := by
  cases ts with
  | nil => exact iff_of_false (fun same => by cases same) fun ⟨_,same⟩ => by cases same
  | cons t ts =>
    refine (known t).trans ⟨fun same => ⟨ts,by rw [same]⟩,fun ⟨_,same⟩ => ?_⟩
    cases same
    rfl

omit F in
theorem assignedIs {nameMsg eqMsg s : String} (depth : p.parenDepth = 0) :
    Returns (assigned nameMsg eqMsg) p s q ↔ (∃ rest, ahead p = .ident s :: .eq :: rest) ∧ q = skip p 2 := by
  constructor
  · intro returned
    obtain ⟨s',r,named,returned⟩ := returnsBind.mp returned
    obtain ⟨_,u,equals,returned⟩ := returnsBind.mp returned
    obtain ⟨rfl,rfl⟩ := returnsPure.mp returned
    obtain ⟨here,rfl⟩ := identIs.mp named
    obtain ⟨eq,rfl⟩ := expectIs.mp equals
    rw [settleOutside depth] at here eq ⊢
    rw [settleOutside (p := skip p 1) depth] at eq ⊢
    obtain ⟨ts,found⟩ := headCons here
    rw [aheadNext found] at eq
    obtain ⟨rest,rfl⟩ := (knownHead (knownBare rfl)).mp eq
    exact ⟨⟨rest,found⟩,skipSkip⟩
  · rintro ⟨⟨rest,found⟩,rfl⟩
    refine returnsBind.mpr ⟨s,skip p 1,identAhead found,returnsBind.mpr ⟨(),skip p 2,?_,returnsPure.mpr ⟨rfl,rfl⟩⟩⟩
    rw [← skipSkip (k := 1) (l := 1)]
    exact expectAhead (aheadNext found) rfl rfl

theorem stableAssigned (live : l.Live) (nameMsg eqMsg : String) : Stable strict R l 0 k (assigned nameMsg eqMsg) := by
  refine footed (fun p p' strictly => F.same strictly) fun p p' s q related returned => ?_
  have depths := (F.depths related).1
  obtain ⟨⟨rest,found⟩,rfl⟩ := (assignedIs depths.1).mp returned
  have outside {p p' : Parser} : 0 < 0 → Settled p ∧ Settled p' := fun never => absurd never (Nat.lt_irrefl 0)
  have at_ : At R l 0 k (some (.ident s)) p p' :=
    ⟨related,congrArg List.head? found,(F.head live related outside).symm.trans (congrArg List.head? found),fun never => absurd never (Nat.lt_irrefl 0)⟩
  have after := F.take live rfl at_
  have same := F.head live after outside
  have next : At R l 0 k (some .eq) (skip p 1) (skip p' 1) := by
    refine ⟨after,?_,?_,fun never => absurd never (Nat.lt_irrefl 0)⟩
    · rw [aheadNext found]; rfl
    · rw [← same,aheadNext found]; rfl
  obtain ⟨ts,found'⟩ := headCons at_.here'
  have here := next.here'
  rw [aheadNext found'] at here
  obtain ⟨rest',rfl⟩ := headCons here
  exact ⟨skip p' 2,(assignedIs depths.2).mpr ⟨⟨rest',found'⟩,rfl⟩,F.equals live at_ next⟩

/- Where the parser stands in the parentheses behind a subject's name. -/
def entered (p : Parser) : Parser := settle (inParens (skip p 1) 1)

omit F in
theorem parameterIs {s : String} (depth : p.parenDepth = 0) : Returns parameter p s q ↔
    (∃ rest, ahead p = .lparen :: rest) ∧ (∃ rest, ahead (entered p) = .ident s :: .rparen :: .eq :: rest) ∧
      q = inParens (skip (entered p) 3) 0 := by
  have enters : Returns enterParen (skip p 1) () (inParens (skip p 1) 1) := by
    refine returnsUpdate.mpr ?_
    rw [inParens,skipParen,depth]
  have inside : (entered p).parenDepth = 1 := by
    unfold entered settle
    split <;> rfl
  have leaves : Returns leaveParen (skip (entered p) 1) () (inParens (skip (entered p) 1) 0) := leaveIs inside
  constructor
  · intro returned
    obtain ⟨_,_,opens,returned⟩ := returnsBind.mp returned
    obtain ⟨lparen,rfl⟩ := expectIs.mp opens
    rw [settleOutside depth] at lparen returned
    rw [Returns,returnsThen enters] at returned
    obtain ⟨s',_,named,returned⟩ := returnsBind.mp returned
    obtain ⟨here,rfl⟩ := identIs.mp named
    change (ahead (entered p)).head? = _ at here
    change (leaveParen >>= _) (skip (entered p) 1) = _ at returned
    rw [returnsThen leaves] at returned
    obtain ⟨_,_,closes,returned⟩ := returnsBind.mp returned
    obtain ⟨rparen,rfl⟩ := expectIs.mp closes
    obtain ⟨_,_,equals,returned⟩ := returnsBind.mp returned
    obtain ⟨eq,rfl⟩ := expectIs.mp equals
    obtain ⟨rfl,rfl⟩ := returnsPure.mp returned
    rw [settleOutside (p := inParens (skip (entered p) 1) 0) rfl] at rparen eq ⊢
    rw [settleOutside (p := skip (inParens (skip (entered p) 1) 0) 1) rfl] at eq ⊢
    obtain ⟨ts,found⟩ := headCons here
    have next : ahead (inParens (skip (entered p) 1) 0) = ts := aheadNext (p := entered p) found
    rw [next] at rparen
    obtain ⟨us,rfl⟩ := (knownHead (knownBare rfl)).mp rparen
    rw [aheadNext next] at eq
    obtain ⟨rest,rfl⟩ := (knownHead (knownBare rfl)).mp eq
    exact ⟨(knownHead (knownBare rfl)).mp lparen,⟨rest,found⟩,rfl⟩
  · rintro ⟨⟨ts,opens⟩,⟨rest,found⟩,rfl⟩
    refine returnsBind.mpr ⟨(),skip p 1,expectAhead opens rfl rfl,returnsBind.mpr ⟨(),_,enters,?_⟩⟩
    have named : Returns (ident "expected subject parameter") (inParens (skip p 1) 1) s (skip (entered p) 1) :=
      identIs.mpr ⟨congrArg List.head? found,rfl⟩
    have closing : ahead (inParens (skip (entered p) 1) 0) = .rparen :: .eq :: rest := aheadNext (p := entered p) found
    refine returnsBind.mpr ⟨s,_,named,returnsBind.mpr ⟨(),_,leaves,?_⟩⟩
    refine returnsBind.mpr ⟨(),_,expectAhead closing rfl rfl,returnsBind.mpr ⟨(),_,expectAhead (aheadNext closing) rfl rfl,?_⟩⟩
    exact returnsPure.mpr ⟨rfl,rfl⟩

theorem stableParameter (live : l.Live) : Stable strict R l 0 k parameter := by
  refine footed (fun p p' strictly => F.same strictly) fun p p' s q related returned => ?_
  have depths := (F.depths related).1
  obtain ⟨⟨ts,opens⟩,⟨rest,found⟩,rfl⟩ := (parameterIs depths.1).mp returned
  have head := F.head live related fun never => absurd never (Nat.lt_irrefl 0)
  have at_ : At R l 0 k (some .lparen) p p' :=
    ⟨related,congrArg List.head? opens,head.symm.trans (congrArg List.head? opens),fun never => absurd never (Nat.lt_irrefl 0)⟩
  have param := settleRelated F live (F.opened live at_)
  rw [show (ahead (settle (inParens (skip p 1) 1))).head? = some (.ident s) from congrArg List.head? found] at param
  obtain ⟨⟨rest',found'⟩,met⟩ := F.bound live param found
  exact ⟨_,(parameterIs depths.2).mpr ⟨headCons at_.here',⟨rest',found'⟩,rfl⟩,met⟩

end Words

end Officium.Parser

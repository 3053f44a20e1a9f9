import Officium.Abreast

/-! The tokens each part of the parser takes: its braces and parentheses are matched, it holds no
separator, and no newline stands before the parenthesis that closes a subject's parameter. -/
namespace Officium.Parser
open Bounded
open Lexer (Tok)

section Counting
variable {l m : Nesting} {d : Nat} {t u : Tok} {ts us vs : List Tok}

def Nesting.through (l : Nesting) (ts : List Tok) : Option Nesting := ts.foldlM Nesting.after l

/- How deep in parentheses a token leaves the ones behind it. -/
def depthAfter (d : Nat) : Tok → Nat
  | .lparen => d + 1
  | .rparen => d - 1
  | _ => d

def parens (d : Nat) (ts : List Tok) : Nat := ts.foldl depthAfter d

/- A newline right before `) =`. -/
def Trapped (ts : List Tok) : Prop := [.newline,.rparen,.eq] <:+: ts

theorem throughAppend : l.through (ts ++ us) = (l.through ts).bind (·.through us) := List.foldlM_append

theorem throughCons : l.through (t :: ts) = (l.after t).bind (·.through ts) := List.foldlM_cons

theorem parensAppend : parens d (ts ++ us) = parens (parens d ts) us := List.foldl_append

theorem innerPlain (h : inner t = true) : t.isNewline = false := by cases t <;> first | rfl | cases h

theorem innerDeeper (h : inner t = true) (d : Nat) : depthAfter d t = d := by cases t <;> first | rfl | cases h

theorem flatStays (live : l.Live) (flat : t ≠ .semi ∧ t ≠ .lbrace ∧ t ≠ .rbrace) : l.after t = some l := by
  cases l with
  | header => cases t <;> first | rfl | exact absurd rfl flat.1 | exact absurd rfl flat.2.1 | exact absurd rfl flat.2.2
  | inside d =>
    cases d with
    | zero => exact absurd rfl live
    | succ d => cases t <;> first | rfl | exact absurd rfl flat.1 | exact absurd rfl flat.2.1 | exact absurd rfl flat.2.2

theorem innerStays (live : l.Live) (h : inner t = true) : l.after t = some l :=
  flatStays live ⟨fun same => (by rw [same] at h; cases h),fun same => (by rw [same] at h; cases h),fun same => by rw [same] at h; cases h⟩

theorem newlinesThrough (live : l.Live) (newlines : ∀ t ∈ ts, t.isNewline = true) : l.through ts = some l ∧ parens d ts = d := by
  induction ts with
  | nil => exact ⟨rfl,rfl⟩
  | cons t ts ih =>
    have is_ := newlines t List.mem_cons_self
    cases t <;> cases is_
    obtain ⟨through,same⟩ := ih fun t mem => newlines t (.tail _ mem)
    exact ⟨by rw [throughCons,flatStays (t := .newline) live ⟨nofun,nofun,nofun⟩]; exact through,same⟩

theorem suffixConcat (h : us ++ [t] <:+ vs ++ [u]) : t = u ∧ us <:+ vs := by
  rcases List.suffix_concat_iff.mp h with none_ | ⟨ws,same,suffix⟩
  · simp at none_
  · obtain ⟨rfl,last⟩ := List.append_inj' same rfl
    exact ⟨(List.cons.inj last).1,suffix⟩

/- Only the token that ends it can complete it. -/
theorem trappedPush (h : Trapped (ts ++ [t])) : Trapped ts ∨ t = .eq ∧ [.newline,.rparen] <:+ ts := by
  rcases List.infix_concat_iff.mp h with last | before
  · obtain ⟨eq,suffix⟩ := suffixConcat (show [.newline,.rparen] ++ [.eq] <:+ ts ++ [t] from last)
    exact .inr ⟨eq.symm,suffix⟩
  · exact .inl before

/- Tokens that no tokens before them are trapped with. -/
def Safe (vs : List Tok) : Prop := ∀ us, ¬Trapped us → ¬Trapped (us ++ vs)

theorem safeNil : Safe [] := fun us free => by rwa [List.append_nil]

theorem safeAppend (h : Safe us) (h' : Safe vs) : Safe (us ++ vs) := fun ts free => by
  rw [← List.append_assoc]
  exact h' _ (h ts free)

theorem safePlain (other : t ≠ .eq) : Safe [t] := fun us free trapped => by
  rcases trappedPush trapped with before | ⟨same,-⟩
  · exact free before
  · exact other same

theorem safeNewlines (newlines : ∀ t ∈ ts, t.isNewline = true) : Safe ts := by
  induction ts with
  | nil => exact safeNil
  | cons t ts ih =>
    have is_ := newlines t List.mem_cons_self
    have rest := ih fun t mem => newlines t (.tail _ mem)
    exact safeAppend (safePlain (t := t) fun same => by rw [same] at is_; cases is_) rest

/- What stands right before `=` is not what it is trapped with. -/
theorem safeEquals (before : ¬[.newline,.rparen] <:+ us ++ ts) (h : Safe ts) (free : ¬Trapped us) : ¬Trapped (us ++ (ts ++ [.eq])) := by
  intro trapped
  rw [← List.append_assoc] at trapped
  rcases trappedPush trapped with earlier | ⟨-,suffix⟩
  · exact h us free earlier
  · exact before suffix

theorem safeAssigned (s : String) : Safe [.ident s,.eq] := by
  refine fun us free => safeEquals (fun suffix => ?_) (safePlain (t := .ident s) nofun) free
  cases (suffixConcat (show [.newline] ++ [.rparen] <:+ us ++ [.ident s] from suffix)).1

theorem safeBound (s : String) : Safe [.ident s,.rparen,.eq] := by
  have before : Safe ([.ident s] ++ [.rparen]) := safeAppend (safePlain nofun) (safePlain nofun)
  refine fun us free => safeEquals (fun suffix => ?_) before free
  rw [← List.append_assoc] at suffix
  have left := (suffixConcat (show [.newline] ++ [.rparen] <:+ us ++ [.ident s] ++ [.rparen] from suffix)).2
  cases (suffixConcat (show [] ++ [.newline] <:+ us ++ [.ident s] from left)).1

end Counting

section Taking
variable {T : List Tok} {l₀ l m : Nesting} {d d' k k' : Nat} {p q : Parser} {t : Tok} {vs : List Tok}

/- Of the tokens `T` those before the ones ahead are taken, from one nesting to another. -/
structure Taken (T : List Tok) (l₀ l : Nesting) (d k : Nat) (p : Parser) : Prop where
  tokens : ∃ us, T = us ++ ahead p ∧ l₀.through us = some l ∧ parens 0 us = d ∧ ¬Trapped us
  depths : p.parenDepth = d ∧ p.exprDepth = k

theorem takenNone (depths : p.parenDepth = 0 ∧ p.exprDepth = k) : Taken (ahead p) l l 0 k p :=
  ⟨⟨[],rfl,rfl,rfl,fun trapped => by cases List.infix_nil.mp trapped⟩,depths⟩

theorem takenMore (taken : Taken T l₀ l d k p) (next : ahead p = vs ++ ahead q) (through : l.through vs = some m) (depth : parens d vs = d')
    (safe : Safe vs) (depths : q.parenDepth = d' ∧ q.exprDepth = k') : Taken T l₀ m d' k' q := by
  obtain ⟨us,rfl,before,inside,free⟩ := taken.tokens
  refine ⟨⟨us ++ vs,by rw [next,List.append_assoc],?_,?_,safe us free⟩,depths⟩
  · rw [throughAppend,before]
    exact through
  · rw [parensAppend,inside,depth]

theorem aheadPastNewlines (p : Parser) : ahead p.pastNewlines = (ahead p).dropWhile Tok.isNewline := by
  have past : (p.toks.drop p.pos).dropWhile (fun t => t.1.isNewline) = p.toks.drop p.pastNewlines.pos := by
    unfold Parser.pastNewlines
    rw [← List.drop_drop]
    exact ((congrArg (List.drop _) (List.takeWhile_append_dropWhile (p := fun t : Tok × Nat => t.1.isNewline)).symm).trans List.drop_left).symm
  rw [ahead,ahead,List.dropWhile_map]
  exact congrArg (List.map Prod.fst) past.symm

theorem newlinesAhead (p : Parser) : ∃ newlines, ahead p = newlines ++ ahead p.pastNewlines ∧ ∀ t ∈ newlines, t.isNewline = true := by
  refine ⟨(ahead p).takeWhile Tok.isNewline,?_,fun t mem => List.all_eq_true.mp List.all_takeWhile t mem⟩
  rw [aheadPastNewlines,List.takeWhile_append_dropWhile]

theorem aheadTaken (here : (ahead p).head? = some t) : ahead p = [t] ++ ahead (skip p 1) := by
  obtain ⟨rest,found⟩ := headCons here
  rw [aheadNext found,found]
  rfl

/- What is taken is taken token by token. -/
theorem takenFooting (T : List Tok) (l₀ : Nesting) : Footing False (fun l d k p p' => p = p' ∧ Taken T l₀ l d k p) where
  same := fun never => never.elim
  depths := by
    rintro l d k p _ ⟨rfl,taken⟩
    exact ⟨⟨taken.depths.1,taken.depths.1⟩,taken.depths.2,taken.depths.2⟩
  head := by
    rintro l d k p _ live ⟨rfl,taken⟩ -
    rfl
  past := by
    rintro l d k p _ live ⟨rfl,taken⟩
    obtain ⟨newlines,same,all⟩ := newlinesAhead p
    obtain ⟨through,depth⟩ := newlinesThrough (d := d) live all
    exact ⟨rfl,takenMore taken same through depth (safeNewlines all) taken.depths⟩
  nested := by
    rintro l d k p _ m ⟨rfl,taken⟩
    exact ⟨rfl,taken.tokens,taken.depths.1,rfl⟩
  take := by
    rintro l d k p _ t live is_ ⟨⟨rfl,taken⟩,here,-,-⟩
    have through : l.through [t] = some l := by rw [throughCons,innerStays live is_]; rfl
    exact ⟨rfl,takenMore taken (aheadTaken here) through (innerDeeper is_ d) (safePlain fun same => by rw [same] at is_; cases is_) taken.depths⟩
  opened := by
    rintro l d k p _ live ⟨⟨rfl,taken⟩,here,-,-⟩
    have through : l.through [.lparen] = some l := by rw [throughCons,flatStays (t := .lparen) live ⟨nofun,nofun,nofun⟩]; rfl
    exact ⟨rfl,takenMore taken (aheadTaken here) through rfl (safePlain nofun) ⟨rfl,taken.depths.2⟩⟩
  closed := by
    rintro l d k p _ live ⟨⟨rfl,taken⟩,here,-,-⟩
    have through : l.through [.rparen] = some l := by rw [throughCons,flatStays (t := .rparen) live ⟨nofun,nofun,nofun⟩]; rfl
    exact ⟨rfl,takenMore taken (aheadTaken here) through rfl (safePlain nofun) ⟨rfl,taken.depths.2⟩⟩
  brace := by
    rintro l m k p _ t live brace taken_ ⟨⟨rfl,taken⟩,here,-,-⟩
    have through : l.through [t] = some m := by rw [throughCons,taken_]; rfl
    refine ⟨rfl,takenMore taken (aheadTaken here) through ?_ (safePlain ?_) taken.depths⟩
    · rcases brace with rfl | rfl <;> rfl
    · rcases brace with rfl | rfl <;> nofun
  equals := by
    rintro l k p _ s live ⟨⟨rfl,taken⟩,here,-,-⟩ ⟨-,next,-,-⟩
    have through : l.through [.ident s,.eq] = some l := by
      rw [throughCons,innerStays live rfl,Option.bind_some,throughCons,flatStays (t := .eq) live ⟨nofun,nofun,nofun⟩]
      rfl
    have same : ahead p = [.ident s,.eq] ++ ahead (skip p 2) := by
      rw [aheadTaken here,aheadTaken next,skipSkip]
      rfl
    exact ⟨rfl,takenMore taken same through rfl (safeAssigned s) taken.depths⟩
  bound := by
    rintro l k p _ s rest live ⟨⟨rfl,taken⟩,-,-,-⟩ found
    have through : l.through [.ident s,.rparen,.eq] = some l := by
      rw [throughCons,innerStays live rfl,Option.bind_some,throughCons,flatStays (t := .rparen) live ⟨nofun,nofun,nofun⟩,Option.bind_some,throughCons,
        flatStays (t := .eq) live ⟨nofun,nofun,nofun⟩]
      rfl
    have same : ahead p = [.ident s,.rparen,.eq] ++ ahead (inParens (skip p 3) 0) := by
      have after : ahead (inParens (skip p 3) 0) = rest := aheadPast (show ahead p = [.ident s,.rparen,.eq] ++ rest from found)
      rw [after,found]
      rfl
    exact ⟨⟨rest,found⟩,rfl,takenMore taken same through rfl (safeBound s) ⟨rfl,taken.depths.2⟩⟩

end Taking

section Parts
variable {k n : Nat} {p q : Parser}

/- Tokens from one nesting to another that are a whole: nothing in them is left open. -/
structure Whole (l m : Nesting) (us : List Tok) : Prop where
  through : l.through us = some m
  parens : parens 0 us = 0
  free : ¬Trapped us

theorem wholeTaken {l m : Nesting} {T : List Tok} (taken : Taken T l m 0 k q) : ∃ us, T = us ++ ahead q ∧ Whole l m us := by
  obtain ⟨us,same,through,inside,free⟩ := taken.tokens
  exact ⟨us,same,through,inside,free⟩

theorem headingTaken {nameMsg inMsg braceMsg : String} {h : Sym × Final × Mode} (depths : p.parenDepth = 0 ∧ p.exprDepth = k)
    (returned : Returns (heading nameMsg inMsg braceMsg) p h q) :
    (∃ us, ahead p = us ++ ahead q ∧ Whole .header (.inside 0) us) ∧ q.parenDepth = 0 ∧ q.exprDepth = k := by
  obtain ⟨_,-,_,taken⟩ := (tracksHeading (takenFooting (ahead p) .header) nameMsg inMsg braceMsg).returns p p h q ⟨rfl,takenNone depths⟩ returned
  exact ⟨wholeTaken taken,taken.depths⟩

theorem stmtsTaken {mode : Mode} {e : Expr} (depths : p.parenDepth = 0 ∧ p.exprDepth = k) (returned : Returns (stmts mode n) p e q) :
    (∃ us, ahead p = us ++ ahead q ∧ Whole (.inside 1) (.inside 0) us) ∧ q.parenDepth = 0 ∧ q.exprDepth = k := by
  rw [← stmtsIs] at returned
  have F := takenFooting (ahead p) (.inside 1)
  obtain ⟨_,-,_,taken⟩ := (stmtsAbreast F (exprTerms F k) mode n 0).returns p p e q ⟨rfl,takenNone depths⟩ returned
  exact ⟨wholeTaken taken,taken.depths⟩

theorem fugueTaken {f f' : Fugue} (depths : p.parenDepth = 0 ∧ p.exprDepth = k) (returned : Returns (fugueLoop n f) p f' q) :
    (∃ us, ahead p = us ++ ahead q ∧ Whole (.inside 1) (.inside 0) us) ∧ q.parenDepth = 0 ∧ q.exprDepth = k := by
  rw [← fugueLoopIs] at returned
  have F := takenFooting (ahead p) (.inside 1)
  obtain ⟨_,-,_,taken⟩ := (fugueAbreast F (exprTerms F k) n 0 f).returns p p f' q ⟨rfl,takenNone depths⟩ returned
  exact ⟨wholeTaken taken,taken.depths⟩

end Parts

end Officium.Parser

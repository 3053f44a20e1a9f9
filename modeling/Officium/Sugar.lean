import Officium.Gaps
import Officium.Places

/-! A sung verse and the verse without its heads: the parser takes the heads out of the tokens, and what is
left reads as if they had never been there. -/
namespace Officium.Parser
open Bounded
open Lexer (Tok)

/- The tokens in the braces of a sung verse and those without its heads. What the heads leave behind differs
from these only in the newlines. -/
structure Lowers (sung plain : List Tok) (heads : List (Char × String)) : Prop where
  stripped : ∃ newlines body left : List Tok, sung = newlines ++ body ∧ (∀ t ∈ newlines, t.isNewline = true) ∧
    (∀ ts, labelled (body ++ .rbrace :: ts) = true ∧ Strips 1 true (body ++ .rbrace :: ts) (left ++ .rbrace :: ts) heads) ∧
    closedUp false (newlines ++ left ++ [.rbrace]) = closedUp false (plain ++ [.rbrace]) ∧
    (Nesting.inside 1).through (left ++ [.rbrace]) = some (.inside 0)
  closes : (Nesting.inside 1).through (plain ++ [.rbrace]) = some (.inside 0)
  unlabelled : labelled (List.dropWhile Tok.isNewline (plain ++ [.rbrace])) = false

section Lowering
variable {n m : Nat} {mode : Mode} {e : Expr} {v : Versus} {sung plain bs ts rest : List Tok} {heads rhymes : List (Char × String)} {p q r : Parser}

theorem strippedOnce {k j d : Nat} {b : Bool} {rs rs' rs'' : List (Char × String)} {r r' : Parser} (one : Returns (stripLoop n j d b rs) p rs' r)
    (other : Returns (stripLoop k j d b rs) p rs'' r') : rs' = rs'' ∧ r = r' := by
  have here := stripLoopBelow (Nat.le_max_left n k) j d b rs p _ one
  have there := stripLoopBelow (Nat.le_max_right n k) j d b rs p _ other
  cases here.symm.trans there
  exact ⟨rfl,rfl⟩

/- What the parser makes of the heads. -/
theorem lowersStrips (lowers : Lowers sung plain heads) (clear : Clear p) (same : ahead p = sung ++ .rbrace :: ts) : sungOpening p = true ∧
    ∃ n r left, Returns (stripLoop n p.pastNewlines.pos 1 true []) p heads r ∧ Clear r ∧ ahead r = left ++ .rbrace :: ts ∧
      closedUp false (left ++ [.rbrace]) = closedUp false (plain ++ [.rbrace]) ∧
      (Nesting.inside 1).through (left ++ [.rbrace]) = some (.inside 0) := by
  obtain ⟨newlines,body,left,rfl,blank,strips,even,through⟩ := lowers.stripped
  obtain ⟨opens,strips⟩ := strips ts
  have first : ∃ t vs, body ++ .rbrace :: ts = t :: vs ∧ t.isNewline = false := by
    cases here : body ++ .rbrace :: ts with
    | nil => rw [here] at opens; cases opens
    | cons t vs =>
      rw [here] at opens
      exact ⟨t,vs,rfl,by cases t <;> first | rfl | cases opens⟩
  obtain ⟨t,vs,here,plain_⟩ := first
  rw [List.append_assoc,here] at same
  obtain ⟨taken,dropped⟩ := takeNewlines blank plain_ vs
  have past : ahead p.pastNewlines = body ++ .rbrace :: ts := by rw [aheadPastNewlines,same,dropped,here]
  have opening : sungOpening p = true := by rw [sungOpens,past,opens]
  have from_ : tokensFrom p p.pastNewlines.pos = body ++ .rbrace :: ts := (aheadTokens p.pastNewlines).symm.trans past
  have looped : ∃ n r, Returns (stripLoop n p.pastNewlines.pos 1 true []) p heads r ∧ Replaced p p.pastNewlines.pos (left ++ .rbrace :: ts) r := stripsLoop strips from_
  obtain ⟨n,r,returned,replaced⟩ := looped
  refine ⟨opening,n,r,newlines ++ left,returned,⟨replaced.others.2.1.trans clear.1,replaced.others.2.2.trans clear.2⟩,?_,even,?_⟩
  · rw [replacedAhead opening replaced,same,taken,List.append_assoc]
  · rw [List.append_assoc,throughAppend,(newlinesThrough (d := 0) Nesting.insideLive blank).1]
    exact through

/- Statements read the same in tokens that differ in the newlines. -/
theorem gappedStmts {us us' : List Tok} (clear : Clear p) (clear' : Clear q) (same : ahead p = us ++ .rbrace :: ts) (same' : ahead q = us' ++ .rbrace :: ts)
    (even : closedUp false (us ++ [.rbrace]) = closedUp false (us' ++ [.rbrace])) (through : (Nesting.inside 1).through (us ++ [.rbrace]) = some (.inside 0))
    (through' : (Nesting.inside 1).through (us' ++ [.rbrace]) = some (.inside 0)) (returned : Returns (stmts mode n) p e r) :
    ∃ r', Returns (stmts mode n) q e r' ∧ ahead r = ts ∧ ahead r' = ts := by
  have F := gappedFooting ts ts
  have gapped : Gapped ts ts (.inside 1) 0 0 p q :=
    ⟨⟨us ++ [.rbrace],us' ++ [.rbrace],by simpa using same,by simpa using same',even,through,through'⟩,⟨clear.1,clear'.1⟩,clear.2,clear'.2⟩
  rw [← stmtsIs] at returned ⊢
  obtain ⟨r',returned',last⟩ := (stmtsAbreast F (exprTerms F 0) mode n 0).returns p q e r gapped returned
  obtain ⟨vs,vs',behind,behind',-,over_,over'⟩ := last.tokens
  obtain ⟨rfl,-⟩ := throughOver over_
  obtain ⟨rfl,-⟩ := throughOver over'
  exact ⟨r',returned',behind,behind'⟩

theorem unlabelledOpens (lowers : Lowers sung plain heads) (same : ahead p = plain ++ .rbrace :: ts) : sungOpening p = false := by
  have same' : ahead p = plain ++ [.rbrace] ++ ts := by rw [same,List.append_assoc]; rfl
  rw [sungOpens,aheadPastNewlines,same',pastEnd (throughPlain Nesting.insideLive lowers.closes),
    labelledBody (throughPast Nesting.insideLive lowers.closes),lowers.unlabelled]

/- A sung verse that is read is read without its heads, which are its rhymes. -/
theorem lowersPlain (lowers : Lowers sung plain heads) (read : BodyRead bs v) (same : bs ++ rest = sung ++ .rbrace :: ts) :
    rest = ts ∧ v.rhymes = heads ∧ Passes heads ∧ BodyRead (plain ++ [.rbrace]) { v with rhymes := [] } := by
  obtain ⟨n,q,returned,over_,-⟩ := read.1 (before (bs ++ rest)) rest ⟨rfl,rfl⟩ (beforeAhead _)
  obtain ⟨opening,k,r,left,stripped,clear,next,even,through⟩ := lowersStrips lowers ⟨rfl,rfl⟩ ((beforeAhead _).trans same)
  obtain ⟨rhymes,r',stripped',returned⟩ := returnsBind.mp returned
  obtain ⟨e,q',body,returned⟩ := returnsBind.mp returned
  obtain ⟨found,rfl⟩ := returnsPure.mp returned
  obtain ⟨rfl,rfl⟩ := Prod.mk.inj found
  rcases stripReturns.mp stripped' with ⟨never,-⟩ | ⟨-,passes,stripped'⟩
  · rw [opening] at never
    cases never
  obtain ⟨rfl,rfl⟩ := strippedOnce stripped stripped'
  have here := beforeAhead (plain ++ .rbrace :: ts)
  obtain ⟨r'',body',behind,behind'⟩ := gappedStmts clear (show Clear (before (plain ++ .rbrace :: ts)) from ⟨rfl,rfl⟩) next here even through lowers.closes body
  obtain ⟨bs',split,whole,unlabelled,reads,-⟩ := plainReads ⟨rfl,rfl⟩ (unlabelledOpens lowers here) body'
  rw [here,behind'] at split
  have is_ : bs' = plain ++ [.rbrace] := (List.append_cancel_right (split.symm.trans (by simp : _ = plain ++ [.rbrace] ++ ts)))
  subst is_
  exact ⟨over_.symm.trans behind,rfl,passes,readsPlain reads whole.through unlabelled,fun _ => ⟨whole,unlabelled,reads⟩⟩

/- And a verse that is read is read with heads that pass. -/
theorem lowersSung (lowers : Lowers sung plain heads) (read : BodyRead bs v) (same : bs ++ rest = plain ++ .rbrace :: ts) :
    rest = ts ∧ v.rhymes = [] ∧ (Passes heads → BodyRead (sung ++ [.rbrace]) { v with rhymes := heads }) := by
  obtain ⟨n,q,returned,over_,-⟩ := read.1 (before (bs ++ rest)) rest ⟨rfl,rfl⟩ (beforeAhead _)
  have here : ahead (before (bs ++ rest)) = plain ++ .rbrace :: ts := (beforeAhead _).trans same
  obtain ⟨rhymes,r',stripped',returned⟩ := returnsBind.mp returned
  obtain ⟨e,q',body,returned⟩ := returnsBind.mp returned
  obtain ⟨found,rfl⟩ := returnsPure.mp returned
  obtain ⟨rfl,rfl⟩ := Prod.mk.inj found
  rcases stripReturns.mp stripped' with ⟨-,none_,rfl⟩ | ⟨never,-⟩
  · have there := beforeAhead (sung ++ .rbrace :: ts)
    obtain ⟨opening,k,r,left,stripped,clear,next,even,through⟩ := lowersStrips lowers (show Clear (before _) from ⟨rfl,rfl⟩) there
    obtain ⟨r'',body',behind,behind'⟩ := gappedStmts (show Clear (before _) from ⟨rfl,rfl⟩) clear here next even.symm lowers.closes through body
    refine ⟨over_.symm.trans behind,none_,fun passes => ?_⟩
    have stripped := stripLoopBelow (Nat.le_max_left k n) _ _ _ _ _ _ stripped
    have body' := stmtsBelow (Nat.le_max_right k n) _ _ body'
    obtain ⟨bs',split,reads,-⟩ := sungReads (show Clear (before _) from ⟨rfl,rfl⟩) opening passes stripped body'
    rw [there,behind'] at split
    have is_ : bs' = sung ++ [.rbrace] := (List.append_cancel_right (split.symm.trans (by simp : _ = sung ++ [.rbrace] ++ ts)))
    subst is_
    refine ⟨reads,fun empty => ?_⟩
    rw [show heads = [] from empty] at passes
    cases passes.1
  · rw [unlabelledOpens lowers here] at never
    cases never

end Lowering

end Officium.Parser

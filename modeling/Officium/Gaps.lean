import Officium.Windows

/-! Two parsers before the same tokens up to the brace that ends them, but for how many newlines stand in a
row. They read the same up to there. -/
namespace Officium.Parser
open Bounded
open Lexer (Tok)

/- The tokens with one newline for each row of them, behind a newline or not. -/
def closedUp : Bool → List Tok → List Tok
  | _, [] => []
  | behind, t :: ts => if t.isNewline && behind then closedUp behind ts else t :: closedUp t.isNewline ts

section Closing
variable {b : Bool} {t : Tok} {ts us vs newlines : List Tok}

theorem closedUpNewline (ts : List Tok) : closedUp false (.newline :: ts) = .newline :: closedUp true ts := rfl

theorem closedUpPlain (plain : t.isNewline = false) (ts : List Tok) : closedUp b (t :: ts) = t :: closedUp false ts := by
  rw [closedUp,plain]
  rfl

theorem closedUpCons (t : Tok) (ts : List Tok) : closedUp false (t :: ts) = t :: closedUp t.isNewline ts := by
  rw [closedUp,Bool.and_false]
  rfl

theorem closedUpFirst (h : closedUp false us = t :: vs) : ∃ ts, us = t :: ts ∧ closedUp t.isNewline ts = vs := by
  cases us with
  | nil => cases h
  | cons u us =>
    rw [closedUpCons] at h
    obtain ⟨rfl,same⟩ := List.cons.inj h
    exact ⟨us,rfl,same⟩

theorem closedUpPast (b : Bool) (ts : List Tok) : closedUp false (ts.dropWhile Tok.isNewline) = (closedUp b ts).dropWhile Tok.isNewline := by
  induction ts generalizing b with
  | nil => rfl
  | cons t ts ih =>
    cases newline : t.isNewline with
    | false => rw [List.dropWhile_cons_of_neg (by simp [newline]),closedUpPlain newline,closedUpPlain newline,List.dropWhile_cons_of_neg (by simp [newline])]
    | true =>
      cases t <;> cases newline
      rw [List.dropWhile_cons_of_pos rfl,ih true]
      cases b with
      | true => rfl
      | false => rw [closedUpNewline,List.dropWhile_cons_of_pos rfl]

/- Where a newline stands behind them anyway, one before them makes no difference. -/
theorem closedUpLater (plain : ∀ t ∈ us, t.isNewline = false) (same : closedUp true ts = closedUp true vs) :
    closedUp true (us ++ .newline :: ts) = closedUp true (us ++ .newline :: vs) := by
  induction us with
  | nil => exact same
  | cons t us ih =>
    have rest : closedUp false (us ++ .newline :: ts) = closedUp false (us ++ .newline :: vs) := by
      clear ih
      induction us with
      | nil => exact congrArg (.newline :: ·) same
      | cons u us ih =>
        have one := plain u (.tail _ List.mem_cons_self)
        rw [List.cons_append,List.cons_append,closedUpPlain one,closedUpPlain one]
        exact congrArg (u :: ·) (ih fun v mem => plain v ((List.mem_cons.mp mem).elim (fun is_ => is_ ▸ List.mem_cons_self) fun later => .tail _ (.tail _ later)))
    have one := plain t List.mem_cons_self
    rw [List.cons_append,List.cons_append,closedUpPlain one,closedUpPlain one,rest]

end Closing

/- Before the ends `x` and `x'` the parsers have the same tokens but for newlines in a row. -/
structure Gapped (x x' : List Tok) (l : Nesting) (d k : Nat) (p p' : Parser) : Prop where
  tokens : ∃ us us', ahead p = us ++ x ∧ ahead p' = us' ++ x' ∧ closedUp false us = closedUp false us' ∧
    l.through us = some (.inside 0) ∧ l.through us' = some (.inside 0)
  depths : (p.parenDepth = d ∧ p'.parenDepth = d) ∧ p.exprDepth = k ∧ p'.exprDepth = k

section Footing
variable {x x' : List Tok} {l m : Nesting} {d k : Nat} {p p' q q' : Parser} {t : Tok}

theorem gappedHead (live : l.Live) (gapped : Gapped x x' l d k p p') : (ahead p).head? = (ahead p').head? := by
  obtain ⟨us,us',same,same',even,through,-⟩ := gapped.tokens
  obtain ⟨t,vs,rfl⟩ := throughSome live through
  rw [closedUpCons] at even
  obtain ⟨vs',rfl,-⟩ := closedUpFirst even.symm
  rw [same,same']
  rfl

/- One token further on both sides. -/
theorem gappedNext (gapped : Gapped x x' l d k p p') (here : (ahead p).head? = some t) (plain : t.isNewline = false) (live : l.Live)
    (taken : l.after t = some m) (next : ahead q = ahead (skip p 1)) (next' : ahead q' = ahead (skip p' 1))
    (depths : (q.parenDepth = depthAfter d t ∧ q'.parenDepth = depthAfter d t) ∧ q.exprDepth = k ∧ q'.exprDepth = k) :
    Gapped x x' m (depthAfter d t) k q q' := by
  obtain ⟨us,us',same,same',even,through,through'⟩ := gapped.tokens
  obtain ⟨u,vs,rfl⟩ := throughSome live through
  rw [same] at here
  obtain rfl : u = t := Option.some.inj here
  rw [closedUpPlain plain] at even
  obtain ⟨vs',rfl,later⟩ := closedUpFirst even.symm
  rw [plain] at later
  rw [throughCons,taken] at through through'
  exact ⟨⟨vs,vs',next.trans (aheadNext same),next'.trans (aheadNext same'),later.symm,through,through'⟩,depths⟩

theorem gappedFooting (x x' : List Tok) : Footing False (Gapped x x') where
  same := fun never => never.elim
  depths := fun gapped => gapped.depths
  head := fun live gapped _ => gappedHead live gapped
  past := by
    intro l d k p p' live gapped
    obtain ⟨us,us',same,same',even,through,through'⟩ := gapped.tokens
    refine ⟨⟨us.dropWhile Tok.isNewline,us'.dropWhile Tok.isNewline,?_,?_,?_,throughPast live through,throughPast live through'⟩,gapped.depths⟩
    · rw [aheadPastNewlines,same,pastEnd (throughPlain live through)]
    · rw [aheadPastNewlines,same',pastEnd (throughPlain live through')]
    · rw [closedUpPast false,closedUpPast false,even]
  nested := fun m gapped => ⟨gapped.tokens,gapped.depths.1,rfl,rfl⟩
  take := by
    intro l d k p p' t live is_ at_
    have next (depths) : Gapped x x' l (depthAfter d t) k (skip p 1) (skip p' 1) :=
      gappedNext at_.related at_.here (innerPlain is_) live (innerStays live is_) rfl rfl depths
    rw [innerDeeper is_] at next
    exact next at_.related.depths
  opened := fun live at_ => gappedNext at_.related at_.here rfl live (flatStays live ⟨nofun,nofun,nofun⟩) rfl rfl ⟨⟨rfl,rfl⟩,at_.related.depths.2⟩
  closed := fun live at_ => gappedNext at_.related at_.here rfl live (flatStays live ⟨nofun,nofun,nofun⟩) rfl rfl ⟨⟨rfl,rfl⟩,at_.related.depths.2⟩
  brace := by
    intro l m k p p' t live is_ taken at_
    rcases is_ with rfl | rfl
    · exact gappedNext at_.related at_.here rfl live taken rfl rfl at_.related.depths
    · exact gappedNext at_.related at_.here rfl live taken rfl rfl at_.related.depths
  equals := by
    intro l k p p' s live at_ next
    rw [← skipSkip (p := p) (k := 1) (l := 1),← skipSkip (p := p') (k := 1) (l := 1)]
    exact gappedNext next.related next.here rfl live (flatStays live ⟨nofun,nofun,nofun⟩) rfl rfl next.related.depths
  bound := by
    intro l k p p' s rest live at_ found
    have flat_ (t : Tok) (other : t ≠ .semi ∧ t ≠ .lbrace ∧ t ≠ .rbrace) : l.after t = some l := flatStays live other
    have one : Gapped x x' l 1 k (skip p 1) (skip p' 1) := gappedNext at_.related at_.here rfl live (innerStays live rfl) rfl rfl at_.related.depths
    have two : Gapped x x' l 0 k (inParens (skip p 2) 0) (inParens (skip p' 2) 0) :=
      gappedNext (t := .rparen) one (by rw [aheadNext found]; rfl) rfl live (flat_ _ ⟨nofun,nofun,nofun⟩) (by rw [skipSkip]; rfl) (by rw [skipSkip]; rfl)
        ⟨⟨rfl,rfl⟩,at_.related.depths.2⟩
    have behind : ahead (skip p 2) = .eq :: rest := aheadPast (show ahead p = [.ident s,.rparen] ++ .eq :: rest from found)
    have three : Gapped x x' l 0 k (inParens (skip p 3) 0) (inParens (skip p' 3) 0) :=
      gappedNext (t := .eq) two (congrArg List.head? behind) rfl live (flat_ _ ⟨nofun,nofun,nofun⟩)
        (show ahead (skip p 3) = ahead (skip (skip p 2) 1) by rw [skipSkip]) (show ahead (skip p' 3) = ahead (skip (skip p' 2) 1) by rw [skipSkip])
        ⟨⟨rfl,rfl⟩,at_.related.depths.2⟩
    obtain ⟨ts,here⟩ := headCons at_.here'
    have close : (ahead (skip p' 1)).head? = some .rparen := (gappedHead live one).symm.trans (congrArg List.head? (aheadNext found))
    rw [aheadNext here] at close
    obtain ⟨ts,rfl⟩ := headCons close
    have equals : (ahead (skip p' 2)).head? = some .eq := (gappedHead live two).symm.trans (congrArg List.head? behind)
    rw [show ahead (skip p' 2) = ts from aheadPast (show ahead p' = [.ident s,.rparen] ++ ts from here)] at equals
    obtain ⟨ts,rfl⟩ := headCons equals
    exact ⟨⟨ts,here⟩,three⟩

end Footing

end Officium.Parser

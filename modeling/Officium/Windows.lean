import Officium.Taken

/-! Two parsers before the same tokens up to the brace that ends them, but for the newlines within
parentheses. They read the same up to there, whatever stands behind it. -/
namespace Officium.Parser
open Bounded
open Lexer (Tok)

/- The tokens without the newlines that stand within parentheses. -/
def unspaced : Nat → List Tok → List Tok
  | _, [] => []
  | d, t :: ts => if t.isNewline && decide (0 < d) then unspaced d ts else t :: unspaced (depthAfter d t) ts

section Unspacing
variable {l m : Nesting} {d : Nat} {t : Tok} {ts us vs newlines : List Tok}

theorem unspacedCons (kept : t.isNewline = false ∨ d = 0) (ts : List Tok) : unspaced d (t :: ts) = t :: unspaced (depthAfter d t) ts := by
  rw [unspaced,if_neg]
  rcases kept with plain | rfl
  · simp [plain]
  · simp

theorem unspacedNewlines (inside : 0 < d) (all : ∀ t ∈ newlines, t.isNewline = true) : unspaced d (newlines ++ ts) = unspaced d ts := by
  induction newlines with
  | nil => rfl
  | cons t newlines ih =>
    rw [List.cons_append,unspaced,if_pos (by simp [all t List.mem_cons_self,inside])]
    exact ih fun t mem => all t (.tail _ mem)

/- What is left first has only newlines before it, and those within parentheses. -/
theorem unspacedFirst (h : unspaced d us = t :: vs) : ∃ newlines ts, us = newlines ++ t :: ts ∧ (∀ u ∈ newlines, u.isNewline = true) ∧
    (d = 0 → newlines = []) ∧ unspaced (depthAfter d t) ts = vs := by
  induction us with
  | nil => cases h
  | cons u us ih =>
    rw [unspaced] at h
    split at h
    · rename_i both
      rw [Bool.and_eq_true,decide_eq_true_eq] at both
      obtain ⟨newlines,ts,rfl,all,none_,same⟩ := ih h
      refine ⟨u :: newlines,ts,rfl,fun v mem => ?_,fun zero => absurd both.2 (by omega),same⟩
      rcases List.mem_cons.mp mem with rfl | later
      · exact both.1
      · exact all v later
    · obtain ⟨rfl,same⟩ := List.cons.inj h
      exact ⟨[],us,rfl,nofun,fun _ => rfl,same⟩

theorem unspacedPast (d : Nat) (ts : List Tok) : unspaced d (ts.dropWhile Tok.isNewline) = (unspaced d ts).dropWhile Tok.isNewline := by
  induction ts with
  | nil => rfl
  | cons t ts ih =>
    cases newline : t.isNewline with
    | false =>
      rw [List.dropWhile_cons_of_neg (by simp [newline]),unspacedCons (.inl newline),List.dropWhile_cons_of_neg (by simp [newline])]
    | true =>
      rw [List.dropWhile_cons_of_pos newline,ih,unspaced]
      split
      · rfl
      · cases t <;> cases newline
        rw [List.dropWhile_cons_of_pos rfl]
        rfl

theorem throughPast (live : l.Live) (h : l.through ts = some m) : l.through (ts.dropWhile Tok.isNewline) = some m := by
  have parts := List.takeWhile_append_dropWhile (p := Tok.isNewline) (l := ts)
  rw [← parts,throughAppend,(newlinesThrough (d := 0) live fun t mem => List.all_eq_true.mp List.all_takeWhile t mem).1] at h
  exact h

/- At a live nesting there is something to take. -/
theorem throughSome (live : l.Live) (h : l.through ts = some (.inside 0)) : ∃ t us, ts = t :: us := by
  cases ts with
  | nil => exact absurd (Option.some.inj h) live
  | cons t us => exact ⟨t,us,rfl⟩

theorem throughPlain (live : l.Live) (h : l.through ts = some (.inside 0)) : ts.dropWhile Tok.isNewline ≠ [] := by
  have past := throughPast live h
  obtain ⟨t,us,same⟩ := throughSome live past
  rw [same]
  nofun

theorem throughOver (h : (Nesting.inside 0).through ts = some m) : ts = [] ∧ m = .inside 0 := by
  cases ts with
  | nil => exact ⟨rfl,(Option.some.inj h).symm⟩
  | cons t ts =>
    rw [throughCons,show (Nesting.inside 0).after t = none by cases t <;> rfl] at h
    cases h

theorem pastEnd (some_ : ts.dropWhile Tok.isNewline ≠ []) (us : List Tok) :
    (ts ++ us).dropWhile Tok.isNewline = ts.dropWhile Tok.isNewline ++ us := by
  rw [List.dropWhile_append,if_neg (by simpa using some_)]

/- Newlines in parentheses before a token that is kept. -/
theorem unspacedKept (kept : t.isNewline = false ∨ d = 0) (all : ∀ t ∈ newlines, t.isNewline = true) (none_ : d = 0 → newlines = []) (ts : List Tok) :
    unspaced d (newlines ++ t :: ts) = t :: unspaced (depthAfter d t) ts := by
  rcases Nat.eq_zero_or_pos d with zero | pos
  · rw [none_ zero,List.nil_append,unspacedCons kept]
  · rw [unspacedNewlines pos all,unspacedCons kept]

/- What is alike up to the brace that ends the first part is alike behind it. -/
theorem unspacedSplit (live : l.Live) (through : l.through us = some (.inside 0)) (h : unspaced d (us ++ vs) = unspaced d ts) :
    ∃ us' vs', ts = us' ++ vs' ∧ l.through us' = some (.inside 0) ∧ unspaced d us = unspaced d us' ∧
      unspaced (parens d us) vs = unspaced (parens d us) vs' := by
  induction us generalizing l d ts with
  | nil => exact absurd (Option.some.inj through) live
  | cons t us ih =>
    rw [List.cons_append] at h
    rw [throughCons] at through
    obtain ⟨m,taken,rest⟩ := Option.bind_eq_some_iff.mp through
    by_cases dropped : t.isNewline = true ∧ 0 < d
    · cases t <;> cases dropped.1
      have stays : l.after .newline = some l := flatStays live ⟨nofun,nofun,nofun⟩
      cases stays.symm.trans taken
      rw [unspaced,if_pos (by simp [dropped])] at h ⊢
      exact ih live rest h
    · have kept : t.isNewline = false ∨ d = 0 := by
        cases newline : t.isNewline with
        | false => exact .inl rfl
        | true => exact .inr (by have := mt (And.intro newline) dropped; omega)
      rw [unspacedCons kept] at h
      obtain ⟨newlines,ts,rfl,all,none_,same⟩ := unspacedFirst h.symm
      have before (us' : List Tok) : l.through (newlines ++ t :: us') = m.through us' := by
        rw [throughAppend,(newlinesThrough (d := 0) live all).1,Option.bind_some,throughCons,taken]
        rfl
      by_cases live' : m.Live
      · obtain ⟨us',vs',rfl,closes,even,behind⟩ := ih live' rest same.symm
        refine ⟨newlines ++ t :: us',vs',by simp,(before us').trans closes,?_,behind⟩
        rw [unspacedKept kept all none_,unspacedCons kept,even]
      · obtain rfl : m = .inside 0 := Classical.not_not.mp live'
        obtain ⟨rfl,-⟩ := throughOver rest
        refine ⟨newlines ++ [t],ts,by simp,before [],?_,same.symm⟩
        rw [unspacedKept kept all none_,unspacedCons kept]

end Unspacing

/- Before the ends `x` and `x'` the parsers have the same tokens but for newlines in parentheses, and none
of these is before `) =`. -/
structure Window (x x' : List Tok) (l : Nesting) (d k : Nat) (p p' : Parser) : Prop where
  tokens : ∃ us us', ahead p = us ++ x ∧ ahead p' = us' ++ x' ∧ unspaced d us = unspaced d us' ∧
    l.through us = some (.inside 0) ∧ l.through us' = some (.inside 0) ∧ ¬Trapped us'
  depths : (p.parenDepth = d ∧ p'.parenDepth = d) ∧ p.exprDepth = k ∧ p'.exprDepth = k

section Footing
variable {x x' : List Tok} {l m : Nesting} {d k : Nat} {p p' q q' : Parser} {t : Tok}

theorem freeSuffix {us vs : List Tok} (free : ¬Trapped (us ++ vs)) : ¬Trapped vs :=
  fun trapped => free (List.IsInfix.trans trapped (List.suffix_append us vs).isInfix)

/- One token further on both sides. -/
theorem windowNext (window : Window x x' l d k p p') (here : (ahead p).head? = some t) (here' : (ahead p').head? = some t) (live : l.Live)
    (kept : t.isNewline = false ∨ d = 0) (taken : l.after t = some m) (next : ahead q = ahead (skip p 1)) (next' : ahead q' = ahead (skip p' 1))
    (depths : (q.parenDepth = depthAfter d t ∧ q'.parenDepth = depthAfter d t) ∧ q.exprDepth = k ∧ q'.exprDepth = k) :
    Window x x' m (depthAfter d t) k q q' := by
  obtain ⟨us,us',same,same',even,through,through',free⟩ := window.tokens
  obtain ⟨u,vs,rfl⟩ := throughSome live through
  obtain ⟨u',vs',rfl⟩ := throughSome live through'
  rw [same] at here
  rw [same'] at here'
  obtain rfl : u = t := Option.some.inj here
  obtain rfl : u' = u := Option.some.inj here'
  rw [throughCons,taken] at through through'
  rw [unspacedCons kept,unspacedCons kept] at even
  have rest : ¬Trapped ([u'] ++ vs') := free
  exact ⟨⟨vs,vs',next.trans (aheadNext same),next'.trans (aheadNext same'),(List.cons.inj even).2,through,through',freeSuffix rest⟩,depths⟩

theorem windowFooting (x x' : List Tok) : Footing False (Window x x') where
  same := fun never => never.elim
  depths := fun window => window.depths
  head := by
    intro l d k p p' live window settled
    obtain ⟨us,us',same,same',even,through,through',-⟩ := window.tokens
    obtain ⟨t,vs,rfl⟩ := throughSome live through
    obtain ⟨t',vs',rfl⟩ := throughSome live through'
    have kept {p : Parser} {t : Tok} {ts : List Tok} (found : ahead p = t :: ts) (settled : 0 < d → Settled p) : t.isNewline = false ∨ d = 0 := by
      rcases Nat.eq_zero_or_pos d with zero | pos
      · exact .inr zero
      · refine .inl ?_
        have plain := settledHead (settled pos)
        rw [found] at plain
        cases t <;> first | rfl | exact absurd rfl plain
    rw [unspacedCons (kept same fun pos => (settled pos).1),unspacedCons (kept same' fun pos => (settled pos).2)] at even
    rw [same,same']
    exact congrArg some (List.cons.inj even).1
  past := by
    intro l d k p p' live window
    obtain ⟨us,us',same,same',even,through,through',free⟩ := window.tokens
    refine ⟨⟨us.dropWhile Tok.isNewline,us'.dropWhile Tok.isNewline,?_,?_,?_,throughPast live through,throughPast live through',?_⟩,window.depths⟩
    · rw [aheadPastNewlines,same,pastEnd (throughPlain live through)]
    · rw [aheadPastNewlines,same',pastEnd (throughPlain live through')]
    · rw [unspacedPast,unspacedPast,even]
    · rw [← List.takeWhile_append_dropWhile (p := Tok.isNewline) (l := us')] at free
      exact freeSuffix free
  nested := fun m window => ⟨window.tokens,window.depths.1,rfl,rfl⟩
  take := by
    intro l d k p p' t live is_ at_
    have next (depths) : Window x x' l (depthAfter d t) k (skip p 1) (skip p' 1) :=
      windowNext at_.related at_.here at_.here' live (.inl (innerPlain is_)) (innerStays live is_) rfl rfl depths
    rw [innerDeeper is_] at next
    exact next at_.related.depths
  opened := fun live at_ => windowNext at_.related at_.here at_.here' live (.inl rfl) (flatStays live ⟨nofun,nofun,nofun⟩) rfl rfl
    ⟨⟨rfl,rfl⟩,at_.related.depths.2⟩
  closed := fun live at_ => windowNext at_.related at_.here at_.here' live (.inl rfl) (flatStays live ⟨nofun,nofun,nofun⟩) rfl rfl
    ⟨⟨rfl,rfl⟩,at_.related.depths.2⟩
  brace := by
    intro l m k p p' t live is_ taken at_
    rcases is_ with rfl | rfl
    · exact windowNext at_.related at_.here at_.here' live (.inl rfl) taken rfl rfl at_.related.depths
    · exact windowNext at_.related at_.here at_.here' live (.inl rfl) taken rfl rfl at_.related.depths
  equals := by
    intro l k p p' s live at_ next
    rw [← skipSkip (p := p) (k := 1) (l := 1),← skipSkip (p := p') (k := 1) (l := 1)]
    exact windowNext next.related next.here next.here' live (.inl rfl) (flatStays live ⟨nofun,nofun,nofun⟩) rfl rfl next.related.depths
  bound := by
    intro l k p p' s rest live at_ found
    have after : Window x x' l 1 k (skip p 1) (skip p' 1) :=
      windowNext at_.related at_.here at_.here' live (.inl rfl) (innerStays live rfl) rfl rfl at_.related.depths
    obtain ⟨us,us',same,same',even,through,through',free⟩ := after.tokens
    rw [aheadNext found] at same
    have closes : l.after .rparen = some l := flatStays live ⟨nofun,nofun,nofun⟩
    have assigns : l.after .eq = some l := flatStays live ⟨nofun,nofun,nofun⟩
    obtain ⟨u,vs,rfl⟩ := throughSome live through
    obtain ⟨rfl,behind⟩ := List.cons.inj same
    rw [throughCons,closes] at through
    obtain ⟨u,vs,rfl⟩ := throughSome live through
    obtain ⟨rfl,last⟩ := List.cons.inj behind
    rw [Option.bind_some,throughCons,assigns] at through
    rw [unspacedCons (.inl rfl),unspacedCons (.inl rfl)] at even
    obtain ⟨newlines,ws,rfl,all,-,later⟩ := unspacedFirst even.symm
    obtain ⟨none_,vs',rfl,-,zero,alike⟩ := unspacedFirst later
    cases zero rfl
    -- a newline here would stand before `) =`
    have none_ : newlines = [] := by
      rcases List.eq_nil_or_concat newlines with none_ | ⟨before,t,rfl⟩
      · exact none_
      · have is_ := all t (by simp)
        cases t <;> cases is_
        exact absurd ⟨before,vs',by simp⟩ free
    subst none_
    rw [List.nil_append,throughCons,closes,Option.bind_some,List.nil_append,throughCons,assigns] at through'
    rw [List.nil_append,List.nil_append] at same'
    obtain ⟨ts,found'⟩ := headCons at_.here'
    have here' : ts = .rparen :: .eq :: vs' ++ x' := (aheadNext found').symm.trans same'
    rw [here'] at found'
    refine ⟨⟨_,found'⟩,⟨vs,vs',?_,?_,alike.symm,through,through',?_⟩,⟨rfl,rfl⟩,at_.related.depths.2⟩
    · rw [show vs ++ x = rest from last.symm]
      exact aheadPast (show ahead p = [.ident s,.rparen,.eq] ++ rest from found)
    · exact aheadPast (show ahead p' = [.ident s,.rparen,.eq] ++ (vs' ++ x') from found')
    · exact freeSuffix (show ¬Trapped ([.rparen,.eq] ++ vs') from free)

end Footing

end Officium.Parser

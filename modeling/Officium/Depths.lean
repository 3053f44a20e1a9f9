import Officium.Unguarded

/-! How many readings of expressions and operands are under way at once: the parser with room for so
many and no more. What room a text needs depends on the longest chain of tokens that nest unasked. -/
namespace Officium.Parser
open Bounded
open Lexer (Tok)

/- `expr` and `atom`, cut off where more than so many calls of the two would be active at once. -/
mutual
def exprWithin : Nat → Nat → ParseM Expr
  | 0 => fun _ => .cut
  | r+1 => exprBy (atomWithin r)

def atomWithin : Nat → Nat → ParseM Expr
  | 0 => fun _ => .cut
  | r+1 => atomBy (atomWithin r) (exprWithin r)
end

def parseWithin (room n : Nat) (src : String) : Option (Except Raise Program) :=
  match Lexer.lex n src with
  | none => none
  | some (.error e) => some (.error e)
  | some (.ok toks) => (programLoopBy (exprWithin room) n ⟨[],[]⟩ ⟨toks,0,0,0⟩).map (fun r => r.map Prod.fst)

/- The room an expression needs at a depth where no chain is longer than `K`: the call itself, and for each
further level a chain, the operand behind it and the expression it may open. -/
def need (K k : Nat) : Nat := (maxExprDepth - k) * (K+2) + 1

section Room
variable {l : Nesting} {d k n c K r : Nat} {p q : Parser} {t : Tok}

theorem needLevel (room : k < maxExprDepth) : need K k = K + 1 + need K (k+1) + 1 := by
  have levels : maxExprDepth - k = maxExprDepth - (k+1) + 1 := by omega
  rw [need,need,levels,Nat.succ_mul]
  omega

/- No more than `c` tokens that nest unasked are ahead, a name before them or none. -/
def Ahead (name : Bool) (c : Nat) (p : Parser) : Prop := chainFrom 0 name (ahead p) ≤ c

theorem settledChain {name : Bool} : chainFrom 0 name (ahead (settle p)) = chainFrom 0 name (ahead p) := by
  unfold settle
  split
  · obtain ⟨newlines,same,all⟩ := newlinesAhead p
    rw [same]
    clear same
    induction newlines with
    | nil => rfl
    | cons t newlines ih =>
      have newline := all t List.mem_cons_self
      have more := ih fun u mem => all u (List.mem_cons_of_mem _ mem)
      cases t <;> first | exact more | cases newline
  · rfl

/- A name stands before the operand. -/
theorem nameArgAhead {what s : String} (here : Ahead true c p) (returned : Returns (nameArg what) p s q) : Ahead false c q := by
  have peeked : Returns peek p (ahead (settle p)).head? (settle p) := peekIs p
  rw [Returns,nameArg,next,bindAssoc,returnsThen peeked] at returned
  rw [Ahead,← settledChain] at here
  have never (q' : Parser) : ¬Returns (refuse what : ParseM String) q' s q := fun refused =>
    givesRefuse (p := fun _ => False) what _ _ _ refused
  cases ts : ahead (settle p) with
  | nil =>
    rw [ts] at returned
    exact (never _ returned).elim
  | cons t rest =>
    rw [ts] at returned here
    have past : ahead (skip (settle p) 1) = rest := aheadNext ts
    cases t
    case ident | str =>
      cases returned
      change chainFrom 0 false (ahead (skip (settle p) 1)) ≤ c
      rw [past]
      exact Nat.le_trans (chainNamed rfl) here
    all_goals exact (never _ returned).elim

/- What an operand needs where so many tokens that nest it are ahead. -/
def Roomy (K n : Nat) : Prop := ∀ l : Nesting, l.Live → ∀ d k,
  (∀ r, need K k ≤ r → Tracks True (Near K l d k) (expr n) (exprWithin r n) (fun _ => Ended (Near K) l d k)) ∧
  ∀ c r, c + 1 + need K k ≤ r →
    Tracks True (fun p p' => Near K l d k p p' ∧ Ahead false c p) (atom n) (atomWithin r n) (fun _ => Near K l d k)

theorem roomyExpr (before : ∀ m < n, Roomy K m) (live : l.Live) (enough : need K k ≤ r + 1) :
    Tracks True (Near K l d k) (expr n) (exprWithin (r+1) n) (fun _ => Ended (Near K) l d k) := by
  rw [← exprIs,exprWithin]
  cases n with
  | zero => exact tracksCut _
  | succ n =>
    refine exprByAbreast (nearFooting K) live fun room m less => ?_
    have fits : K + 1 + need K (k+1) ≤ r := by
      rw [needLevel room] at enough
      omega
    refine tracksFrom (fun p p' near => ⟨near,?_⟩) ((before m (Nat.lt_succ_of_lt less) l live d (k+1)).2 K r fits)
    exact Nat.le_trans chainLongest near.2.2.2

theorem roomyAtom (before : ∀ m < n, Roomy K m) (live : l.Live) (enough : c + need K k ≤ r) :
    Tracks True (fun p p' => Near K l d k p p' ∧ Ahead false c p) (atom n) (atomWithin (r+1) n) (fun _ => Near K l d k) := by
  rw [← atomIs,atomWithin]
  cases n with
  | zero => exact tracksCut _
  | succ n =>
    have F := nearFooting K
    have now := before n (Nat.lt_succ_self n) l live
    -- behind a token that nests it the operand has one token less ahead
    have operand : Tracks True (fun p p' => Near K l d k p p' ∧ c ≠ 0 ∧ Ahead false (c-1) p) (atom n) (atomWithin r n) (fun _ => Near K l d k) := by
      by_cases none_ : c = 0
      · exact tracksNever fun p p' both => both.2.1 none_
      · exact tracksFrom (fun p p' both => ⟨both.1,both.2.2⟩) ((now d k).2 (c-1) r (by omega))
    have taken (t : Tok) (is_ : inner t = true) {name : Bool} (one : ∀ ts, chainFrom 0 false (t :: ts) = chainFrom 0 name ts + 1) :
        Tracks True (fun p p' => At (Near K) l d k (some t) p p' ∧ Ahead false c p) advance advance
          (fun _ p p' => Near K l d k p p' ∧ c ≠ 0 ∧ Ahead name (c-1) p) := by
      have keeps : ∀ p u q, ((ahead p).head? = some t ∧ Ahead false c p) → Returns advance p u q → c ≠ 0 ∧ Ahead name (c-1) q := by
        rintro p u q ⟨here,chain⟩ returned
        obtain rfl := returnsUpdate.mp returned
        obtain ⟨rest,found⟩ := headCons here
        rw [Ahead,found,one] at chain
        have past : ahead (skip p 1) = rest := aheadNext found
        refine ⟨by omega,?_⟩
        change chainFrom 0 name (ahead (skip p 1)) ≤ c - 1
        rw [past]
        omega
      exact tracksFrom (fun p p' both => ⟨both.1,both.1.here,both.2⟩) (tracksAlso (tracksTake F live is_) keeps)
    refine atomByAbreast F live (fun p chain => ?_) (fun d => (now d k).1 r (by omega)) (fun t is_ => ?_) fun msg => ?_
    · rw [Ahead,settledChain]
      exact chain
    · exact tracksBind (taken t (unaryInner is_) (fun _ => chainUnary is_)) fun _ => operand
    · refine tracksBind (taken (.ident "resolve") rfl (fun _ => chainResolve)) fun _ => ?_
      have named : Tracks True (fun p p' => Near K l d k p p' ∧ c ≠ 0 ∧ Ahead true (c-1) p) (nameArg msg) (nameArg msg)
          (fun _ p p' => Near K l d k p p' ∧ c ≠ 0 ∧ Ahead false (c-1) p) :=
        tracksAlso (stableNameArg F live msg) fun p name q here returned => ⟨here.1,nameArgAhead here.2 returned⟩
      exact tracksBind named fun name => tracksBind operand fun genus => tracksPure fun _ _ near => near

theorem roomy (K n : Nat) : Roomy K n := by
  induction n using Nat.strongRecOn with
  | ind n ih =>
    refine fun l live d k => ⟨fun r enough => ?_,fun c r enough => ?_⟩
    · obtain ⟨r,rfl⟩ := Nat.exists_eq_add_of_le' (Nat.le_trans (Nat.succ_pos _) enough)
      exact roomyExpr ih live enough
    · obtain ⟨r,rfl⟩ := Nat.exists_eq_add_of_le' (Nat.le_trans (by omega : 1 ≤ c + 1 + need K k) enough)
      exact roomyAtom ih live (by omega)

theorem roomyTerms (enough : need K 0 ≤ r) : Terms True (Near K) 0 expr (exprWithin r) := fun l n live =>
  tracksTo (fun _ _ _ => endedRelated) ((roomy K n l live 0 0).1 r enough)

/- What is read with little room is read without bounds. -/
theorem withinSame (K n : Nat) (l : Nesting) (live : l.Live) (d k r : Nat) :
    Tracks True (Near K l d k) (exprWithin r n) (expr n) (fun _ => Ended (Near K) l d k) ∧
    Tracks True (Near K l d k) (atomWithin r n) (atom n) (fun _ => Near K l d k) := by
  induction n using Nat.strongRecOn generalizing d k r with
  | ind n ih =>
    cases r with
    | zero => exact ⟨tracksCut _,tracksCut _⟩
    | succ r =>
      rw [← exprIs,← atomIs,exprWithin,atomWithin]
      have F := nearFooting K
      cases n with
      | zero => exact ⟨tracksCut _,tracksCut _⟩
      | succ n =>
        have now (d : Nat) := ih n (Nat.lt_succ_self n) d k r
        exact ⟨exprByAbreast F live fun _ m less => (ih m (Nat.lt_succ_of_lt less) d (k+1) r).2,
          atomByAlike F live (fun d => (now d).1) (now d).2⟩

end Room

section Programs
variable {l : Nesting} {n K r : Nat} {x y : Nat → ParseM Expr}

theorem fugueNear (terms : Terms True (Near K) 0 x y) (n : Nat) :
    Tracks True (Near K .header 0 0) (fugueBy x n) (fugueBy y n) (fun _ => Near K .header 0 0) :=
  tracksBind (tracksHeading (nearFooting K) _ _ _) fun _ => fugueAbreast (nearFooting K) terms n 0 _

theorem versusNear (terms : Terms True (Near K) 0 x y) (n : Nat) :
    Tracks True (Near K .header 0 0) (versusBy x n) (versusBy y n) (fun _ => Near K .header 0 0) := by
  refine tracksBind (tracksHeading (nearFooting K) _ _ _) fun h => tracksBind (nearStrip (m := .inside 1) n) fun rhymes => ?_
  exact tracksBind (stmtsAbreast (nearFooting K) terms h.2.2 n 0) fun body => tracksPure fun _ _ near => near

theorem programNear (terms : Terms True (Near K) 0 x y) (n : Nat) (prog : Program) :
    Tracks True (Near K .header 0 0) (programLoopBy x n prog) (programLoopBy y n prog) (fun _ => Near K .header 0 0) := by
  induction n generalizing prog with
  | zero => exact tracksCut _
  | succ n ih =>
    have F := nearFooting K
    have live := Nesting.headerLive
    have word (kw : String) := stableKeyword (d := 0) (k := 0) F live kw
    refine tracksBind (tracksSkip F live) fun _ => tracksBind (tracksPeek F live) fun t => ?_
    refine tracksFrom (fun _ _ at_ => at_.related) ?_
    split
    · exact tracksPure fun _ _ near => near
    · refine tracksBind (word _) fun b => tracksIf (tracksBind (fugueNear terms n) fun f => ih _) ?_
      refine tracksBind (word _) fun b => tracksIf (tracksBind (versusNear terms n) fun v => ih _) ?_
      exact tracksRefuse (fun _ _ _ near => near.1) _

/- Readers of expressions of which the second reads what the first does parse a text alike. -/
theorem parseNear {toks : Lexer.Lexed} {a : Except Raise Program} (terms : Terms True (Near K) 0 x y) (chains : longest (toks.map Prod.fst) ≤ K)
    (h : (programLoopBy x n ⟨[],[]⟩ ⟨toks,0,0,0⟩).map (fun r => r.map Prod.fst) = some a) :
    (programLoopBy y n ⟨[],[]⟩ ⟨toks,0,0,0⟩).map (fun r => r.map Prod.fst) = some a := by
  have near : Near K .header 0 0 ⟨toks,0,0,0⟩ ⟨toks,0,0,0⟩ := ⟨rfl,rfl,rfl,chains⟩
  have same := programNear terms n ⟨[],[]⟩
  obtain ⟨out,ended,rfl⟩ := Option.map_eq_some_iff.mp h
  refine Option.map_eq_some_iff.mpr ⟨out,?_,rfl⟩
  cases out with
  | error e => exact same.fails trivial _ _ e near ended
  | ok out =>
    obtain ⟨q,returned,near'⟩ := same.returns _ _ out.1 out.2 near ended
    cases near'.1
    exact returned

/- With the room its longest chain needs a text is parsed as it is without bounds. -/
theorem parseRoomy {src : String} {a : Except Raise Program} (enough : need K 0 ≤ r)
    (chains : ∀ toks, Lexer.lex n src = some (.ok toks) → longest (toks.map Prod.fst) ≤ K) (h : parse n src = some a) :
    parseWithin r n src = some a := by
  unfold parse at h
  unfold parseWithin
  cases lexed : Lexer.lex n src with
  | none => rw [lexed] at h; cases h
  | some lexed_ =>
    rw [lexed] at h
    cases lexed_ with
    | error e => exact h
    | ok toks =>
      simp only [← programLoopIs] at h
      exact parseNear (roomyTerms enough) (chains toks lexed) h

/- The room only decides whether there is an answer. -/
theorem parseWithinSame {src : String} {a : Except Raise Program} (h : parseWithin r n src = some a) : parse n src = some a := by
  unfold parseWithin at h
  unfold parse
  cases lexed : Lexer.lex n src with
  | none => rw [lexed] at h; cases h
  | some lexed_ =>
    rw [lexed] at h
    cases lexed_ with
    | error e => exact h
    | ok toks =>
      simp only [← programLoopIs]
      exact parseNear (fun l n live => tracksTo (fun _ _ _ => endedRelated) (withinSame _ n l live 0 0 r).1) (Nat.le_refl _) h

end Programs

end Officium.Parser

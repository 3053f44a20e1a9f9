import Officium.Footing

/-! What reads, function by function, on the footing of two parsers: expressions, statements and the
items of a fugue are read alike. -/
namespace Officium.Parser
open Bounded
open Lexer (Tok)

section Expressions
variable {strict : Prop} {R : Relation} {l : Nesting} {d k n : Nat} {p p' : Parser}

theorem endedRelated (h : Ended R l d k p p') : R l d k p p' := h.elim fun _ at_ => at_.related

variable (F : Footing strict R)
include F

theorem tracksEnterExpr : Tracks strict (R l d k) enterExpr enterExpr (fun _ => R l d (k+1)) := by
  refine tracksUpdate fun p p' related => ?_
  have depths := (F.depths related).2
  have shape {p : Parser} (depth : p.exprDepth = k) : { p with exprDepth := p.exprDepth + 1 } = inExprs p (k+1) := by rw [inExprs,depth]
  rw [shape depths.1,shape depths.2]
  exact F.nested (k+1) related

omit F in
theorem leaveExprIs (depth : p.exprDepth = k + 1) : leaveExpr p = some (.ok ((),inExprs p k)) := by
  obtain rfl : k = p.exprDepth - 1 := by omega
  rw [leaveExpr,stateThen,if_neg (by omega)]
  rfl

theorem tracksLeaveExpr : Tracks strict (Ended R l d (k+1)) leaveExpr leaveExpr (fun _ => Ended R l d k) := by
  refine footed (fun p p' strictly ended => F.same strictly (endedRelated ended)) fun p p' a q ended returned => ?_
  obtain ⟨t,at_⟩ := ended
  have depths := (F.depths at_.related).2
  cases returned.symm.trans (leaveExprIs depths.1)
  exact ⟨_,leaveExprIs depths.2,t,F.nested k at_.related,at_.here,at_.here',at_.settled⟩

theorem tracksNotTooDeep {x y : ParseM Expr} {post : Expr → Parser → Parser → Prop} (h : k ≤ maxExprDepth → Tracks strict (R l d k) x y post) :
    Tracks strict (R l d k) (notTooDeep x) (notTooDeep y) post := by
  refine tracksState fun p p' related => ?_
  have depths := (F.depths related).2
  have kept : ∀ q q', q = p ∧ q' = p' → R l d k q q' := fun q q' same => by rw [same.1,same.2]; exact related
  rw [depths.1,depths.2]
  split
  · exact tracksFrom kept (tracksRefuse (fun _ _ strictly => F.same strictly) _)
  · rename_i room
    exact tracksFrom kept (h (Nat.le_of_not_lt room))

/- A token that stands before its one operand. -/
def unary : Tok → Bool
  | .minus => true
  | .ident s => s == "pure" || s == "leva" || s == "pone"
  | _ => false

omit F in
theorem unaryInner {t : Tok} (h : unary t = true) : inner t = true := by cases t <;> first | rfl | cases h

section Readers
variable {x y : Nat → ParseM Expr}

/- Two readers of operands, alike in fewer than `n` calls. -/
def Operands (strict : Prop) (R : Relation) (l : Nesting) (d k n : Nat) (x y : Nat → ParseM Expr) : Prop :=
  ∀ m < n, Tracks strict (R l d k) (x m) (y m) (fun _ => R l d k)

omit F in
theorem operandsFewer {m : Nat} (operands : Operands strict R l d k n x y) (le : m ≤ n) : Operands strict R l d k m x y :=
  fun i less => operands i (Nat.lt_of_lt_of_le less le)

theorem applicationLoopAbreast (live : l.Live) (operands : Operands strict R l d k n x y) (e : Expr) :
    Tracks strict (R l d k) (applicationLoopBy x n e) (applicationLoopBy y n e) (fun _ => Ended R l d k) := by
  induction n generalizing e with
  | zero => exact tracksCut _
  | succ n ih =>
    refine tracksBind (tracksStartsAtom F live) fun b => ?_
    cases b with
    | true =>
      refine tracksFrom (fun _ _ both => both.1) (tracksBind (operands n (Nat.lt_succ_self n)) fun a => ?_)
      exact ih (operandsFewer operands (Nat.le_succ n)) _
    | false => exact tracksPure fun _ _ both => both.2 rfl

theorem applicationAbreast (live : l.Live) (operands : Operands strict R l d k n x y) :
    Tracks strict (R l d k) (applicationBy x n) (applicationBy y n) (fun _ => Ended R l d k) := by
  cases n with
  | zero => exact tracksCut _
  | succ n =>
    refine tracksBind (operands n (Nat.lt_succ_self n)) fun e => ?_
    exact applicationLoopAbreast F live (operandsFewer operands (Nat.le_succ n)) e

/- An operator is a token of the expression. -/
omit F in
theorem additiveInner {t : Option Tok} {op : Sym} (h : additiveOp t = some op) : ∃ u, t = some u ∧ inner u = true := by
  unfold additiveOp at h
  split at h <;> first | exact ⟨_,rfl,rfl⟩ | cases h

omit F in
theorem multiplicativeInner {t : Option Tok} {op : Sym} (h : multiplicativeOp t = some op) : ∃ u, t = some u ∧ inner u = true := by
  unfold multiplicativeOp at h
  split at h <;> first | exact ⟨_,rfl,rfl⟩ | cases h

theorem operatorsAbreast {op : Option Tok → Option Sym} (live : l.Live)
    (operator : ∀ {t name}, op t = some name → ∃ u, t = some u ∧ inner u = true)
    (operands : ∀ m < n, Tracks strict (R l d k) (x m) (y m) (fun _ => Ended R l d k)) :
    Tracks strict (R l d k) (operatorsBy x op n) (operatorsBy y op n) (fun _ => Ended R l d k) := by
  have loop (m : Nat) (fewer : m ≤ n) : ∀ lhs, Tracks strict (R l d k) (operatorLoopBy x op m lhs) (operatorLoopBy y op m lhs) (fun _ => Ended R l d k) := by
    induction m with
    | zero => exact fun _ => tracksCut _
    | succ m ih =>
      refine fun lhs => tracksBind (tracksPeek F live) fun t => ?_
      split
      · exact tracksPure fun _ _ at_ => ⟨t,at_⟩
      · rename_i name found
        obtain ⟨u,rfl,is_⟩ := operator found
        refine tracksBind (tracksTake F live is_) fun _ => tracksBind (operands m fewer) fun rhs => ?_
        exact tracksFrom (fun _ _ => endedRelated) (ih (Nat.le_of_succ_le fewer) _)
  cases n with
  | zero => exact tracksCut _
  | succ n =>
    refine tracksBind (operands n (Nat.lt_succ_self n)) fun lhs => ?_
    exact tracksFrom (fun _ _ => endedRelated) (loop n (Nat.le_succ n) lhs)

theorem additiveAbreast (live : l.Live) (operands : Operands strict R l d k n x y) :
    Tracks strict (R l d k) (additiveBy x n) (additiveBy y n) (fun _ => Ended R l d k) := by
  refine operatorsAbreast F live additiveInner fun m less => operatorsAbreast F live multiplicativeInner fun m' less' => ?_
  exact applicationAbreast F live (operandsFewer operands (Nat.le_of_lt (Nat.lt_trans less' less)))

/- Nested too deeply the operands are not read at all. -/
theorem exprByAbreast (live : l.Live) (operands : k < maxExprDepth → Operands strict R l d (k+1) n x y) :
    Tracks strict (R l d k) (exprBy x (n+1)) (exprBy y (n+1)) (fun _ => Ended R l d k) := by
  have inside : Tracks strict (R l d (k+1)) (notTooDeep (additiveBy x n)) (notTooDeep (additiveBy y n)) (fun _ => Ended R l d (k+1)) :=
    tracksNotTooDeep F fun room => additiveAbreast F live (operands room)
  refine tracksBind (tracksEnterExpr F) fun _ => tracksBind inside fun e => ?_
  exact tracksBind (tracksLeaveExpr F) fun _ => tracksPure fun _ _ ended => ended

/- The operands of the tokens that nest them unasked may need more of the state than the relation says. -/
theorem atomByAbreast {term term' : Nat → ParseM Expr} {held : Parser → Prop} (live : l.Live) (settles : ∀ p, held p → held (settle p))
    (terms : ∀ d, Tracks strict (R l d k) (term n) (term' n) (fun _ => Ended R l d k))
    (operand : ∀ t, unary t = true → Tracks strict (fun p p' => At R l d k (some t) p p' ∧ held p)
      (advance >>= fun _ => x n) (advance >>= fun _ => y n) (fun _ => R l d k))
    (named : ∀ msg, Tracks strict (fun p p' => At R l d k (some (.ident "resolve")) p p' ∧ held p)
      (do advance; let name ← nameArg msg; let genus ← x n; pure (Expr.resolve name genus))
      (do advance; let name ← nameArg msg; let genus ← y n; pure (Expr.resolve name genus)) (fun _ => R l d k)) :
    Tracks strict (fun p p' => R l d k p p' ∧ held p) (atomBy x term (n+1)) (atomBy y term' (n+1)) (fun _ => R l d k) := by
  have taken {t : Tok} (is_ : inner t = true) : Tracks strict (fun p p' => At R l d k (some t) p p' ∧ held p) advance advance (fun _ => R l d k) :=
    tracksFrom (fun _ _ both => both.1) (tracksTake F live is_)
  have done (e : Expr) : Stable strict R l d k (pure e) := tracksPure fun _ _ related => related
  have ended (e : Expr) : Tracks strict (Ended R l d k) (pure e : ParseM Expr) (pure e) (fun _ => R l d k) := tracksPure fun _ _ => endedRelated
  have wraps (t : Tok) (is_ : unary t = true) (f : Expr → Expr) : Tracks strict (fun p p' => At R l d k (some t) p p' ∧ held p)
      (do advance; let e ← x n; pure (f e)) (do advance; let e ← y n; pure (f e)) (fun _ => R l d k) := by
    rw [← bindAssoc,← bindAssoc]
    exact tracksBind (operand t is_) fun e => done (f e)
  have held_ : Tracks strict (fun p p' => R l d k p p' ∧ held p) peek peek (fun t p p' => At R l d k t p p' ∧ held p) := by
    refine tracksAlso (tracksPeek F live) fun p t q here returned => ?_
    cases returned.symm.trans (peekIs p)
    exact settles p here
  refine tracksBind held_ fun t => ?_
  split
  · exact tracksBind (taken rfl) fun _ => done _
  · exact tracksBind (taken rfl) fun _ => done _
  · refine tracksFrom (fun _ _ both => both.1) (tracksParens F live (tracksBind (terms (d+1)) fun e => tracksClosed F live (done e)))
  · refine tracksBind (taken rfl) fun _ => tracksBind (stableIdent F live _) fun param => ?_
    exact tracksBind (stableExpect F (knownBare rfl) live rfl _) fun _ => tracksBind (terms d) fun body => ended _
  · exact wraps .minus rfl (call2 "sub" (.lit (.num 0)))
  · rename_i s
    by_cases resolve : s = "resolve"
    · subst resolve
      exact named _
    by_cases one : unary (.ident s) = true
    · simp only [unary,Bool.or_eq_true,beq_iff_eq] at one
      rcases one with (rfl | rfl) | rfl
      · exact wraps (.ident "pure") rfl (.pure .dorian)
      · exact wraps (.ident "leva") rfl .lift
      · exact wraps (.ident "pone") rfl .pone
    · refine tracksBind (taken rfl) fun _ => ?_
      split
      case h_5 => exact tracksBind (stableNameArg F live _) fun name => done _
      case h_6 => exact absurd rfl resolve
      case h_7 | h_8 | h_9 => exact absurd rfl one
      all_goals exact done _
  · exact tracksRefuse (fun p p' strictly both => atSame F p p' strictly both.1) _

/- And where they do not. -/
theorem atomByAlike {term term' : Nat → ParseM Expr} (live : l.Live) (terms : ∀ d, Tracks strict (R l d k) (term n) (term' n) (fun _ => Ended R l d k))
    (operand : Tracks strict (R l d k) (x n) (y n) (fun _ => R l d k)) :
    Tracks strict (R l d k) (atomBy x term (n+1)) (atomBy y term' (n+1)) (fun _ => R l d k) := by
  have taken {t : Tok} (is_ : inner t = true) : Tracks strict (fun p p' => At R l d k (some t) p p' ∧ True) advance advance (fun _ => R l d k) :=
    tracksFrom (fun _ _ both => both.1) (tracksTake F live is_)
  refine tracksFrom (fun _ _ related => (⟨related,trivial⟩ : _ ∧ True)) (atomByAbreast F live (fun _ _ => trivial) terms ?_ ?_)
  · exact fun t is_ => tracksBind (taken (unaryInner is_)) fun _ => operand
  · intro msg
    refine tracksBind (taken rfl) fun _ => tracksBind (stableNameArg F live _) fun name => ?_
    exact tracksBind operand fun genus => tracksPure fun _ _ related => related

end Readers

/- With the parser's own operands on both sides. -/
theorem descentAbreast (live : l.Live) (n : Nat) : (∀ d k, Tracks strict (R l d k) (expr n) (expr n) (fun _ => Ended R l d k)) ∧
    ∀ d k, Stable strict R l d k (atom n) := by
  induction n using Nat.strongRecOn with
  | ind n ih =>
    rw [← exprIs,← atomIs]
    cases n with
    | zero => exact ⟨fun _ _ => tracksCut _,fun _ _ => tracksCut _⟩
    | succ n =>
      have now := ih n (Nat.lt_succ_self n)
      exact ⟨fun d k => exprByAbreast F live fun _ m less => (ih m (Nat.lt_succ_of_lt less)).2 d (k+1),
        fun d k => atomByAlike F live (fun d => now.1 d k) (now.2 d k)⟩

theorem exprAbreast (live : l.Live) (n d k : Nat) : Tracks strict (R l d k) (expr n) (expr n) (fun _ => Ended R l d k) :=
  (descentAbreast F live n).1 d k

end Expressions

section Statements
variable {strict : Prop} {R : Relation} {l : Nesting} {k d : Nat} {x y : Nat → ParseM Expr}

/- Two readers of expressions that read alike outside parentheses. -/
def Terms (strict : Prop) (R : Relation) (k : Nat) (x y : Nat → ParseM Expr) : Prop :=
  ∀ (l : Nesting) (n : Nat), l.Live → Tracks strict (R l 0 k) (x n) (y n) (fun _ => R l 0 k)

variable (F : Footing strict R)
include F

theorem exprTerms (k : Nat) : Terms strict R k expr expr := fun _ n live => tracksTo (fun _ _ _ => endedRelated) (exprAbreast F live n 0 k)

theorem stmtsAbreast (terms : Terms strict R k x y) (mode : Mode) (n d : Nat) :
    Tracks strict (R (.inside (d+1)) 0 k) (stmtsBy x mode n) (stmtsBy y mode n) (fun _ => R (.inside d) 0 k) := by
  induction n generalizing d with
  | zero => exact tracksCut _
  | succ n ih =>
    have live := Nesting.insideLive (d := d)
    have term := terms (.inside (d+1)) n live
    have word (kw : String) := stableKeyword (d := 0) (k := k) F live kw
    have refused (msg : String) : Tracks strict (R (.inside (d+1)) 0 k) (refuse msg : ParseM Expr) (refuse msg) (fun _ => R (.inside d) 0 k) :=
      tracksRefuse (fun _ _ strictly => F.same strictly) msg
    have done (e : Expr) : Tracks strict (R (.inside d) 0 k) (pure e : ParseM Expr) (pure e) (fun _ => R (.inside d) 0 k) :=
      tracksPure fun _ _ related => related
    have cadence (f : Expr → Expr) : Tracks strict (R (.inside (d+1)) 0 k) (do let e ← x n; closeStmts; pure (f e) : ParseM Expr)
        (do let e ← y n; closeStmts; pure (f e)) (fun _ => R (.inside d) 0 k) :=
      tracksBind term fun e => tracksBind (tracksCloseStmts F) fun _ => done _
    have bound (f : Expr → Expr → Expr) : Tracks strict (R (.inside (d+1)) 0 k)
        (do let e ← x n; let rest ← stmtsBy x mode n; pure (f e rest) : ParseM Expr)
        (do let e ← y n; let rest ← stmtsBy y mode n; pure (f e rest)) (fun _ => R (.inside d) 0 k) :=
      tracksBind term fun e => tracksBind (ih d) fun rest => done _
    have skips := tracksSkip (k := k) F live
    have opens (msg : String) := tracksOpen (k := k) F live rfl msg
    unfold stmtsBy
    refine tracksBind skips fun _ => tracksBind (word _) fun b => tracksIf (cadence _) ?_
    refine tracksBind (word _) fun b => tracksIf (tracksBind (tracksCloseStmts F) fun _ => done _) ?_
    refine tracksBind (word _) fun b => tracksIf (cadence _) ?_
    refine tracksBind (word _) fun b => tracksIf (cadence _) ?_
    refine tracksBind (word _) fun b => tracksIf ?_ ?_
    · refine tracksBind term fun c => tracksBind (word _) fun b => tracksIf (refused _) ?_
      refine tracksBind skips fun _ => tracksBind (opens _) fun _ => tracksBind (ih (d+1)) fun t => ?_
      refine tracksBind skips fun _ => tracksBind (word _) fun b => tracksIf (refused _) ?_
      refine tracksBind skips fun _ => tracksBind (opens _) fun _ => tracksBind (ih (d+1)) fun e => ?_
      exact tracksBind (tracksCloseStmts F) fun _ => done _
    refine tracksBind (word _) fun b => tracksIf (bound _) ?_
    refine tracksBind (word _) fun b => tracksIf (bound _) ?_
    refine tracksBind (stableIdent F live _) fun name => tracksBind (stableExpect F (knownBare rfl) live rfl _) fun _ => ?_
    exact bound fun e rest => .bind mode e name rest

theorem stableFinalAndMode (live : l.Live) : Stable strict R l 0 k finalAndMode := by
  refine tracksBind (stableIdent F live _) fun name => ?_
  split <;> first | exact tracksPure fun _ _ related => related | exact tracksRefuse (fun _ _ strictly => F.same strictly) _

theorem tracksHeading (nameMsg inMsg braceMsg : String) :
    Tracks strict (R .header 0 k) (heading nameMsg inMsg braceMsg) (heading nameMsg inMsg braceMsg) (fun _ => R (.inside 0) 0 k) := by
  have live := Nesting.headerLive
  refine tracksBind (stableIdent F live _) fun name => tracksBind (stableKeyword F live _) fun b => tracksIf ?_ ?_
  · exact tracksRefuse (fun _ _ strictly => F.same strictly) _
  · refine tracksBind (stableFinalAndMode F live) fun final_ => tracksBind (tracksSkip F live) fun _ => ?_
    exact tracksBind (tracksOpen F live rfl _) fun _ => tracksPure fun _ _ related => related

theorem tracksOverload (terms : Terms strict R k x y) (live : l.Live) (n : Nat) :
    Tracks strict (R l 0 k) (overloadBy x n) (overloadBy y n) (fun _ => R l 0 k) := by
  refine tracksBind (stableIdent F live _) fun name => tracksBind (stableExpect F (knownBare rfl) live rfl _) fun _ => ?_
  refine tracksBind (stableAssigned F live _ _) fun genus => ?_
  exact tracksBind (terms l n live) fun e => tracksPure fun _ _ related => related

theorem tracksSubiectum (terms : Terms strict R k x y) (live : l.Live) (n : Nat) :
    Tracks strict (R l 0 k) (subiectumBy x n) (subiectumBy y n) (fun _ => R l 0 k) := by
  refine tracksBind (stableIdent F live _) fun name => tracksBind (stableParameter F live) fun param => ?_
  exact tracksBind (terms l n live) fun e => tracksPure fun _ _ related => related

theorem stablePedale (live : l.Live) : Stable strict R l 0 k pedale := by
  rw [pedaleIs]
  refine tracksBind (stableAssigned F live _ _) fun name => ?_
  exact tracksBind (stableLiteral F live) fun v => tracksPure fun _ _ related => related

theorem fugueAbreast (terms : Terms strict R k x y) (n d : Nat) (f : Fugue) :
    Tracks strict (R (.inside (d+1)) 0 k) (fugueLoopBy x n f) (fugueLoopBy y n f) (fun _ => R (.inside d) 0 k) := by
  induction n generalizing f with
  | zero => exact tracksCut _
  | succ n ih =>
    have live := Nesting.insideLive (d := d)
    have word (kw : String) := stableKeyword (d := 0) (k := k) F live kw
    unfold fugueLoopBy
    refine tracksBind (tracksSkip F live) fun _ => ?_
    refine tracksBind (tracksEat F (knownBare rfl) live (tracksBrace F live (.inr rfl) rfl)) fun b => ?_
    cases b with
    | true => exact tracksPure fun _ _ related => related
    | false =>
      refine tracksBind (word _) fun b => tracksIf (tracksBind (stablePedale F live) fun p => ih _) ?_
      refine tracksBind (word _) fun b => tracksIf (tracksBind (tracksSubiectum F terms live n) fun s => ih _) ?_
      refine tracksBind (word _) fun b => tracksIf (tracksBind (tracksOverload F terms live n) fun o => ih _) ?_
      refine tracksBind (word _) fun b => tracksIf (tracksBind (tracksOverload F terms live n) fun o => ih _) ?_
      refine tracksBind (word _) fun b => tracksIf (tracksBind (terms _ n live) fun e => ih _) ?_
      exact tracksRefuse (fun _ _ strictly => F.same strictly) _

end Statements

end Officium.Parser

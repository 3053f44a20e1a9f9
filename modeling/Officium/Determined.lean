import Officium.Parser

/-! The bound on the front end's nesting only decides whether there is an answer: a text that parses
is one program. -/
namespace Officium.Parser
open Bounded (Comp Below belowRefl belowCut belowBind)
open Lexer (Tok Lexed)

section Descending
variable {n m : Nat}

theorem belowAfter {α β : Type} {x : ParseM α} {f g : α → ParseM β} (rest : ∀ a, Below (f a) (g a)) : Below (x >>= f) (x >>= g) :=
  belowBind (belowRefl x) rest

theorem belowIf {α : Type} {c : Bool} {x x' y y' : ParseM α} (yes : Below x x') (no : Below y y') :
    Below (if c then x else y) (if c then x' else y') := by
  split
  · exact yes
  · exact no

/- The functions of the descent, cut off after `n` calls and after `m`. -/
structure Deeper (n m : Nat) : Prop where
  expr : Below (expr n) (expr m)
  additive : Below (additive n) (additive m)
  additiveLoop : ∀ e, Below (additiveLoop n e) (additiveLoop m e)
  multiplicative : Below (multiplicative n) (multiplicative m)
  multiplicativeLoop : ∀ e, Below (multiplicativeLoop n e) (multiplicativeLoop m e)
  application : Below (application n) (application m)
  applicationLoop : ∀ e, Below (applicationLoop n e) (applicationLoop m e)
  atom : Below (atom n) (atom m)

theorem deeperCut (m : Nat) : Deeper 0 m where
  expr := belowCut _
  additive := belowCut _
  additiveLoop := fun _ => belowCut _
  multiplicative := belowCut _
  multiplicativeLoop := fun _ => belowCut _
  application := belowCut _
  applicationLoop := fun _ => belowCut _
  atom := belowCut _

theorem atomDeeper (d : Deeper n m) : Below (atom (n+1)) (atom (m+1)) := by
  unfold atom
  refine belowAfter (fun t => ?_)
  split
  · exact belowRefl _
  · exact belowRefl _
  · exact belowAfter (fun _ => belowAfter (fun _ => belowBind d.expr (fun e => belowRefl _)))
  · exact belowAfter (fun _ => belowAfter (fun _ => belowAfter (fun _ => belowBind d.expr (fun e => belowRefl _))))
  · exact belowAfter (fun _ => belowBind d.atom (fun e => belowRefl _))
  · refine belowAfter (fun _ => ?_)
    split
    case h_6 => exact belowAfter (fun _ => belowBind d.atom (fun _ => belowRefl _))
    case h_7 | h_8 | h_9 => exact belowBind d.atom (fun _ => belowRefl _)
    all_goals exact belowRefl _
  · exact belowRefl _

theorem deeperStep (d : Deeper n m) : Deeper (n+1) (m+1) where
  expr := by
    unfold expr
    refine belowAfter (fun _ => belowBind (belowAfter (fun p => ?_)) (fun _ => belowRefl _))
    split
    · exact belowRefl _
    · exact d.additive
  additive := belowBind d.multiplicative (fun e => d.additiveLoop e)
  additiveLoop := by
    intro lhs
    unfold additiveLoop
    refine belowAfter (fun t => ?_)
    split
    · exact belowRefl _
    · exact belowAfter (fun _ => belowBind d.multiplicative (fun e => d.additiveLoop _))
  multiplicative := belowBind d.application (fun e => d.multiplicativeLoop e)
  multiplicativeLoop := by
    intro lhs
    unfold multiplicativeLoop
    refine belowAfter (fun t => ?_)
    split
    · exact belowRefl _
    · exact belowAfter (fun _ => belowBind d.application (fun e => d.multiplicativeLoop _))
  application := belowBind d.atom (fun e => d.applicationLoop e)
  applicationLoop := by
    intro e
    unfold applicationLoop
    exact belowAfter (fun _ => belowIf (belowBind d.atom (fun a => d.applicationLoop _)) (belowRefl _))
  atom := atomDeeper d

theorem deeper (le : n ≤ m) : Deeper n m := by
  induction n generalizing m with
  | zero => exact deeperCut m
  | succ n ih =>
    obtain ⟨m,rfl⟩ := Nat.exists_eq_add_of_le' (Nat.le_trans (Nat.succ_pos n) le)
    exact deeperStep (ih (Nat.le_of_succ_le_succ le))

theorem exprBelow (le : n ≤ m) : Below (expr n) (expr m) := (deeper le).expr

end Descending

section Scores
variable {n m : Nat} {mode : Mode}

theorem stmtsBelow (le : n ≤ m) : Below (stmts mode n) (stmts mode m) := by
  induction n generalizing m with
  | zero => exact belowCut _
  | succ n ih =>
    obtain ⟨m,rfl⟩ := Nat.exists_eq_add_of_le' (Nat.le_trans (Nat.succ_pos n) le)
    have less := Nat.le_of_succ_le_succ le
    have again := ih less
    unfold stmts
    refine belowAfter (fun _ => belowAfter (fun _ => belowIf (belowBind (exprBelow less) (fun _ => belowRefl _)) ?_))
    refine belowAfter (fun _ => belowIf (belowRefl _) ?_)
    refine belowAfter (fun _ => belowIf (belowBind (exprBelow less) (fun _ => belowRefl _)) ?_)
    refine belowAfter (fun _ => belowIf (belowBind (exprBelow less) (fun _ => belowRefl _)) ?_)
    refine belowAfter (fun _ => belowIf ?_ ?_)
    · refine belowBind (exprBelow less) (fun _ => belowAfter (fun _ => belowIf (belowRefl _) ?_))
      refine belowAfter (fun _ => belowAfter (fun _ => belowBind again (fun _ => belowAfter (fun _ => belowAfter (fun _ => ?_)))))
      exact belowIf (belowRefl _) (belowAfter (fun _ => belowAfter (fun _ => belowBind again (fun _ => belowRefl _))))
    · refine belowAfter (fun _ => belowIf (belowBind (exprBelow less) (fun _ => belowBind again (fun _ => belowRefl _))) ?_)
      refine belowAfter (fun _ => belowIf (belowBind (exprBelow less) (fun _ => belowBind again (fun _ => belowRefl _))) ?_)
      exact belowAfter (fun _ => belowAfter (fun _ => belowBind (exprBelow less) (fun _ => belowBind again (fun _ => belowRefl _))))

theorem overloadBelow (le : n ≤ m) : Below (overload n) (overload m) :=
  belowAfter (fun _ => belowAfter (fun _ => belowAfter (fun _ => belowAfter (fun _ => belowBind (exprBelow le) (fun _ => belowRefl _)))))

theorem subiectumBelow (le : n ≤ m) : Below (subiectum n) (subiectum m) :=
  belowAfter (fun _ => belowAfter (fun _ => belowAfter (fun _ => belowAfter (fun _ => belowAfter (fun _ => belowAfter (fun _ =>
    belowAfter (fun _ => belowBind (exprBelow le) (fun _ => belowRefl _))))))))

theorem fugueLoopBelow (le : n ≤ m) (f : Fugue) : Below (fugueLoop n f) (fugueLoop m f) := by
  induction n generalizing m f with
  | zero => exact belowCut _
  | succ n ih =>
    obtain ⟨m,rfl⟩ := Nat.exists_eq_add_of_le' (Nat.le_trans (Nat.succ_pos n) le)
    have less := Nat.le_of_succ_le_succ le
    unfold fugueLoop
    refine belowAfter (fun _ => belowAfter (fun _ => belowIf (belowRefl _) ?_))
    refine belowAfter (fun _ => belowIf (belowAfter (fun _ => ih less _)) ?_)
    refine belowAfter (fun _ => belowIf (belowBind (subiectumBelow less) (fun _ => ih less _)) ?_)
    refine belowAfter (fun _ => belowIf (belowBind (overloadBelow less) (fun _ => ih less _)) ?_)
    refine belowAfter (fun _ => belowIf (belowBind (overloadBelow less) (fun _ => ih less _)) ?_)
    exact belowAfter (fun _ => belowIf (belowBind (exprBelow less) (fun _ => ih less _)) (belowRefl _))

theorem fugueBelow (le : n ≤ m) : Below (fugue n) (fugue m) :=
  belowAfter (fun _ => belowAfter (fun _ => belowIf (belowRefl _) (belowAfter (fun _ => belowAfter (fun _ => belowAfter (fun _ =>
    fugueLoopBelow le _))))))

theorem stripLoopBelow (le : n ≤ m) (j depth : Nat) (atLineStart : Bool) (rhymes : List (Char × String)) :
    Below (stripLoop n j depth atLineStart rhymes) (stripLoop m j depth atLineStart rhymes) := by
  induction n generalizing m j depth atLineStart rhymes with
  | zero => exact belowCut _
  | succ n ih =>
    obtain ⟨m,rfl⟩ := Nat.exists_eq_add_of_le' (Nat.le_trans (Nat.succ_pos n) le)
    have again := fun j depth als rhymes => ih (Nat.le_of_succ_le_succ le) j depth als rhymes
    unfold stripLoop
    refine belowAfter (fun p => ?_)
    split
    · exact belowRefl _
    · exact again _ _ _ _
    · split
      · exact belowRefl _
      · exact again _ _ _ _
    · exact again _ _ _ _
    · split
      · split
        · exact belowAfter (fun _ => again _ _ _ _)
        · exact belowRefl _
      · exact again _ _ _ _
    · exact again _ _ _ _

theorem liturgicalStripBelow (le : n ≤ m) : Below (liturgicalStrip n) (liturgicalStrip m) := by
  refine belowAfter (fun p => belowIf (belowRefl _) ?_)
  exact belowBind (stripLoopBelow le _ _ _ _) (fun _ => belowRefl _)

theorem versusBelow (le : n ≤ m) : Below (versus n) (versus m) :=
  belowAfter (fun _ => belowAfter (fun _ => belowIf (belowRefl _) (belowAfter (fun _ => belowAfter (fun _ => belowAfter (fun _ =>
    belowBind (liturgicalStripBelow le) (fun _ => belowBind (stmtsBelow le) (fun _ => belowRefl _))))))))

theorem programLoopBelow (le : n ≤ m) (prog : Program) : Below (programLoop n prog) (programLoop m prog) := by
  induction n generalizing m prog with
  | zero => exact belowCut _
  | succ n ih =>
    obtain ⟨m,rfl⟩ := Nat.exists_eq_add_of_le' (Nat.le_trans (Nat.succ_pos n) le)
    have less := Nat.le_of_succ_le_succ le
    unfold programLoop
    refine belowAfter (fun _ => belowAfter (fun _ => belowIf (belowRefl _) ?_))
    refine belowAfter (fun _ => belowIf (belowBind (fugueBelow less) (fun _ => ih less _)) ?_)
    exact belowAfter (fun _ => belowIf (belowBind (versusBelow less) (fun _ => ih less _)) (belowRefl _))

end Scores

section Parsing
variable {n m line : Nat} {toks : Lexed} {bytes : List UInt8} {r : Except Raise Lexed} {src : String} {prog prog' : Program}

theorem lexLoopBelow (le : n ≤ m) (h : Lexer.lexLoop n toks line bytes = some r) : Lexer.lexLoop m toks line bytes = some r := by
  induction n generalizing m toks line bytes with
  | zero =>
    cases bytes with
    | nil => rw [← h]; cases m <;> rfl
    | cons c rest => cases h
  | succ n ih =>
    obtain ⟨m,rfl⟩ := Nat.exists_eq_add_of_le' (Nat.le_trans (Nat.succ_pos n) le)
    have again {toks line bytes} (h : Lexer.lexLoop n toks line bytes = some r) : Lexer.lexLoop m toks line bytes = some r :=
      ih (Nat.le_of_succ_le_succ le) h
    cases bytes with
    | nil => exact h
    | cons c rest =>
      revert h
      rw [Lexer.lexLoop.eq_def (n+1),Lexer.lexLoop.eq_def (m+1)]
      simp only
      generalize Char.ofNat c.toNat = k
      split
      case h_1 => split <;> exact again
      case h_5 => split <;> exact again
      case h_16 | h_17 =>
        split
        · exact again
        · first | exact again | exact id
      case h_18 =>
        split
        · split
          · exact again
          · exact id
        · exact id
      case h_19 =>
        split
        · split
          · exact again
          · exact id
        · split
          · exact again
          · exact id
      all_goals exact again

/- A larger bound gives the same answer. -/
theorem parseBelow {r : Except Raise Program} (le : n ≤ m) (h : parse n src = some r) : parse m src = some r := by
  unfold parse at h ⊢
  cases lexed : Lexer.lex n src with
  | none => rw [lexed] at h; cases h
  | some toks =>
    have lexed' : Lexer.lex m src = some toks := lexLoopBelow le lexed
    rw [lexed] at h
    rw [lexed']
    cases toks with
    | error e => exact h
    | ok toks =>
      simp only at h ⊢
      cases read : programLoop n ⟨[],[]⟩ ⟨toks,0,0,0⟩ with
      | none => rw [read] at h; cases h
      | some q =>
        rw [read] at h
        rw [programLoopBelow le _ _ _ read]
        exact h

theorem parsesUnique (h : Parses src prog) (h' : Parses src prog') : prog = prog' := by
  obtain ⟨n,found⟩ := h
  obtain ⟨m,found'⟩ := h'
  have same := (parseBelow (Nat.le_max_left n m) found).symm.trans (parseBelow (Nat.le_max_right n m) found')
  cases same
  rfl

end Parsing

end Officium.Parser

import Officium.Inference

/-! The bound on the checker's nesting only decides whether there is an answer: a larger bound
gives the same one. -/
namespace Officium.Check
open Bounded (Comp Below belowRefl belowCut belowBind belowMapError)

/- `check_versus` returns `r`. -/
def Judges (prog : Program) (v : Versus) (r : Except Raise Unit) : Prop := ∃ n, checkVersus prog n v = some r

section Unifying
variable {n m : Nat}

theorem shallowBelow (le : n ≤ m) (t : Ty) : Below (shallow n t) (shallow m t) := by
  induction n generalizing m t with
  | zero => exact belowCut _
  | succ n ih =>
    obtain ⟨m,rfl⟩ := Nat.exists_eq_add_of_le' (Nat.le_trans (Nat.succ_pos n) le)
    cases t with
    | var i =>
      refine belowBind (belowRefl _) (fun c => ?_)
      cases c.subst[i]? with
      | none => exact belowRefl _
      | some b =>
        cases b with
        | none => exact belowRefl _
        | some next => exact ih (Nat.le_of_succ_le_succ le) next
    | _ => exact belowRefl _

theorem occursBelow (le : n ≤ m) (i : Nat) (t : Ty) : Below (occurs n i t) (occurs m i t) := by
  induction n generalizing m t with
  | zero => exact belowCut _
  | succ n ih =>
    obtain ⟨m,rfl⟩ := Nat.exists_eq_add_of_le' (Nat.le_trans (Nat.succ_pos n) le)
    have less := Nat.le_of_succ_le_succ le
    refine belowBind (shallowBelow less t) (fun t => ?_)
    cases t with
    | fn a r =>
      refine belowBind (ih less a) (fun inside => ?_)
      cases inside with
      | true => exact belowRefl _
      | false => exact ih less r
    | _ => exact belowRefl _

theorem assignBelow (le : n ≤ m) (i : Nat) (t : Ty) : Below (assign n i t) (assign m i t) :=
  belowBind (occursBelow le i t) (fun _ => belowRefl _)

theorem unifyBelow (le : n ≤ m) (a b : Ty) : Below (unify n a b) (unify m a b) := by
  induction n generalizing m a b with
  | zero => exact belowCut _
  | succ n ih =>
    obtain ⟨m,rfl⟩ := Nat.exists_eq_add_of_le' (Nat.le_trans (Nat.succ_pos n) le)
    have less := Nat.le_of_succ_le_succ le
    refine belowBind (shallowBelow less a) (fun a => belowBind (shallowBelow less b) (fun b => ?_))
    split
    · split
      · exact belowRefl _
      · exact assignBelow less _ _
    · exact assignBelow less _ _
    · exact assignBelow less _ _
    · exact belowBind (ih less _ _) (fun _ => ih less _ _)
    · exact belowRefl _

theorem checkEachBelow (le : n ≤ m) (preds : List Pred) : Below (checkEach n preds) (checkEach m preds) := by
  induction preds with
  | nil => exact belowRefl _
  | cons p rest ih => exact belowBind (belowBind (shallowBelow le p.ty) (fun _ => belowRefl _)) (fun _ => ih)

end Unifying

section Walk
variable {c : Checker} {n m : Nat} {mode : Mode} {Γ : Gamma}

theorem fitBelow (le : n ≤ m) (walk : ∀ e, Below (infer c n mode Γ e) (infer c m mode Γ e)) (name : Sym) (r : Ty)
    (os : List Overload) : Below (fitOverloads n (infer c n mode Γ) name r os) (fitOverloads m (infer c m mode Γ) name r os) := by
  induction os with
  | nil => exact belowRefl _
  | cons o rest ih =>
    unfold fitOverloads
    split
    · exact belowBind (walk o.2) (fun t => belowBind (unifyBelow le t r) (fun _ => ih))
    · exact ih

theorem stmtBelow (le : n ≤ m) (walk : ∀ e, Below (infer c n mode Γ e) (infer c m mode Γ e)) (e : Expr) :
    Below (inferStmt c.cells n (infer c n mode Γ) mode e) (inferStmt c.cells m (infer c m mode Γ) mode e) := by
  unfold inferStmt
  split
  · exact belowBind (belowRefl _) (fun _ => belowBind (walk _) (fun t => belowBind (unifyBelow le t _) (fun _ => belowRefl _)))
  · exact belowBind (belowRefl _) (fun _ => belowBind (walk _) (fun _ => belowRefl _))
  · exact belowBind (walk _) (fun _ => belowRefl _)

theorem inferBelow (le : n ≤ m) (mode : Mode) (Γ : Gamma) (e : Expr) : Below (infer c n mode Γ e) (infer c m mode Γ e) := by
  induction n generalizing m mode Γ e with
  | zero => exact belowCut _
  | succ n ih =>
    obtain ⟨m,rfl⟩ := Nat.exists_eq_add_of_le' (Nat.le_trans (Nat.succ_pos n) le)
    have less := Nat.le_of_succ_le_succ le
    have walk := fun mode Γ e => ih less mode Γ e
    have met := fun a b => unifyBelow less a b
    cases e with
    | lit | var | arg | ask | nihil | lege => exact belowRefl _
    | lam x body => exact belowBind (belowRefl _) (fun a => belowBind (walk mode _ body) (fun _ => belowRefl _))
    | app f a =>
      exact belowBind (walk mode Γ f) (fun tf => belowBind (walk mode Γ a) (fun ta =>
        belowBind (belowRefl _) (fun r => belowBind (met tf _) (fun _ => belowRefl _))))
    | ifE cond t e =>
      exact belowBind (walk mode Γ cond) (fun tc => belowBind (met tc _) (fun _ => belowBind (walk mode Γ t) (fun tt =>
        belowBind (walk mode Γ e) (fun te => belowBind (met tt te) (fun _ => belowRefl _)))))
    | fix f =>
      exact belowBind (walk mode Γ f) (fun tf => belowBind (belowRefl _) (fun a =>
        belowBind (met tf _) (fun _ => belowRefl _)))
    | pure tag e => exact walk mode Γ e
    | lift e => exact belowBind (belowRefl _) (fun _ => walk _ Γ e)
    | ret tag e => exact belowBind (walk mode Γ e) (fun t => belowBind (met t _) (fun _ => belowRefl _))
    | bind tag s x k => exact belowBind (stmtBelow less (walk mode Γ) s) (fun b => walk mode _ k)
    | resolve name genus =>
      exact belowBind (walk mode Γ genus) (fun tg => belowBind (met tg _) (fun _ => belowBind (belowRefl _) (fun r =>
        belowBind (fitBelow less (walk mode Γ) name r _) (fun _ => belowRefl _))))
    | clama e =>
      exact belowBind (belowRefl _) (fun _ => belowBind (walk mode Γ e) (fun t =>
        belowBind (met t _) (fun _ => belowRefl _)))
    | recipe body x handler =>
      exact belowBind (belowRefl _) (fun _ => belowBind (walk mode Γ body) (fun tb =>
        belowBind (walk mode _ handler) (fun th => belowBind (met tb th) (fun _ => belowRefl _))))
    | pone e =>
      exact belowBind (belowRefl _) (fun _ => belowBind (walk mode Γ e) (fun t =>
        belowBind (met t _) (fun _ => belowRefl _)))
    | mitte e => exact belowBind (belowRefl _) (fun _ => belowBind (walk mode Γ e) (fun _ => belowRefl _))
    | perage e =>
      exact belowBind (belowRefl _) (fun _ => belowBind (walk mode Γ e) (fun t => belowBind (met t _) (fun _ =>
        belowBind (met _ _) (fun _ => belowRefl _))))

theorem spineBelow (le : n ≤ m) (Γ : Gamma) (e : Expr) : Below (inferSpine c n mode Γ e) (inferSpine c m mode Γ e) := by
  fun_induction inferSpine c n mode Γ e with
  | case1 Γ tag s x k ih =>
    rw [inferSpine]
    exact belowBind (stmtBelow le (inferBelow le mode Γ) s) (fun b => belowBind (ih b) (fun _ => belowRefl _))
  | case2 Γ e last =>
    rw [inferSpine]
    · exact belowBind (inferBelow le mode Γ e) (fun _ => belowRefl _)
    · exact last

end Walk

section Verses
variable {n m : Nat}

theorem rhymeWithBelow (le : n ≤ m) (v : Versus) (i : Nat) (label : Char) (a : Ty) (j : Nat) (lines : List (Char × Ty)) :
    Below (rhymeWith v n i label a j lines) (rhymeWith v m i label a j lines) := by
  induction lines generalizing j with
  | nil => exact belowRefl _
  | cons line rest ih =>
    unfold rhymeWith
    split
    · exact belowBind (belowMapError _ (unifyBelow le a line.2)) (fun _ => ih (j+1))
    · exact ih (j+1)

theorem rhymeAllBelow (le : n ≤ m) (v : Versus) (i : Nat) (lines : List (Char × Ty)) :
    Below (rhymeAll v n i lines) (rhymeAll v m i lines) := by
  induction lines generalizing i with
  | nil => exact belowRefl _
  | cons line rest ih => exact belowBind (rhymeWithBelow le v i line.1 line.2 (i+1) rest) (fun _ => ih (i+1))

theorem versusBelow (le : n ≤ m) (c : Checker) (v : Versus) : Below (inferVersus c n v) (inferVersus c m v) := by
  unfold inferVersus
  split
  · exact belowBind (belowMapError _ (inferBelow le v.mode [] v.body)) (fun _ => belowRefl _)
  · exact belowBind (belowMapError _ (spineBelow le [] v.body)) (fun _ => rhymeAllBelow le v 1 _)

theorem checkVersusInBelow (le : n ≤ m) (prog : Program) (v : Versus) : Below (checkVersusIn prog n v) (checkVersusIn prog m v) :=
  belowBind (versusBelow le _ v) (fun _ =>
    belowMapError _ (belowBind (belowRefl _) (fun c => checkEachBelow le c.preds)))

theorem checkVersusBelow {prog : Program} {v : Versus} {r : Except Raise Unit} (le : n ≤ m)
    (h : checkVersus prog n v = some r) : checkVersus prog m v = some r := by
  obtain ⟨q,found,rfl⟩ := Option.map_eq_some_iff.mp h
  rw [checkVersus,checkVersusInBelow le prog v _ q found]
  rfl

/- There is one answer at most. -/
theorem judgesUnique {prog : Program} {v : Versus} {r q : Except Raise Unit} (h : Judges prog v r) (k : Judges prog v q) :
    r = q := by
  obtain ⟨n,h⟩ := h
  obtain ⟨m,k⟩ := k
  have both := checkVersusBelow (Nat.le_max_left n m) h
  exact Option.some.inj (both.symm.trans (checkVersusBelow (Nat.le_max_right n m) k))

end Verses

end Officium.Check

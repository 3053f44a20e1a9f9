import Officium.Library.Descent
import Officium.Codes
import Officium.Inference
import Officium.Resolution
import Officium.Written

/-! Whether the checker comes to an end. `infer` goes down into the operands of an expression and,
at a `resolve`, into the body of every overload of the name; the second kind of descent is not
structural. The check ends when no overload a verse reaches is reached again from its own body,
and accepts no other program. -/
namespace Officium.Check
open Bounded
open Relation (TransGen)

/- The recursive calls of `infer`. -/
inductive Descends (prog : Program) : Expr → Expr → Prop where
  | operand {e' e} (part : Operand e' e) : Descends prog e' e
  | overload (name : Sym) (genus : Expr) {o : Overload} (among : o ∈ overloads prog) (named : o.1.1 = name) :
      Descends prog o.2 (.resolve name genus)

/- No overload that the check of a verse reaches is reached again from its own body. -/
def Acyclic (prog : Program) : Prop :=
  ∀ v ∈ prog.verses, ∀ o ∈ overloads prog, TransGen (Descends prog) o.2 v.body → ¬ TransGen (Descends prog) o.2 o.2

section Graph
variable {prog : Program}

theorem operandSmaller : ∀ {e' e : Expr}, Operand e' e → sizeOf e' < sizeOf e := by
  intro e' e part
  cases part <;> simp only [Expr.lam.sizeOf_spec,Expr.app.sizeOf_spec,Expr.ifE.sizeOf_spec,Expr.fix.sizeOf_spec,
    Expr.pure.sizeOf_spec,Expr.ret.sizeOf_spec,Expr.bind.sizeOf_spec,Expr.resolve.sizeOf_spec,Expr.clama.sizeOf_spec,
    Expr.recipe.sizeOf_spec,Expr.pone.sizeOf_spec,Expr.mitte.sizeOf_spec,Expr.perage.sizeOf_spec,
    Expr.lift.sizeOf_spec] <;> omega

theorem operandFounded : WellFounded Operand := Subrelation.wf operandSmaller (measure sizeOf).wf

theorem noReturnFounded {e : Expr}
    (h : ∀ o ∈ overloads prog, TransGen (Descends prog) o.2 e → ¬ TransGen (Descends prog) o.2 o.2) : Acc (Descends prog) e := by
  refine Descent.accOfNoReturn ((overloads prog).map Prod.snd) operandFounded (fun down => ?_) (fun m mem path => ?_)
  · cases down with
    | operand part => exact .inl part
    | overload _ _ mem _ => exact .inr (List.mem_map_of_mem mem)
  · obtain ⟨o,found,rfl⟩ := List.mem_map.mp mem
    exact h o found path

theorem acyclicFounded (h : Acyclic prog) : ∀ v ∈ prog.verses, Acc (Descends prog) v.body :=
  fun v among => noReturnFounded (h v among)

theorem foundedAcyclic (h : ∀ v ∈ prog.verses, Acc (Descends prog) v.body) : Acyclic prog :=
  fun v among _ _ path => Descent.accNoReturn (h v among) path

end Graph

/- What checking leaves: a tidy store with at least the variables it had. -/
structure Grows (s s' : Store) : Prop where
  tidy : Tidy s'
  size : s.subst.length ≤ s'.subst.length

/- The checker's variables and the scope's types are made of the store's variables. -/
structure Fits (c : Checker) (Γ : Gamma) (s : Store) : Prop where
  tidy : Tidy s
  arg : c.cells.arg.Within s.subst.length
  state : c.cells.state.Within s.subst.length
  throw : c.cells.throw.Within s.subst.length
  result : c.cells.result.Within s.subst.length
  names : ∀ b ∈ Γ, b.2.Within s.subst.length

section Stores
variable {c : Checker} {Γ : Gamma} {s s' : Store} {t : Ty}

theorem growsRefl (tidy : Tidy s) : Grows s s := ⟨tidy,Nat.le_refl _⟩

theorem growsTrans {s'' : Store} (h : Grows s s') (k : Grows s' s'') : Grows s s'' :=
  ⟨k.tidy,Nat.le_trans h.size k.size⟩

theorem fitsGrows (fits : Fits c Γ s) (h : Grows s s') : Fits c Γ s' :=
  ⟨h.tidy,withinMono h.size fits.arg,withinMono h.size fits.state,withinMono h.size fits.throw,
    withinMono h.size fits.result,fun b mem => withinMono h.size (fits.names b mem)⟩

theorem fitsCons (fits : Fits c Γ s) (x : Sym) (h : t.Within s.subst.length) : Fits c ((x,t) :: Γ) s := by
  refine ⟨fits.tidy,fits.arg,fits.state,fits.throw,fits.result,fun b mem => ?_⟩
  cases mem with
  | head => exact h
  | tail _ mem => exact fits.names b mem

/- The computation answers with a type of the store it leaves, or is refused. -/
def Settles (x : Nat → CheckM Ty) (s : Store) : Prop :=
  Ends x s (fun t s' => Grows s s' ∧ t.Within s'.subst.length) Refused

theorem settlesBind {x : Nat → CheckM Ty} {f : Nat → Ty → CheckM Ty} (fits : Fits c Γ s) (first : Settles x s)
    (rest : ∀ t s', Fits c Γ s' → t.Within s'.subst.length → Grows s s' → Settles (fun n => f n t) s') :
    Settles (fun n => x n >>= f n) s :=
  endsBind first (fun t s' h => endsWeaken (fun _ _ k => ⟨growsTrans h.1 k.1,k.2⟩)
    (rest t s' (fitsGrows fits h.1) h.2 h.1))

theorem unifyBind {f : Nat → CheckM Ty} {a b : Ty} (fits : Fits c Γ s) (a_ : a.Within s.subst.length)
    (b_ : b.Within s.subst.length) (rest : ∀ s', Fits c Γ s' → Grows s s' → Settles f s') :
    Settles (fun n => unify n a b >>= fun _ => f n) s := by
  obtain ⟨A,resolved⟩ := withinResolves fits.tidy a_
  refine endsBind (unifyEnds fits.tidy resolved b_) (fun _ s' h => ?_)
  have grows : Grows s s' := ⟨h.tidy,Nat.le_of_eq h.size.symm⟩
  exact endsWeaken (fun _ _ k => ⟨growsTrans grows k.1,k.2⟩) (rest s' (fitsGrows fits grows) grows)

theorem modeEnds (mode : Mode) (op : OpKind) (s : Store) :
    Ends (fun _ => checkMode mode op) s (fun _ t => t = s) Refused := by
  unfold checkMode
  split
  · exact endsPure rfl
  · exact endsFail ⟨_,rfl⟩

theorem modeBind {f : Nat → CheckM Ty} {mode : Mode} {op : OpKind} (rest : Settles f s) :
    Settles (fun n => checkMode mode op >>= fun _ => f n) s :=
  endsBind (modeEnds mode op s) (fun _ _ same => same ▸ rest)

theorem freshTidy (tidy : Tidy s) : Grows s { s with subst := s.subst ++ [none] } := by
  have kept {i : Nat} {v : Option Ty} (h : s.subst[i]? = some v) : (s.subst ++ [none])[i]? = some v :=
    (List.getElem?_append_left (List.getElem?_eq_some_iff.mp h).1).trans h
  have resolved {t T : Ty} (h : Resolves s.subst t T) : Resolves (s.subst ++ [none]) t T := by
    induction h with
    | free unbound => exact .free (kept unbound)
    | bound found _ ih => exact .bound (kept found) ih
    | fn _ _ iha ihr => exact .fn iha ihr
    | flat flat => exact .flat flat
  refine ⟨⟨fun i lt => ?_,fun p mem => withinMono (Nat.le_of_lt ?_) (tidy.preds p mem)⟩,?_⟩
  · rcases Nat.lt_or_ge i s.subst.length with old | new
    · obtain ⟨T,var_⟩ := tidy.vars i old
      exact ⟨T,resolved var_⟩
    · rw [List.length_append] at lt
      have same : i = s.subst.length := Nat.le_antisymm (Nat.lt_succ_iff.mp lt) new
      subst same
      exact ⟨_,.free List.getElem?_concat_length⟩
  · rw [List.length_append]; exact Nat.lt_succ_self _
  · rw [List.length_append]; exact Nat.le_add_right _ _

theorem freshSettles (tidy : Tidy s) : Settles (fun _ => fresh) s := by
  refine endsBind endsState ?_
  rintro _ _ ⟨rfl,rfl⟩
  refine endsBind (endsUpdate _) ?_
  rintro _ _ rfl
  refine endsPure ⟨freshTidy tidy,?_⟩
  rw [List.length_append]
  exact Nat.lt_succ_self _

theorem wantEnds {p : Pred} (tidy : Tidy s) (within : p.ty.Within s.subst.length) :
    Ends (fun _ => want p) s (fun _ s' => Grows s s') Refused := by
  refine endsWeaken ?_ (endsUpdate _)
  rintro _ _ rfl
  refine ⟨⟨tidy.vars,fun q mem => ?_⟩,Nat.le_refl _⟩
  rcases List.mem_append.mp mem with old | new
  · exact tidy.preds q old
  · cases List.mem_singleton.mp new
    exact within

theorem wantBind {f : Nat → CheckM Ty} {p : Pred} (fits : Fits c Γ s) (within : p.ty.Within s.subst.length)
    (rest : ∀ s', Fits c Γ s' → Grows s s' → Settles f s') : Settles (fun n => want p >>= fun _ => f n) s :=
  endsBind (wantEnds fits.tidy within) (fun _ s' grows =>
    endsWeaken (fun _ _ k => ⟨growsTrans grows k.1,k.2⟩) (rest s' (fitsGrows fits grows) grows))

theorem valueWithin (v : Value) (n : Nat) : (typeOfValue v).Within n := by
  cases v <;> trivial

theorem pedalWithin {prog : Program} {name : Sym} (found : pedal prog name = some t) (n : Nat) : t.Within n := by
  obtain ⟨p,_,rfl⟩ := Option.map_eq_some_iff.mp ((pedalFind name prog.fugues).symm.trans found)
  exact valueWithin p.2 n

/- A builtin's signature has at most one variable of its own, made on the spot. -/
theorem builtinEnds (name : Sym) (tidy : Tidy s) :
    Ends (fun _ => builtin name) s (fun r s' => Grows s s' ∧ ∀ t, r = some t → t.Within s'.subst.length) Refused := by
  have plain (t : Ty) (h : t.Within s.subst.length) :
      Ends (fun _ => (pure (some t) : CheckM (Option Ty))) s
        (fun r s' => Grows s s' ∧ ∀ t, r = some t → t.Within s'.subst.length) Refused :=
    endsPure ⟨growsRefl tidy,fun _ same => Option.some.inj same ▸ h⟩
  unfold builtin
  split
  case h_7 | h_14 =>
    refine endsBind (freshSettles tidy) (fun a s' h => endsPure ⟨h.1,fun t same => ?_⟩)
    cases same
    simp only [fun2,Ty.Within,h.2,and_self]
  case h_21 =>
    refine endsBind (freshSettles tidy) (fun g s' h => ?_)
    refine endsBind (wantEnds h.1.tidy h.2) (fun _ s'' k => endsPure ⟨growsTrans h.1 k,fun t same => ?_⟩)
    cases same
    simp only [fun2,Ty.Within,withinMono k.size h.2,and_self]
  case h_22 => exact endsPure ⟨growsRefl tidy,fun _ same => by cases same⟩
  all_goals exact plain _ (by simp only [fun2,Ty.Within,and_self])

theorem lookupSettles {prog : Program} {name : Sym} (fits : Fits c Γ s) :
    Settles (fun _ => lookup prog Γ name) s := by
  unfold lookup
  split
  · rename_i b found
    exact endsPure ⟨growsRefl fits.tidy,fits.names b (List.mem_of_find?_eq_some found)⟩
  · refine endsBind (builtinEnds name fits.tidy) (fun r s' h => ?_)
    cases r with
    | some t => exact endsPure ⟨h.1,h.2 t rfl⟩
    | none =>
      dsimp only
      split
      · rename_i t found
        exact endsPure ⟨h.1,pedalWithin found _⟩
      · exact endsFail ⟨_,rfl⟩

end Stores

section Walk
variable {c : Checker}

/- The overloads of the name, one after the other. -/
theorem fitEnds {mode : Mode} {Γ : Gamma} {name : Sym} {r : Ty} {os : List Overload}
    (each : ∀ o ∈ os, o.1.1 = name → ∀ {s}, Fits c Γ s → Settles (fun n => infer c n mode Γ o.2) s) {s : Store}
    (fits : Fits c Γ s) (r_ : r.Within s.subst.length) :
    Ends (fun n => fitOverloads n (infer c n mode Γ) name r os) s (fun _ s' => Grows s s') Refused := by
  induction os generalizing s with
  | nil => exact endsPure (growsRefl fits.tidy)
  | cons o rest ih =>
    have later := fun o mem => each o (List.mem_cons_of_mem _ mem)
    unfold fitOverloads
    by_cases named : o.1.1 = name
    · simp only [if_pos named]
      refine endsBind (each o List.mem_cons_self named fits) (fun t s₁ h => ?_)
      obtain ⟨T,resolved⟩ := withinResolves h.1.tidy h.2
      refine endsBind (unifyEnds h.1.tidy resolved (withinMono h.1.size r_)) (fun _ s₂ k => ?_)
      have grows : Grows s s₂ := growsTrans h.1 ⟨k.tidy,Nat.le_of_eq k.size.symm⟩
      exact endsWeaken (fun _ _ more => growsTrans grows more) (ih later (fitsGrows fits grows) (withinMono grows.size r_))
    · simp only [if_neg named]
      exact ih later fits r_

/- A statement on the bind spine: the checks of `pone` and `mitte` made where the line's type is kept. -/
theorem stmtEnds {mode : Mode} {Γ : Gamma} {m : Expr} {s : Store} (fits : Fits c Γ s)
    (whole : ∀ {s}, Fits c Γ s → Settles (fun n => infer c n mode Γ m) s)
    (part : ∀ e, Operand e m → ∀ {s}, Fits c Γ s → Settles (fun n => infer c n mode Γ e) s) :
    Ends (fun n => inferStmt c.cells n (infer c n mode Γ) mode m) s
      (fun b s' => Grows s s' ∧ b.1.Within s'.subst.length ∧ b.2.Within s'.subst.length) Refused := by
  unfold inferStmt
  split
  · rename_i e
    refine endsBind (modeEnds mode .pone s) ?_
    rintro _ _ rfl
    refine endsBind (part e (.pone e) fits) (fun t s₁ h => ?_)
    obtain ⟨T,resolved⟩ := withinResolves h.1.tidy h.2
    refine endsBind (unifyEnds h.1.tidy resolved (withinMono h.1.size fits.state)) (fun _ s₂ k => ?_)
    have grows : Grows s₁ s₂ := ⟨k.tidy,Nat.le_of_eq k.size.symm⟩
    exact endsPure ⟨growsTrans h.1 grows,withinMono grows.size h.2,trivial⟩
  · rename_i e
    refine endsBind (modeEnds mode .mitte s) ?_
    rintro _ _ rfl
    refine endsBind (part e (.mitte e) fits) (fun t s₁ h => ?_)
    refine endsBind (wantEnds h.1.tidy h.2) (fun _ s₂ k => ?_)
    exact endsPure ⟨growsTrans h.1 k,withinMono k.size h.2,trivial⟩
  · refine endsBind (whole fits) (fun t s₁ h => ?_)
    exact endsPure ⟨h.1,h.2,h.2⟩

/- Down the recursive calls: what every later call comes to, this one comes to. -/
theorem inferEnds {e : Expr} (acc : Acc (TransGen (Descends c.prog)) e) : ∀ {mode : Mode} {Γ : Gamma} {s : Store},
    Fits c Γ s → Settles (fun n => infer c n mode Γ e) s := by
  induction acc with
  | intro e _ ih =>
    intro mode Γ s fits
    have operand {e'} (part : Operand e' e) {mode Γ s} (fits : Fits c Γ s) : Settles (fun n => infer c n mode Γ e') s :=
      ih e' (.single (.operand part)) fits
    refine endsNext (x := fun n => infer c (n+1) mode Γ e) (fun _ => rfl) ?_
    cases e with
    | lit v => exact endsPure ⟨growsRefl fits.tidy,valueWithin v _⟩
    | var name => exact lookupSettles fits
    | lam x body =>
      refine settlesBind fits (freshSettles fits.tidy) (fun a s₁ fits₁ a_ g₁ => ?_)
      refine settlesBind fits₁ (operand (.lam x body) (fitsCons fits₁ x a_)) (fun r s₂ fits₂ r_ g₂ => ?_)
      exact endsPure ⟨growsRefl fits₂.tidy,withinMono g₂.size a_,r_⟩
    | app f a =>
      refine settlesBind fits (operand (.appF f a) fits) (fun tf s₁ fits₁ f_ g₁ => ?_)
      refine settlesBind fits₁ (operand (.appA f a) fits₁) (fun ta s₂ fits₂ a_ g₂ => ?_)
      refine settlesBind fits₂ (freshSettles fits₂.tidy) (fun r s₃ fits₃ r_ g₃ => ?_)
      refine unifyBind fits₃ (withinMono (growsTrans g₂ g₃).size f_) ⟨withinMono g₃.size a_,r_⟩ (fun s₄ fits₄ g₄ => ?_)
      exact endsPure ⟨growsRefl fits₄.tidy,withinMono g₄.size r_⟩
    | ifE cond t e =>
      refine settlesBind fits (operand (.ifC cond t e) fits) (fun tc s₁ fits₁ c_ g₁ => ?_)
      refine unifyBind fits₁ c_ trivial (fun s₂ fits₂ g₂ => ?_)
      refine settlesBind fits₂ (operand (.ifT cond t e) fits₂) (fun tt s₃ fits₃ t_ g₃ => ?_)
      refine settlesBind fits₃ (operand (.ifE cond t e) fits₃) (fun te s₄ fits₄ e_ g₄ => ?_)
      refine unifyBind fits₄ (withinMono g₄.size t_) e_ (fun s₅ fits₅ g₅ => ?_)
      exact endsPure ⟨growsRefl fits₅.tidy,withinMono (growsTrans g₄ g₅).size t_⟩
    | fix f =>
      refine settlesBind fits (operand (.fix f) fits) (fun tf s₁ fits₁ f_ g₁ => ?_)
      refine settlesBind fits₁ (freshSettles fits₁.tidy) (fun a s₂ fits₂ a_ g₂ => ?_)
      refine unifyBind fits₂ (withinMono g₂.size f_) ⟨a_,a_⟩ (fun s₃ fits₃ g₃ => ?_)
      exact endsPure ⟨growsRefl fits₃.tidy,withinMono g₃.size a_⟩
    | pure tag e => exact operand (.pure tag e) fits
    | lift e => exact modeBind (operand (.lift e) fits)
    | ret tag e =>
      refine settlesBind fits (operand (.ret tag e) fits) (fun t s₁ fits₁ t_ g₁ => ?_)
      exact unifyBind fits₁ t_ fits₁.result (fun s₂ fits₂ g₂ => freshSettles fits₂.tidy)
    | bind tag m x k =>
      refine endsBind (stmtEnds fits (operand (.bindM tag m x k))
        (fun e' part => ih e' (.tail (.single (.operand part)) (.operand (.bindM tag m x k))))) (fun b s₁ h => ?_)
      have inner := fitsCons (fitsGrows fits h.1) x h.2.2
      exact endsWeaken (fun _ _ more => ⟨growsTrans h.1 more.1,more.2⟩) (operand (.bindK tag m x k) inner)
    | arg => exact endsPure ⟨growsRefl fits.tidy,fits.arg⟩
    | ask name =>
      unfold infer
      dsimp only
      split
      · rename_i t found
        exact endsPure ⟨growsRefl fits.tidy,pedalWithin found _⟩
      · exact endsFail ⟨_,rfl⟩
    | resolve name genus =>
      refine settlesBind fits (operand (.resolve name genus) fits) (fun tg s₁ fits₁ g_ g₁ => ?_)
      refine unifyBind fits₁ g_ trivial (fun s₂ fits₂ g₂ => ?_)
      refine settlesBind fits₂ (freshSettles fits₂.tidy) (fun r s₃ fits₃ r_ g₃ => ?_)
      refine endsBind (fitEnds (fun o mem named _ fits => ?_) fits₃ r_) (fun _ s₄ g₄ => endsPure ⟨g₄,withinMono g₄.size r_⟩)
      exact ih o.2 (.single (.overload name genus mem named)) fits
    | nihil => exact modeBind (freshSettles fits.tidy)
    | clama e =>
      refine modeBind (settlesBind fits (operand (.clama e) fits) (fun t s₁ fits₁ t_ g₁ => ?_))
      exact unifyBind fits₁ t_ fits₁.throw (fun s₂ fits₂ g₂ => freshSettles fits₂.tidy)
    | recipe body x handler =>
      refine modeBind (settlesBind fits (operand (.recipeB body x handler) fits) (fun tb s₁ fits₁ b_ g₁ => ?_))
      refine settlesBind fits₁ (operand (.recipeH body x handler) (fitsCons fits₁ x fits₁.throw)) (fun th s₂ fits₂ h_ g₂ => ?_)
      refine unifyBind (fitsGrows fits₁ g₂) (withinMono g₂.size b_) h_ (fun s₃ fits₃ g₃ => ?_)
      exact endsPure ⟨growsRefl fits₃.tidy,withinMono (growsTrans g₂ g₃).size b_⟩
    | lege => exact modeBind (endsPure ⟨growsRefl fits.tidy,fits.state⟩)
    | pone e =>
      refine modeBind (settlesBind fits (operand (.pone e) fits) (fun t s₁ fits₁ t_ g₁ => ?_))
      exact unifyBind fits₁ t_ fits₁.state (fun s₂ fits₂ g₂ => endsPure ⟨growsRefl fits₂.tidy,trivial⟩)
    | mitte e =>
      refine modeBind (settlesBind fits (operand (.mitte e) fits) (fun t s₁ fits₁ t_ g₁ => ?_))
      exact wantBind fits₁ t_ (fun s₂ fits₂ g₂ => endsPure ⟨growsRefl fits₂.tidy,trivial⟩)
    | perage e =>
      refine modeBind (settlesBind fits (operand (.perage e) fits) (fun t s₁ fits₁ t_ g₁ => ?_))
      refine unifyBind fits₁ t_ trivial (fun s₂ fits₂ g₂ => ?_)
      exact unifyBind fits₂ trivial fits₂.result (fun s₃ fits₃ g₃ => freshSettles fits₃.tidy)

end Walk

section Verses
variable {c : Checker} {prog : Program}

theorem spineEnds {e : Expr} (acc : Acc (Descends c.prog) e) {mode : Mode} {Γ : Gamma} {s : Store} (fits : Fits c Γ s) :
    Ends (fun n => inferSpine c n mode Γ e) s
      (fun lines s' => Grows s s' ∧ ∀ t ∈ lines, t.Within s'.subst.length) Refused := by
  induction acc generalizing Γ s with
  | intro e below ih =>
    cases e with
    | bind tag m x k =>
      have m_ := below m (.operand (.bindM tag m x k))
      refine endsBind (stmtEnds fits (inferEnds m_.transGen)
        (fun e' part => inferEnds (m_.inv (.operand part)).transGen)) (fun b s₁ h => ?_)
      have inner := fitsCons (fitsGrows fits h.1) x h.2.2
      refine endsBind (ih k (.operand (.bindK tag m x k)) inner) (fun lines s₂ rest => ?_)
      refine endsPure ⟨growsTrans h.1 rest.1,fun t mem => ?_⟩
      cases mem with
      | head => exact withinMono rest.1.size h.2.1
      | tail _ mem => exact rest.2 t mem
    | _ =>
      have acc := (Acc.intro _ below).transGen
      exact endsBind (inferEnds acc fits) (fun t s₁ h => endsPure ⟨h.1,fun t mem => (by cases mem)⟩)

def Mismatched (v : Versus) (r : Raise) : Prop := ∃ text, r = .dissonance (.discors v.name text)

theorem discorsEnds {α : Type} {v : Versus} {describe : Clash → String} {x : Nat → CheckM α} {s : Store}
    {good : α → Store → Prop} (h : Ends x s good Refused) :
    Ends (fun n => discors v describe (x n)) s good (Mismatched v) := by
  refine endsMapError ?_ h
  rintro _ ⟨c,rfl⟩
  exact ⟨_,rfl⟩

theorem rhymeWithEnds {v : Versus} {i j : Nat} {label : Char} {a : Ty} {lines : List (Char × Ty)} {s : Store}
    (tidy : Tidy s) (a_ : a.Within s.subst.length) (each : ∀ l ∈ lines, l.2.Within s.subst.length) :
    Ends (fun n => rhymeWith v n i label a j lines) s
      (fun _ s' => Tidy s' ∧ s'.subst.length = s.subst.length) (Mismatched v) := by
  induction lines generalizing j s with
  | nil => exact endsPure ⟨tidy,rfl⟩
  | cons line rest ih =>
    have later := fun l mem => each l (List.mem_cons_of_mem _ mem)
    obtain ⟨other,b⟩ := line
    unfold rhymeWith
    by_cases same : label = other
    · simp only [if_pos same]
      obtain ⟨A,resolved⟩ := withinResolves tidy a_
      refine endsBind (discorsEnds (unifyEnds tidy resolved (each _ List.mem_cons_self))) (fun _ s' h => ?_)
      refine endsWeaken (fun _ _ k => ⟨k.1,k.2.trans h.size⟩) (ih h.tidy ?_ ?_)
      · rw [h.size]; exact a_
      · rw [h.size]; exact later
    · simp only [if_neg same]
      exact ih tidy a_ later

theorem rhymeAllEnds {v : Versus} {i : Nat} {lines : List (Char × Ty)} {s : Store} (tidy : Tidy s)
    (each : ∀ l ∈ lines, l.2.Within s.subst.length) :
    Ends (fun n => rhymeAll v n i lines) s (fun _ s' => Tidy s') (Mismatched v) := by
  induction lines generalizing i s with
  | nil => exact endsPure tidy
  | cons line rest ih =>
    have later := fun l mem => each l (List.mem_cons_of_mem _ mem)
    refine endsBind (rhymeWithEnds tidy (each _ List.mem_cons_self) later) (fun _ s' h => ih h.1 ?_)
    rw [h.2]
    exact later

theorem checkEachEnds {preds : List Pred} {s : Store} (tidy : Tidy s)
    (each : ∀ p ∈ preds, p.ty.Within s.subst.length) :
    Ends (fun n => checkEach n preds) s (fun _ s' => s' = s) Refused := by
  induction preds with
  | nil => exact endsPure rfl
  | cons p rest ih =>
    obtain ⟨T,resolved⟩ := withinResolves tidy (each p List.mem_cons_self)
    have one : Ends (fun n => checkPred n p) s (fun _ s' => s' = s) Refused := by
      refine endsBind (shallowEnds resolved) ?_
      rintro t _ ⟨rfl,_,_⟩
      cases t with
      | var i => exact endsPure rfl
      | _ =>
        dsimp only
        split
        · exact endsPure rfl
        · exact endsFail ⟨_,rfl⟩
    refine endsBind one (fun _ s' same => ?_)
    rw [same]
    exact ih (fun q mem => each q (List.mem_cons_of_mem _ mem))

theorem startFits (prog : Program) : Fits (Checker.new prog) [] Store.new := by
  refine ⟨⟨fun i lt => ⟨.var i,.free ?_⟩,fun p mem => by cases mem⟩,?_,?_,?_,?_,fun b mem => by cases mem⟩
  · match i,lt with
    | 0,_ | 1,_ | 2,_ | 3,_ => rfl
  all_goals exact Nat.lt_of_sub_pos (by decide)

theorem versusEnds {v : Versus} (acc : Acc (Descends prog) v.body) :
    Ends (fun n => checkVersusIn prog n v) Store.new (fun _ s => Tidy s) (Mismatched v) := by
  have fits := startFits prog
  have walk : Ends (fun n => inferVersus (Checker.new prog) n v) Store.new (fun _ s => Tidy s) (Mismatched v) := by
    unfold inferVersus
    split
    · exact endsBind (discorsEnds (inferEnds acc.transGen fits)) (fun t s h => endsPure h.1.tidy)
    · refine endsBind (discorsEnds (spineEnds acc fits)) (fun lines s h => rhymeAllEnds h.1.tidy ?_)
      exact sungWithin (withinMono h.1.size fits.result) h.2
  refine endsBind walk (fun _ s tidy => discorsEnds ?_)
  refine endsBind Bounded.endsState ?_
  rintro _ _ ⟨rfl,rfl⟩
  refine endsWeaken ?_ (checkEachEnds tidy tidy.preds)
  rintro _ _ rfl
  exact tidy

/- `check_program` comes to an end, with `Ok` or `Discors`. -/
def Decides (prog : Program) : Prop :=
  ∃ n r, checkProgram n prog = some r ∧ (r = .ok () ∨ ∃ v ∈ prog.verses, ∃ e, Mismatched v e ∧ r = .error e)

theorem everyEnds {verses : List Versus} (acc : ∀ v ∈ verses, Acc (Descends prog) v.body) :
    ∃ n r, (r = .ok () ∨ ∃ v ∈ verses, ∃ e, Mismatched v e ∧ r = .error e) ∧
      ∀ m, n ≤ m → checkEvery prog m verses = some r := by
  induction verses with
  | nil => exact ⟨0,_,.inl rfl,fun _ _ => rfl⟩
  | cons v rest ih =>
    obtain ⟨n,r,out,settled⟩ := versusEnds (acc v List.mem_cons_self)
    cases out with
    | @error e found =>
      refine ⟨n,.error e,.inr ⟨v,List.mem_cons_self,e,found,rfl⟩,fun m le => ?_⟩
      simp only [checkEvery,checkVersus,settled m le,Option.map_some,Except.map]
    | @ok a s fine =>
      obtain ⟨k,q,good,later⟩ := ih (fun w mem => acc w (List.mem_cons_of_mem _ mem))
      refine ⟨max n k,q,good.imp id ?_,fun m le => ?_⟩
      · rintro ⟨w,mem,found⟩
        exact ⟨w,List.mem_cons_of_mem _ mem,found⟩
      · simp only [checkEvery,checkVersus,settled m (Nat.le_trans (Nat.le_max_left n k) le),Option.map_some,Except.map]
        exact later m (Nat.le_trans (Nat.le_max_right n k) le)

def Piece.Founded (prog : Program) : Piece → Prop
  | .code e => Acc (Descends prog) e
  | .answers name rest => ∀ o ∈ rest, o.1.1 = name → Acc (Descends prog) o.2

/- An inference that came to an end made finitely many calls. -/
theorem infersFounded {mode : Mode} {Γ : Gamma} {piece : Piece} {s s' : Store} {t : Ty}
    (h : Infers c mode Γ piece s t s') : piece.Founded c.prog := by
  have all {e : Expr} (parts : ∀ e', Operand e' e → Acc (Descends c.prog) e')
      (plain : ∀ name genus, e ≠ .resolve name genus) : (Piece.code e).Founded c.prog := by
    refine .intro e (fun e' down => ?_)
    cases down with
    | operand part => exact parts e' part
    | overload name genus => exact absurd rfl (plain name genus)
  induction h with
  | lit | var | arg | ask | nihil | lege => exact all (fun _ part => by cases part) (fun _ _ same => by cases same)
  | lam _ _ ih | pure _ _ ih | lift _ _ ih | ret _ _ _ _ ih | clama _ _ _ _ ih | pone _ _ _ ih | mitte _ _ _ ih
  | perage _ _ _ _ _ ih | fix _ _ _ ih =>
    exact all (fun _ part => by cases part; exact ih) (fun _ _ same => by cases same)
  | app _ _ _ _ ihf iha =>
    refine all (fun _ part => ?_) (fun _ _ same => by cases same)
    cases part with
    | appF => exact ihf
    | appA => exact iha
  | ifE _ _ _ _ _ ihc iht ihe =>
    refine all (fun _ part => ?_) (fun _ _ same => by cases same)
    cases part with
    | ifC => exact ihc
    | ifT => exact iht
    | ifE => exact ihe
  | bind _ _ _ ihm ihk =>
    refine all (fun _ part => ?_) (fun _ _ same => by cases same)
    cases part with
    | bindM => exact ihm
    | bindK => exact ihk
  | recipe _ _ _ _ ihb ihh =>
    refine all (fun _ part => ?_) (fun _ _ same => by cases same)
    cases part with
    | recipeB => exact ihb
    | recipeH => exact ihh
  | resolve _ _ _ _ ihg each =>
    refine .intro _ (fun e' down => ?_)
    cases down with
    | operand part => cases part; exact ihg
    | overload _ _ among named => exact each _ among named
  | fitted => exact fun o mem => by cases mem
  | other differs _ ih =>
    intro o mem named
    cases mem with
    | head => exact absurd named differs
    | tail _ mem => exact ih o mem named
  | answer _ _ _ iho ih =>
    intro o mem named
    cases mem with
    | head => exact iho
    | tail _ mem => exact ih o mem named

theorem checkedFounded {v : Versus} {s : Store} (h : Checked prog v s) : Acc (Descends prog) v.body := by
  obtain ⟨_,_,walk,_⟩ := checkedInfers h
  exact infersFounded walk

theorem acceptsFounded (h : Accepts prog) : ∀ v ∈ prog.verses, Acc (Descends prog) v.body := by
  intro v among
  obtain ⟨s,checked⟩ := acceptsChecked h v among
  exact checkedFounded checked

end Verses

section Looping
variable {c : Checker} {s : Store}

/- The first variable is unbound, or bound to a genus. -/
def Seeded (s : Store) : Prop := s.subst[0]? = some none ∨ s.subst[0]? = some (some .genus)

theorem seededShallow (seeded : Seeded s) (n : Nat) : Stays (shallow n (.var 0)) s
    (fun t s' => s' = s ∧ (t = .var 0 ∧ s.subst[0]? = some none ∨ t = .genus)) := by
  cases n with
  | zero => exact staysCut
  | succ n =>
    refine staysBind staysState ?_
    rintro _ s ⟨rfl,rfl⟩
    rcases seeded with unbound | bound
    · simp only [unbound]
      exact staysPure ⟨rfl,.inl ⟨rfl,trivial⟩⟩
    · simp only [bound]
      cases n with
      | zero => exact staysCut
      | succ n => exact staysPure ⟨rfl,.inr rfl⟩

theorem genusShallow (n : Nat) : Stays (shallow n .genus) s (fun t s' => s' = s ∧ t = .genus) := by
  cases n with
  | zero => exact staysCut
  | succ n => exact staysPure ⟨rfl,rfl⟩

theorem seededUnify (seeded : Seeded s) (n : Nat) : Stays (unify n (.var 0) .genus) s (fun _ s' => Seeded s') := by
  cases n with
  | zero => exact staysCut
  | succ n =>
    refine staysBind (seededShallow seeded n) ?_
    rintro t s ⟨rfl,shape⟩
    refine staysBind (genusShallow n) ?_
    rintro _ s ⟨rfl,rfl⟩
    rcases shape with ⟨rfl,unbound⟩ | rfl
    · have apart : Stays (occurs n 0 .genus) s (fun b s' => s' = s ∧ b = false) := by
        cases n with
        | zero => exact staysCut
        | succ n =>
          refine staysBind (genusShallow n) ?_
          rintro _ _ ⟨rfl,rfl⟩
          exact staysPure ⟨rfl,rfl⟩
      refine staysBind apart ?_
      rintro _ s ⟨rfl,rfl⟩
      refine staysWeaken ?_ (staysUpdate _)
      rintro _ _ rfl
      exact .inr (List.getElem?_set_self (List.getElem?_eq_some_iff.mp unbound).1)
    · exact staysPure seeded

theorem seededFresh (seeded : Seeded s) : Stays fresh s (fun _ s' => Seeded s') := by
  refine staysBind staysState ?_
  rintro _ s ⟨rfl,rfl⟩
  refine staysBind (staysUpdate _) ?_
  rintro _ _ rfl
  refine staysPure ?_
  have kept {v : Option Ty} (h : s.subst[0]? = some v) : (s.subst ++ [none])[0]? = some v :=
    (List.getElem?_append_left (List.getElem?_eq_some_iff.mp h).1).trans h
  exact seeded.imp kept kept

/- An overload that resolves its own name is inferred inside itself, at every depth. -/
theorem loopStays {o : Overload} (input : c.cells.arg = .var 0) (only : overloads c.prog = [o])
    (self : o.2 = .resolve o.1.1 .arg) (n : Nat) {mode : Mode} {Γ : Gamma} (seeded : Seeded s) :
    Stays (infer c n mode Γ (.resolve o.1.1 .arg)) s (fun _ _ => False) := by
  induction n generalizing s with
  | zero => exact staysCut
  | succ n ih =>
    have arg : Stays (infer c n mode Γ .arg) s (fun t s' => s' = s ∧ t = .var 0) := by
      cases n with
      | zero => exact staysCut
      | succ n => exact staysPure ⟨rfl,input⟩
    refine staysBind arg ?_
    rintro _ s ⟨rfl,rfl⟩
    refine staysBind (seededUnify seeded n) (fun _ s₁ seeded₁ => ?_)
    refine staysBind (seededFresh seeded₁) (fun r s₂ seeded₂ => ?_)
    rw [only]
    unfold fitOverloads
    simp only [if_pos,self]
    exact staysNever (staysNever (ih seeded₂))

end Looping

/- A program whose only overload, of whose only verse too, resolves itself on the input. -/
def selfResolving (prog : Program) : Bool :=
  match prog.verses,overloads prog with
  | [⟨_,_,.ret _ (.resolve a .arg),[]⟩],[((b,_),.resolve d .arg)] => a == b && d == b
  | _,_ => false

theorem selfLoops {prog : Program} (h : selfResolving prog = true) (n : Nat) : checkProgram n prog = none := by
  unfold selfResolving at h
  split at h
  · rename_i name mode tag a b g d verses only
    rw [Bool.and_eq_true,beq_iff_eq,beq_iff_eq] at h
    obtain ⟨rfl,rfl⟩ := h
    have loops : Stays (infer (Checker.new prog) n mode [] (.ret tag (.resolve d .arg))) Store.new (fun _ _ => False) := by
      cases n with
      | zero => exact staysCut
      | succ n => exact staysNever (loopStays (o := ((d,g),.resolve d .arg)) rfl only rfl n (.inl rfl))
    have walk : Stays (inferVersus (Checker.new prog) n ⟨name,mode,.ret tag (.resolve d .arg),[]⟩) Store.new
        (fun _ _ => False) :=
      staysNever (staysMapError loops)
    have check : Stays (checkVersusIn prog n ⟨name,mode,.ret tag (.resolve d .arg),[]⟩) Store.new (fun _ _ => False) :=
      staysNever walk
    rw [checkProgram,verses,checkEvery,checkVersus,staysForever check]
    rfl
  · cases h

end Officium.Check

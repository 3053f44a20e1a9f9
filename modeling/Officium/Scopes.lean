import Officium.Check

/-! Names in scope. The checker finds a variable in the scope built on the way to it, among the builtins
or among the pedals; an expression that uses no other names is never refused for one. -/
namespace Officium.Check
open Bounded (Comp Gives Spares givesAfter givesPure sparesPure sparesCut sparesState sparesUpdate sparesFail sparesGiven sparesBind sparesMapError)

/- A name that needs no binder: a builtin, or a pedal of the program. -/
def Global (prog : Program) (name : Sym) : Prop := (Builtins.arity name).isSome = true ∨ (pedal prog name).isSome = true

/- Every variable is bound on the way to it or global, and every question finds its pedal. -/
def Scoped (prog : Program) : List Sym → Expr → Prop
  | _, .lit _ | _, .arg | _, .nihil | _, .lege => True
  | bound, .var x => x ∈ bound ∨ Global prog x
  | bound, .lam x body => Scoped prog (x :: bound) body
  | bound, .app f a => Scoped prog bound f ∧ Scoped prog bound a
  | bound, .ifE c t e => Scoped prog bound c ∧ Scoped prog bound t ∧ Scoped prog bound e
  | bound, .fix f => Scoped prog bound f
  | bound, .pure _ e | bound, .lift e | bound, .ret _ e | bound, .clama e | bound, .pone e | bound, .mitte e | bound, .perage e => Scoped prog bound e
  | bound, .bind _ m x k => Scoped prog bound m ∧ Scoped prog (x :: bound) k
  | _, .ask name => (pedal prog name).isSome = true
  | bound, .resolve _ genus => Scoped prog bound genus
  | bound, .recipe body x handler => Scoped prog bound body ∧ Scoped prog (x :: bound) handler

theorem scopedMore {prog : Program} {bound more : List Sym} (sub : bound ⊆ more) (e : Expr) (h : Scoped prog bound e) : Scoped prog more e := by
  match e with
  | .lit _ | .arg | .nihil | .lege => trivial
  | .var x => exact h.imp (fun among => sub among) id
  | .lam x body => exact scopedMore (List.cons_subset_cons x sub) body h
  | .app f a => exact ⟨scopedMore sub f h.1,scopedMore sub a h.2⟩
  | .ifE c t e => exact ⟨scopedMore sub c h.1,scopedMore sub t h.2.1,scopedMore sub e h.2.2⟩
  | .fix e | .pure _ e | .lift e | .ret _ e | .clama e | .pone e | .mitte e | .perage e | .resolve _ e => exact scopedMore sub e h
  | .bind _ m x k => exact ⟨scopedMore sub m h.1,scopedMore (List.cons_subset_cons x sub) k h.2⟩
  | .ask name => exact h
  | .recipe body x handler => exact ⟨scopedMore sub body h.1,scopedMore (List.cons_subset_cons x sub) handler h.2⟩

/- The refusals that name a variable. -/
def Unbound (h : Halt) : Prop := ∃ name, h = .clash (.unbound name)

section Sparing
variable {n : Nat} {mode : Mode} {prog : Program} {gamma : Gamma} {name : Sym}

theorem sparesFresh : Spares Unbound fresh := sparesBind sparesState (fun _ => sparesBind (sparesUpdate _) (fun _ => sparesPure _))

theorem sparesWant (p : Pred) : Spares Unbound (want p) := sparesUpdate _

theorem sparesMode (mode : Mode) (op : OpKind) : Spares Unbound (checkMode mode op) := by
  unfold checkMode
  split
  · exact sparesPure ()
  · exact sparesFail (fun ⟨_,same⟩ => by cases same)

theorem sparesShallow (n : Nat) (t : Ty) : Spares Unbound (shallow n t) := by
  induction n generalizing t with
  | zero => exact sparesCut
  | succ n ih =>
    cases t with
    | var i =>
      refine sparesBind sparesState (fun c => ?_)
      split
      · exact sparesFail (fun ⟨_,same⟩ => by cases same)
      · exact sparesPure _
      · exact ih _
    | _ => exact sparesPure _

theorem sparesOccurs (n v : Nat) (t : Ty) : Spares Unbound (occurs n v t) := by
  induction n generalizing t with
  | zero => exact sparesCut
  | succ n ih =>
    refine sparesBind (sparesShallow n t) (fun u => ?_)
    split
    · exact sparesPure _
    · refine sparesBind (ih _) (fun found => ?_)
      split
      · exact sparesPure _
      · exact ih _
    · exact sparesPure _

theorem sparesAssign (n i : Nat) (t : Ty) : Spares Unbound (assign n i t) := by
  refine sparesBind (sparesOccurs n i t) (fun found => ?_)
  split
  · exact sparesFail (fun ⟨_,same⟩ => by cases same)
  · exact sparesUpdate _

theorem sparesUnify (n : Nat) (a b : Ty) : Spares Unbound (unify n a b) := by
  induction n generalizing a b with
  | zero => exact sparesCut
  | succ n ih =>
    refine sparesBind (sparesShallow n a) (fun a => sparesBind (sparesShallow n b) (fun b => ?_))
    split
    · split
      · exact sparesPure _
      · exact sparesAssign _ _ _
    · exact sparesAssign _ _ _
    · exact sparesAssign _ _ _
    · exact sparesBind (ih _ _) (fun _ => ih _ _)
    · split
      · exact sparesPure _
      · exact sparesFail (fun ⟨_,same⟩ => by cases same)

theorem sparesPreds (n : Nat) : Spares Unbound (checkPreds n) := by
  refine sparesBind sparesState (fun c => ?_)
  generalize c.preds = preds
  induction preds with
  | nil => exact sparesPure ()
  | cons p rest ih =>
    refine sparesBind (sparesBind (sparesShallow n p.ty) (fun t => ?_)) (fun _ => ih)
    split
    · exact sparesPure _
    · split
      · exact sparesPure _
      · exact sparesFail (fun ⟨_,same⟩ => by cases same)

theorem builtinKnown (known : (Builtins.arity name).isSome = true) : Gives (fun t => t.isSome = true) (builtin name) := by
  unfold builtin
  split
  all_goals first
    | exact givesPure rfl
    | exact givesAfter (fun _ => givesPure rfl)
    | exact givesAfter (fun _ => givesAfter (fun _ => givesPure rfl))
    | simp_all [Builtins.arity]

theorem sparesBuiltin (name : Sym) : Spares Unbound (builtin name) := by
  unfold builtin
  split
  all_goals first
    | exact sparesPure _
    | exact sparesBind sparesFresh (fun _ => sparesPure _)
    | exact sparesBind sparesFresh (fun _ => sparesBind (sparesWant _) (fun _ => sparesPure _))

/- The names a typing scope binds. -/
def names (gamma : Gamma) : List Sym := gamma.map Prod.fst

theorem sparesLookup (known : name ∈ names gamma ∨ Global prog name) : Spares Unbound (lookup prog gamma name) := by
  unfold lookup
  split
  · exact sparesPure _
  · rename_i absent
    have global : Global prog name := by
      refine known.resolve_left (fun among => ?_)
      obtain ⟨b,mem,rfl⟩ := List.mem_map.mp among
      exact List.find?_eq_none.mp absent b mem (beq_self_eq_true _)
    rcases global with known | known
    · refine sparesGiven (sparesBuiltin name) (builtinKnown known) (fun t some_ => ?_)
      cases t with
      | none => cases some_
      | some t => exact sparesPure _
    · obtain ⟨p,found⟩ := Option.isSome_iff_exists.mp known
      refine sparesBind (sparesBuiltin name) (fun t => ?_)
      cases t with
      | some t => exact sparesPure _
      | none =>
        simp only [found]
        exact sparesPure _

end Sparing

section Inferring
variable {prog : Program} {c : Checker}

/- The overloads of the program use no name of the scope they are answered in. -/
def Closed (prog : Program) : Prop := ∀ o ∈ overloads prog, Scoped prog [] o.2

theorem sparesOverloads {n : Nat} {infer : Expr → CheckM Ty} {name : Sym} {r : Ty} {os : List Overload}
    (each : ∀ o ∈ os, Spares Unbound (infer o.2)) : Spares Unbound (fitOverloads n infer name r os) := by
  induction os with
  | nil => exact sparesPure ()
  | cons o rest ih =>
    have later := ih (fun o among => each o (List.mem_cons_of_mem _ among))
    unfold fitOverloads
    split
    · exact sparesBind (each o List.mem_cons_self) (fun t => sparesBind (sparesUnify n t r) (fun _ => later))
    · exact later

theorem sparesStmt {n : Nat} {infer : Expr → CheckM Ty} {mode : Mode} {bound : List Sym} {m : Expr} (known : Scoped prog bound m)
    (each : ∀ e, Scoped prog bound e → Spares Unbound (infer e)) : Spares Unbound (inferStmt c.cells n infer mode m) := by
  unfold inferStmt
  split
  · exact sparesBind (sparesMode _ _) (fun _ => sparesBind (each _ known) (fun t => sparesBind (sparesUnify _ _ _) (fun _ => sparesPure _)))
  · exact sparesBind (sparesMode _ _) (fun _ => sparesBind (each _ known) (fun t => sparesBind (sparesWant _) (fun _ => sparesPure _)))
  · exact sparesBind (each _ known) (fun t => sparesPure _)

/- The induction is on the nesting, since an answer may ask again. -/
theorem sparesInfer (closed : Closed c.prog) (n : Nat) (mode : Mode) (gamma : Gamma) (e : Expr) (known : Scoped c.prog (names gamma) e) :
    Spares Unbound (infer c n mode gamma e) := by
  induction n generalizing mode gamma e with
  | zero => exact sparesCut
  | succ n ih =>
    unfold infer
    cases e with
    | lit v => exact sparesPure _
    | var x => exact sparesLookup known
    | lam x body => exact sparesBind sparesFresh (fun a => sparesBind (ih mode _ body known) (fun r => sparesPure _))
    | app f a =>
      exact sparesBind (ih mode gamma f known.1) (fun tf => sparesBind (ih mode gamma a known.2) (fun ta => sparesBind sparesFresh (fun r =>
        sparesBind (sparesUnify _ _ _) (fun _ => sparesPure _))))
    | ifE cond t e =>
      exact sparesBind (ih mode gamma cond known.1) (fun tc => sparesBind (sparesUnify _ _ _) (fun _ => sparesBind (ih mode gamma t known.2.1) (fun tt =>
        sparesBind (ih mode gamma e known.2.2) (fun te => sparesBind (sparesUnify _ _ _) (fun _ => sparesPure _)))))
    | fix f =>
      exact sparesBind (ih mode gamma f known) (fun tf => sparesBind sparesFresh (fun a => sparesBind (sparesUnify _ _ _) (fun _ => sparesPure _)))
    | pure tag e => exact ih mode gamma e known
    | lift e => exact sparesBind (sparesMode _ _) (fun _ => ih _ gamma e known)
    | ret tag e => exact sparesBind (ih mode gamma e known) (fun t => sparesBind (sparesUnify _ _ _) (fun _ => sparesFresh))
    | bind tag m x k => exact sparesBind (sparesStmt known.1 (ih mode gamma)) (fun bound => ih mode _ k known.2)
    | arg => exact sparesPure _
    | ask name =>
      obtain ⟨t,found⟩ := Option.isSome_iff_exists.mp known
      simp only [found]
      exact sparesPure _
    | resolve name genus =>
      refine sparesBind (ih mode gamma genus known) (fun tg => sparesBind (sparesUnify _ _ _) (fun _ => sparesBind sparesFresh (fun r =>
        sparesBind (sparesOverloads (fun o among => ?_)) (fun _ => sparesPure _))))
      exact ih mode gamma o.2 (scopedMore (List.nil_subset _) o.2 (closed o among))
    | nihil => exact sparesBind (sparesMode _ _) (fun _ => sparesFresh)
    | clama e =>
      exact sparesBind (sparesMode _ _) (fun _ => sparesBind (ih mode gamma e known) (fun t => sparesBind (sparesUnify _ _ _) (fun _ => sparesFresh)))
    | recipe body x handler =>
      exact sparesBind (sparesMode _ _) (fun _ => sparesBind (ih mode gamma body known.1) (fun tb => sparesBind (ih mode _ handler known.2) (fun th =>
        sparesBind (sparesUnify _ _ _) (fun _ => sparesPure _))))
    | lege => exact sparesBind (sparesMode _ _) (fun _ => sparesPure _)
    | pone e =>
      exact sparesBind (sparesMode _ _) (fun _ => sparesBind (ih mode gamma e known) (fun t => sparesBind (sparesUnify _ _ _) (fun _ => sparesPure _)))
    | mitte e =>
      exact sparesBind (sparesMode _ _) (fun _ => sparesBind (ih mode gamma e known) (fun t => sparesBind (sparesWant _) (fun _ => sparesPure _)))
    | perage e =>
      exact sparesBind (sparesMode _ _) (fun _ => sparesBind (ih mode gamma e known) (fun t => sparesBind (sparesUnify _ _ _) (fun _ =>
        sparesBind (sparesUnify _ _ _) (fun _ => sparesFresh))))

theorem sparesSpine (closed : Closed c.prog) (n : Nat) (mode : Mode) (gamma : Gamma) (e : Expr) (known : Scoped c.prog (names gamma) e) :
    Spares Unbound (inferSpine c n mode gamma e) := by
  match e with
  | .bind tag m x k =>
    exact sparesBind (sparesStmt known.1 (sparesInfer closed n mode gamma)) (fun line =>
      sparesBind (sparesSpine closed n mode _ k known.2) (fun rest => sparesPure _))
  | .lit _ | .var _ | .lam _ _ | .app _ _ | .ifE _ _ _ | .fix _ | .pure _ _ | .lift _ | .ret _ _ | .arg | .ask _ | .resolve _ _ | .nihil | .clama _
  | .recipe _ _ _ | .lege | .pone _ | .mitte _ | .perage _ => exact sparesBind (sparesInfer closed n mode gamma _ known) (fun _ => sparesPure _)

end Inferring

section Refusing
variable {prog : Program} {v : Versus}

/- The verse is refused for a name. -/
def RefusedName (r : Raise) : Prop := ∃ verse name, r = .dissonance (.discors verse (Clash.describe (.unbound name)))

theorem headAppend (s t : String) {c : Char} (h : s.toList.head? = some c) : (s ++ t).toList.head? = some c := by
  rw [String.toList_append,List.head?_append,h]
  rfl

theorem describeUnbound (name : Sym) : (Clash.describe (.unbound name)).toList.head? = some 'u' :=
  headAppend _ _ (headAppend _ _ (by decide))

/- No other clash is described so. -/
theorem describeOther {c : Clash} {name : Sym} (other : ∀ x, c ≠ .unbound x) : c.describe ≠ Clash.describe (.unbound name) := by
  intro same
  have head := describeUnbound name
  rw [← same] at head
  cases c with
  | types want got =>
    have mine : (Clash.types want got).describe.toList.head? = some 't' := headAppend _ _ (headAppend _ _ (headAppend _ _ (by decide)))
    rw [mine] at head
    cases head
  | infinite =>
    have mine : Clash.infinite.describe.toList.head? = some 'i' := by decide
    rw [mine] at head
    cases head
  | unbound x => exact other x rfl
  | mode m op =>
    have mine : (Clash.mode m op).describe.toList.head? = some 'o' := headAppend _ _ (headAppend _ _ (headAppend _ _ (by decide)))
    rw [mine] at head
    cases head

theorem rhymeOther (i j : Nat) (label : Char) (c : Clash) (name : Sym) : rhymeClash i j label c ≠ Clash.describe (.unbound name) := by
  intro same
  have head := describeUnbound name
  have mine : (rhymeClash i j label c).toList.head? = some 'l' := by
    unfold rhymeClash
    exact headAppend _ _ (headAppend _ _ (headAppend _ _ (headAppend _ _ (headAppend _ _ (headAppend _ _ (headAppend _ _ (by decide)))))))
  rw [← same,mine] at head
  cases head

theorem sparesDiscors {α : Type} {x : CheckM α} (v : Versus) (spares : Spares Unbound x) : Spares RefusedName (discors v Clash.describe x) := by
  refine sparesMapError (fun e fine => ?_) spares
  rintro ⟨verse,name,same⟩
  cases e with
  | fault f => cases same
  | clash c =>
    simp only [Raise.dissonance.injEq,Dissonance.discors.injEq] at same
    exact describeOther (fun x is_ => fine ⟨x,by rw [is_]⟩) same.2

theorem sparesRhyme {α : Type} (v : Versus) (i j : Nat) (label : Char) (x : CheckM α) : Spares RefusedName (discors v (rhymeClash i j label) x) := by
  have spares : Spares (fun _ => False) x := fun _ _ _ => id
  refine sparesMapError (fun e _ => ?_) spares
  rintro ⟨verse,name,same⟩
  cases e with
  | fault f => cases same
  | clash c =>
    simp only [Raise.dissonance.injEq,Dissonance.discors.injEq] at same
    exact rhymeOther i j label c name same.2

theorem sparesRhymes (v : Versus) (n i : Nat) (lines : List (Char × Ty)) : Spares RefusedName (rhymeAll v n i lines) := by
  have with_ (i j : Nat) (label : Char) (a : Ty) (rest : List (Char × Ty)) : Spares RefusedName (rhymeWith v n i label a j rest) := by
    induction rest generalizing j with
    | nil => exact sparesPure ()
    | cons line rest ih =>
      unfold rhymeWith
      split
      · exact sparesBind (sparesRhyme _ _ _ _ _) (fun _ => ih _)
      · exact ih _
  induction lines generalizing i with
  | nil => exact sparesPure ()
  | cons line rest ih => exact sparesBind (with_ _ _ _ _ _) (fun _ => ih _)

theorem sparesVersus (closed : Closed prog) (known : Scoped prog [] v.body) (n : Nat) : Spares RefusedName (checkVersusIn prog n v) := by
  refine sparesBind ?_ (fun _ => sparesDiscors v (sparesPreds n))
  unfold inferVersus
  split
  · exact sparesBind (sparesDiscors v (sparesInfer closed n v.mode [] v.body known)) (fun _ => sparesPure _)
  · exact sparesBind (sparesDiscors v (sparesSpine closed n v.mode [] v.body known)) (fun lines => sparesRhymes v n 1 _)

/- A program whose verses and overloads use only names they can see is never refused for a name. -/
theorem checkSpares (closed : Closed prog) (known : ∀ v ∈ prog.verses, Scoped prog [] v.body) {n : Nat} {r : Raise}
    (refused : checkProgram n prog = some (.error r)) : ¬ RefusedName r := by
  have each (vs : List Versus) (scopes : ∀ v ∈ vs, Scoped prog [] v.body) (refused : checkEvery prog n vs = some (.error r)) : ¬ RefusedName r := by
    induction vs with
    | nil => cases refused
    | cons v rest ih =>
      unfold checkEvery at refused
      split at refused
      · exact ih (fun w among => scopes w (List.mem_cons_of_mem _ among)) refused
      · rw [checkVersus,Option.map_eq_some_iff] at refused
        obtain ⟨answer,found,error⟩ := refused
        cases answer with
        | ok p => cases error
        | error e =>
          cases error
          exact sparesVersus closed (scopes v List.mem_cons_self) n _ _ found
  exact each prog.verses known refused

end Refusing

end Officium.Check

import Officium.Demands

/-! Unification finds the most general solution. A substitution is a list of bindings, of which none leads
back to itself; its solutions are the assignments of types that respect it. -/
namespace Officium.Check
open Bounded (Comp Ends Outcome Returns)
open Relation (TransGen)

section Bindings
variable {bindings : Bindings} {i j : Nat} {t T : Ty}

/- The binding of a variable mentions another one. -/
def Occurs (bindings : Bindings) (j i : Nat) : Prop := ∃ t, bindings[i]? = some (some t) ∧ t.mentions j = true

/- Bindings over their own variables that never lead round in a circle. -/
structure Triangular (bindings : Bindings) : Prop where
  inRange : ∀ (i : Nat) (t : Ty), bindings[i]? = some (some t) → t.Within bindings.length
  acyclic : ∀ i, ¬TransGen (Occurs bindings) i i

theorem mentionsWithin {n : Nat} (within : t.Within n) (mentioned : t.mentions j = true) : j < n := by
  induction t with
  | var i =>
    cases eq_of_beq mentioned
    exact within
  | fn a r iha ihr =>
    rcases Bool.or_eq_true_iff.mp mentioned with left | right
    · exact iha within.1 left
    · exact ihr within.2 right
  | _ => cases mentioned

theorem mentionedResolve (each : ∀ j, t.mentions j = true → ∃ T, Resolves bindings (.var j) T) : ∃ T, Resolves bindings t T := by
  induction t with
  | var i => exact each i (beq_self_eq_true i)
  | fn a r iha ihr =>
    obtain ⟨A,a_⟩ := iha fun j here => each j (Bool.or_eq_true_iff.mpr (.inl here))
    obtain ⟨R,r_⟩ := ihr fun j here => each j (Bool.or_eq_true_iff.mpr (.inr here))
    exact ⟨.fn A R,.fn a_ r_⟩
  | _ => exact ⟨_,.flat rfl⟩

/- Following the bindings from a type that resolves comes to an end. -/
theorem resolvesFounded (h : Resolves bindings t T) (mentioned : t.mentions j = true) : Acc (Occurs bindings) j := by
  induction h generalizing j with
  | free unbound =>
    cases eq_of_beq mentioned
    refine .intro _ fun k ⟨u,found,_⟩ => ?_
    rw [unbound] at found
    cases found
  | bound found _ ih =>
    cases eq_of_beq mentioned
    refine .intro _ fun k ⟨u,found',here⟩ => ih ?_
    cases found.symm.trans found'
    exact here
  | fn _ _ iha ihr => exact (Bool.or_eq_true_iff.mp mentioned).elim iha ihr
  | @flat t flat =>
    cases t with
    | var => cases flat
    | fn => cases flat
    | _ => cases mentioned

/- Bindings are triangular exactly if every variable resolves to a finite type. -/
theorem triangularResolves : Triangular bindings ↔ ∀ i < bindings.length, ∃ T, Resolves bindings (.var i) T := by
  constructor
  · intro triangular i inside
    have acc : Acc (Occurs bindings) i := by
      have nothing : WellFounded (fun _ _ : Nat => False) := ⟨fun x => ⟨x,fun _ never => never.elim⟩⟩
      refine Descent.accOfNoReturn (List.range bindings.length) nothing ?_ fun m _ _ => triangular.acyclic m
      rintro y x ⟨t,found,here⟩
      exact .inr (List.mem_range.mpr (mentionsWithin (triangular.inRange x t found) here))
    induction acc with
    | intro i _ ih =>
      cases found : bindings[i]? with
      | none => exact absurd inside (Nat.not_lt_of_le (List.getElem?_eq_none_iff.mp found))
      | some binding =>
        cases binding with
        | none => exact ⟨_,.free found⟩
        | some t =>
          have within := triangular.inRange i t found
          obtain ⟨T,t_⟩ := mentionedResolve fun j here => ih j ⟨t,found,here⟩ (mentionsWithin within here)
          exact ⟨T,.bound found t_⟩
  · intro resolves
    refine ⟨fun i t found => ?_,fun i loop => ?_⟩
    · obtain ⟨T,var_⟩ := resolves i (List.getElem?_eq_some_iff.mp found).1
      cases var_ with
      | free unbound =>
        rw [unbound] at found
        cases found
      | bound found' t_ =>
        cases found.symm.trans found'
        exact resolvesWithin t_
      | flat flat => cases flat
    · have inside : i < bindings.length := by
        obtain ⟨k,-,t,found,-⟩ := TransGen.tail'_iff.mp loop
        exact (List.getElem?_eq_some_iff.mp found).1
      obtain ⟨T,var_⟩ := resolves i inside
      exact Descent.accNoReturn (resolvesFounded var_ (beq_self_eq_true i)) loop loop

end Bindings

section Predicates
variable {α β : Type}

/- The computation neither looks at the deferred predicates nor changes them. -/
def Blind (x : CheckM α) : Prop := ∀ (s : Store) (ps : List Pred), x ⟨s.subst,ps⟩ = (x s).map (Except.map (fun r => (r.1,⟨r.2.subst,ps⟩)))

theorem blindPure (a : α) : Blind (pure a : CheckM α) := fun _ _ => rfl

theorem blindFail (h : Halt) : Blind (Comp.fail h : CheckM α) := fun _ _ => rfl

theorem blindCut : Blind (Comp.cut : CheckM α) := fun _ _ => rfl

theorem blindBind {x : CheckM α} {f : α → CheckM β} (first : Blind x) (rest : ∀ a, Blind (f a)) : Blind (x >>= f) := by
  intro s ps
  change Comp.andThen x f ⟨s.subst,ps⟩ = (Comp.andThen x f s).map _
  rw [Comp.andThen,Comp.andThen,first s ps]
  cases x s with
  | none => rfl
  | some r =>
    cases r with
    | error h => rfl
    | ok q => exact rest q.1 q.2 ps

theorem blindRead {f : Store → CheckM α} (same : ∀ s ps, f ⟨s.subst,ps⟩ = f s) (each : ∀ s, Blind (f s)) : Blind (Comp.state >>= f) := by
  intro s ps
  change f ⟨s.subst,ps⟩ ⟨s.subst,ps⟩ = (f s s).map _
  rw [same s ps,each s s ps]

theorem shallowBlind (n : Nat) (t : Ty) : Blind (shallow n t) := by
  induction n generalizing t with
  | zero => exact blindCut
  | succ n ih =>
    cases t with
    | var i =>
      refine blindRead (fun _ _ => rfl) fun s => ?_
      split
      · exact blindFail _
      · exact blindPure _
      · exact ih _
    | _ => exact blindPure _

theorem occursBlind (n i : Nat) (t : Ty) : Blind (occurs n i t) := by
  induction n generalizing t with
  | zero => exact blindCut
  | succ n ih =>
    refine blindBind (shallowBlind n t) fun u => ?_
    split
    · exact blindPure _
    · refine blindBind (ih _) fun left => ?_
      split
      · exact blindPure _
      · exact ih _
    · exact blindPure _

theorem assignBlind (n i : Nat) (t : Ty) : Blind (assign n i t) := by
  refine blindBind (occursBlind n i t) fun met => ?_
  split
  · exact blindFail _
  · exact fun _ _ => rfl

theorem unifyBlind (n : Nat) (a b : Ty) : Blind (unify n a b) := by
  induction n generalizing a b with
  | zero => exact blindCut
  | succ n ih =>
    refine blindBind (shallowBlind n a) fun a' => blindBind (shallowBlind n b) fun b' => ?_
    split
    · split
      · exact blindPure _
      · exact assignBlind _ _ _
    · exact assignBlind _ _ _
    · exact assignBlind _ _ _
    · exact blindBind (ih _ _) fun _ => ih _ _
    · split
      · exact blindPure _
      · exact blindFail _

end Predicates

section Unifying
variable {s s' : Store} {a b : Ty}

/- What is computed at every bound from some bound on. -/
def Answers {α : Type} (x : Nat → CheckM α) (s : Store) (r : Except Halt (α × Store)) : Prop := ∃ n, ∀ m, n ≤ m → x m s = some r

/- The most general of the substitutions over the old one that make two types equal. -/
structure MostGeneral (s : Store) (a b : Ty) (s' : Store) : Prop where
  triangular : Triangular s'.subst
  size : s'.subst.length = s.subst.length
  preds : s'.preds = s.preds
  bound : ∀ (i : Nat) (t : Ty), s.subst[i]? = some (some t) → s'.subst[i]? = some (some t)
  same : ∃ T, Resolves s'.subst a T ∧ Resolves s'.subst b T
  solutions : ∀ θ, Respects θ s' ↔ Respects θ s ∧ a.inst θ = b.inst θ

theorem bareTidy (triangular : Triangular s.subst) : Tidy ⟨s.subst,[]⟩ := ⟨triangularResolves.mp triangular,nofun⟩

/- A unification that returns has found the most general solution. -/
theorem unifiedGeneral (narrows : Narrows s s') {n : Nat} (triangular : Triangular s.subst) (bare : s.preds = []) (a_ : a.Within s.subst.length)
    (b_ : b.Within s.subst.length) (h : Returns (unify n a b) s () s') : MostGeneral s a b s' := by
  obtain ⟨extends_,agree⟩ := unifyReturns h
  have solutions (θ : Assignment) : Respects θ s' ↔ Respects θ s ∧ a.inst θ = b.inst θ := by
    constructor
    · exact fun respects => ⟨respectsBefore extends_ respects,agree θ respects⟩
    · rintro ⟨respects,equal⟩
      have stands : Stands Met θ s := ⟨respects,triangular.inRange,by rw [bare]; exact nofun⟩
      cases unifyStays stands a_ b_ equal _ h with
      | ok kept => exact kept.1.bound
  refine ⟨triangularResolves.mpr narrows.tidy.vars,narrows.size,narrows.preds,extends_.bound,?_,solutions⟩
  obtain ⟨θ,respects,free⟩ := tidyAssignment narrows.tidy
  obtain ⟨A,a_'⟩ := withinResolves narrows.tidy (narrows.size ▸ a_)
  obtain ⟨B,b_'⟩ := withinResolves narrows.tidy (narrows.size ▸ b_)
  have equal : A = B := by rw [← resolvesFreely respects free a_',← resolvesFreely respects free b_',agree θ respects]
  exact ⟨A,a_',equal ▸ b_'⟩

/- A triangular substitution has a ground solution. -/
theorem triangularGround (triangular : Triangular s.subst) : ∃ θ, Ground θ ∧ Respects θ s := by
  obtain ⟨θ,respects,-⟩ := tidyAssignment (bareTidy triangular)
  have ground : Ground (fun _ => .unit) := fun _ => trivial
  exact ⟨fun i => (θ i).inst fun _ => .unit,fun i => instGround ground (θ i),respectsThen respects _⟩

/- The same without the deferred predicates, which unification leaves as they are. -/
theorem unifyBare (n : Nat) (a b : Ty) (s : Store) :
    unify n a b s = (unify n a b ⟨s.subst,[]⟩).map (Except.map (fun r => (r.1,⟨r.2.subst,s.preds⟩))) := unifyBlind n a b ⟨s.subst,[]⟩ s.preds

theorem unifyPrincipal (triangular : Triangular s.subst) (a_ : a.Within s.subst.length) (b_ : b.Within s.subst.length) :
    (∀ t, t.Within s.subst.length → Ends (fun n => shallow n t) s (fun t' s' => s' = s ∧ Settled s t') (fun _ => False)) ∧
    (∀ i t, t.Within s.subst.length → Ends (fun n => occurs n i t) s (fun _ s' => s' = s) (fun _ => False)) ∧
    ∃ r, Answers (fun n => unify n a b) s r ∧
      ((∃ s', r = .ok ((),s')) ↔ ∃ θ, Ground θ ∧ Respects θ s ∧ a.inst θ = b.inst θ) ∧
      (∀ s', r = .ok ((),s') → MostGeneral s a b s') ∧
      ∀ halt, r = .error halt → (∃ c, halt = .clash c) ∧ ¬∃ θ, Respects θ s ∧ a.inst θ = b.inst θ := by
  have bare := bareTidy triangular
  refine ⟨fun t within => ?_,fun i t within => ?_,?_⟩
  · obtain ⟨T,t_⟩ := withinResolves bare within
    exact Bounded.endsWeaken (fun _ _ found => ⟨found.1,found.2.1⟩) (shallowEnds t_)
  · obtain ⟨T,t_⟩ := withinResolves bare within
    exact Bounded.endsWeaken (fun _ _ found => found.1) (occursEnds t_)
  obtain ⟨A,a_'⟩ := withinResolves bare a_
  obtain ⟨n,r,outcome,ended⟩ := unifyEnds bare a_' b_
  have answers : Answers (fun n => unify n a b) s (r.map (fun r => (r.1,⟨r.2.subst,s.preds⟩))) :=
    ⟨n,fun m le => (unifyBare m a b s).trans (congrArg (Option.map _) (ended m le))⟩
  have found : unify n a b ⟨s.subst,[]⟩ = some r := ended n (Nat.le_refl n)
  refine ⟨_,answers,?_⟩
  cases outcome with
  | @ok _ s₁ narrows =>
    have general : MostGeneral ⟨s.subst,[]⟩ a b s₁ := unifiedGeneral narrows triangular rfl a_ b_ found
    refine ⟨⟨fun _ => ?_,fun _ => ⟨_,rfl⟩⟩,fun s' same => ?_,nofun⟩
    · obtain ⟨θ,ground,respects⟩ := triangularGround general.triangular
      exact ⟨θ,ground,(general.solutions θ).mp respects⟩
    · cases same
      exact ⟨general.triangular,general.size,rfl,general.bound,general.same,general.solutions⟩
  | error refused =>
    have none_ : ¬∃ θ, Respects θ s ∧ a.inst θ = b.inst θ := by
      rintro ⟨θ,respects,equal⟩
      have stands : Stands Met θ ⟨s.subst,[]⟩ := ⟨respects,triangular.inRange,nofun⟩
      cases unifyStays stands a_ b_ equal _ found with
      | error never => exact never
    refine ⟨⟨nofun,fun ⟨θ,_,solves⟩ => absurd ⟨θ,solves⟩ none_⟩,nofun,fun halt same => ?_⟩
    cases same
    exact ⟨refused,none_⟩

/- A chain of variables, and a function type over it. -/
def chained : Store := ⟨[some (.var 1),none,none,some (.fn (.var 2) (.var 0))],[⟨.var 1,["cmd","plan"],"cmd"⟩]⟩

theorem chainedTriangular : Triangular chained.subst := by
  refine triangularResolves.mpr fun i inside => ?_
  have one : Resolves chained.subst (.var 1) (.var 1) := .free rfl
  have two : Resolves chained.subst (.var 2) (.var 2) := .free rfl
  have zero : Resolves chained.subst (.var 0) (.var 1) := .bound rfl one
  match i with
  | 0 => exact ⟨_,zero⟩
  | 1 => exact ⟨_,one⟩
  | 2 => exact ⟨_,two⟩
  | 3 => exact ⟨_,.bound rfl (.fn two zero)⟩
  | k+4 => exact absurd inside (Nat.not_lt_of_le (Nat.le_add_left 4 k))

/- The result's side of the function type has to see what the argument's side bound. -/
theorem unifyPrincipalChained : ∃ s', Answers (fun n => unify n (.var 3) (.fn (.fn .num .num) (.var 2))) chained (.ok ((),s')) ∧
    MostGeneral chained (.var 3) (.fn (.fn .num .num) (.var 2)) s' := by
  obtain ⟨-,-,r,answers,solvable,general,-⟩ := @unifyPrincipal chained (.var 3) (.fn (.fn .num .num) (.var 2)) chainedTriangular
    (by decide : 3 < 4) ⟨⟨trivial,trivial⟩,(by decide : 2 < 4)⟩
  let θ : Assignment := fun i => if i = 3 then .fn (.fn .num .num) (.fn .num .num) else .fn .num .num
  have respects : Respects θ chained := by
    intro i t found
    match i with
    | 0 | 3 =>
      cases found
      rfl
    | 1 | 2 => cases found
  have ground : Ground θ := by
    intro i
    change (if i = 3 then Ty.fn (.fn .num .num) (.fn .num .num) else .fn .num .num).Within 0
    split <;> simp [Ty.Within]
  obtain ⟨s',rfl⟩ := solvable.mpr ⟨θ,ground,respects,rfl⟩
  exact ⟨s',answers,general s' rfl⟩

/- `occurs_check_refuses_the_self_swallowing_stretto` -/
example : unify 4 (.var 0) (.fn (.var 0) .num) ⟨[none],[]⟩ = some (.error (.clash .infinite)) := rfl

end Unifying

end Officium.Check

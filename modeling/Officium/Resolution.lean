import Officium.Unify

/-! Unification comes to an end. The bindings of a tidy store never lead round in a circle, so
every type resolves to a finite tree over the unbound variables; a call of `unify` goes down in
the tree of its first argument or binds a variable for good. -/
namespace Officium.Check
open Bounded (Comp Ends endsBind endsNext endsPure endsFail endsState endsUpdate endsWeaken)

abbrev Bindings := List (Option Ty)

def Ty.flat : Ty → Bool
  | var _ | fn _ _ => false
  | _ => true

def Ty.mentions (i : Nat) : Ty → Bool
  | var j => j == i
  | fn a r => a.mentions i || r.mentions i
  | _ => false

def Ty.Within (n : Nat) : Ty → Prop
  | var i => i < n
  | fn a r => a.Within n ∧ r.Within n
  | _ => True

/- The second type is the first one with every binding followed to its end. -/
inductive Resolves (bindings : Bindings) : Ty → Ty → Prop where
  | free {i} (unbound : bindings[i]? = some none) : Resolves bindings (.var i) (.var i)
  | bound {i t T} (found : bindings[i]? = some (some t)) (t_ : Resolves bindings t T) : Resolves bindings (.var i) T
  | fn {a r A R} (a_ : Resolves bindings a A) (r_ : Resolves bindings r R) : Resolves bindings (.fn a r) (.fn A R)
  | flat {t} (flat : t.flat = true) : Resolves bindings t t

structure Tidy (s : Store) : Prop where
  vars : ∀ i, i < s.subst.length → ∃ T, Resolves s.subst (.var i) T
  preds : ∀ p ∈ s.preds, p.ty.Within s.subst.length

/- The variables still unbound. -/
def Store.vacant (s : Store) : Nat := s.subst.countP Option.isNone

/- A refusal with a message, not a fault of the checker itself. -/
def Refused (h : Halt) : Prop := ∃ c, h = .clash c

section Trees
variable {bindings : Bindings} {s : Store} {i : Nat} {t u T U : Ty}

theorem withinMono {m n : Nat} (le : m ≤ n) (h : t.Within m) : t.Within n := by
  induction t with
  | var j => exact Nat.lt_of_lt_of_le h le
  | fn a r iha ihr => exact ⟨iha h.1,ihr h.2⟩
  | _ => trivial

theorem resolvesWithin (h : Resolves bindings t T) : t.Within bindings.length := by
  induction h with
  | free unbound => exact (List.getElem?_eq_some_iff.mp unbound).1
  | bound found _ _ => exact (List.getElem?_eq_some_iff.mp found).1
  | fn _ _ iha ihr => exact ⟨iha,ihr⟩
  | @flat t flat => cases t with
    | var => cases flat
    | fn => cases flat
    | _ => trivial

theorem withinResolves (tidy : Tidy s) (h : t.Within s.subst.length) : ∃ T, Resolves s.subst t T := by
  induction t with
  | var j => exact tidy.vars j h
  | fn a r iha ihr =>
    obtain ⟨A,a_⟩ := iha h.1
    obtain ⟨R,r_⟩ := ihr h.2
    exact ⟨.fn A R,.fn a_ r_⟩
  | _ => exact ⟨_,.flat rfl⟩

theorem resolvesUnique (t_ : Resolves bindings t T) (u_ : Resolves bindings t U) : T = U := by
  induction t_ generalizing U with
  | free unbound =>
    cases u_ with
    | free _ => rfl
    | bound found _ => rw [unbound] at found; cases found
    | flat flat => cases flat
  | bound found _ ih =>
    cases u_ with
    | free unbound => rw [unbound] at found; cases found
    | bound found' next_ =>
      cases Option.some.inj (Option.some.inj (found.symm.trans found'))
      exact ih next_
    | flat flat => cases flat
  | fn _ _ iha ihr =>
    cases u_ with
    | fn a_ r_ => rw [iha a_,ihr r_]
    | flat flat => cases flat
  | flat flat =>
    cases u_ with
    | free _ => cases flat
    | bound _ _ => cases flat
    | fn _ _ => cases flat
    | flat _ => rfl

/- Following bindings is instantiation by what each variable resolves to. -/
theorem resolvesInst {θ : Assignment} (vars : ∀ i U, Resolves bindings (.var i) U → θ i = U) (h : Resolves bindings t T) :
    t.inst θ = T := by
  induction h with
  | free unbound => exact vars _ _ (.free unbound)
  | bound found t_ _ => exact vars _ _ (.bound found t_)
  | fn _ _ iha ihr => rw [Ty.inst,iha,ihr]
  | @flat t flat => cases t with
    | var => cases flat
    | fn => cases flat
    | _ => rfl

theorem resolvesFn {a r : Ty} (h : Resolves bindings (.fn a r) T) :
    ∃ A R, T = .fn A R ∧ Resolves bindings a A ∧ Resolves bindings r R := by
  cases h with
  | fn a_ r_ => exact ⟨_,_,rfl,a_,r_⟩
  | flat flat => cases flat

/- A binding changes nothing in a tree its variable does not occur in. -/
theorem resolvesAside (unbound : bindings[i]? = some none) (h : Resolves bindings u U) (apart : U.mentions i = false) :
    Resolves (bindings.set i (some t)) u U := by
  induction h with
  | @free j free =>
    have other : i ≠ j := fun same => by simp [Ty.mentions,same] at apart
    exact .free ((List.getElem?_set_ne other).trans free)
  | @bound j next _ found _ ih =>
    have other : i ≠ j := fun same => by rw [← same,unbound] at found; cases found
    exact .bound ((List.getElem?_set_ne other).trans found) (ih apart)
  | fn _ _ iha ihr =>
    rw [Ty.mentions,Bool.or_eq_false_iff] at apart
    exact .fn (iha apart.1) (ihr apart.2)
  | flat flat => exact .flat flat

theorem resolvesBound (unbound : bindings[i]? = some none) (t_ : Resolves bindings t T) (apart : T.mentions i = false)
    (h : Resolves bindings u U) : ∃ V, Resolves (bindings.set i (some t)) u V := by
  induction h with
  | @free j free =>
    by_cases same : i = j
    · subst same
      exact ⟨T,.bound (List.getElem?_set_self (List.getElem?_eq_some_iff.mp unbound).1) (resolvesAside unbound t_ apart)⟩
    · exact ⟨_,.free ((List.getElem?_set_ne same).trans free)⟩
  | @bound j next _ found _ ih =>
    obtain ⟨V,next_⟩ := ih
    have other : i ≠ j := fun same => by rw [← same,unbound] at found; cases found
    exact ⟨V,.bound ((List.getElem?_set_ne other).trans found) next_⟩
  | fn _ _ iha ihr =>
    obtain ⟨A,a_⟩ := iha
    obtain ⟨R,r_⟩ := ihr
    exact ⟨.fn A R,.fn a_ r_⟩
  | flat flat => exact ⟨_,.flat flat⟩

/- The types the bindings resolve to are an assignment that leaves the unbound variables as they are. -/
theorem tidyAssignment (tidy : Tidy s) : ∃ θ : Assignment, Respects θ s ∧ ∀ i, s.subst[i]? = some none → θ i = .var i := by
  have resolved : ∀ i, ∃ T, ∀ U, Resolves s.subst (.var i) U → T = U := by
    intro i
    by_cases inside : i < s.subst.length
    · obtain ⟨T,var_⟩ := tidy.vars i inside
      exact ⟨T,fun U other => resolvesUnique var_ other⟩
    · exact ⟨.var i,fun U other => absurd (resolvesWithin other) inside⟩
  obtain ⟨θ,spec⟩ := Classical.axiomOfChoice resolved
  refine ⟨θ,fun i t found => ?_,fun i unbound => spec i _ (.free unbound)⟩
  obtain ⟨T,var_⟩ := tidy.vars i (List.getElem?_eq_some_iff.mp found).1
  have next : Resolves s.subst t T := by
    cases var_ with
    | free unbound => rw [unbound] at found; cases found
    | bound found' next => cases found.symm.trans found'; exact next
    | flat flat => cases flat
  rw [spec i T var_,resolvesInst spec next]

end Trees

/- The types of the sung lines are made of what the statements' types are made of. -/
theorem sungWithin {c : Checker} {lines : List Ty} {rhymes : List (Char × String)} {n : Nat} (result : c.cells.result.Within n)
    (each : ∀ t ∈ lines, t.Within n) : ∀ l ∈ sungLines c lines rhymes, l.2.Within n := by
  intro l mem
  obtain ⟨r,_,rfl⟩ := List.mem_map.mp mem
  simp only [sungType]
  split
  · exact result
  · rw [List.getD_eq_getElem?_getD]
    cases found : lines[r.2 + 1 - 1]? with
    | none => exact result
    | some t => exact each t (List.mem_of_getElem? found)

section Ending
variable {s : Store} {i : Nat} {a b t A B T : Ty}

theorem shallowEnds {bad : Halt → Prop} (h : Resolves s.subst t T) :
    Ends (fun n => shallow n t) s (fun t' s' => s' = s ∧ Settled s t' ∧ Resolves s.subst t' T) bad := by
  induction h with
  | @free j unbound =>
    refine endsNext (x := fun n => shallow (n+1) (.var j)) (fun _ => rfl) (endsBind endsState ?_)
    rintro _ _ ⟨rfl,rfl⟩
    simp only [unbound]
    exact endsPure ⟨rfl,fun _ same => (by cases same; exact unbound),.free unbound⟩
  | @bound j next _ found _ ih =>
    refine endsNext (x := fun n => shallow (n+1) (.var j)) (fun _ => rfl) (endsBind endsState ?_)
    rintro _ _ ⟨rfl,rfl⟩
    simp only [found]
    exact ih
  | fn a_ r_ _ _ =>
    exact endsNext (fun _ => rfl) (endsPure ⟨rfl,fun _ same => (by cases same),.fn a_ r_⟩)
  | @flat t flat =>
    cases t with
    | var => cases flat
    | fn => cases flat
    | _ => exact endsNext (fun _ => rfl) (endsPure ⟨rfl,fun _ same => (by cases same),.flat rfl⟩)

theorem settledSame (settled : Settled s t) (t_ : Resolves s.subst t T) (plain : ∀ A R, T ≠ .fn A R) : t = T := by
  cases t_ with
  | free _ => rfl
  | bound found _ => rw [settled _ rfl] at found; cases found
  | fn _ _ => exact absurd rfl (plain _ _)
  | flat _ => rfl

theorem settledFn {R : Ty} (settled : Settled s t) (t_ : Resolves s.subst t (.fn A R)) :
    ∃ a r, t = .fn a r ∧ Resolves s.subst a A ∧ Resolves s.subst r R := by
  cases t_ with
  | bound found _ => rw [settled _ rfl] at found; cases found
  | fn a_ r_ => exact ⟨_,_,rfl,a_,r_⟩
  | flat flat => cases flat

theorem occursEnds {bad : Halt → Prop} (h : Resolves s.subst t T) :
    Ends (fun n => occurs n i t) s (fun b s' => s' = s ∧ b = T.mentions i) bad := by
  induction T generalizing t with
  | fn A R ihA ihR =>
    refine endsNext (x := fun n => occurs (n+1) i t) (fun _ => rfl) (endsBind (shallowEnds h) ?_)
    rintro t' _ ⟨rfl,settled,t_⟩
    obtain ⟨a,r,rfl,a_,r_⟩ := settledFn settled t_
    refine endsBind (ihA a_) ?_
    rintro left _ ⟨rfl,hl⟩
    cases left with
    | true => exact endsPure ⟨rfl,by rw [Ty.mentions,← hl,Bool.true_or]⟩
    | false =>
      refine endsWeaken ?_ (ihR r_)
      rintro right _ ⟨rfl,hr⟩
      exact ⟨rfl,by rw [Ty.mentions,← hl,Bool.false_or]; exact hr⟩
  | _ =>
    refine endsNext (x := fun n => occurs (n+1) i t) (fun _ => rfl) (endsBind (shallowEnds h) ?_)
    rintro t' _ ⟨rfl,settled,t_⟩
    cases settledSame settled t_ (fun _ _ same => by cases same)
    exact endsPure ⟨rfl,rfl⟩

/- What a unification leaves: the store it found, or one with fewer variables unbound. -/
structure Narrows (s s' : Store) : Prop where
  tidy : Tidy s'
  size : s'.subst.length = s.subst.length
  preds : s'.preds = s.preds
  less : s' = s ∨ s'.vacant < s.vacant

theorem narrowsRefl (tidy : Tidy s) : Narrows s s := ⟨tidy,rfl,rfl,.inl rfl⟩

theorem narrowsTrans {s' s'' : Store} (h : Narrows s s') (k : Narrows s' s'') : Narrows s s'' := by
  refine ⟨k.tidy,k.size.trans h.size,k.preds.trans h.preds,?_⟩
  rcases h.less with rfl | less
  · exact k.less
  · rcases k.less with rfl | further
    · exact .inr less
    · exact .inr (Nat.lt_trans further less)

theorem bindNarrows (tidy : Tidy s) (unbound : s.subst[i]? = some none) (t_ : Resolves s.subst t T)
    (apart : T.mentions i = false) : Narrows s { s with subst := s.subst.set i (some t) } := by
  obtain ⟨inside,value⟩ := List.getElem?_eq_some_iff.mp unbound
  refine ⟨⟨fun j lt => ?_,fun p mem => ?_⟩,List.length_set,rfl,.inr ?_⟩
  · rw [List.length_set] at lt
    obtain ⟨U,var_⟩ := tidy.vars j lt
    exact resolvesBound unbound t_ apart var_
  · rw [List.length_set]
    exact tidy.preds p mem
  · have one : 0 < s.subst.countP Option.isNone :=
      List.countP_pos_iff.mpr ⟨none,value ▸ List.getElem_mem inside,rfl⟩
    rw [Store.vacant,Store.vacant,List.countP_set inside,value]
    exact Nat.sub_lt one Nat.one_pos

theorem assignEnds (tidy : Tidy s) (unbound : s.subst[i]? = some none) (t_ : Resolves s.subst t T) :
    Ends (fun n => assign n i t) s (fun _ s' => Narrows s s') Refused := by
  refine endsBind (occursEnds t_) ?_
  rintro b _ ⟨rfl,met⟩
  cases b with
  | true => exact endsFail ⟨_,rfl⟩
  | false =>
    refine endsWeaken ?_ (endsUpdate _)
    rintro _ _ rfl
    exact bindNarrows tidy unbound t_ met.symm

theorem sameEnds (tidy : Tidy s) (x y : Ty) :
    Ends (fun _ => if x = y then pure () else clash (.types x.hint y.hint)) s (fun _ s' => Narrows s s') Refused := by
  by_cases same : x = y
  · simp only [if_pos same]
    exact endsPure (narrowsRefl tidy)
  · simp only [if_neg same]
    exact endsFail ⟨_,rfl⟩

/- What `unify` does with two representatives. -/
theorem meetEnds (tidy : Tidy s) (settledA : Settled s a) (settledB : Settled s b) (a_ : Resolves s.subst a A)
    (b_ : Resolves s.subst b B)
    (parts : ∀ a₁ r₁ a₂ r₂, a = .fn a₁ r₁ → b = .fn a₂ r₂ →
      Ends (fun n => do unify n a₁ a₂; unify n r₁ r₂) s (fun _ s' => Narrows s s') Refused) :
    Ends (fun n => match a, b with
      | .var i, .var j => if i = j then pure () else assign n i (.var j)
      | .var i, t => assign n i t
      | t, .var i => assign n i t
      | .fn a1 r1, .fn a2 r2 => do
        unify n a1 a2
        unify n r1 r2
      | x, y => if x = y then pure () else clash (.types x.hint y.hint)) s (fun _ s' => Narrows s s') Refused := by
  cases a with
  | var i =>
    cases b with
    | var j =>
      by_cases same : i = j
      · simp only [if_pos same]
        exact endsPure (narrowsRefl tidy)
      · simp only [if_neg same]
        exact assignEnds tidy (settledA i rfl) b_
    | _ => exact assignEnds tidy (settledA i rfl) b_
  | fn a₁ r₁ =>
    cases b with
    | var j => exact assignEnds tidy (settledB j rfl) a_
    | fn a₂ r₂ => exact parts a₁ r₁ a₂ r₂ rfl rfl
    | _ => exact sameEnds tidy _ _
  | _ =>
    cases b with
    | var j => exact assignEnds tidy (settledB j rfl) a_
    | _ => exact sameEnds tidy _ _

end Ending

/- Down the tree of the first argument while the store stays as it is, else with fewer variables unbound. -/
theorem unifyEnds {s : Store} {a b A : Ty} (tidy : Tidy s) (a_ : Resolves s.subst a A)
    (within : b.Within s.subst.length) : Ends (fun n => unify n a b) s (fun _ s' => Narrows s s') Refused := by
  obtain ⟨B,b_⟩ := withinResolves tidy within
  refine endsNext (x := fun n => unify (n+1) a b) (fun _ => rfl) (endsBind (shallowEnds a_) ?_)
  rintro a' _ ⟨same,settledA,a_'⟩
  rw [same]
  refine endsBind (shallowEnds b_) ?_
  rintro b' _ ⟨same,settledB,b_'⟩
  rw [same]
  refine meetEnds tidy settledA settledB a_' b_' ?_
  rintro a₁ r₁ a₂ r₂ rfl rfl
  obtain ⟨A₁,R₁,shape,a₁_,r₁_⟩ := resolvesFn a_'
  have within' := resolvesWithin b_'
  refine endsBind (unifyEnds tidy a₁_ within'.1) (fun _ t narrows => ?_)
  rcases narrows.less with same | fewer
  · rw [same]
    exact unifyEnds tidy r₁_ within'.2
  · obtain ⟨R,r_⟩ := withinResolves narrows.tidy (narrows.size ▸ resolvesWithin r₁_)
    exact endsWeaken (fun _ _ more => narrowsTrans narrows more)
      (unifyEnds narrows.tidy r_ (narrows.size ▸ within'.2))
termination_by (s.vacant,A)
decreasing_by
  · rw [shape]; decreasing_tactic
  · rw [shape]; decreasing_tactic
  · exact Prod.Lex.left _ _ fewer

end Officium.Check

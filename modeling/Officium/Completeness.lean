import Officium.Resolution
import Officium.Rules

/-! Inference refuses no verse that the rules can type. An assignment that satisfies the store before
a step of the checker satisfies it afterwards, once the variables made on the way are given the
types the derivation has for them: unification binds no more than the assignment already says. -/
namespace Officium.Check
open Bounded

/- The assignment satisfies a store whose types are made of its own variables. -/
structure Stands (oneOf : OneOf) (θ : Assignment) (s : Store) : Prop where
  bound : Respects θ s
  inside : ∀ (i : Nat) (t : Ty), s.subst[i]? = some (some t) → t.Within s.subst.length
  preds : ∀ p ∈ s.preds, oneOf p.allowed (p.ty.inst θ) ∧ p.ty.Within s.subst.length

section Unifying
variable {oneOf : OneOf} {θ : Assignment} {s : Store} {n i : Nat} {a b t : Ty}

theorem shallowStays (stands : Stands oneOf θ s) (within : t.Within s.subst.length) :
    Stays (shallow n t) s (fun t' s' => s' = s ∧ Settled s t' ∧ t'.Within s.subst.length ∧ t.inst θ = t'.inst θ ∧
      (Settled s t → t' = t)) := by
  induction n generalizing t with
  | zero => exact staysCut
  | succ n ih =>
    cases t with
    | var i =>
      refine staysBind staysState ?_
      rintro _ _ ⟨rfl,rfl⟩
      split
      · rename_i outside
        exact absurd (List.getElem?_eq_none_iff.mp outside) (Nat.not_le_of_lt within)
      · rename_i unbound
        exact staysPure ⟨rfl,fun j same => (by cases same; exact unbound),within,rfl,fun _ => rfl⟩
      · rename_i next bound
        refine staysWeaken ?_ (ih (stands.inside i next bound))
        rintro t' _ ⟨rfl,settled,inside,same,_⟩
        refine ⟨rfl,settled,inside,(stands.bound i next bound).trans same,fun free => ?_⟩
        rw [free i rfl] at bound
        cases bound
    | _ => exact staysPure ⟨rfl,fun j same => (by cases same),within,rfl,fun _ => rfl⟩

/- What occurs in a type other than the type itself is assigned a smaller one. -/
theorem occursStays (stands : Stands oneOf θ s) (within : t.Within s.subst.length) :
    Stays (occurs n i t) s (fun b s' => s' = s ∧
      (b = true → sizeOf (θ i) ≤ sizeOf (t.inst θ) ∧ (Settled s t → t = .var i ∨ sizeOf (θ i) < sizeOf (t.inst θ)))) := by
  induction n generalizing t with
  | zero => exact staysCut
  | succ n ih =>
    refine staysBind (shallowStays stands within) ?_
    rintro t' s ⟨rfl,_,inside,same,still⟩
    rw [same]
    cases t' with
    | var j =>
      refine staysPure ⟨rfl,fun met => ?_⟩
      cases beq_iff_eq.mp met
      exact ⟨Nat.le_refl _,fun settled => .inl (still settled).symm⟩
    | fn a r =>
      have whole {u : Ty} (part : sizeOf (u.inst θ) < sizeOf ((Ty.fn a r).inst θ)) (less : sizeOf (θ i) ≤ sizeOf (u.inst θ)) :
          sizeOf (θ i) ≤ sizeOf ((Ty.fn a r).inst θ) ∧
            (Settled s t → t = .var i ∨ sizeOf (θ i) < sizeOf ((Ty.fn a r).inst θ)) :=
        ⟨Nat.le_of_lt (Nat.lt_of_le_of_lt less part),fun _ => .inr (Nat.lt_of_le_of_lt less part)⟩
      refine staysBind (ih inside.1) ?_
      rintro left s ⟨rfl,foundL⟩
      cases left with
      | true => exact staysPure ⟨rfl,fun _ => whole (by simp only [Ty.inst,Ty.fn.sizeOf_spec]; omega) (foundL rfl).1⟩
      | false =>
        refine staysWeaken ?_ (ih inside.2)
        rintro right _ ⟨rfl,foundR⟩
        exact ⟨rfl,fun met => whole (by simp only [Ty.inst,Ty.fn.sizeOf_spec]; omega) (foundR met).1⟩
    | _ => exact staysPure ⟨rfl,fun never => by cases never⟩

theorem boundSet {bindings : Bindings} {j : Nat} {u : Ty} (h : (bindings.set i (some t))[j]? = some (some u)) :
    (i = j ∧ t = u) ∨ bindings[j]? = some (some u) := by
  rw [List.getElem?_set] at h
  split at h
  · rename_i same
    split at h
    · exact .inl ⟨same,Option.some.inj (Option.some.inj h)⟩
    · cases h
  · exact .inr h

/- Binding a variable to a type the assignment gives it already. -/
theorem assignStays (stands : Stands oneOf θ s) (unbound : s.subst[i]? = some none) (settled : Settled s t)
    (other : t ≠ .var i) (within : t.Within s.subst.length) (same : θ i = t.inst θ) :
    Stays (assign n i t) s (fun _ s' => Stands oneOf θ s' ∧ s'.subst.length = s.subst.length) := by
  refine staysBind (occursStays stands within) ?_
  rintro b s ⟨rfl,found⟩
  cases b with
  | true =>
    rcases (found rfl).2 settled with itself | smaller
    · exact absurd itself other
    · exact absurd (congrArg sizeOf same) (Nat.ne_of_lt smaller)
  | false =>
    refine staysWeaken ?_ (staysUpdate _)
    rintro _ _ rfl
    refine ⟨⟨fun j u bound => ?_,fun j u bound => ?_,fun p mem => ?_⟩,List.length_set⟩
    · rcases boundSet bound with ⟨rfl,rfl⟩ | before
      · exact same
      · exact stands.bound j u before
    · rw [List.length_set]
      rcases boundSet bound with ⟨rfl,rfl⟩ | before
      · exact within
      · exact stands.inside j u before
    · rw [List.length_set]
      exact stands.preds p mem

theorem plainSame (plainA : ∀ i, a = .var i → False) (plainB : ∀ i, b = .var i → False)
    (parts : ∀ a1 r1 a2 r2, a = .fn a1 r1 → b = .fn a2 r2 → False) (same : a.inst θ = b.inst θ) : a = b := by
  cases a with
  | var i => exact (plainA i rfl).elim
  | fn a1 r1 =>
    cases b with
    | var i => exact (plainB i rfl).elim
    | fn a2 r2 => exact (parts a1 r1 a2 r2 rfl rfl).elim
    | _ => cases same
  | _ =>
    cases b with
    | var i => exact (plainB i rfl).elim
    | _ => first | rfl | cases same

theorem unifyStays (stands : Stands oneOf θ s) (a_ : a.Within s.subst.length) (b_ : b.Within s.subst.length)
    (same : a.inst θ = b.inst θ) :
    Stays (unify n a b) s (fun _ s' => Stands oneOf θ s' ∧ s'.subst.length = s.subst.length) := by
  induction n generalizing a b s with
  | zero => exact staysCut
  | succ n ih =>
    refine staysBind (shallowStays stands a_) ?_
    rintro a' s ⟨rfl,settledA,insideA,sameA,-⟩
    refine staysBind (shallowStays stands b_) ?_
    rintro b' s ⟨rfl,settledB,insideB,sameB,-⟩
    rw [sameA,sameB] at same
    split
    · split
      · exact staysPure ⟨stands,rfl⟩
      · rename_i differ
        exact assignStays stands (settledA _ rfl) settledB (fun itself => differ (by cases itself; rfl)) insideB same
    · rename_i plain
      exact assignStays stands (settledA _ rfl) settledB (fun itself => plain _ itself) insideB same
    · rename_i plain
      exact assignStays stands (settledB _ rfl) settledA (fun itself => plain _ itself) insideA same.symm
    · rename_i a1 r1 a2 r2
      simp only [Ty.inst,Ty.fn.injEq] at same
      refine staysBind (ih stands insideA.1 insideB.1 same.1) (fun _ s' h => ?_)
      refine staysWeaken (fun _ _ k => ⟨k.1,k.2.trans h.2⟩) (ih h.1 ?_ ?_ same.2)
      · rw [h.2]; exact insideA.2
      · rw [h.2]; exact insideB.2
    · rename_i plainA plainB _ parts
      rw [if_pos (plainSame plainA plainB parts same)]
      exact staysPure ⟨stands,rfl⟩

end Unifying

/- The later assignment differs on new variables only. -/
structure Later (θ : Assignment) (s : Store) (θ' : Assignment) (s' : Store) : Prop where
  agree : ∀ i, i < s.subst.length → θ' i = θ i
  size : s.subst.length ≤ s'.subst.length

/- The checker's variables and its scope stand for the cells and the scope of a derivation. -/
structure Follows (oneOf : OneOf) (c : Checker) (cells : Cells) (Γ Γ' : Gamma) (θ : Assignment) (s : Store) : Prop where
  stands : Stands oneOf θ s
  arg : c.cells.arg.Within s.subst.length ∧ c.cells.arg.inst θ = cells.arg
  state : c.cells.state.Within s.subst.length ∧ c.cells.state.inst θ = cells.state
  throw : c.cells.throw.Within s.subst.length ∧ c.cells.throw.inst θ = cells.throw
  result : c.cells.result.Within s.subst.length ∧ c.cells.result.inst θ = cells.result
  names : ∀ b ∈ Γ, b.2.Within s.subst.length
  scope : instGamma θ Γ = Γ'

/- Whatever the computation answers is a type that stands for `T`. -/
def Finds (oneOf : OneOf) (x : CheckM Ty) (θ : Assignment) (s : Store) (T : Ty) : Prop :=
  Stays x s (fun t s' => ∃ θ', Later θ s θ' s' ∧ Stands oneOf θ' s' ∧ t.Within s'.subst.length ∧ t.inst θ' = T)

section Stores
variable {oneOf : OneOf} {c : Checker} {cells : Cells} {Γ Γ' : Gamma} {θ θ' : Assignment} {s s' : Store} {t T U : Ty}

theorem laterRefl (θ : Assignment) (s : Store) : Later θ s θ s := ⟨fun _ _ => rfl,Nat.le_refl _⟩

theorem laterTrans {θ'' : Assignment} {s'' : Store} (h : Later θ s θ' s') (k : Later θ' s' θ'' s'') : Later θ s θ'' s'' :=
  ⟨fun i lt => (k.agree i (Nat.lt_of_lt_of_le lt h.size)).trans (h.agree i lt),Nat.le_trans h.size k.size⟩

theorem instAgree {n : Nat} (agree : ∀ i, i < n → θ' i = θ i) (within : t.Within n) : t.inst θ' = t.inst θ := by
  induction t with
  | var i => exact agree i within
  | fn a r iha ihr => simp only [Ty.inst,iha within.1,ihr within.2]
  | _ => rfl

theorem instLater (later : Later θ s θ' s') (h : t.Within s.subst.length ∧ t.inst θ = T) :
    t.Within s'.subst.length ∧ t.inst θ' = T :=
  ⟨withinMono later.size h.1,(instAgree later.agree h.1).trans h.2⟩

theorem valueClosed (v : Value) (n : Nat) (θ : Assignment) : (typeOfValue v).Within n ∧ (typeOfValue v).inst θ = typeOfValue v := by
  cases v <;> exact ⟨trivial,rfl⟩

theorem followsLater (h : Follows oneOf c cells Γ Γ' θ s) (later : Later θ s θ' s') (stands : Stands oneOf θ' s') :
    Follows oneOf c cells Γ Γ' θ' s' := by
  refine ⟨stands,instLater later h.arg,instLater later h.state,instLater later h.throw,instLater later h.result,
    fun b mem => withinMono later.size (h.names b mem),?_⟩
  rw [← h.scope]
  exact List.map_congr_left (fun b mem => by rw [instAgree later.agree (h.names b mem)])

theorem followsCons (h : Follows oneOf c cells Γ Γ' θ s) (x : Sym) (t_ : t.Within s.subst.length ∧ t.inst θ = T) :
    Follows oneOf c cells ((x,t) :: Γ) ((x,T) :: Γ') θ s := by
  refine ⟨h.stands,h.arg,h.state,h.throw,h.result,fun b mem => ?_,?_⟩
  · cases mem with
    | head => exact t_.1
    | tail _ mem => exact h.names b mem
  · rw [← h.scope,← t_.2]
    rfl

theorem findsPure (stands : Stands oneOf θ s) (t_ : t.Within s.subst.length ∧ t.inst θ = T) :
    Finds oneOf (pure t) θ s T := staysPure ⟨θ,laterRefl θ s,stands,t_.1,t_.2⟩

theorem findsLater {x : CheckM Ty} (later : Later θ s θ' s') (h : Finds oneOf x θ' s' T) :
    Stays x s' (fun t s'' => ∃ θ'', Later θ s θ'' s'' ∧ Stands oneOf θ'' s'' ∧ t.Within s''.subst.length ∧ t.inst θ'' = T) := by
  refine staysWeaken ?_ h
  rintro u s'' ⟨θ'',more,stands,within,same⟩
  exact ⟨θ'',laterTrans later more,stands,within,same⟩

theorem findsBind {x : CheckM Ty} {f : Ty → CheckM Ty} (h : Follows oneOf c cells Γ Γ' θ s) (first : Finds oneOf x θ s T)
    (rest : ∀ t θ' s', Follows oneOf c cells Γ Γ' θ' s' → Later θ s θ' s' → t.Within s'.subst.length ∧ t.inst θ' = T →
      Finds oneOf (f t) θ' s' U) : Finds oneOf (x >>= f) θ s U := by
  refine staysBind first ?_
  rintro t s' ⟨θ',later,stands,t_⟩
  exact findsLater later (rest t θ' s' (followsLater h later stands) later t_)

theorem meetThen {f : CheckM Ty} {n : Nat} {a b : Ty} (h : Follows oneOf c cells Γ Γ' θ s)
    (a_ : a.Within s.subst.length ∧ a.inst θ = T) (b_ : b.Within s.subst.length ∧ b.inst θ = T)
    (rest : ∀ s', Follows oneOf c cells Γ Γ' θ s' → Later θ s θ s' → Finds oneOf f θ s' U) :
    Finds oneOf (unify n a b >>= fun _ => f) θ s U := by
  refine staysBind (unifyStays h.stands a_.1 b_.1 (a_.2.trans b_.2.symm)) ?_
  rintro _ s' ⟨stands,size⟩
  have later : Later θ s θ s' := ⟨fun _ _ => rfl,Nat.le_of_eq size.symm⟩
  exact findsLater later (rest s' (followsLater h later stands) later)

theorem modeThen {f : CheckM Ty} {mode : Mode} {op : OpKind} (allowed : mode.allows op = true) (rest : Finds oneOf f θ s U) :
    Finds oneOf (checkMode mode op >>= fun _ => f) θ s U := by
  unfold checkMode
  rw [if_pos allowed]
  exact rest

theorem wantThen {f : CheckM Ty} {p : Pred} (h : Follows oneOf c cells Γ Γ' θ s) (within : p.ty.Within s.subst.length)
    (met : oneOf p.allowed (p.ty.inst θ))
    (rest : ∀ s', Follows oneOf c cells Γ Γ' θ s' → Later θ s θ s' → Finds oneOf f θ s' U) :
    Finds oneOf (want p >>= fun _ => f) θ s U := by
  refine staysBind (staysUpdate _) ?_
  rintro _ _ rfl
  have later : Later θ s θ { s with preds := s.preds ++ [p] } := ⟨fun _ _ => rfl,Nat.le_refl _⟩
  refine findsLater later (rest _ (followsLater h later ⟨h.stands.bound,h.stands.inside,fun q mem => ?_⟩) later)
  rcases List.mem_append.mp mem with old | new
  · exact h.stands.preds q old
  · cases List.mem_singleton.mp new
    exact ⟨met,within⟩

/- A fresh variable stands for whatever type is wanted of it. -/
theorem freshFinds (stands : Stands oneOf θ s) (T : Ty) : Finds oneOf fresh θ s T := by
  refine staysBind staysState ?_
  rintro _ s ⟨rfl,rfl⟩
  refine staysBind (staysUpdate _) ?_
  rintro _ _ rfl
  let θ' : Assignment := fun i => if i = s.subst.length then T else θ i
  have agree : ∀ i, i < s.subst.length → θ' i = θ i := fun i lt => if_neg (Nat.ne_of_lt lt)
  have size : s.subst.length ≤ (s.subst ++ [none]).length := by
    rw [List.length_append]
    exact Nat.le_add_right _ _
  have old {i : Nat} {t : Ty} (bound : (s.subst ++ [none])[i]? = some (some t)) : s.subst[i]? = some (some t) := by
    rw [List.getElem?_append] at bound
    split at bound
    · exact bound
    · rw [List.getElem?_singleton] at bound
      split at bound <;> cases bound
  refine staysPure ⟨θ',⟨agree,size⟩,⟨fun i t bound => ?_,fun i t bound => ?_,fun p mem => ?_⟩,?_,if_pos rfl⟩
  · have before := old bound
    have lt := (List.getElem?_eq_some_iff.mp before).1
    rw [agree i lt,instAgree agree (stands.inside i t before)]
    exact stands.bound i t before
  · exact withinMono size (stands.inside i t (old bound))
  · obtain ⟨met,within⟩ := stands.preds p mem
    rw [instAgree agree within]
    exact ⟨met,withinMono size within⟩
  · rw [Ty.Within,List.length_append]
    exact Nat.lt_succ_self _

/- The table answers with the signature, made of closed types but for one variable of its own. -/
theorem builtinStays {name : Sym} (h : Follows oneOf c cells Γ Γ' θ s) (sig : BuiltinTy oneOf name T) :
    Stays (builtin name) s (fun r s' => ∃ t θ', r = some t ∧ Later θ s θ' s' ∧ Stands oneOf θ' s' ∧
      t.Within s'.subst.length ∧ t.inst θ' = T) := by
  have plain {t : Ty} (within : t.Within s.subst.length) (same : t.inst θ = T) :
      Stays (pure (some t) : CheckM (Option Ty)) s (fun r s' => ∃ t θ', r = some t ∧ Later θ s θ' s' ∧ Stands oneOf θ' s' ∧
        t.Within s'.subst.length ∧ t.inst θ' = T) :=
    staysPure ⟨t,θ,rfl,laterRefl θ s,h.stands,within,same⟩
  cases sig with
  | arithmetic among =>
    simp only [List.mem_cons,List.not_mem_nil,or_false] at among
    rcases among with rfl | rfl | rfl | rfl <;> exact plain (by simp only [fun2,Ty.Within,and_self]) rfl
  | compare among =>
    simp only [List.mem_cons,List.not_mem_nil,or_false] at among
    rcases among with rfl | rfl <;> exact plain (by simp only [fun2,Ty.Within,and_self]) rfl
  | measure among =>
    simp only [List.mem_cons,List.not_mem_nil,or_false] at among
    rcases among with rfl | rfl | rfl <;> exact plain (by simp only [Ty.Within,and_self]) rfl
  | sample among =>
    simp only [List.mem_cons,List.not_mem_nil,or_false] at among
    rcases among with rfl | rfl | rfl <;> exact plain (by simp only [Ty.Within,and_self]) rfl
  | eq A =>
    refine staysBind (freshFinds h.stands A) ?_
    rintro a s' ⟨θ',later,stands,within,rfl⟩
    exact staysPure ⟨_,θ',rfl,later,stands,by simp only [fun2,Ty.Within,within,and_self],rfl⟩
  | solve A =>
    refine staysBind (freshFinds h.stands A) ?_
    rintro a s' ⟨θ',later,stands,within,rfl⟩
    exact staysPure ⟨_,θ',rfl,later,stands,by simp only [fun2,Ty.Within,within,and_self],rfl⟩
  | @corpus G named =>
    refine staysBind (freshFinds h.stands G) ?_
    rintro g s' ⟨θ',later,stands,within,rfl⟩
    refine staysBind (staysUpdate _) ?_
    rintro _ _ rfl
    refine staysPure ⟨_,θ',rfl,⟨later.agree,later.size⟩,⟨stands.bound,stands.inside,fun p mem => ?_⟩,?_,rfl⟩
    · rcases List.mem_append.mp mem with old | new
      · exact stands.preds p old
      · cases List.mem_singleton.mp new
        exact ⟨named,within⟩
    · simp only [fun2,Ty.Within,within,and_self]
  | _ => exact plain (by simp only [fun2,Ty.Within,and_self]) rfl

theorem builtinFree {name : Sym} (free : Builtins.arity name = none) : builtin name = pure none := by
  unfold Builtins.arity at free
  split at free
  case h_22 =>
    unfold builtin
    split <;> first | rfl | contradiction
  all_goals cases free

theorem pedalClosed {prog : Program} {name : Sym} (found : pedal prog name = some t) (n : Nat) (θ : Assignment) :
    t.Within n ∧ t.inst θ = t := by
  obtain ⟨p,_,rfl⟩ := Option.map_eq_some_iff.mp ((pedalFind name prog.fugues).symm.trans found)
  exact valueClosed p.2 n θ

theorem lookupFinds {prog : Program} {name : Sym} (h : Follows oneOf c cells Γ Γ' θ s) (named : Named prog oneOf Γ' name T) :
    Finds oneOf (lookup prog Γ name) θ s T := by
  have inst := findInst θ Γ name
  rw [h.scope] at inst
  unfold lookup
  cases found : Γ.find? (fun b => b.1 == name) with
  | some b =>
    rw [found] at inst
    have within := h.names b (List.mem_of_find?_eq_some found)
    cases named with
    | scope here =>
      cases inst.symm.trans here
      exact findsPure h.stands ⟨within,rfl⟩
    | builtin free _ => cases inst.symm.trans free
    | pedal free _ _ => cases inst.symm.trans free
  | none =>
    rw [found] at inst
    cases named with
    | scope here => cases inst.symm.trans here
    | builtin _ sig =>
      refine staysBind (builtinStays h sig) ?_
      rintro _ s' ⟨t,θ',rfl,later,stands,t_⟩
      exact staysPure ⟨θ',later,stands,t_⟩
    | pedal _ free here =>
      dsimp only
      rw [builtinFree free,pureThen]
      simp only [here]
      exact findsPure h.stands (pedalClosed here _ θ)

end Stores

section Walk
variable {oneOf : OneOf} {c : Checker} {cells : Cells} {Γ Γ' : Gamma} {θ : Assignment} {s : Store} {n : Nat} {mode : Mode}

/- What is known of the smaller bound: the walk finds every type the rules allow. -/
def Walks (oneOf : OneOf) (c : Checker) (cells : Cells) (n : Nat) : Prop :=
  ∀ {mode Γ Γ' e T θ s}, Follows oneOf c cells Γ Γ' θ s → Types c.prog oneOf cells mode Γ' e T →
    Finds oneOf (infer c n mode Γ e) θ s T

theorem fitStays (walks : Walks oneOf c cells n) {name : Sym} {r R : Ty} {os : List Overload}
    (h : Follows oneOf c cells Γ Γ' θ s) (r_ : r.Within s.subst.length ∧ r.inst θ = R)
    (each : ∀ o ∈ os, o.1.1 = name → Types c.prog oneOf cells mode Γ' o.2 R) :
    Stays (fitOverloads n (infer c n mode Γ) name r os) s (fun _ s' => ∃ θ', Later θ s θ' s' ∧ Stands oneOf θ' s') := by
  induction os generalizing θ s with
  | nil => exact staysPure ⟨θ,laterRefl θ s,h.stands⟩
  | cons o rest ih =>
    have others := fun o mem => each o (List.mem_cons_of_mem _ mem)
    unfold fitOverloads
    split
    · rename_i named
      refine staysBind (walks h (each o List.mem_cons_self named)) ?_
      rintro t s₁ ⟨θ₁,later₁,stands₁,within,same⟩
      have r₁ := instLater later₁ r_
      refine staysBind (unifyStays stands₁ within r₁.1 (same.trans r₁.2.symm)) ?_
      rintro _ s₂ ⟨stands₂,size⟩
      have later₂ : Later θ s θ₁ s₂ := ⟨later₁.agree,size ▸ later₁.size⟩
      refine staysWeaken ?_ (ih (followsLater h later₂ stands₂) (instLater later₂ r_) others)
      rintro _ s₃ ⟨θ₃,later₃,stands₃⟩
      exact ⟨θ₃,laterTrans later₂ later₃,stands₃⟩
    · exact ih h r_ others

/- A statement comes to the types of its line and its binder. -/
theorem stmtStays (walks : Walks oneOf c cells n) {m : Expr} {L B : Ty} (h : Follows oneOf c cells Γ Γ' θ s)
    (typed : StmtTypes c.prog oneOf cells mode Γ' m L B) :
    Stays (inferStmt c.cells n (infer c n mode Γ) mode m) s (fun b s' => ∃ θ', Later θ s θ' s' ∧ Stands oneOf θ' s' ∧
      (b.1.Within s'.subst.length ∧ b.1.inst θ' = L) ∧ b.2.Within s'.subst.length ∧ b.2.inst θ' = B) := by
  have legal {op : OpKind} (allowed : mode.allows op = true) : checkMode mode op = (pure () : CheckM Unit) := if_pos allowed
  cases typed with
  | pone allowed e_ =>
    simp only [inferStmt,legal allowed,pureThen]
    refine staysBind (walks h e_) ?_
    rintro t s₁ ⟨θ₁,later₁,stands₁,t_⟩
    have state := instLater later₁ h.state
    refine staysBind (unifyStays stands₁ t_.1 state.1 (t_.2.trans state.2.symm)) ?_
    rintro _ s₂ ⟨stands₂,size⟩
    exact staysPure ⟨θ₁,⟨later₁.agree,size ▸ later₁.size⟩,stands₂,⟨size ▸ t_.1,t_.2⟩,trivial,rfl⟩
  | mitte allowed e_ issued =>
    simp only [inferStmt,legal allowed,pureThen]
    refine staysBind (walks h e_) ?_
    rintro t s₁ ⟨θ₁,later₁,stands₁,within,rfl⟩
    refine staysBind (staysUpdate _) ?_
    rintro _ _ rfl
    refine staysPure ⟨θ₁,⟨later₁.agree,later₁.size⟩,⟨stands₁.bound,stands₁.inside,fun p mem => ?_⟩,⟨within,rfl⟩,trivial,rfl⟩
    rcases List.mem_append.mp mem with old | new
    · exact stands₁.preds p old
    · cases List.mem_singleton.mp new
      exact ⟨issued,within⟩
  | other other m_ =>
    unfold inferStmt
    split
    · exact absurd rfl (other _).1
    · exact absurd rfl (other _).2
    · refine staysBind (walks h m_) ?_
      rintro t s₁ ⟨θ₁,later₁,stands₁,t_⟩
      exact staysPure ⟨θ₁,later₁,stands₁,t_,t_⟩

/- One case for each rule. -/
theorem inferFinds (n : Nat) : Walks oneOf c cells n := by
  induction n with
  | zero =>
    intro mode Γ Γ' e T θ s _ _
    exact staysCut
  | succ n ih =>
    intro mode Γ Γ' e T θ s h typed
    cases typed with
    | lit v => exact findsPure h.stands (valueClosed v _ θ)
    | var named => exact lookupFinds h named
    | @lam _ _ x body A R body_ =>
      refine findsBind h (freshFinds h.stands A) (fun a θ₁ s₁ h₁ _ a_ => ?_)
      refine findsBind h₁ (ih (followsCons h₁ x a_) body_) (fun r θ₂ s₂ h₂ later r_ => ?_)
      have a₂ := instLater later a_
      exact findsPure h₂.stands ⟨⟨a₂.1,r_.1⟩,by rw [Ty.inst,a₂.2,r_.2]⟩
    | app f_ a_ =>
      refine findsBind h (ih h f_) (fun tf θ₁ s₁ h₁ _ tf_ => ?_)
      refine findsBind h₁ (ih h₁ a_) (fun ta θ₂ s₂ h₂ later₂ ta_ => ?_)
      refine findsBind h₂ (freshFinds h₂.stands T) (fun r θ₃ s₃ h₃ later₃ r_ => ?_)
      have a₃ := instLater later₃ ta_
      refine meetThen h₃ (instLater (laterTrans later₂ later₃) tf_) ⟨⟨a₃.1,r_.1⟩,by rw [Ty.inst,a₃.2,r_.2]⟩ (fun s₄ h₄ later₄ => ?_)
      exact findsPure h₄.stands (instLater later₄ r_)
    | ifE c_ then_ else_ =>
      refine findsBind h (ih h c_) (fun tc θ₁ s₁ h₁ _ tc_ => ?_)
      refine meetThen h₁ tc_ ⟨trivial,rfl⟩ (fun s₂ h₂ _ => ?_)
      refine findsBind h₂ (ih h₂ then_) (fun tt θ₃ s₃ h₃ _ tt_ => ?_)
      refine findsBind h₃ (ih h₃ else_) (fun te θ₄ s₄ h₄ later₄ te_ => ?_)
      have t₄ := instLater later₄ tt_
      exact meetThen h₄ t₄ te_ (fun s₅ h₅ later₅ => findsPure h₅.stands (instLater later₅ t₄))
    | fix f_ =>
      refine findsBind h (ih h f_) (fun tf θ₁ s₁ h₁ _ tf_ => ?_)
      refine findsBind h₁ (freshFinds h₁.stands T) (fun a θ₂ s₂ h₂ later₂ a_ => ?_)
      refine meetThen h₂ (instLater later₂ tf_) ⟨⟨a_.1,a_.1⟩,by rw [Ty.inst,a_.2]⟩ (fun s₃ h₃ later₃ => ?_)
      exact findsPure h₃.stands (instLater later₃ a_)
    | pure tag e_ => exact ih h e_
    | lift allowed e_ => exact modeThen allowed (ih h e_)
    | ret tag _ e_ =>
      refine findsBind h (ih h e_) (fun t θ₁ s₁ h₁ _ t_ => ?_)
      exact meetThen h₁ t_ h₁.result (fun s₂ h₂ _ => freshFinds h₂.stands T)
    | @bind _ _ m x k B _ tag m_ k_ =>
      obtain ⟨L,line⟩ := typedStmt m_
      refine staysBind (stmtStays ih h line) ?_
      rintro b s₁ ⟨θ₁,later₁,stands₁,_,b_⟩
      exact findsLater later₁ (ih (followsCons (followsLater h later₁ stands₁) x b_) k_)
    | arg => exact findsPure h.stands h.arg
    | ask found =>
      unfold infer
      simp only [found]
      exact findsPure h.stands (pedalClosed found _ θ)
    | resolve genus_ each =>
      refine findsBind h (ih h genus_) (fun tg θ₁ s₁ h₁ _ tg_ => ?_)
      refine meetThen h₁ tg_ ⟨trivial,rfl⟩ (fun s₂ h₂ _ => ?_)
      refine findsBind h₂ (freshFinds h₂.stands T) (fun r θ₃ s₃ h₃ _ r_ => ?_)
      refine staysBind (fitStays ih h₃ r_ each) ?_
      rintro _ s₄ ⟨θ₄,later₄,stands₄⟩
      exact findsLater later₄ (findsPure stands₄ (instLater later₄ r_))
    | nihil allowed => exact modeThen allowed (freshFinds h.stands T)
    | clama allowed _ e_ =>
      refine modeThen allowed (findsBind h (ih h e_) (fun t θ₁ s₁ h₁ _ t_ => ?_))
      exact meetThen h₁ t_ h₁.throw (fun s₂ h₂ _ => freshFinds h₂.stands T)
    | @recipe _ _ body x handler _ allowed body_ handler_ =>
      refine modeThen allowed (findsBind h (ih h body_) (fun tb θ₁ s₁ h₁ _ tb_ => ?_))
      refine findsBind h₁ (ih (followsCons h₁ x h₁.throw) handler_) (fun th θ₂ s₂ h₂ later₂ th_ => ?_)
      have b₂ := instLater later₂ tb_
      exact meetThen h₂ b₂ th_ (fun s₃ h₃ later₃ => findsPure h₃.stands (instLater later₃ b₂))
    | lege allowed => exact modeThen allowed (findsPure h.stands h.state)
    | pone allowed e_ =>
      refine modeThen allowed (findsBind h (ih h e_) (fun t θ₁ s₁ h₁ _ t_ => ?_))
      exact meetThen h₁ t_ h₁.state (fun s₂ h₂ _ => findsPure h₂.stands ⟨trivial,rfl⟩)
    | mitte allowed e_ issued =>
      refine modeThen allowed (findsBind h (ih h e_) (fun t θ₁ s₁ h₁ _ t_ => ?_))
      exact wantThen h₁ t_.1 (t_.2 ▸ issued) (fun s₂ h₂ _ => findsPure h₂.stands ⟨trivial,rfl⟩)
    | perage allowed _ e_ cadence =>
      refine modeThen allowed (findsBind h (ih h e_) (fun t θ₁ s₁ h₁ _ t_ => ?_))
      refine meetThen h₁ t_ ⟨trivial,rfl⟩ (fun s₂ h₂ _ => ?_)
      exact meetThen h₂ ⟨trivial,cadence.symm⟩ h₂.result (fun s₃ h₃ _ => freshFinds h₃.stands T)

theorem spineStays (n : Nat) {e : Expr} {lines' : List Ty} (h : Follows oneOf c cells Γ Γ' θ s)
    (typed : SpineTypes c.prog oneOf cells mode Γ' e lines') :
    Stays (inferSpine c n mode Γ e) s (fun lines s' => ∃ θ', Later θ s θ' s' ∧ Stands oneOf θ' s' ∧
      (∀ t ∈ lines, t.Within s'.subst.length) ∧ lines.map (Ty.inst θ') = lines') := by
  induction typed generalizing Γ θ s with
  | @line _ m x k L B rest tag m_ _ ih =>
    refine staysBind (stmtStays (inferFinds n) h m_) ?_
    rintro b s₁ ⟨θ₁,later₁,stands₁,l_,b_⟩
    refine staysBind (ih (followsCons (followsLater h later₁ stands₁) x b_)) ?_
    rintro lines s₂ ⟨θ₂,later₂,stands₂,within,same⟩
    have l₂ := instLater later₂ l_
    refine staysPure ⟨θ₂,laterTrans later₁ later₂,stands₂,fun t mem => ?_,by rw [List.map_cons,l₂.2,same]⟩
    cases mem with
    | head => exact l₂.1
    | tail _ mem => exact within t mem
  | @last _ e _ last e_ =>
    rw [inferSpine]
    · refine staysBind (inferFinds n h e_) ?_
      rintro t s₁ ⟨θ₁,later₁,stands₁,_⟩
      exact staysPure ⟨θ₁,later₁,stands₁,(fun t mem => by cases mem),rfl⟩
    · exact last

end Walk

section Verses
variable {oneOf : OneOf} {c : Checker} {θ : Assignment} {s : Store} {v : Versus} {n : Nat}

/- Lines of one label are assigned one type. -/
def Rhymed (θ : Assignment) (lines : List (Char × Ty)) : Prop :=
  ∀ a ∈ lines, ∀ b ∈ lines, a.1 = b.1 → a.2.inst θ = b.2.inst θ

theorem rhymeWithStays {i j : Nat} {label : Char} {a : Ty} {lines : List (Char × Ty)} (stands : Stands oneOf θ s)
    (a_ : a.Within s.subst.length) (each : ∀ l ∈ lines, l.2.Within s.subst.length)
    (agree : ∀ l ∈ lines, label = l.1 → a.inst θ = l.2.inst θ) :
    Stays (rhymeWith v n i label a j lines) s (fun _ s' => Stands oneOf θ s' ∧ s'.subst.length = s.subst.length) := by
  induction lines generalizing j s with
  | nil => exact staysPure ⟨stands,rfl⟩
  | cons line rest ih =>
    have later := fun l mem => agree l (List.mem_cons_of_mem _ mem)
    unfold rhymeWith
    split
    · rename_i same
      refine staysBind (staysMapError (unifyStays stands a_ (each _ List.mem_cons_self) (agree _ List.mem_cons_self same)))
        (fun _ s₁ h => staysWeaken (fun _ _ k => ⟨k.1,k.2.trans h.2⟩) (ih h.1 ?_ (fun l mem => ?_) later))
      · rw [h.2]; exact a_
      · rw [h.2]; exact each l (List.mem_cons_of_mem _ mem)
    · exact ih stands a_ (fun l mem => each l (List.mem_cons_of_mem _ mem)) later

theorem rhymeAllStays {i : Nat} {lines : List (Char × Ty)} (stands : Stands oneOf θ s)
    (each : ∀ l ∈ lines, l.2.Within s.subst.length) (rhymed : Rhymed θ lines) :
    Stays (rhymeAll v n i lines) s (fun _ s' => Stands oneOf θ s') := by
  induction lines generalizing i s with
  | nil => exact staysPure stands
  | cons line rest ih =>
    have later := fun l mem => each l (List.mem_cons_of_mem _ mem)
    refine staysBind (rhymeWithStays stands (each _ List.mem_cons_self) later
      (fun l mem same => rhymed line List.mem_cons_self l (List.mem_cons_of_mem _ mem) same)) (fun _ s₁ h => ih h.1 ?_ ?_)
    · rw [h.2]; exact later
    · exact fun a ma b mb => rhymed a (List.mem_cons_of_mem _ ma) b (List.mem_cons_of_mem _ mb)

theorem sungInst (prog : Program) {cells : Cells} {lines : List Ty} (result : c.cells.result.inst θ = cells.result) (k : Nat) :
    (sungType c lines k).inst θ = sungType ⟨prog,cells⟩ (lines.map (Ty.inst θ)) k := by
  unfold sungType
  rw [List.length_map]
  split
  · exact result
  · rw [List.getD_eq_getElem?_getD,List.getD_eq_getElem?_getD,List.getElem?_map]
    cases lines[k - 1]? with
    | none => exact result
    | some t => rfl

theorem sungRhymed {prog : Program} {cells : Cells} {lines : List Ty} {rhymes : List (Char × String)}
    (result : c.cells.result.inst θ = cells.result) :
    Rhymed θ (sungLines c lines rhymes) ↔ Rhymes prog cells (lines.map (Ty.inst θ)) rhymes := by
  constructor
  · intro rhymed i j a b here there same
    have mem {k : Nat} {r : Char × String} (found : rhymes[k]? = some r) : (r.1,sungType c lines (k+1)) ∈ sungLines c lines rhymes :=
      List.mem_map.mpr ⟨(r,k),List.mk_mem_zipIdx_iff_getElem?.mpr found,rfl⟩
    have agree := rhymed _ (mem here) _ (mem there) same
    rw [← sungInst prog result,← sungInst prog result]
    exact agree
  · intro rhymes a ma b mb same
    obtain ⟨⟨r,i⟩,here,rfl⟩ := List.mem_map.mp ma
    obtain ⟨⟨q,j⟩,there,rfl⟩ := List.mem_map.mp mb
    have agree := rhymes i j r q (List.mk_mem_zipIdx_iff_getElem?.mp here) (List.mk_mem_zipIdx_iff_getElem?.mp there) same
    rw [← sungInst prog result,← sungInst prog result] at agree
    exact agree

/- What a type is known to be decides the constraint. -/
def Visible (oneOf : OneOf) : Prop :=
  ∀ allowed t θ, (∀ i, t ≠ .var i) → oneOf allowed (Ty.inst θ t) → t.hint ∈ allowed

theorem hintInst {t : Ty} (plain : ∀ i, t ≠ .var i) (θ : Assignment) : (t.inst θ).hint = t.hint := by
  cases t with
  | var i => exact absurd rfl (plain i)
  | _ => rfl

theorem metVisible : Visible Met := by
  intro allowed t θ plain met
  rw [Met,hintInst plain] at met
  exact met

theorem laxVisible : Visible Lax := by
  rintro allowed t θ plain (⟨i,same⟩ | met)
  · cases t with
    | var j => exact absurd rfl (plain j)
    | _ => cases same
  · rw [hintInst plain] at met
    exact met

theorem checkEachStays (visible : Visible oneOf) {preds : List Pred} (stands : Stands oneOf θ s)
    (each : ∀ p ∈ preds, oneOf p.allowed (p.ty.inst θ) ∧ p.ty.Within s.subst.length) :
    Stays (checkEach n preds) s (fun _ _ => True) := by
  induction preds with
  | nil => exact staysPure trivial
  | cons p rest ih =>
    have one : Stays (checkPred n p) s (fun _ s' => s' = s) := by
      obtain ⟨met,within⟩ := each p List.mem_cons_self
      refine staysBind (shallowStays stands within) ?_
      rintro t _ ⟨rfl,_,_,same,_⟩
      rw [same] at met
      split
      · exact staysPure rfl
      · rename_i plain
        rw [if_pos (List.contains_iff_mem.mpr (visible _ _ _ plain met))]
        exact staysPure rfl
    refine staysBind one ?_
    rintro _ _ rfl
    exact ih (fun q mem => each q (List.mem_cons_of_mem _ mem))

def startAssignment (cells : Cells) : Assignment
  | 0 => cells.arg
  | 1 => cells.state
  | 2 => cells.throw
  | _ => cells.result

theorem startFollows (oneOf : OneOf) (prog : Program) (cells : Cells) :
    Follows oneOf (Checker.new prog) cells [] [] (startAssignment cells) Store.new := by
  have free {i : Nat} {t : Ty} (bound : Store.new.subst[i]? = some (some t)) : False := by
    match i with
    | 0 | 1 | 2 | 3 => cases bound
    | i+4 => cases bound
  refine ⟨⟨fun i t bound => (free bound).elim,fun i t bound => (free bound).elim,fun p mem => by cases mem⟩,?_,?_,?_,?_,
    (fun b mem => by cases mem),rfl⟩
  all_goals exact ⟨Nat.lt_of_sub_pos (by decide),rfl⟩

theorem walkStays {prog : Program} (typable : Typable prog oneOf v) (n : Nat) :
    Stays (inferVersus (Checker.new prog) n v) Store.new (fun _ s => ∃ θ, Stands oneOf θ s) := by
  obtain ⟨cells,lines',spine,rhymes⟩ := typable
  have start := startFollows oneOf prog cells
  unfold inferVersus
  split
  · obtain ⟨T,typed⟩ := spineTyped spine
    refine staysBind (staysMapError (inferFinds n start typed)) ?_
    rintro t s ⟨θ,_,stands,_⟩
    exact staysPure ⟨θ,stands⟩
  · refine staysBind (staysMapError (spineStays n start spine)) ?_
    rintro lines s ⟨θ,later,stands,within,rfl⟩
    have result := instLater later start.result
    refine staysWeaken (fun _ s' h => ⟨θ,h⟩) (rhymeAllStays stands ?_ ((sungRhymed result.2).mpr rhymes))
    exact sungWithin result.1 within

theorem versusStays {prog : Program} (visible : Visible oneOf) (typable : Typable prog oneOf v) (n : Nat) :
    Stays (checkVersusIn prog n v) Store.new (fun _ _ => True) := by
  refine staysBind (walkStays typable n) ?_
  rintro _ s ⟨θ,stands⟩
  refine staysMapError (staysBind staysState ?_)
  rintro _ _ ⟨rfl,rfl⟩
  exact checkEachStays visible stands stands.preds

/- Whatever the check of a verse the rules can type answers, it accepts. -/
theorem typableAccepted {prog : Program} {r : Except Raise Unit} (visible : Visible oneOf) (typable : Typable prog oneOf v)
    (h : checkVersus prog n v = some r) : r = .ok () := by
  obtain ⟨q,found,rfl⟩ := Option.map_eq_some_iff.mp h
  cases versusStays visible typable n q found with
  | ok _ => rfl
  | error never => exact never.elim

end Verses

end Officium.Check

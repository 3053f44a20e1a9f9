import Officium.Check

/-! What a substitution says. An assignment of types solves a store when it respects every
variable the store has bound and meets every deferred predicate; checking only ever adds to a
store, so what solves the last one solves all the earlier ones. -/
namespace Officium.Check
open Bounded (Comp Returns returnsBind)

abbrev Assignment := Nat → Ty

def Ty.inst (θ : Assignment) : Ty → Ty
  | var i => θ i
  | fn a r => fn (a.inst θ) (r.inst θ)
  | t => t

/- The assignment respects every bound variable. -/
def Respects (θ : Assignment) (s : Store) : Prop := ∀ (i : Nat) (t : Ty), s.subst[i]? = some (some t) → θ i = t.inst θ

structure Solves (θ : Assignment) (s : Store) : Prop where
  bound : ∀ (i : Nat) (t : Ty), s.subst[i]? = some (some t) → θ i = t.inst θ
  preds : ∀ p ∈ s.preds, (p.ty.inst θ).hint ∈ p.allowed

structure Extends (s s' : Store) : Prop where
  bound : ∀ (i : Nat) (t : Ty), s.subst[i]? = some (some t) → s'.subst[i]? = some (some t)
  preds : ∀ p ∈ s.preds, p ∈ s'.preds

theorem extendsRefl (s : Store) : Extends s s := ⟨fun _ _ h => h,fun _ h => h⟩

theorem extendsTrans {s s' t : Store} (h : Extends s s') (k : Extends s' t) : Extends s t :=
  ⟨fun i u hb => k.bound i u (h.bound i u hb),fun p hp => k.preds p (h.preds p hp)⟩

theorem solvesBefore {θ : Assignment} {s s' : Store} (h : Extends s s') (solves : Solves θ s') : Solves θ s :=
  ⟨fun i t hb => solves.bound i t (h.bound i t hb),fun p hp => solves.preds p (h.preds p hp)⟩

theorem respectsBefore {θ : Assignment} {s s' : Store} (h : Extends s s') (respects : Respects θ s') : Respects θ s :=
  fun i t found => respects i t (h.bound i t found)

section Store
variable {s s' : Store} {n : Nat}

theorem freshReturns {t : Ty} (h : Returns fresh s t s') :
    t = .var s.subst.length ∧ s' = { s with subst := s.subst ++ [none] } := by
  obtain ⟨c,u,read,rest⟩ := returnsBind.mp h
  obtain ⟨_,v,written,last⟩ := returnsBind.mp rest
  obtain ⟨rfl,rfl⟩ := Bounded.returnsState.mp read
  obtain ⟨rfl,rfl⟩ := Bounded.returnsPure.mp last
  exact ⟨rfl,(Bounded.returnsUpdate.mp written).symm⟩

theorem freshExtends {t : Ty} (h : Returns fresh s t s') : Extends s s' := by
  obtain ⟨_,rfl⟩ := freshReturns h
  refine ⟨fun i u hb => ?_,fun p hp => hp⟩
  obtain ⟨inside,_⟩ := List.getElem?_eq_some_iff.mp hb
  exact (List.getElem?_append_left inside).trans hb

theorem wantReturns {p : Pred} {u : Unit} (h : Returns (want p) s u s') : Extends s s' ∧ p ∈ s'.preds := by
  have same := Bounded.returnsUpdate.mp h
  subst same
  exact ⟨⟨fun _ _ hb => hb,fun q hq => List.mem_append_left _ hq⟩,List.mem_append_right _ List.mem_cons_self⟩

/- The representative: an unbound variable, or a type that is none. -/
def Settled (s : Store) (t : Ty) : Prop := ∀ i, t = .var i → s.subst[i]? = some none

theorem shallowReturns {t t' : Ty} (h : Returns (shallow n t) s t' s') :
    s' = s ∧ Settled s t' ∧ ∀ θ, Respects θ s → t.inst θ = t'.inst θ := by
  induction n generalizing t with
  | zero => exact (Bounded.returnsCut h).elim
  | succ n ih =>
    cases t with
    | var i =>
      obtain ⟨c,u,read,rest⟩ := returnsBind.mp h
      obtain ⟨rfl,rfl⟩ := Bounded.returnsState.mp read
      split at rest
      · exact (Bounded.returnsFail rest).elim
      · rename_i unbound
        obtain ⟨rfl,rfl⟩ := Bounded.returnsPure.mp rest
        exact ⟨rfl,fun j same => (by cases same; exact unbound),fun θ _ => rfl⟩
      · rename_i next bound
        obtain ⟨same,settled,agree⟩ := ih rest
        exact ⟨same,settled,fun θ respects => (respects i next bound).trans (agree θ respects)⟩
    | _ =>
      obtain ⟨rfl,rfl⟩ := Bounded.returnsPure.mp h
      exact ⟨rfl,fun j same => (by cases same),fun θ _ => rfl⟩

theorem occursReturns {v : Nat} {t : Ty} {b : Bool} (h : Returns (occurs n v t) s b s') : s' = s := by
  induction n generalizing t b s s' with
  | zero => exact (Bounded.returnsCut h).elim
  | succ n ih =>
    obtain ⟨t',u,found,rest⟩ := returnsBind.mp h
    obtain ⟨rfl,_,_⟩ := shallowReturns found
    split at rest
    · exact (Bounded.returnsPure.mp rest).2.symm
    · obtain ⟨left,u,hl,rest⟩ := returnsBind.mp rest
      cases ih hl
      split at rest
      · exact (Bounded.returnsPure.mp rest).2.symm
      · exact ih rest
    · exact (Bounded.returnsPure.mp rest).2.symm

theorem assignReturns {i : Nat} {t : Ty} {u : Unit} (unbound : s.subst[i]? = some none)
    (h : Returns (assign n i t) s u s') :
    Extends s s' ∧ ∀ θ, Respects θ s' → θ i = t.inst θ := by
  obtain ⟨b,c,found,rest⟩ := returnsBind.mp h
  cases occursReturns found
  split at rest
  · exact (Bounded.returnsFail rest).elim
  · have same := Bounded.returnsUpdate.mp rest
    subst same
    obtain ⟨inside,_⟩ := List.getElem?_eq_some_iff.mp unbound
    refine ⟨⟨fun j v hb => ?_,fun p hp => hp⟩,fun θ respects => ?_⟩
    · have other : i ≠ j := by
        intro same
        subst same
        rw [unbound] at hb
        cases hb
      exact (List.getElem?_set_ne other).trans hb
    · exact respects i t (List.getElem?_set_self inside)

theorem unifyReturns {a b : Ty} {u : Unit} (h : Returns (unify n a b) s u s') :
    Extends s s' ∧ ∀ θ, Respects θ s' → a.inst θ = b.inst θ := by
  induction n generalizing a b u s s' with
  | zero => exact (Bounded.returnsCut h).elim
  | succ n ih =>
    obtain ⟨a',v,ha,rest⟩ := returnsBind.mp h
    obtain ⟨rfl,unboundA,agreeA⟩ := shallowReturns ha
    obtain ⟨b',w,hb,met⟩ := returnsBind.mp rest
    obtain ⟨rfl,unboundB,agreeB⟩ := shallowReturns hb
    -- it is enough that the representatives come to agree
    have settle (good : Extends w s' ∧ ∀ θ, Respects θ s' → a'.inst θ = b'.inst θ) :
        Extends w s' ∧ ∀ θ, Respects θ s' → a.inst θ = b.inst θ := by
      refine ⟨good.1,fun θ respects => ?_⟩
      have before := respectsBefore good.1 respects
      rw [agreeA θ before,agreeB θ before]
      exact good.2 θ respects
    refine settle ?_
    split at met
    · split at met
      · rename_i same
        obtain ⟨_,rfl⟩ := Bounded.returnsPure.mp met
        exact ⟨extendsRefl _,fun θ _ => by rw [same]⟩
      · exact assignReturns (unboundA _ rfl) met
    · exact assignReturns (unboundA _ rfl) met
    · obtain ⟨extend,agree⟩ := assignReturns (unboundB _ rfl) met
      exact ⟨extend,fun θ respects => (agree θ respects).symm⟩
    · obtain ⟨_,x,hl,met⟩ := returnsBind.mp met
      obtain ⟨extendL,agreeL⟩ := ih hl
      obtain ⟨extendR,agreeR⟩ := ih met
      refine ⟨extendsTrans extendL extendR,fun θ respects => ?_⟩
      simp only [Ty.inst,agreeL θ (respectsBefore extendR respects),agreeR θ respects]
    · split at met
      · rename_i same
        obtain ⟨_,rfl⟩ := Bounded.returnsPure.mp met
        exact ⟨extendsRefl _,fun θ _ => by rw [same]⟩
      · exact (Bounded.returnsFail met).elim

theorem checkModeThen {α : Type} {mode : Mode} {op : OpKind} {f : Unit → CheckM α} {a : α}
    (h : Returns (checkMode mode op >>= f) s a s') : mode.allows op = true ∧ Returns (f ()) s a s' := by
  obtain ⟨_,u,allowed,rest⟩ := returnsBind.mp h
  unfold checkMode at allowed
  split at allowed
  · rename_i legal
    obtain ⟨_,rfl⟩ := Bounded.returnsPure.mp allowed
    exact ⟨legal,rest⟩
  · exact (Bounded.returnsFail allowed).elim

end Store

end Officium.Check

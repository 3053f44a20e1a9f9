import Mathlib.Data.List.Forall2
import Officium.Steps

/-! Values that differ in nothing their code can see. Two scopes may disagree at one name `x`
wherever no free occurrence of `x` looks it up; closures are compared by what their own body
reads. `rule` is what every operand of a `Fix` in the code is further held to. -/
namespace Officium

/- A name the expression reads from the scope it is evaluated in, overloads apart. -/
def Expr.free (x : Sym) : Expr → Bool
  | .var name => name == x
  | .lam param body => param != x && body.free x
  | .app f a => f.free x || a.free x
  | .lit _ => false
  | .ifE c t e => c.free x || t.free x || e.free x
  | .fix f => f.free x
  | .pure _ e => e.free x
  | .ret _ e => e.free x
  | .bind _ m name k => m.free x || (name != x && k.free x)
  | .arg => false
  | .ask _ => false
  | .resolve _ genus => genus.free x
  | .nihil => false
  | .clama e => e.free x
  | .recipe body name handler => body.free x || (name != x && handler.free x)
  | .lege => false
  | .pone e => e.free x
  | .mitte e => e.free x
  | .perage e => e.free x
  | .lift e => e.free x

mutual
/- Every operand of a `Fix` keeps the rule, in the code of literals too. -/
def Expr.tidy (rule : Expr → Prop) : Expr → Prop
  | .var _ => True
  | .lam _ body => body.tidy rule
  | .app f a => f.tidy rule ∧ a.tidy rule
  | .lit v => v.tidy rule
  | .ifE c t e => c.tidy rule ∧ t.tidy rule ∧ e.tidy rule
  | .fix f => rule f ∧ f.tidy rule
  | .pure _ e => e.tidy rule
  | .ret _ e => e.tidy rule
  | .bind _ m _ k => m.tidy rule ∧ k.tidy rule
  | .arg => True
  | .ask _ => True
  | .resolve _ genus => genus.tidy rule
  | .nihil => True
  | .clama e => e.tidy rule
  | .recipe body _ handler => body.tidy rule ∧ handler.tidy rule
  | .lege => True
  | .pone e => e.tidy rule
  | .mitte e => e.tidy rule
  | .perage e => e.tidy rule
  | .lift e => e.tidy rule

def Value.tidy (rule : Expr → Prop) : Value → Prop
  | .closure _ body env => body.tidy rule ∧ env.tidy rule
  | .builtin _ args => tidyArgs rule args
  | .record fields => tidyFields rule fields
  | _ => True

def Scope.tidy (rule : Expr → Prop) : Scope → Prop
  | .empty => True
  | .node _ value next => value.tidy rule ∧ next.tidy rule

def tidyArgs (rule : Expr → Prop) : List Value → Prop
  | [] => True
  | v :: rest => v.tidy rule ∧ tidyArgs rule rest

def tidyFields (rule : Expr → Prop) : List (Sym × Value) → Prop
  | [] => True
  | (_,v) :: rest => v.tidy rule ∧ tidyFields rule rest
end

section Relation
variable (x : Sym) (rule : Expr → Prop)

/- What `e` may look up: any name but `x`, and `x` where it is free in `e`. -/
def Sees (e : Expr) (y : Sym) : Prop := y = x → e.free x = true

def Value.flat : Value → Bool
  | .closure _ _ _ | .builtin _ _ | .record _ => false
  | _ => true

mutual
inductive Akin : Value → Value → Prop where
  | flat {v} (h : v.flat = true) : Akin v v
  | closure {param body env env'} (tidy : body.tidy rule)
      (agree : ∀ y, Sees x (.lam param body) y → OptAkin (env.lookup y) (env'.lookup y)) :
      Akin (.closure param body env) (.closure param body env')
  | builtin {name args args'} (h : List.Forall₂ Akin args args') : Akin (.builtin name args) (.builtin name args')
  | record {fields fields'} (h : FieldsAkin fields fields') : Akin (.record fields) (.record fields')

inductive OptAkin : Option Value → Option Value → Prop where
  | none : OptAkin none none
  | some {v v'} (h : Akin v v') : OptAkin (some v) (some v')

inductive FieldsAkin : List (Sym × Value) → List (Sym × Value) → Prop where
  | nil : FieldsAkin [] []
  | cons {k v v' vs vs'} (head : Akin v v') (tail : FieldsAkin vs vs') :
      FieldsAkin ((k,v) :: vs) ((k,v') :: vs')
end

/- The two scopes agree on everything `e` may look up. -/
def ScopeAkin (e : Expr) (s s' : Scope) : Prop := ∀ y, Sees x e y → OptAkin x rule (s.lookup y) (s'.lookup y)

end Relation

section Reflexive
variable {x : Sym} {rule : Expr → Prop}

mutual
theorem akinRefl : (v : Value) → v.tidy rule → Akin x rule v v
  | .closure param body env, tidy => by
    unfold Value.tidy at tidy
    exact .closure tidy.1 (fun y _ => lookupRefl env tidy.2 y)
  | .builtin name args, tidy => by
    unfold Value.tidy at tidy
    exact .builtin (argsRefl args tidy)
  | .record fields, tidy => by
    unfold Value.tidy at tidy
    exact .record (fieldsRefl fields tidy)
  | .unit, _ => .flat rfl
  | .num _, _ => .flat rfl
  | .bool _, _ => .flat rfl
  | .genus _, _ => .flat rfl
  | .str _, _ => .flat rfl
  | .cmd _, _ => .flat rfl
  | .plan _, _ => .flat rfl
  | .field _, _ => .flat rfl

theorem lookupRefl : (s : Scope) → s.tidy rule → ∀ y, OptAkin x rule (s.lookup y) (s.lookup y)
  | .empty, _, y => .none
  | .node name value next, tidy, y => by
    unfold Scope.tidy at tidy
    unfold Scope.lookup
    split
    · exact .some (akinRefl value tidy.1)
    · exact lookupRefl next tidy.2 y

theorem argsRefl : (vs : List Value) → tidyArgs rule vs → List.Forall₂ (Akin x rule) vs vs
  | [], _ => .nil
  | v :: rest, tidy => by
    unfold tidyArgs at tidy
    exact .cons (akinRefl v tidy.1) (argsRefl rest tidy.2)

theorem fieldsRefl : (fs : List (Sym × Value)) → tidyFields rule fs → FieldsAkin x rule fs fs
  | [], _ => .nil
  | (k,v) :: rest, tidy => by
    unfold tidyFields at tidy
    exact .cons (akinRefl v tidy.1) (fieldsRefl rest tidy.2)
end

end Reflexive

section Everything

/- With no rule to keep, all code is tidy. -/
def anyOperand (_ : Expr) : Prop := True

mutual
theorem exprTidy : (e : Expr) → e.tidy anyOperand
  | .var _ | .arg | .ask _ | .nihil | .lege => by unfold Expr.tidy; trivial
  | .lit v => by unfold Expr.tidy; exact valueTidy v
  | .fix f => by unfold Expr.tidy; exact ⟨trivial,exprTidy f⟩
  | .lam _ e | .pure _ e | .ret _ e | .resolve _ e | .clama e | .pone e | .mitte e | .perage e | .lift e => by
    unfold Expr.tidy; exact exprTidy e
  | .app e k | .bind _ e _ k | .recipe e _ k => by unfold Expr.tidy; exact ⟨exprTidy e,exprTidy k⟩
  | .ifE c t e => by unfold Expr.tidy; exact ⟨exprTidy c,exprTidy t,exprTidy e⟩

theorem valueTidy : (v : Value) → v.tidy anyOperand
  | .closure _ body env => by unfold Value.tidy; exact ⟨exprTidy body,scopeTidy env⟩
  | .builtin _ args => by unfold Value.tidy; exact argsTidy args
  | .record fields => by unfold Value.tidy; exact fieldsTidy fields
  | .unit | .num _ | .bool _ | .genus _ | .str _ | .cmd _ | .plan _ | .field _ => by unfold Value.tidy; trivial

theorem scopeTidy : (s : Scope) → s.tidy anyOperand
  | .empty => by unfold Scope.tidy; trivial
  | .node _ value next => by unfold Scope.tidy; exact ⟨valueTidy value,scopeTidy next⟩

theorem argsTidy : (vs : List Value) → tidyArgs anyOperand vs
  | [] => by unfold tidyArgs; trivial
  | v :: rest => by unfold tidyArgs; exact ⟨valueTidy v,argsTidy rest⟩

theorem fieldsTidy : (fs : List (Sym × Value)) → tidyFields anyOperand fs
  | [] => by unfold tidyFields; trivial
  | (_,v) :: rest => by unfold tidyFields; exact ⟨valueTidy v,fieldsTidy rest⟩
end

end Everything

section Values
variable {x : Sym} {rule : Expr → Prop}

theorem akinTy {v v' : Value} (h : Akin x rule v v') : v.ty = v'.ty := by
  cases h <;> rfl

mutual
theorem akinEq : (v : Value) → {v' w w' : Value} → Akin x rule v v' → Akin x rule w w' → v.eq w = v'.eq w'
  | .record fields, _, _, _, hv, hw => by
    cases hv with
    | flat h => cases h
    | record hs => cases hw with
      | flat h => cases ‹Value› <;> first | rfl | cases h
      | record ks => unfold Value.eq; exact eqFieldsAkin fields hs ks
      | _ => rfl
  | .closure _ _ _, _, _, _, hv, hw => by
    cases hv with
    | flat h => cases h
    | closure tidy agree => rfl
  | .builtin _ _, _, _, _, hv, hw => by
    cases hv with
    | flat h => cases h
    | builtin hs => rfl
  | .unit, _, _, _, hv, hw | .num _, _, _, _, hv, hw | .bool _, _, _, _, hv, hw | .genus _, _, _, _, hv, hw
  | .str _, _, _, _, hv, hw | .cmd _, _, _, _, hv, hw | .plan _, _, _, _, hv, hw | .field _, _, _, _, hv, hw => by
    cases hv with
    | flat _ => cases hw <;> rfl

theorem eqFieldsAkin : (fs : List (Sym × Value)) → {fs' gs gs' : List (Sym × Value)} →
    FieldsAkin x rule fs fs' → FieldsAkin x rule gs gs' → Value.eqFields fs gs = Value.eqFields fs' gs'
  | [], _, _, _, .nil, .nil => rfl
  | [], _, _, _, .nil, .cons _ _ => rfl
  | (_,_) :: _, _, _, _, .cons _ _, .nil => rfl
  | (_,v) :: rest, _, _, _, .cons head tail, .cons head' tail' => by
    unfold Value.eqFields
    rw [akinEq v head head',eqFieldsAkin rest tail tail']
end

theorem argsAkinPush {as as' : List Value} {v v' : Value} (h : List.Forall₂ (Akin x rule) as as')
    (k : Akin x rule v v') : List.Forall₂ (Akin x rule) (as ++ [v]) (as' ++ [v']) :=
  List.rel_append h (.cons k .nil)

theorem fieldsAkinLookup {fs fs' : List (Sym × Value)} (h : FieldsAkin x rule fs fs') (key : Sym) :
    OptAkin x rule (fs.lookup key) (fs'.lookup key) := by
  induction fs generalizing fs' with
  | nil => cases h; exact .none
  | cons p rest ih => cases h with
    | @cons k v v' _ vs' head tail =>
      rw [List.lookup_cons,List.lookup_cons]
      split
      · exact .some head
      · exact ih tail

end Values

section Scopes
variable {x : Sym} {rule : Expr → Prop} {s s' : Scope} {v v' : Value} {name : Sym} {e k : Expr}

theorem scopeRefl (tidy : s.tidy rule) (e : Expr) : ScopeAkin x rule e s s := fun y _ => lookupRefl s tidy y

/- A smaller reader: whatever sees less is still served. -/
theorem scopeNarrow (h : ScopeAkin x rule e s s') (less : k.free x = true → e.free x = true) :
    ScopeAkin x rule k s s' := fun y sees => h y (fun same => less (sees same))

theorem scopeUnder (h : ScopeAkin x rule e s s') (value : Akin x rule v v')
    (less : k.free x = true → name = x ∨ e.free x = true) : ScopeAkin x rule k (s.bind name v) (s'.bind name v') := by
  intro y sees
  rw [Scope.lookupBind,Scope.lookupBind]
  split
  · exact .some value
  · rename_i other
    refine h y (fun same => ?_)
    rcases less (sees same) with bound | free
    · exact absurd (bound.trans same.symm) other
    · exact free

/- Binding `x` on one side only is not seen where `x` is not free. -/
theorem scopeUnseen (h : ScopeAkin x rule e s s') (unused : e.free x = false) : ScopeAkin x rule e (s.bind x v) s' := by
  intro y sees
  rw [Scope.lookupBind]
  split
  · rename_i same
    have free := sees same.symm
    rw [unused] at free
    cases free
  · exact h y sees

theorem scopeUnseenRight (h : ScopeAkin x rule e s s') (unused : e.free x = false) :
    ScopeAkin x rule e s (s'.bind x v) := by
  intro y sees
  rw [Scope.lookupBind]
  split
  · rename_i same
    have free := sees same.symm
    rw [unused] at free
    cases free
  · exact h y sees

end Scopes

/- Both computations raise the same, or both give related results. -/
inductive Both {α : Type} (rel : α → α → Prop) : Except Raise α → Except Raise α → Prop where
  | ok {a b} (h : rel a b) : Both rel (.ok a) (.ok b)
  | error (r) : Both rel (.error r) (.error r)

inductive ResultAkin (x : Sym) (rule : Expr → Prop) : Builtins.BuiltinResult → Builtins.BuiltinResult → Prop where
  | done {v v'} (h : Akin x rule v v') : ResultAkin x rule (.done v) (.done v')
  | apply {f f' a a'} (hf : Akin x rule f f') (ha : Akin x rule a a') (post : PostOp) :
      ResultAkin x rule (.apply f a post) (.apply f' a' post)

section Calls
open Builtins
variable {x : Sym} {rule : Expr → Prop} {v v' : Value}

theorem bothBind {α β : Type} {rel : α → α → Prop} {out : β → β → Prop} {a b : Except Raise α}
    {f g : α → Except Raise β} (h : Both rel a b) (k : ∀ p q, rel p q → Both out (f p) (g q)) :
    Both out (a >>= f) (b >>= g) := by
  cases h with
  | ok h => exact k _ _ h
  | error r => exact .error r

theorem bothFlat {α : Type} {f : α → Value} (flat : ∀ a, (f a).flat = true) (a b : α) (same : a = b) :
    Both (ResultAkin x rule) (.ok (.done (f a))) (.ok (.done (f b))) := by
  subst same
  exact .ok (.done (.flat (flat a)))

theorem bothIndex {as as' : List Value} (h : List.Forall₂ (Akin x rule) as as') (i : Nat) :
    Both (Akin x rule) (index as i) (index as' i) := by
  induction as generalizing as' i with
  | nil => cases h; exact .error _
  | cons w ws ih => cases h with
    | cons head tail => cases i with
      | zero => exact .ok head
      | succ i => exact ih tail i

theorem bothNum (h : Akin x rule v v') : Both Eq (num v) (num v') := by
  cases h with
  | flat flat => cases v <;> first | exact .ok rfl | exact .error _
  | _ => exact .error _

theorem bothFieldOf (h : Akin x rule v v') : Both Eq (fieldOf v) (fieldOf v') := by
  cases h with
  | flat flat => cases v <;> first | exact .ok rfl | exact .error _
  | _ => exact .error _

theorem bothGenusArg (h : Akin x rule v v') : Both Eq (genusArg v) (genusArg v') := by
  cases h with
  | flat flat => cases v <;> first | exact .ok rfl | exact .error _
  | _ => exact .error _

theorem bothRecordGet (h : Akin x rule v v') (key : Sym) :
    Both (Akin x rule) (recordGet v key) (recordGet v' key) := by
  cases h with
  | flat flat => cases v <;> first | exact .error _ | cases flat
  | closure => exact .error _
  | builtin => exact .error _
  | @record fs fs' h =>
    have found := fieldsAkinLookup h key
    simp only [recordGet]
    generalize fs.lookup key = a at found ⊢
    generalize fs'.lookup key = b at found ⊢
    cases found with
    | none => exact .error _
    | some h => exact .ok h

theorem bothApplyPost (post : PostOp) (h : Akin x rule v v') :
    Both (Akin x rule) (applyPost post v) (applyPost post v') := by
  cases h with
  | flat flat =>
    cases v <;> first | exact .ok (.flat rfl) | exact .error _
  | _ => exact .error _

theorem insertTidy {key : Sym} {w : Value} {fs : List (Sym × Value)} (hw : w.tidy rule) (h : tidyFields rule fs) :
    tidyFields rule (insertField key w fs) := by
  induction fs with
  | nil => unfold insertField tidyFields; exact ⟨hw,h⟩
  | cons p rest ih =>
    obtain ⟨k,u⟩ := p
    unfold tidyFields at h
    unfold insertField
    split
    · unfold tidyFields
      exact ⟨hw,by unfold tidyFields; exact h⟩
    · split
      · unfold tidyFields
        exact ⟨hw,h.2⟩
      · unfold tidyFields
        exact ⟨h.1,ih h.2⟩

theorem corpusTidy (id : UInt64) (genus : Genus) (mass dist : Scalar) : (makeCorpus id genus mass dist).tidy rule := by
  have flat {w : Value} (h : w.flat = true) : w.tidy rule := by
    cases w <;> trivial
  unfold makeCorpus Value.tidy
  exact insertTidy (flat rfl) (insertTidy (flat rfl) (insertTidy (flat rfl) (insertTidy (flat rfl) trivial)))

theorem bothPure {α : Type} {rel : α → α → Prop} {a b : α} (h : rel a b) : Both rel (pure a) (pure b) := .ok h

section Bind
variable {β : Type} {out : β → β → Prop}

theorem indexBind {as as' : List Value} (h : List.Forall₂ (Akin x rule) as as') {i : Nat} {f g : Value → Except Raise β}
    (k : ∀ p q, Akin x rule p q → Both out (f p) (g q)) : Both out (index as i >>= f) (index as' i >>= g) :=
  bothBind (bothIndex h i) k

theorem recordGetBind (h : Akin x rule v v') {key : Sym} {f g : Value → Except Raise β}
    (k : ∀ p q, Akin x rule p q → Both out (f p) (g q)) :
    Both out (recordGet v key >>= f) (recordGet v' key >>= g) := bothBind (bothRecordGet h key) k

theorem sameBind {α : Type} {a b : Except Raise α} (h : Both Eq a b) {f g : α → Except Raise β}
    (k : ∀ p, Both out (f p) (g p)) : Both out (a >>= f) (b >>= g) :=
  bothBind h (fun p q same => by cases same; exact k p)

end Bind

/- A builtin reads its arguments through their shapes alone. -/
theorem bothCall {as as' : List Value} (h : List.Forall₂ (Akin x rule) as as') (name : Sym) :
    Both (ResultAkin x rule) (call name as) (call name as') := by
  unfold call
  split
  case h_22 => exact .error _
  case h_5 =>
    refine indexBind h (fun a a' ha => indexBind h (fun b b' hb => ?_))
    exact bothFlat (f := Value.bool) (fun _ => rfl) _ _ (akinEq a ha hb)
  case h_8 =>
    refine indexBind h (fun a a' ha => ?_)
    cases ha with
    | flat flat => cases a <;> first | exact .ok (.done (.flat rfl)) | exact .error _
    | _ => exact .error _
  case h_12 =>
    refine indexBind h (fun a a' ha => ?_)
    have found := bothRecordGet ha "outgassing"
    generalize recordGet a "outgassing" = p at found
    generalize recordGet a' "outgassing" = q at found
    cases found with
    | ok found => exact .ok (.done found)
    | error r => exact .ok (.done (.flat rfl))
  case h_14 =>
    exact indexBind h (fun a a' ha => indexBind h (fun b b' hb => .ok (.apply ha hb _)))
  all_goals
    repeat with_reducible first
      | refine indexBind h (fun _ _ _ => ?_)
      | refine sameBind (bothNum (by assumption)) (fun _ => ?_)
      | refine recordGetBind (by assumption) (fun _ _ _ => ?_)
      | refine sameBind (bothFieldOf (by assumption)) (fun _ => ?_)
      | refine sameBind (bothGenusArg (by assumption)) (fun _ => ?_)
      | exact bothPure (.done (by assumption))
      | exact bothPure (.done (.flat rfl))
      | exact bothPure (.done (akinRefl _ (corpusTidy _ _ _ _)))

end Calls

end Officium

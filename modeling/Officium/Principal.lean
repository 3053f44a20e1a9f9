import Officium.Bounds
import Officium.Completeness
import Officium.Termination

/-! The check of a verse against the typing rules: it refuses only what no assignment types, and what
it accepts some assignment types, read off the last store by following its bindings. -/
namespace Officium.Check
open Bounded (Returns returnsBind returnsPure returnsMapError Outcome)
open Relation (TransGen)

section Accepted
variable {oneOf : OneOf} {θ : Assignment} {c : Checker} {mode : Mode} {Γ : Gamma} {s s' : Store} {n : Nat}

theorem inferTypes (oneOf : OneOf) (θ : Assignment) {e : Expr} {t : Ty} (h : Returns (infer c n mode Γ e) s t s') :
    Extends s s' ∧ (Satisfies oneOf θ s' → Types c.prog oneOf (c.cells.inst θ) mode (instGamma θ Γ) e (t.inst θ)) :=
  infersTypes oneOf θ (inferReturns h)

theorem stmtTypes {m : Expr} {b : Ty × Ty} (h : Returns (inferStmt c.cells n (infer c n mode Γ) mode m) s b s') :
    Extends s s' ∧ (Satisfies oneOf θ s' →
      StmtTypes c.prog oneOf (c.cells.inst θ) mode (instGamma θ Γ) m (b.1.inst θ) (b.2.inst θ)) := by
  unfold inferStmt at h
  split at h
  · obtain ⟨allowed,h⟩ := checkModeThen h
    obtain ⟨t,s₁,e_,h⟩ := returnsBind.mp h
    obtain ⟨_,s₂,met,h⟩ := returnsBind.mp h
    obtain ⟨rfl,rfl⟩ := returnsPure.mp h
    obtain ⟨extend,typed⟩ := inferTypes oneOf θ e_
    obtain ⟨extendU,agree⟩ := unifyReturns met
    refine ⟨extendsTrans extend extendU,fun satisfies => ?_⟩
    have e_ := typed (satisfiesBefore extendU satisfies)
    have same := agree θ satisfies.bound
    rw [same] at e_
    change StmtTypes _ _ _ _ _ _ (t.inst θ) .unit
    rw [same]
    exact .pone allowed e_
  · obtain ⟨allowed,h⟩ := checkModeThen h
    obtain ⟨t,s₁,e_,h⟩ := returnsBind.mp h
    obtain ⟨_,s₂,deferred,h⟩ := returnsBind.mp h
    obtain ⟨rfl,rfl⟩ := returnsPure.mp h
    obtain ⟨extend,typed⟩ := inferTypes oneOf θ e_
    obtain ⟨extendW,among⟩ := wantReturns deferred
    exact ⟨extendsTrans extend extendW,fun satisfies =>
      .mitte allowed (typed (satisfiesBefore extendW satisfies)) (satisfies.preds _ among)⟩
  · rename_i notPone notMitte
    obtain ⟨t,s₁,m_,h⟩ := returnsBind.mp h
    obtain ⟨rfl,rfl⟩ := returnsPure.mp h
    obtain ⟨extend,typed⟩ := inferTypes oneOf θ m_
    exact ⟨extend,fun satisfies => .other (fun e => ⟨notPone e,notMitte e⟩) (typed satisfies)⟩

theorem spineTypes {e : Expr} {lines : List Ty} (h : Returns (inferSpine c n mode Γ e) s lines s') :
    Extends s s' ∧ (Satisfies oneOf θ s' →
      SpineTypes c.prog oneOf (c.cells.inst θ) mode (instGamma θ Γ) e (lines.map (Ty.inst θ))) := by
  fun_induction inferSpine c n mode Γ e generalizing s lines with
  | case1 Γ tag m x k ih =>
    obtain ⟨b,s₁,m_,h⟩ := returnsBind.mp h
    obtain ⟨rest,s₂,k_,h⟩ := returnsBind.mp h
    obtain ⟨rfl,rfl⟩ := returnsPure.mp h
    obtain ⟨extend,line⟩ := stmtTypes m_
    obtain ⟨extendK,spine⟩ := ih b k_
    exact ⟨extendsTrans extend extendK,fun satisfies =>
      .line tag (line (satisfiesBefore extendK satisfies)) (spine satisfies)⟩
  | case2 Γ e last =>
    obtain ⟨t,s₁,e_,h⟩ := returnsBind.mp h
    obtain ⟨rfl,rfl⟩ := returnsPure.mp h
    obtain ⟨extend,typed⟩ := inferTypes oneOf θ e_
    exact ⟨extend,fun satisfies => .last last (typed satisfies)⟩

theorem rhymeWithAgree {v : Versus} {i j : Nat} {label : Char} {a : Ty} {lines : List (Char × Ty)} {u : Unit}
    (h : Returns (rhymeWith v n i label a j lines) s u s') (respects : Respects θ s') :
    ∀ l ∈ lines, label = l.1 → a.inst θ = l.2.inst θ := by
  induction lines generalizing j s with
  | nil => exact fun l mem => by cases mem
  | cons line rest ih =>
    intro l mem same
    unfold rhymeWith at h
    split at h
    · obtain ⟨_,s₁,met,rest_⟩ := returnsBind.mp h
      cases mem with
      | head => exact (unifyReturns (returnsMapError.mp met)).2 θ (respectsBefore (rhymeWithExtends rest_) respects)
      | tail _ mem => exact ih rest_ l mem same
    · rename_i differ
      cases mem with
      | head => exact absurd same differ
      | tail _ mem => exact ih h l mem same

theorem rhymeAllAgree {v : Versus} {i : Nat} {lines : List (Char × Ty)} {u : Unit}
    (h : Returns (rhymeAll v n i lines) s u s') (respects : Respects θ s') : Rhymed θ lines := by
  induction lines generalizing i s with
  | nil => exact fun a mem => by cases mem
  | cons line rest ih =>
    obtain ⟨_,s₁,met,others⟩ := returnsBind.mp h
    have first := rhymeWithAgree met (respectsBefore (rhymeAllExtends others) respects)
    intro a ma b mb same
    cases ma with
    | head =>
      cases mb with
      | head => rfl
      | tail _ mb => exact first b mb same
    | tail _ ma =>
      cases mb with
      | head => exact (first a ma same.symm).symm
      | tail _ mb => exact ih others a ma b mb same

/- A check of the predicates that passed meets them all, but for types that are still unknown. -/
theorem checkEachLax {preds : List Pred} {u : Unit} (h : Returns (checkEach n preds) s u s') (respects : Respects θ s)
    (free : ∀ i, s.subst[i]? = some none → θ i = .var i) : ∀ p ∈ preds, Lax p.allowed (p.ty.inst θ) := by
  induction preds with
  | nil => exact fun p mem => by cases mem
  | cons p rest ih =>
    obtain ⟨_,s₁,one,others⟩ := returnsBind.mp h
    obtain ⟨t,s₂,found,last⟩ := returnsBind.mp one
    obtain ⟨rfl,settled,agree⟩ := shallowReturns found
    have here : s₁ = s₂ ∧ Lax p.allowed (t.inst θ) := by
      split at last
      · rename_i i
        exact ⟨(returnsPure.mp last).2.symm,.inl ⟨i,free i (settled i rfl)⟩⟩
      · rename_i plain
        split at last
        · rename_i among
          refine ⟨(returnsPure.mp last).2.symm,.inr ?_⟩
          rw [hintInst plain]
          exact List.contains_iff_mem.mp among
        · exact (Bounded.returnsFail last).elim
    obtain ⟨rfl,met⟩ := here
    intro q mem
    cases mem with
    | head => rw [agree θ respects]; exact met
    | tail _ mem => exact ih others q mem

end Accepted

section Verses
variable {prog : Program} {v : Versus}

/- No overload is reached again from its own body. -/
def Uncycled (prog : Program) : Prop := ∀ o ∈ overloads prog, ¬ TransGen (Descends prog) o.2 o.2

theorem judgesChecked : Judges prog v (.ok ()) ↔ ∃ s, Checked prog v s := by
  constructor
  · rintro ⟨n,h⟩
    obtain ⟨q,found,same⟩ := Option.map_eq_some_iff.mp h
    cases q with
    | error e => cases same
    | ok p => exact ⟨p.2,n,found⟩
  · rintro ⟨s,n,found⟩
    refine ⟨n,?_⟩
    rw [checkVersus,found]
    rfl

/- The store a check ends with is the one it ends with at every larger bound. -/
theorem checkedTidy {s : Store} (acc : Acc (Descends prog) v.body) (h : Checked prog v s) : Tidy s := by
  obtain ⟨n,h⟩ := h
  obtain ⟨m,r,out,settled⟩ := versusEnds acc
  have both := checkVersusInBelow (Nat.le_max_left n m) prog v _ _ h
  cases (settled _ (Nat.le_max_right n m)).symm.trans both
  cases out with
  | ok tidy => exact tidy

/- The walk of an accepted verse, and the test of its predicates, which leaves the store as it is. -/
theorem checkedWalk {s : Store} (h : Checked prog v s) : ∃ n, Returns (inferVersus (Checker.new prog) n v) Store.new () s ∧
    Returns (checkEach n s.preds) s () s := by
  obtain ⟨n,h⟩ := h
  obtain ⟨_,s₁,walk,preds⟩ := returnsBind.mp h
  obtain ⟨c,s₂,read,each⟩ := returnsBind.mp (returnsMapError.mp preds)
  obtain ⟨rfl,rfl⟩ := Bounded.returnsState.mp read
  cases checkEachReturns each
  exact ⟨n,walk,each⟩

theorem checkedLax {s : Store} {θ : Assignment} (h : Checked prog v s) (respects : Respects θ s)
    (free : ∀ i, s.subst[i]? = some none → θ i = .var i) : Satisfies Lax θ s := by
  obtain ⟨n,_,each⟩ := checkedWalk h
  exact ⟨respects,checkEachLax each respects free⟩

/- What satisfies the last store types the verse. -/
theorem satisfiedTypable {oneOf : OneOf} {θ : Assignment} {s : Store} (h : Checked prog v s) (satisfies : Satisfies oneOf θ s) :
    Typable prog oneOf v := by
  obtain ⟨n,walk,_⟩ := checkedWalk h
  unfold inferVersus at walk
  split at walk
  · rename_i plain
    obtain ⟨t,s₂,body_,last⟩ := returnsBind.mp walk
    obtain ⟨_,rfl⟩ := returnsPure.mp last
    obtain ⟨lines,spine⟩ := typedSpine ((inferTypes oneOf θ (returnsMapError.mp body_)).2 satisfies)
    refine ⟨_,lines,spine,fun i j a b here => ?_⟩
    rw [List.isEmpty_iff.mp plain] at here
    cases here
  · obtain ⟨lines,s₂,body_,rhymes⟩ := returnsBind.mp walk
    have spine := (spineTypes (returnsMapError.mp body_)).2 (satisfiesBefore (rhymeAllExtends rhymes) satisfies)
    exact ⟨_,_,spine,(sungRhymed (c := Checker.new prog) rfl).mp (rhymeAllAgree rhymes satisfies.bound)⟩

theorem checkedTypable {s : Store} (acc : Acc (Descends prog) v.body) (h : Checked prog v s) : Typable prog Lax v := by
  obtain ⟨θ,respects,free⟩ := tidyAssignment (checkedTidy acc h)
  exact satisfiedTypable h (checkedLax h respects free)

theorem versusDecides (acc : Acc (Descends prog) v.body) :
    ∃ r, Judges prog v r ∧ (r = .ok () ∨ ∃ e, Mismatched v e ∧ r = .error e) := by
  obtain ⟨n,r,out,settled⟩ := versusEnds acc
  have answer : Judges prog v (r.map Prod.fst) := by
    refine ⟨n,Option.map_eq_some_iff.mpr ⟨r,?_,rfl⟩⟩
    exact settled n (Nat.le_refl n)
  cases out with
  | ok _ => exact ⟨_,answer,.inl rfl⟩
  | @error e found => exact ⟨_,answer,.inr ⟨e,found,rfl⟩⟩

theorem judgesTypable {oneOf : OneOf} (visible : Visible oneOf) (typable : Typable prog oneOf v) {r : Except Raise Unit}
    (h : Judges prog v r) : r = .ok () := by
  obtain ⟨n,h⟩ := h
  exact typableAccepted visible typable h

/- What the check of a verse comes to. -/
structure Exact (prog : Program) (v : Versus) : Prop where
  decides : ∃ r, Judges prog v r ∧ (r = .ok () ∨ ∃ e, Mismatched v e ∧ r = .error e)
  refuses : ∀ e, Judges prog v (.error e) → ¬ Typable prog Met v ∧ ¬ Typable prog Lax v
  accepts : Judges prog v (.ok ()) → Typable prog Lax v
  unrhymed : Judges prog v (.ok ()) → Judges prog { v with rhymes := [] } (.ok ())

/- Where no overload is reached from itself, the check of a verse refuses just what the rules cannot type. -/
theorem versusExact (prog : Program) (uncycled : Uncycled prog) (v : Versus) : Exact prog v := by
  have acc : Acc (Descends prog) v.body := noReturnFounded (fun o mem _ => uncycled o mem)
  have accepted (h : Judges prog v (.ok ())) : Typable prog Lax v := by
    obtain ⟨s,checked⟩ := judgesChecked.mp h
    exact checkedTypable acc checked
  refine ⟨versusDecides acc,fun e h => ⟨fun typable => ?_,fun typable => ?_⟩,accepted,fun h => ?_⟩
  · cases judgesTypable metVisible typable h
  · cases judgesTypable laxVisible typable h
  · obtain ⟨cells,lines,spine,_⟩ := accepted h
    have plain : Typable prog Lax { v with rhymes := [] } := ⟨cells,lines,spine,fun i j a b here => by cases here⟩
    obtain ⟨r,answer,_⟩ := @versusDecides prog { v with rhymes := [] } acc
    rw [judgesTypable laxVisible plain answer] at answer
    exact answer

/- A couplet sings the result, whatever its lines bind. -/
def coupled : String := "versus x in Re \x7b\n A \"unum\" ; a <- pure 1\n A \"alterum\" ; b <- pure 2\n" ++
  " B \"tertium\" ; c <- pure \"tres\"\n B \"quartum\" ; d <- pure \"quattuor\"\n C \"quintum\" ; e <- pure verum\n" ++
  " C \"sextum\" ; f <- pure falsum\n D \"septimum\" ; g <- pure \"gloria\"\n D \"octavum\" ; amen (a + b)\n\x7d"

theorem versusExactCoupled : ∃ prog v, Parser.Parses coupled prog ∧ v ∈ prog.verses ∧ v.rhymes.length = 8 ∧
    Exact prog v ∧ Judges prog v (.ok ()) := by
  have test : Parser.reads 300 coupled (fun prog => prog.fugues.isEmpty && accepts 40 prog &&
      prog.verses.any (fun v => v.rhymes.length == 8)) = true := by
    decide +kernel
  obtain ⟨prog,parsed,facts⟩ := Parser.readsParses test
  rw [Bool.and_eq_true,Bool.and_eq_true,List.any_eq_true] at facts
  obtain ⟨⟨plain,accepted⟩,v,among,sung⟩ := facts
  have uncycled : Uncycled prog := by
    intro o mem
    rw [overloads,List.isEmpty_iff.mp plain] at mem
    cases mem
  exact ⟨prog,v,parsed,among,beq_iff_eq.mp sung,versusExact prog uncycled v,
    judgesChecked.mpr (acceptsChecked (acceptsOf accepted) v among)⟩

end Verses

end Officium.Check

import Officium.Principal

/-! Whether the deferred one-of constraints of an accepted verse can be met together. Each is tested alone
and skipped on a type that is still a variable, so a variable left over may carry two that exclude
each other; it carries none that do exactly if the rules can type the verse with them kept apart. -/
namespace Officium.Check
open Bounded (Returns)

section Weakening
variable {prog : Program} {weak strong : OneOf} {cells : Cells} {mode : Mode} {Γ : Gamma} {e : Expr} {t : Ty}

/- One way of meeting the two constraints that the rules ever ask about implies another. -/
structure Implies (strong weak : OneOf) : Prop where
  issued : ∀ t, strong ["cmd","plan"] t → weak ["cmd","plan"] t
  named : ∀ t, strong ["genus","str"] t → weak ["genus","str"] t

theorem builtinImplies (imp : Implies strong weak) {name : Sym} (h : BuiltinTy strong name t) : BuiltinTy weak name t := by
  cases h with
  | corpus named => exact .corpus (imp.named _ named)
  | _ => constructor <;> assumption

theorem namedImplies (imp : Implies strong weak) {name : Sym} (h : Named prog strong Γ name t) : Named prog weak Γ name t := by
  cases h with
  | scope found => exact .scope found
  | builtin free sig => exact .builtin free (builtinImplies imp sig)
  | pedal free none found => exact .pedal free none found

theorem typesImplies (imp : Implies strong weak) (h : Types prog strong cells mode Γ e t) : Types prog weak cells mode Γ e t := by
  induction h with
  | lit v => exact .lit v
  | var found => exact .var (namedImplies imp found)
  | lam _ ih => exact .lam ih
  | app _ _ ihf iha => exact .app ihf iha
  | ifE _ _ _ ihc iht ihe => exact .ifE ihc iht ihe
  | fix _ ih => exact .fix ih
  | pure tag _ ih => exact .pure tag ih
  | lift allowed _ ih => exact .lift allowed ih
  | ret tag t _ ih => exact .ret tag t ih
  | bind tag _ _ ihm ihk => exact .bind tag ihm ihk
  | arg => exact .arg
  | ask found => exact .ask found
  | resolve _ _ ihg ihe => exact .resolve ihg ihe
  | nihil allowed t => exact .nihil allowed t
  | clama allowed t _ ih => exact .clama allowed t ih
  | recipe allowed _ _ ihb ihh => exact .recipe allowed ihb ihh
  | lege allowed => exact .lege allowed
  | pone allowed _ ih => exact .pone allowed ih
  | mitte allowed _ issued ih => exact .mitte allowed ih (imp.issued _ issued)
  | perage allowed t _ cadence ih => exact .perage allowed t ih cadence

theorem spineImplies (imp : Implies strong weak) {lines : List Ty} (h : SpineTypes prog strong cells mode Γ e lines) :
    SpineTypes prog weak cells mode Γ e lines := by
  induction h with
  | line tag m_ _ ih =>
    refine .line tag ?_ ih
    cases m_ with
    | pone allowed e_ => exact .pone allowed (typesImplies imp e_)
    | mitte allowed e_ issued => exact .mitte allowed (typesImplies imp e_) (imp.issued _ issued)
    | other other m_ => exact .other other (typesImplies imp m_)
  | last last e_ => exact .last last (typesImplies imp e_)

theorem typableImplies (imp : Implies strong weak) {v : Versus} (h : Typable prog strong v) : Typable prog weak v := by
  obtain ⟨cells,lines,spine,rhymes⟩ := h
  exact ⟨cells,lines,spineImplies imp spine,rhymes⟩

end Weakening

section Grounding
variable {s : Store} {θ σ : Assignment} {t T : Ty}

/- No variable is left in the types. -/
def Ground (θ : Assignment) : Prop := ∀ i, (θ i).Within 0

theorem instGround (ground : Ground σ) (t : Ty) : (t.inst σ).Within 0 := by
  induction t with
  | var i => exact ground i
  | fn a r iha ihr => exact ⟨iha,ihr⟩
  | _ => trivial

theorem instTwice (θ σ : Assignment) (t : Ty) : (t.inst θ).inst σ = t.inst (fun i => (θ i).inst σ) := by
  induction t with
  | fn a r iha ihr => rw [Ty.inst,Ty.inst,Ty.inst,iha,ihr]
  | _ => rfl

theorem respectsThen (respects : Respects θ s) (σ : Assignment) : Respects (fun i => (θ i).inst σ) s := by
  intro i t found
  change (θ i).inst σ = _
  rw [respects i t found,instTwice]

theorem resolvesUnder (respects : Respects θ s) (h : Resolves s.subst t T) : t.inst θ = T.inst θ := by
  induction h with
  | free | flat => rfl
  | bound found _ ih => exact (respects _ _ found).trans ih
  | fn _ _ iha ihr => rw [Ty.inst,Ty.inst,iha,ihr]

theorem resolvesFreely (respects : Respects θ s) (free : ∀ i, s.subst[i]? = some none → θ i = .var i) (h : Resolves s.subst t T) :
    t.inst θ = T := by
  induction h with
  | free unbound => exact free _ unbound
  | bound found _ ih => exact (respects _ _ found).trans ih
  | fn _ _ iha ihr => rw [Ty.inst,iha,ihr]
  | @flat t flat => cases t with
    | var => cases flat
    | fn => cases flat
    | _ => rfl

/- Every assignment that respects the store is an instance of the one that leaves what is unbound. -/
theorem respectsAbsorbs {θ' : Assignment} (tidy : Tidy s) (respects : Respects θ s) (free : ∀ i, s.subst[i]? = some none → θ i = .var i)
    (respects' : Respects θ' s) (within : t.Within s.subst.length) : (t.inst θ).inst θ' = t.inst θ' := by
  obtain ⟨T,resolved⟩ := withinResolves tidy within
  rw [resolvesFreely respects free resolved,resolvesUnder respects' resolved]

end Grounding

section Apart
variable {prog : Program} {v : Versus} {s : Store}

/- What is issued is of one sort, what names a genus of the other. -/
def Split (issued : Ty → Prop) : OneOf := fun allowed t => if allowed = ["cmd","plan"] then issued t else ¬issued t

/- The same for the two constraints there are. -/
def Sorted (issued : Ty → Prop) : OneOf := fun allowed t => (allowed = ["cmd","plan"] ∧ issued t) ∨ (allowed = ["genus","str"] ∧ ¬issued t)

theorem splitSorted (issued : Ty → Prop) : Implies (Split issued) (Sorted issued) where
  issued := fun t h => .inl ⟨rfl,by rw [Split,if_pos rfl] at h; exact h⟩
  named := fun t h => .inr ⟨rfl,by rw [Split,if_neg (by decide)] at h; exact h⟩

theorem metSplit : Implies Met (Split (fun t => t.hint ∈ ["cmd","plan"])) where
  issued := fun t h => by rw [Split,if_pos rfl]; exact h
  named := fun t h => by
    rw [Split,if_neg (by decide)]
    unfold Met at h
    intro both
    simp only [List.mem_cons,List.not_mem_nil,or_false] at h both
    rcases h with named | named <;> rw [named] at both <;> revert both <;> decide

theorem solvesSplit {θ : Assignment} (checked : Checked prog v s) (solves : Solves θ s) : ∃ issued, Typable prog (Split issued) v :=
  ⟨_,typableImplies metSplit (satisfiedTypable checked ⟨solves.bound,solves.preds⟩)⟩

/- A variable left over is what its constraints ask for. -/
noncomputable def choose (s : Store) (θ : Assignment) (i : Nat) : Ty :=
  open Classical in
  if ∃ p ∈ s.preds, p.allowed = ["cmd","plan"] ∧ p.ty.inst θ = .var i then .cmd
  else if ∃ p ∈ s.preds, p.allowed = ["genus","str"] ∧ p.ty.inst θ = .var i then .genus
  else .unit

theorem chooseGround (s : Store) (θ : Assignment) : Ground (choose s θ) := by
  intro i
  unfold choose
  split
  · trivial
  · split <;> trivial

theorem splitSolves {issued : Ty → Prop} (checked : Checked prog v s) (typable : Typable prog (Split issued) v) : ∃ θ, Ground θ ∧ Solves θ s := by
  have tidy := checkedTidy (checkedFounded checked) checked
  obtain ⟨θ,respects,free⟩ := tidyAssignment tidy
  have lax := checkedLax checked respects free
  obtain ⟨n,walk,_⟩ := checkedWalk checked
  obtain ⟨θ',stands⟩ : ∃ θ', Stands (Sorted issued) θ' s := by
    cases walkStays (typableImplies (splitSorted issued) typable) n _ walk with
    | ok found => exact found
  have absorbed {p : Pred} (mem : p ∈ s.preds) : (p.ty.inst θ).inst θ' = p.ty.inst θ' :=
    respectsAbsorbs tidy respects free stands.bound (tidy.preds p mem)
  refine ⟨fun i => (θ i).inst (choose s θ),fun i => instGround (chooseGround s θ) _,respectsThen respects _,fun p mem => ?_⟩
  rw [← instTwice]
  by_cases left_ : ∃ i, p.ty.inst θ = .var i
  · obtain ⟨i,left⟩ := left_
    rw [left]
    rcases (stands.preds p mem).1 with ⟨allowed,_⟩ | ⟨allowed,not_⟩
    · have chosen : choose s θ i = .cmd := if_pos ⟨p,mem,allowed,left⟩
      rw [Ty.inst,chosen,allowed]
      decide
    · -- nothing of the other sort is left to this variable, since both would be one type of the derivation
      have alone : ¬∃ q ∈ s.preds, q.allowed = ["cmd","plan"] ∧ q.ty.inst θ = .var i := by
        rintro ⟨q,among,other,same⟩
        have one : q.ty.inst θ' = p.ty.inst θ' := by rw [← absorbed among,same,← left,absorbed mem]
        rcases (stands.preds q among).1 with ⟨_,is_⟩ | ⟨named,_⟩
        · exact not_ (one ▸ is_)
        · rw [other] at named
          exact absurd named (by decide)
      have chosen : choose s θ i = .genus := (if_neg alone).trans (if_pos ⟨p,mem,allowed,left⟩)
      rw [Ty.inst,chosen,allowed]
      decide
  · rw [hintInst (fun i same => left_ ⟨i,same⟩)]
    exact (lax.preds p mem).resolve_left left_

/- The predicates an accepted verse leaves can be met together exactly if the rules type the verse with what it issues kept
apart from what names its genera. -/
theorem demandsJoint (checked : Checked prog v s) :
    (∃ θ, Ground θ ∧ Solves θ s) ↔ ∃ issued : Ty → Prop, Typable prog (Split issued) v :=
  ⟨fun ⟨_,_,solves⟩ => solvesSplit checked solves,fun ⟨_,typable⟩ => splitSolves checked typable⟩

def issuedArgument : String := "versus x in sol {
 mitte arg
 amen arg
}"

def issuesArgument (v : Versus) : Bool :=
  match v.mode, v.body, v.rhymes with
  | .hypomixolydian, .bind _ (.mitte .arg) _ (.ret _ .arg), [] => true
  | _, _, _ => false

theorem issuesTypable (prog : Program) {v : Versus} (h : issuesArgument v = true) : Typable prog (Split (· = .cmd)) v := by
  unfold issuesArgument at h
  split at h
  · rename_i mode body rhymes
    refine ⟨⟨.cmd,.unit,.unit,.cmd⟩,[.cmd],?_,fun i j a b here => ?_⟩
    · rw [mode,body]
      exact .line _ (.mitte rfl .arg rfl) (.last (fun _ _ _ _ => nofun) (.ret _ .unit .arg))
    · rw [rhymes] at here
      cases here
  · cases h

/- The argument's type is left open, and a command meets what is asked of it. -/
theorem demandsJointArgument : ∃ prog v s, Parser.Parses issuedArgument prog ∧ v ∈ prog.verses ∧ Checked prog v s ∧ ∃ θ, Ground θ ∧ Solves θ s := by
  have test : Parser.reads 60 issuedArgument (fun prog => accepts 40 prog && prog.verses.any issuesArgument) = true := by
    decide +kernel
  obtain ⟨prog,parsed,good⟩ := Parser.readsParses test
  rw [Bool.and_eq_true,List.any_eq_true] at good
  obtain ⟨accepted,v,among,issues⟩ := good
  obtain ⟨s,checked⟩ := acceptsChecked (acceptsOf accepted) v among
  exact ⟨prog,v,s,parsed,among,checked,(demandsJoint checked).mpr ⟨_,issuesTypable prog issues⟩⟩

/- Two predicates of the last store with nothing in common are left to one variable. -/
def torn (n : Nat) (s : Store) : Bool :=
  s.preds.any (fun p => s.preds.any (fun q => p.allowed == ["cmd","plan"] && q.allowed == ["genus","str"] &&
    match shallow n p.ty s, shallow n q.ty s with
    | some (.ok (.var i,_)), some (.ok (.var j,_)) => i == j
    | _, _ => false))

def leavesTorn (n : Nat) (prog : Program) (v : Versus) : Bool :=
  match checkVersusIn prog n v Store.new with
  | some (.ok (_,s)) => torn n s
  | _ => false

theorem tornUnsolved {n : Nat} (h : torn n s = true) (θ : Assignment) : ¬Solves θ s := by
  intro solves
  obtain ⟨p,mem,h⟩ := List.any_eq_true.mp h
  obtain ⟨q,among,h⟩ := List.any_eq_true.mp h
  simp only [Bool.and_eq_true,beq_iff_eq] at h
  obtain ⟨⟨issued,named⟩,h⟩ := h
  split at h
  · rename_i i u j w left right
    obtain rfl : i = j := beq_iff_eq.mp h
    have one := (shallowReturns left).2.2 θ solves.bound
    have other := (shallowReturns right).2.2 θ solves.bound
    have first := solves.preds p mem
    have second := solves.preds q among
    rw [issued,one] at first
    rw [named,other] at second
    generalize (Ty.inst θ (.var i)).hint = hint at first second
    simp only [List.mem_cons,List.not_mem_nil,or_false] at first second
    rcases first with rfl | rfl <;> revert second <;> decide
  · cases h

def tornArgument : String := "versus x in sol \x7b\n mitte arg\n c <- corpus 1 arg 1 1\n amen c\n\x7d"

/- An argument that is issued and names a genus: the verse is accepted, and no value can be both. -/
theorem demandsTorn : ¬ ∀ (prog : Program) (v : Versus) (s : Store), Accepts prog → v ∈ prog.verses → Checked prog v s → ∃ θ, Ground θ ∧ Solves θ s := by
  intro all
  have test : Parser.reads 60 tornArgument (fun prog => accepts 40 prog && prog.verses.any (leavesTorn 40 prog)) = true := by
    decide +kernel
  obtain ⟨prog,parsed,good⟩ := Parser.readsParses test
  rw [Bool.and_eq_true,List.any_eq_true] at good
  obtain ⟨accepted,v,among,torn_⟩ := good
  unfold leavesTorn at torn_
  split at torn_
  · rename_i u s ran
    obtain ⟨θ,_,solves⟩ := all prog v s (acceptsOf accepted) among ⟨40,ran⟩
    exact tornUnsolved torn_ θ solves
  · cases torn_

end Apart

end Officium.Check

import Officium.Given
import Officium.Typing

/-! What the parser can produce: no stretto and no handler, literals and pedals of the three
written kinds only. -/
namespace Officium.Parser
open Bounded (Comp Gives givesPure givesFail givesCut givesBind givesAfter)
open Check (Surface Literal Written)

section Expressions

theorem givesRefuse {α : Type} {p : α → Prop} (msg : String) : Gives p (refuse msg : ParseM α) :=
  givesAfter (fun _ => givesFail _)

/- A property that passes from the parts to every expression the descent builds. -/
structure Built (P : Expr → Prop) : Prop where
  num : ∀ x, P (.lit (.num x))
  str : ∀ s, P (.lit (.str s))
  bool : ∀ b, P (.lit (.bool b))
  var : ∀ name, P (.var name)
  arg : P .arg
  lege : P .lege
  ask : ∀ name, P (.ask name)
  lam : ∀ {param body}, P body → P (.lam param body)
  app : ∀ {f a}, P f → P a → P (.app f a)
  resolve : ∀ {name genus}, P genus → P (.resolve name genus)
  pure : ∀ {e}, P e → P (.pure .dorian e)
  lift : ∀ {e}, P e → P (.lift e)
  pone : ∀ {e}, P e → P (.pone e)

/- The functions of the descent, each cut off after `n` calls. -/
structure Descent (P : Expr → Prop) (n : Nat) : Prop where
  expr : Gives P (expr n)
  additive : Gives P (additive n)
  additiveLoop : ∀ {e}, P e → Gives P (additiveLoop n e)
  multiplicative : Gives P (multiplicative n)
  multiplicativeLoop : ∀ {e}, P e → Gives P (multiplicativeLoop n e)
  application : Gives P (application n)
  applicationLoop : ∀ {e}, P e → Gives P (applicationLoop n e)
  atom : Gives P (atom n)

section Building
variable {P : Expr → Prop}

theorem call2Built (built : Built P) (op : Sym) {a b : Expr} (a_ : P a) (b_ : P b) : P (call2 op a b) :=
  built.app (built.app (built.var op) a_) b_

theorem descentCut : Descent P 0 where
  expr := givesCut
  additive := givesCut
  additiveLoop := fun _ => givesCut
  multiplicative := givesCut
  multiplicativeLoop := fun _ => givesCut
  application := givesCut
  applicationLoop := fun _ => givesCut
  atom := givesCut

theorem atomBuilt (built : Built P) {n : Nat} (d : Descent P n) : Gives P (atom (n+1)) := by
  unfold atom
  refine givesAfter (fun t => ?_)
  split
  · exact givesAfter (fun _ => givesPure (built.num _))
  · exact givesAfter (fun _ => givesPure (built.str _))
  · refine givesAfter (fun _ => givesAfter (fun _ => givesBind d.expr (fun e e_ => ?_)))
    exact givesAfter (fun _ => givesAfter (fun _ => givesPure e_))
  · refine givesAfter (fun _ => givesAfter (fun _ => givesAfter (fun _ => ?_)))
    exact givesBind d.expr (fun e e_ => givesPure (built.lam e_))
  · exact givesAfter (fun _ => givesBind d.atom (fun e e_ => givesPure (call2Built built _ (built.num _) e_)))
  · refine givesAfter (fun _ => ?_)
    split
    · exact givesPure built.arg
    · exact givesPure built.lege
    · exact givesPure (built.bool _)
    · exact givesPure (built.bool _)
    · exact givesAfter (fun _ => givesPure (built.ask _))
    · exact givesAfter (fun _ => givesBind d.atom (fun e e_ => givesPure (built.resolve e_)))
    · exact givesBind d.atom (fun e e_ => givesPure (built.pure e_))
    · exact givesBind d.atom (fun e e_ => givesPure (built.lift e_))
    · exact givesBind d.atom (fun e e_ => givesPure (built.pone e_))
    · exact givesPure (built.var _)
  · exact givesRefuse _

theorem descentStep (built : Built P) {n : Nat} (d : Descent P n) : Descent P (n+1) where
  expr := by
    unfold expr
    refine givesAfter (fun _ => givesBind (p := P) ?_ (fun e e_ => givesAfter (fun _ => givesPure e_)))
    refine givesAfter (fun p => ?_)
    split
    · exact givesRefuse _
    · exact d.additive
  additive := givesBind d.multiplicative (fun e e_ => d.additiveLoop e_)
  additiveLoop := by
    intro lhs lhs_
    unfold additiveLoop
    refine givesAfter (fun t => ?_)
    split
    · exact givesPure lhs_
    · refine givesAfter (fun _ => givesBind d.multiplicative (fun e e_ => ?_))
      exact d.additiveLoop (call2Built built _ lhs_ e_)
  multiplicative := givesBind d.application (fun e e_ => d.multiplicativeLoop e_)
  multiplicativeLoop := by
    intro lhs lhs_
    unfold multiplicativeLoop
    refine givesAfter (fun t => ?_)
    split
    · exact givesPure lhs_
    · refine givesAfter (fun _ => givesBind d.application (fun e e_ => ?_))
      exact d.multiplicativeLoop (call2Built built _ lhs_ e_)
  application := givesBind d.atom (fun e e_ => d.applicationLoop e_)
  applicationLoop := by
    intro e e_
    unfold applicationLoop
    refine givesAfter (fun b => ?_)
    split
    · exact givesBind d.atom (fun a a_ => d.applicationLoop (built.app e_ a_))
    · exact givesPure e_
  atom := atomBuilt built d

theorem descent (built : Built P) (n : Nat) : Descent P n := by
  induction n with
  | zero => exact descentCut
  | succ n ih => exact descentStep built ih

end Building

theorem surfaceBuilt : Built Surface where
  num := fun _ => .num _
  str := fun _ => .str _
  bool := fun _ => .bool _
  var := fun _ => trivial
  arg := trivial
  lege := trivial
  ask := fun _ => trivial
  lam := id
  app := fun f_ a_ => ⟨f_,a_⟩
  resolve := id
  pure := id
  lift := id
  pone := id

/- What passes from expressions and from the rest of a block to the block. -/
structure Spun (P Q : Expr → Prop) (mode : Mode) : Prop where
  ret : ∀ {e}, P e → Q (.ret mode e)
  nihil : Q .nihil
  clama : ∀ {e}, P e → Q (.clama e)
  perage : ∀ {e}, P e → Q (.perage e)
  ifE : ∀ {c t e}, P c → Q t → Q e → Q (.ifE c t e)
  pone : ∀ {e k}, P e → Q k → Q (.bind mode (.pone e) "_" k)
  mitte : ∀ {e k}, P e → Q k → Q (.bind mode (.mitte e) "_" k)
  bound : ∀ {m name k}, P m → Q k → Q (.bind mode m name k)

theorem stmtsGives {P Q : Expr → Prop} {mode : Mode} {reader : Nat → ParseM Expr} (terms : ∀ n, Gives P (reader n)) (spun : Spun P Q mode)
    (n : Nat) : Gives Q (stmtsBy reader mode n) := by
  induction n with
  | zero => exact givesCut
  | succ n ih =>
    have term := terms n
    have cadence {f : Expr → Expr} (keeps : ∀ {e}, P e → Q (f e)) :
        Gives Q (do let e ← reader n; closeStmts; pure (f e) : ParseM Expr) :=
      givesBind term (fun e e_ => givesAfter (fun _ => givesPure (keeps e_)))
    have bound {f : Expr → Expr} (name : Sym) (keeps : ∀ {e k}, P e → Q k → Q (.bind mode (f e) name k)) :
        Gives Q (do let e ← reader n; let rest ← stmtsBy reader mode n; pure (.bind mode (f e) name rest) : ParseM Expr) :=
      givesBind term (fun e e_ => givesBind ih (fun k k_ => givesPure (keeps e_ k_)))
    unfold stmtsBy
    refine givesAfter (fun _ => givesAfter (fun b => ?_))
    split
    · exact cadence spun.ret
    refine givesAfter (fun b => ?_)
    split
    · exact givesAfter (fun _ => givesPure spun.nihil)
    refine givesAfter (fun b => ?_)
    split
    · exact cadence spun.clama
    refine givesAfter (fun b => ?_)
    split
    · exact cadence spun.perage
    refine givesAfter (fun b => ?_)
    split
    · refine givesBind term (fun c c_ => givesAfter (fun b => ?_))
      split
      · exact givesRefuse _
      refine givesAfter (fun _ => givesAfter (fun _ => givesBind ih (fun t t_ => ?_)))
      refine givesAfter (fun _ => givesAfter (fun b => ?_))
      split
      · exact givesRefuse _
      refine givesAfter (fun _ => givesAfter (fun _ => givesBind ih (fun e e_ => ?_)))
      exact givesAfter (fun _ => givesPure (spun.ifE c_ t_ e_))
    refine givesAfter (fun b => ?_)
    split
    · exact bound "_" spun.pone
    refine givesAfter (fun b => ?_)
    split
    · exact bound "_" spun.mitte
    · exact givesAfter (fun name => givesAfter (fun _ => bound (f := id) name spun.bound))

theorem stmtsSpun {P Q : Expr → Prop} {mode : Mode} (built : Built P) (spun : Spun P Q mode) (n : Nat) : Gives Q (stmts mode n) :=
  stmtsIs mode n ▸ stmtsGives (fun n => (descent built n).expr) spun n

theorem surfaceSpun (mode : Mode) : Spun Surface Surface mode where
  ret := id
  nihil := trivial
  clama := id
  perage := id
  ifE := fun c_ t_ e_ => ⟨c_,t_,e_⟩
  pone := fun e_ k_ => ⟨e_,k_⟩
  mitte := fun e_ k_ => ⟨e_,k_⟩
  bound := fun m_ k_ => ⟨m_,k_⟩

end Expressions

section Programs

theorem literalGives : Gives Literal literal := by
  refine givesAfter (fun t => ?_)
  split
  · exact givesPure (.num _)
  · refine givesAfter (fun t => ?_)
    split
    · exact givesPure (.num _)
    · exact givesRefuse _
  · exact givesPure (.str _)
  · split
    · exact givesPure (.bool _)
    · split
      · exact givesPure (.bool _)
      · exact givesRefuse _
  · exact givesRefuse _

structure WrittenFugue (f : Fugue) : Prop where
  pedals : ∀ p ∈ f.pedals, Literal p.2
  real : ∀ o ∈ f.real, Surface o.2
  tonal : ∀ o ∈ f.tonal, Surface o.2

theorem snocMember {α : Type} {p : α → Prop} {xs : List α} {x : α} (h : ∀ a ∈ xs, p a) (last : p x) :
    ∀ a ∈ xs ++ [x], p a := by
  intro a mem
  rcases List.mem_append.mp mem with before | now
  · exact h a before
  · cases List.mem_singleton.mp now
    exact last

theorem pedaleGives : Gives (fun p => Literal p.2) pedale :=
  givesAfter (fun _ => givesAfter (fun _ => givesBind literalGives (fun _ v_ => givesPure v_)))

theorem overloadGives (n : Nat) : Gives (fun o => Surface o.2) (overload n) :=
  givesAfter (fun _ => givesAfter (fun _ => givesAfter (fun _ => givesAfter (fun _ =>
    givesBind (descent surfaceBuilt n).expr (fun _ e_ => givesPure e_)))))

theorem fugueLoopGives {n : Nat} {f : Fugue} (f_ : WrittenFugue f) : Gives WrittenFugue (fugueLoop n f) := by
  induction n generalizing f with
  | zero => exact givesCut
  | succ n ih =>
    unfold fugueLoop
    refine givesAfter (fun _ => givesAfter (fun b => ?_))
    split
    · exact givesPure f_
    refine givesAfter (fun b => ?_)
    split
    · exact givesBind pedaleGives (fun p p_ => ih ⟨snocMember f_.pedals p_,f_.real,f_.tonal⟩)
    refine givesAfter (fun b => ?_)
    split
    · exact givesAfter (fun s => ih ⟨f_.pedals,f_.real,f_.tonal⟩)
    refine givesAfter (fun b => ?_)
    split
    · exact givesBind (overloadGives n) (fun o o_ => ih ⟨f_.pedals,snocMember f_.real o_,f_.tonal⟩)
    refine givesAfter (fun b => ?_)
    split
    · exact givesBind (overloadGives n) (fun o o_ => ih ⟨f_.pedals,f_.real,snocMember f_.tonal o_⟩)
    refine givesAfter (fun b => ?_)
    split
    · exact givesAfter (fun e => ih ⟨f_.pedals,f_.real,f_.tonal⟩)
    · exact givesRefuse _

theorem fugueGives (n : Nat) : Gives WrittenFugue (fugue n) := by
  refine givesAfter (fun name => givesAfter (fun b => ?_))
  split
  · exact givesRefuse _
  · refine givesAfter (fun mode => givesAfter (fun _ => givesAfter (fun _ => fugueLoopGives ?_)))
    exact ⟨fun p mem => (by cases mem),fun o mem => (by cases mem),fun o mem => (by cases mem)⟩

/- The body of the verse is what `stmts` made of its tokens. -/
def Sung (v : Versus) : Prop := ∃ n s s', Bounded.Returns (stmts v.mode n) s v.body s'

theorem versusGives (n : Nat) : Gives Sung (versus n) := by
  refine givesAfter (fun name => givesAfter (fun b => ?_))
  split
  · exact givesRefuse _
  · refine givesAfter (fun mode => givesAfter (fun _ => givesAfter (fun _ => givesAfter (fun rhymes => ?_))))
    intro s v s' r
    obtain ⟨e,u,body,rest⟩ := Bounded.returnsBind.mp r
    obtain ⟨rfl,rfl⟩ := Bounded.returnsPure.mp rest
    exact ⟨n,s,u,body⟩

structure WrittenSoFar (prog : Program) : Prop where
  fugues : ∀ f ∈ prog.fugues, WrittenFugue f
  verses : ∀ v ∈ prog.verses, Sung v

theorem programGives {n : Nat} {prog : Program} (prog_ : WrittenSoFar prog) : Gives WrittenSoFar (programLoop n prog) := by
  induction n generalizing prog with
  | zero => exact givesCut
  | succ n ih =>
    unfold programLoop
    refine givesAfter (fun _ => givesAfter (fun t => ?_))
    split
    · exact givesPure prog_
    refine givesAfter (fun b => ?_)
    split
    · exact givesBind (fugueGives n) (fun f f_ => ih ⟨snocMember prog_.fugues f_,prog_.verses⟩)
    refine givesAfter (fun b => ?_)
    split
    · exact givesBind (versusGives n) (fun v v_ => ih ⟨prog_.fugues,snocMember prog_.verses v_⟩)
    · exact givesRefuse _

theorem parsesLoop {src : String} {prog : Program} (h : Parses src prog) :
    ∃ n toks q, Lexer.lex n src = some (.ok toks) ∧ Bounded.Returns (programLoop n ⟨[],[]⟩) ⟨toks,0,0,0⟩ prog q := by
  obtain ⟨n,h⟩ := h
  unfold parse at h
  split at h
  · cases h
  · cases h
  · rename_i toks lexed
    obtain ⟨r,found,same⟩ := Option.map_eq_some_iff.mp h
    cases r with
    | error e => cases same
    | ok r =>
      cases same
      exact ⟨n,toks,r.2,lexed,found⟩

theorem parsesSoFar {src : String} {prog : Program} (h : Parses src prog) : WrittenSoFar prog := by
  obtain ⟨n,toks,q,-,found⟩ := parsesLoop h
  exact programGives (n := n) ⟨fun f mem => (by cases mem),fun v mem => (by cases mem)⟩ _ prog q found

/- Every program `parse` returns. -/
theorem parsesWritten {src : String} {prog : Program} (h : Parses src prog) : Written prog := by
  have soFar := parsesSoFar h
  refine ⟨fun f mem => (soFar.fugues f mem).pedals,fun o mem => ?_,fun v mem => ?_⟩
  · obtain ⟨f,among,inside⟩ := List.mem_flatMap.mp mem
    exact (List.mem_append.mp inside).elim ((soFar.fugues f among).real o) ((soFar.fugues f among).tonal o)
  · obtain ⟨n,s,s',body⟩ := soFar.verses v mem
    exact stmtsSpun surfaceBuilt (surfaceSpun v.mode) n s v.body s' body

end Programs

end Officium.Parser

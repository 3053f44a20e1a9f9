import Officium.Depths
import Officium.FrontEnd
import Officium.Audio.Score

/-! How deep the operands of what the parser accepts can nest. Expressions are counted and refused past
a depth, operands are not. -/
namespace Officium

/- Every expression of a fugue. -/
def Fugue.terms (f : Fugue) : List Expr :=
  f.subject.toList.map (fun s => s.2.2) ++ f.real.map Prod.snd ++ f.tonal.map Prod.snd ++ f.contra

/- Every expression and every body of a program. -/
def Program.terms (prog : Program) : List Expr := prog.fugues.flatMap Fugue.terms ++ prog.verses.map Versus.body

namespace Parser
open Bounded
open Lexer (Tok)
open Check (overloads)

def operators : List Sym := ["add","sub","mul","div"]

/- An operator that has no operand yet. -/
def awaitsLeft : Expr → Bool
  | .var op => operators.contains op
  | _ => false

/- How deep operands nest: in the bodies of lambdas, as arguments and behind a minus, `pure`, `leva`, `pone`
and `resolve`. The left operand of an operator is read in a loop and nests nothing, nor do statements. -/
def chain : Expr → Nat
  | .lam _ e | .pure _ e | .lift e | .pone e | .resolve _ e => chain e + 1
  | .app f a => max (chain f) (if awaitsLeft f then chain a else chain a + 1)
  | .ret _ e | .clama e | .mitte e | .perage e | .fix e => chain e
  | .ifE c t e => max (chain c) (max (chain t) (chain e))
  | .bind _ m _ k => max (chain m) (chain k)
  | .recipe e _ h => max (chain e) (chain h)
  | _ => 0

section Chains
variable {B n : Nat} {x : Nat → ParseM Expr} {e a : Expr} {op : Sym}

theorem chainApp (f a : Expr) : chain (.app f a) ≤ max (chain f) (chain a + 1) := by
  rw [chain]
  split <;> omega

theorem chainCall2 (operator : op ∈ operators) (a b : Expr) : chain (call2 op a b) ≤ max (chain a) (chain b + 1) := by
  have left : awaitsLeft (.var op) = true := List.contains_iff_mem.mpr operator
  rw [call2,chain,chain,left]
  simp only [awaitsLeft,chain,if_true,Bool.false_eq_true,if_false]
  omega

theorem additiveOperator {t : Option Tok} (h : additiveOp t = some op) : op ∈ operators := by
  unfold additiveOp at h
  split at h <;> cases h <;> decide

theorem multiplicativeOperator {t : Option Tok} (h : multiplicativeOp t = some op) : op ∈ operators := by
  unfold multiplicativeOp at h
  split at h <;> cases h <;> decide

/- An expression that nests no deeper. -/
def Shallow (B : Nat) (e : Expr) : Prop := chain e ≤ B

theorem applicationLoopShallow (operands : ∀ n, Gives (Shallow B) (x n)) (e_ : Shallow (B+1) e) : Gives (Shallow (B+1)) (applicationLoopBy x n e) := by
  induction n generalizing e with
  | zero => exact givesCut
  | succ n ih =>
    refine givesAfter fun b => ?_
    split
    · refine givesBind (operands n) fun a a_ => ih ?_
      exact Nat.le_trans (chainApp e a) (Nat.max_le.mpr ⟨e_,Nat.succ_le_succ a_⟩)
    · exact givesPure e_

theorem applicationShallow (operands : ∀ n, Gives (Shallow B) (x n)) : Gives (Shallow (B+1)) (applicationBy x n) := by
  cases n with
  | zero => exact givesCut
  | succ n => exact givesBind (operands n) fun e e_ => applicationLoopShallow operands (Nat.le_succ_of_le e_)

theorem operatorsShallow {op : Option Tok → Option Sym} (operator : ∀ {t name}, op t = some name → name ∈ operators)
    (operands : ∀ n, Gives (Shallow B) (x n)) : Gives (Shallow (B+1)) (operatorsBy x op n) := by
  have loop (n : Nat) : ∀ lhs, Shallow (B+1) lhs → Gives (Shallow (B+1)) (operatorLoopBy x op n lhs) := by
    induction n with
    | zero => exact fun _ _ => givesCut
    | succ n ih =>
      refine fun lhs lhs_ => givesAfter fun t => ?_
      split
      · exact givesPure lhs_
      · rename_i name found
        refine givesAfter fun _ => givesBind (operands n) fun rhs rhs_ => ih _ ?_
        exact Nat.le_trans (chainCall2 (operator found) lhs rhs) (Nat.max_le.mpr ⟨lhs_,Nat.succ_le_succ rhs_⟩)
  cases n with
  | zero => exact givesCut
  | succ n => exact givesBind (operands n) fun lhs lhs_ => loop n lhs (Nat.le_succ_of_le lhs_)

theorem additiveShallow (operands : ∀ n, Gives (Shallow B) (x n)) : Gives (Shallow (B+3)) (additiveBy x n) :=
  operatorsShallow additiveOperator fun _ => operatorsShallow multiplicativeOperator fun _ => applicationShallow operands

theorem exprShallow (operands : ∀ n, Gives (Shallow B) (x n)) : Gives (Shallow (B+3)) (exprBy x n) := by
  cases n with
  | zero => exact givesCut
  | succ n =>
    refine givesAfter fun _ => givesBind (p := Shallow (B+3)) (givesAfter fun p => ?_) fun e e_ => givesAfter fun _ => givesPure e_
    split
    · exact givesRefuse _
    · exact additiveShallow operands

theorem atomShallow {term : Nat → ParseM Expr} (terms : ∀ n, Gives (Shallow B) (term n)) (operands : ∀ n, Gives (Shallow B) (x n)) :
    Gives (Shallow (B+1)) (atomBy x term n) := by
  have deeper {e : Expr} (f : Expr → Expr) (one : chain (f e) = chain e + 1) (e_ : Shallow B e) : Shallow (B+1) (f e) := by
    unfold Shallow at e_ ⊢
    omega
  have plain {e : Expr} (none_ : chain e = 0) : Shallow (B+1) e :=
    Nat.le_trans (Nat.le_of_eq none_) (Nat.zero_le _)
  cases n with
  | zero => exact givesCut
  | succ n =>
    refine givesAfter fun t => ?_
    split
    · exact givesAfter fun _ => givesPure (plain rfl)
    · exact givesAfter fun _ => givesPure (plain rfl)
    · refine givesAfter fun _ => givesAfter fun _ => givesBind (terms n) fun e e_ => ?_
      exact givesAfter fun _ => givesAfter fun _ => givesPure (Nat.le_succ_of_le e_)
    · refine givesAfter fun _ => givesAfter fun param => givesAfter fun _ => ?_
      exact givesBind (terms n) fun e e_ => givesPure (deeper (.lam param) rfl e_)
    · refine givesAfter fun _ => givesBind (operands n) fun e e_ => givesPure ?_
      exact Nat.le_trans (chainCall2 (by decide) _ e) (Nat.max_le.mpr ⟨Nat.zero_le _,Nat.succ_le_succ e_⟩)
    · refine givesAfter fun _ => ?_
      split
      case h_5 => exact givesAfter fun name => givesPure (plain rfl)
      case h_6 => exact givesAfter fun name => givesBind (operands n) fun e e_ => givesPure (deeper (.resolve name) rfl e_)
      case h_7 => exact givesBind (operands n) fun e e_ => givesPure (deeper (.pure .dorian) rfl e_)
      case h_8 => exact givesBind (operands n) fun e e_ => givesPure (deeper .lift rfl e_)
      case h_9 => exact givesBind (operands n) fun e e_ => givesPure (deeper .pone rfl e_)
      all_goals exact givesPure (plain rfl)
    · exact givesRefuse _

/- Every call takes operands at most three levels deeper: to an argument of an application, and to the right of
two kinds of operators. -/
theorem withinShallow (r n : Nat) : Gives (Shallow (3*r)) (exprWithin r n) ∧ Gives (Shallow (3*r)) (atomWithin r n) := by
  induction r generalizing n with
  | zero => exact ⟨givesCut,givesCut⟩
  | succ r ih =>
    rw [exprWithin,atomWithin]
    refine ⟨exprShallow fun n => (ih n).2,fun s e t returned => ?_⟩
    have one : chain e ≤ 3*r+1 := atomShallow (fun n => (ih n).1) (fun n => (ih n).2) s e t returned
    unfold Shallow
    omega

end Chains

section Programs
variable {B n r : Nat} {P : Expr → Prop} {term : Nat → ParseM Expr}

/- What holds of every expression of a fugue. -/
theorem fugueTerms {f : Fugue} : (∀ e ∈ f.terms, P e) ↔ (∀ s ∈ f.subject, P s.2.2) ∧ (∀ o ∈ f.real, P o.2) ∧ (∀ o ∈ f.tonal, P o.2) ∧ ∀ e ∈ f.contra, P e := by
  simp only [Fugue.terms,List.mem_append,List.mem_map,or_imp,forall_and,forall_exists_index,and_imp,forall_apply_eq_imp_iff₂,
    Option.mem_toList,Option.mem_def,and_assoc]

theorem overloadTerms (terms : ∀ n, Gives P (term n)) : Gives (fun o => P o.2) (overloadBy term n) :=
  givesAfter fun _ => givesAfter fun _ => givesAfter fun _ => givesBind (terms n) fun _ e_ => givesPure e_

theorem fugueLoopTerms (terms : ∀ n, Gives P (term n)) {f : Fugue} (f_ : ∀ e ∈ f.terms, P e) : Gives (fun f => ∀ e ∈ f.terms, P e) (fugueLoopBy term n f) := by
  induction n generalizing f with
  | zero => exact givesCut
  | succ n ih =>
    obtain ⟨subject,real,tonal,contra⟩ := fugueTerms.mp f_
    refine givesAfter fun _ => givesAfter fun b => ?_
    split
    · exact givesPure f_
    refine givesAfter fun b => ?_
    split
    · exact givesAfter fun p => ih f_
    refine givesAfter fun b => ?_
    split
    · have read : Gives (fun s => P s.2.2) (subiectumBy term n) :=
        givesAfter fun _ => givesAfter fun _ => givesBind (terms n) fun e e_ => givesPure e_
      exact givesBind read fun s s_ => ih (fugueTerms.mpr ⟨fun u same => by cases same; exact s_,real,tonal,contra⟩)
    refine givesAfter fun b => ?_
    split
    · exact givesBind (overloadTerms terms) fun o o_ => ih (fugueTerms.mpr ⟨subject,snocMember real o_,tonal,contra⟩)
    refine givesAfter fun b => ?_
    split
    · exact givesBind (overloadTerms terms) fun o o_ => ih (fugueTerms.mpr ⟨subject,real,snocMember tonal o_,contra⟩)
    refine givesAfter fun b => ?_
    split
    · exact givesBind (terms n) fun _ e_ => ih (fugueTerms.mpr ⟨subject,real,tonal,snocMember contra e_⟩)
    · exact givesRefuse _

theorem fugueByTerms (terms : ∀ n, Gives P (term n)) : Gives (fun f => ∀ e ∈ f.terms, P e) (fugueBy term n) :=
  givesAfter fun h => fugueLoopTerms terms (f := Fugue.new h.1 h.2.1) (fun e mem => by cases mem)

theorem versusByTerms {Q : Expr → Prop} (terms : ∀ n, Gives P (term n)) (spun : ∀ mode, Spun P Q mode) : Gives (fun v => Q v.body) (versusBy term n) :=
  givesAfter fun h => givesAfter fun _ => givesBind (stmtsGives terms (spun h.2.2) n) fun _ e_ => givesPure e_

theorem programTerms {Q : Expr → Prop} {prog : Program} :
    (∀ e ∈ prog.terms, Q e) ↔ (∀ f ∈ prog.fugues, ∀ e ∈ f.terms, Q e) ∧ ∀ v ∈ prog.verses, Q v.body := by
  simp only [Program.terms,List.mem_append,List.mem_flatMap,List.mem_map,or_imp,forall_and,forall_exists_index,and_imp,forall_apply_eq_imp_iff₂]
  exact and_congr ⟨fun h f mem e e_ => h e f mem e_,fun h e f mem e_ => h f mem e e_⟩ Iff.rfl

theorem programLoopTerms {Q : Expr → Prop} (terms : ∀ n, Gives P (term n)) (spun : ∀ mode, Spun P Q mode) (weak : ∀ e, P e → Q e) {prog : Program}
    (prog_ : ∀ e ∈ prog.terms, Q e) : Gives (fun prog => ∀ e ∈ prog.terms, Q e) (programLoopBy term n prog) := by
  induction n generalizing prog with
  | zero => exact givesCut
  | succ n ih =>
    obtain ⟨fugues,verses⟩ := programTerms.mp prog_
    refine givesAfter fun _ => givesAfter fun t => ?_
    split
    · exact givesPure prog_
    refine givesAfter fun b => ?_
    split
    · exact givesBind (fugueByTerms terms) fun f f_ => ih (programTerms.mpr ⟨snocMember fugues fun e mem => weak e (f_ e mem),verses⟩)
    refine givesAfter fun b => ?_
    split
    · exact givesBind (versusByTerms terms spun) fun v v_ => ih (programTerms.mpr ⟨fugues,snocMember verses v_⟩)
    · exact givesRefuse _

theorem shallowSpun (B : Nat) (mode : Mode) : Spun (Shallow B) (Shallow (B+1)) mode where
  ret := Nat.le_succ_of_le
  nihil := Nat.zero_le _
  clama := Nat.le_succ_of_le
  perage := Nat.le_succ_of_le
  ifE := fun c_ t_ e_ => Nat.max_le.mpr ⟨Nat.le_succ_of_le c_,Nat.max_le.mpr ⟨t_,e_⟩⟩
  pone := fun e_ k_ => Nat.max_le.mpr ⟨Nat.succ_le_succ e_,k_⟩
  mitte := fun e_ k_ => Nat.max_le.mpr ⟨Nat.le_succ_of_le e_,k_⟩
  bound := fun m_ k_ => Nat.max_le.mpr ⟨Nat.le_succ_of_le m_,k_⟩

/- A program that was parsed with room for so many calls. -/
theorem parseWithinShallow {src : String} {prog : Program} (h : parseWithin r n src = some (.ok prog)) : ∀ e ∈ prog.terms, chain e ≤ 3*r+1 := by
  unfold parseWithin at h
  split at h
  · cases h
  · cases h
  · obtain ⟨out,ended,same⟩ := Option.map_eq_some_iff.mp h
    cases out with
    | error e => cases same
    | ok out =>
      cases same
      have shallow : Gives (fun prog => ∀ e ∈ prog.terms, Shallow (3*r+1) e) (programLoopBy (exprWithin r) n ⟨[],[]⟩) :=
        programLoopTerms (fun n => (withinShallow r n).1) (shallowSpun (3*r)) (fun _ => Nat.le_succ_of_le) (fun e mem => by cases mem)
      exact shallow _ _ _ ended

end Programs

section Deep
open Audio (cadenceCopied verseSpelled verseTokens lineBytes wordSpace)

/- So many `pure` and then the argument. -/
def pures : Nat → String
  | 0 => "arg"
  | m+1 => "pure " ++ pures m

def pureTokens (m : Nat) : List Tok := List.replicate m (.ident "pure") ++ [.ident "arg"]

def purely : Nat → Expr
  | 0 => .arg
  | m+1 => .pure .dorian (purely m)

/- A verse that returns it. -/
def deep (m : Nat) : String := "versus " ++ "x" ++ " in " ++ "Re" ++ " \x7b\n" ++ ("amen " ++ pures m ++ "\n") ++ "\x7d\n"

def deepTokens (m : Nat) : List Tok := verseTokens "x" "Re" (.ident "amen" :: (pureTokens m ++ [.newline]))

def deepProgram (m : Nat) : Program := ⟨[],[⟨"x",.fromFinal .re false,.ret (.fromFinal .re false) (purely m),[]⟩]⟩

theorem pureReads (m d : Nat) : Atom d (pureTokens m) (purely m) := by
  induction m with
  | zero => exact atomArg
  | succ m ih => exact atomPure ih

theorem deepOperand (m : Nat) : Audio.Operand (pures m) (purely m) (pureTokens m) where
  term := termAtom (pureReads m 2)
  writes := by
    induction m with
    | zero => exact fun bs us more => .word (by decide) (Audio.untilHere rfl) more
    | succ m ih =>
      intro bs us more
      have word : Lexer.bytes "pure " = Lexer.bytes "pure" ++ [32] := by decide
      rw [pures,Lexer.bytesAppend,word,List.append_assoc,List.append_assoc]
      exact wordSpace (by decide) (ih bs us more)

theorem deepCopied (m : Nat) : ∃ ops, Audio.Copied (.fromFinal .re false) ops (Lexer.bytes ("amen " ++ pures m ++ "\n"))
    (.ident "amen" :: (pureTokens m ++ [.newline])) (.ret (.fromFinal .re false) (purely m)) := by
  have copied : Audio.Copied (.fromFinal .re false) _ (lineBytes 0 ("amen " ++ pures m)) _ _ := cadenceCopied (deepOperand m)
  have newline : Lexer.bytes "\n" = [10] := by decide
  rw [Lexer.bytesAppend,newline]
  exact ⟨_,copied⟩

theorem deepLexes (m : Nat) : ∃ us k, us.map Prod.fst = deepTokens m ∧ ∀ n, k ≤ n → Lexer.lex n (deep m) = some (.ok us) := by
  obtain ⟨ops,copied⟩ := deepCopied m
  have spelled : Lexer.Spelled (Lexer.bytes (deep m)) (deepTokens m) := verseSpelled (by decide) (by decide) copied
  exact Lexer.spelledLexes spelled (.inl fun t found => by cases found; rfl)

theorem deepParses (m : Nat) : Parses (deep m) (deepProgram m) := by
  obtain ⟨us,k,tokens,lexed⟩ := deepLexes m
  obtain ⟨ops,copied⟩ := deepCopied m
  obtain ⟨q,read⟩ := Audio.verseParses ⟨[],[]⟩ (Audio.namesFinal .re false) copied.block (p := ⟨us,0,0,0⟩)
    ⟨rfl,(by decide : 0 + 3 ≤ maxExprDepth)⟩ tokens
  obtain ⟨n,settled⟩ := yieldsReturns read
  refine ⟨max n k,?_⟩
  rw [parse,lexed _ (Nat.le_max_right n k)]
  simp only
  rw [settled _ (Nat.le_max_left n k)]
  rfl

theorem deepChain (m : Nat) : chain (purely m) = m := by
  induction m with
  | zero => rfl
  | succ m ih => rw [purely,chain,ih]

theorem pureLongest (m : Nat) (us : List Tok) : chainFrom 0 false (pureTokens m ++ us) = m ∧ longest (pureTokens m ++ us) = max m (longest us) := by
  induction m with
  | zero =>
    have arg : chainFrom 0 false (.ident "arg" :: us) = 0 := if_neg (by rw [headWord (by decide)]; decide)
    exact ⟨arg,congrArg (max · _) arg⟩
  | succ m ih =>
    have next : chainFrom 0 false (.ident "pure" :: (pureTokens m ++ us)) = m + 1 := by rw [chainUnary rfl,ih.1]
    refine ⟨next,?_⟩
    change max (chainFrom 0 false (.ident "pure" :: (pureTokens m ++ us))) (longest (pureTokens m ++ us)) = _
    rw [next,ih.2]
    omega

theorem longestPlain {t : Tok} {ts : List Tok} (plain : chainFrom 0 false (t :: ts) = 0) : longest (t :: ts) = longest ts := by
  rw [longest,plain,Nat.zero_max]

theorem deepLongest (m : Nat) : longest (deepTokens m) = m := by
  have tail : longest (pureTokens m ++ [.newline,.rbrace,.newline]) = m := (pureLongest m _).2.trans (Nat.max_zero m)
  have amen : chainFrom 0 false (.ident "amen" :: (pureTokens m ++ [.newline,.rbrace,.newline])) = 0 :=
    if_neg (by rw [headWord (by decide)]; decide)
  unfold deepTokens verseTokens
  rw [List.cons_append,List.append_assoc,List.singleton_append,longestPlain rfl,longestPlain rfl,longestPlain rfl,longestPlain rfl,
    longestPlain rfl,longestPlain (chainNewline.trans amen),longestPlain amen]
  exact tail

end Deep

/- No more than `bound` readings of expressions and operands are under way at once, nothing accepted nests
deeper, and what is not accepted is refused. -/
structure Guarded (bound : Nat) (src : String) : Prop where
  active : ∀ n a, parse n src = some a → parseWithin bound n src = some a
  chains : ∀ prog, Parses src prog → ∀ e ∈ prog.terms, chain e ≤ bound
  answered : ∃ n a, Returned (lines src.toUTF8.data.toList) a ∧ ∀ m, n ≤ m → parse m src = some a

theorem deepUnguarded (m : Nat) {bound : Nat} (guarded : Guarded bound (deep m)) : m ≤ bound := by
  have nested := guarded.chains _ (deepParses m) (.ret _ (purely m)) (List.mem_singleton.mpr rfl)
  rwa [chain,deepChain] at nested

theorem guardedWithin {src : String} {k : Nat} (chains : ∀ n toks, Lexer.lex n src = some (.ok toks) → longest (toks.map Prod.fst) ≤ k) :
    Guarded (3 * need k 0 + 1) src where
  active := fun n a answer => parseRoomy (by omega) (chains n) answer
  chains := fun prog ⟨n,parsed⟩ => parseWithinShallow (parseRoomy (Nat.le_refl _) (chains n) parsed)
  answered := parseEnds src

/- Among the texts whose longest chain of tokens that nest unasked is one of these lengths. -/
theorem guardCovers (R : Nat → Prop) :
    (∃ bound, ∀ src, (∀ n toks, Lexer.lex n src = some (.ok toks) → R (longest (toks.map Prod.fst))) → Guarded bound src) ↔ ∃ k, ∀ m, R m → m ≤ k := by
  constructor
  · rintro ⟨bound,guarded⟩
    refine ⟨bound,fun m m_ => deepUnguarded m (guarded (deep m) fun n toks lexed => ?_)⟩
    obtain ⟨us,k,tokens,settled⟩ := deepLexes m
    have same : Lexer.lex (max n k) (deep m) = some (.ok toks) := lexLoopBelow (Nat.le_max_left n k) lexed
    cases same.symm.trans (settled _ (Nat.le_max_right n k))
    rw [tokens,deepLongest]
    exact m_
  · rintro ⟨k,bounded⟩
    exact ⟨3 * need k 0 + 1,fun src lengths => guardedWithin fun n toks lexed => bounded _ (lengths n toks lexed)⟩

/- No bound will do for `pure pure ... pure arg`, for the readings under way or for what is accepted. -/
theorem guardPassed : (¬∃ bound, ∀ src, Guarded bound src) ∧
    ¬∃ bound, ∀ src n a, parse n src = some a → parseWithin bound n src = some a := by
  constructor
  · rintro ⟨bound,guarded⟩
    exact Nat.lt_irrefl bound (deepUnguarded (bound+1) (guarded (deep (bound+1))))
  · rintro ⟨bound,active⟩
    obtain ⟨n,parsed⟩ := deepParses (3*bound+2)
    have nested := parseWithinShallow (active _ n _ parsed) (.ret _ (purely (3*bound+2))) (List.mem_singleton.mpr rfl)
    rw [chain,deepChain] at nested
    omega

end Parser

end Officium

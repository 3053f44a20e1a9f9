import Officium.Heads

/-! How the parser reads tokens that are known. What it does depends on the tokens ahead of it alone,
so every fact here names those and leaves open what follows them. -/
namespace Officium.Parser
open Bounded
open Lexer (Tok rhymeLabel)

/- The name after `ask` or `resolve`, in quotes or without. -/
inductive NameArg where
  | quoted (s : String)
  | bare (s : String)

def NameArg.text : NameArg → String
  | quoted s | bare s => s

def NameArg.token : NameArg → Tok
  | quoted s => .str s
  | bare s => .ident s

section Ahead
variable {p q : Parser} {t : Tok} {ts rest : List Tok} {k l : Nat}

def ahead (p : Parser) : List Tok := (p.toks.drop p.pos).map Prod.fst

def skip (p : Parser) (k : Nat) : Parser := { p with pos := p.pos + k }

@[simp] theorem skipParen : (skip p k).parenDepth = p.parenDepth := rfl

@[simp] theorem skipDepth : (skip p k).exprDepth = p.exprDepth := rfl

@[simp] theorem skipSkip : skip (skip p k) l = skip p (k+l) := by
  rw [skip,skip,skip,Nat.add_assoc]

theorem aheadSkip : ahead (skip p k) = (ahead p).drop k := by
  unfold ahead skip
  rw [← List.drop_drop,List.map_drop]

theorem aheadPast (h : ahead p = ts ++ rest) : ahead (skip p ts.length) = rest := by
  rw [aheadSkip,h,List.drop_left]

theorem aheadNext (h : ahead p = t :: rest) : ahead (skip p 1) = rest := by
  rw [aheadSkip,h]
  rfl

theorem aheadHere : p.toks[p.pos]?.map Prod.fst = (ahead p).head? := by
  rw [ahead,List.head?_map,List.head?_drop]

theorem settledAhead (h : ahead p = t :: rest) (plain : t.isNewline = false) : Settled p := by
  intro u found
  have same := aheadHere (p := p)
  rw [found,h] at same
  cases same
  exact plain

theorem pastPlain (h : ahead p = t :: rest) (plain : t.isNewline = false) : p.pastNewlines = p :=
  settledStays (settledAhead h plain)

theorem pastNewline (h : ahead p = .newline :: rest) : p.pastNewlines = (skip p 1).pastNewlines := by
  unfold ahead at h
  cases found : p.toks.drop p.pos with
  | nil => rw [found] at h; cases h
  | cons u us =>
    rw [found] at h
    obtain ⟨u,l⟩ := u
    cases h
    have next : p.toks.drop (p.pos+1) = us := by rw [← List.drop_drop,found,List.drop_one,List.tail_cons]
    unfold Parser.pastNewlines skip
    rw [found,next,Nat.add_assoc,Nat.add_comm 1]
    rfl

theorem wordAhead {s : String} (h : ahead p = .ident s :: rest) : word p = some s := by
  have here := aheadHere (p := p)
  rw [h] at here
  unfold word
  cases found : p.toks[p.pos]? with
  | none => rw [found] at here; cases here
  | some u =>
    rw [found] at here
    obtain ⟨u,l⟩ := u
    cases here
    rfl

end Ahead

section Yielding
variable {α β : Type} {x y : Nat → ParseM α} {f : Nat → α → ParseM β} {a : α} {b : β} {p q r : Parser}

/- From `p` the computation ends with this value in this state. -/
def Yields (x : Nat → ParseM α) (p : Parser) (a : α) (q : Parser) : Prop :=
  Ends x p (fun b r => b = a ∧ r = q) (fun _ => False)

theorem yieldsConst {x : ParseM α} (h : Returns x p a q) : Yields (fun _ => x) p a q := ⟨0,_,.ok ⟨rfl,rfl⟩,fun _ _ => h⟩

theorem yieldsReturns (h : Yields x p a q) : ∃ n, ∀ m, n ≤ m → Returns (x m) p a q := by
  obtain ⟨n,r,out,settled⟩ := h
  cases out with
  | ok same =>
    obtain ⟨rfl,rfl⟩ := same
    exact ⟨n,settled⟩
  | error never => exact never.elim

theorem yieldsThen (first : Yields x p a q) (rest : Yields (fun n => f n a) q b r) : Yields (fun n => x n >>= f n) p b r :=
  endsBind first (fun _ _ same => by rw [same.1,same.2]; exact rest)

theorem yieldsPast {x : ParseM α} (first : Returns x p a q) (rest : Yields (fun n => f n a) q b r) :
    Yields (fun n => x >>= f n) p b r := yieldsThen (yieldsConst first) rest

theorem yieldsPure : Yields (fun _ => (pure a : ParseM α)) p a p := yieldsConst (returnsPure.mpr ⟨rfl,rfl⟩)

theorem yieldsIs (same : ∀ n, x n = y n) (h : Yields x p a q) : Yields y p a q := funext same ▸ h

theorem yieldsTo (same : q = r) (h : Yields x p a q) : Yields x p a r := same ▸ h

theorem yieldsNext (shape : ∀ n, y (n+1) = x n) (h : Yields x p a q) : Yields y p a q := endsNext shape h

/- What the computation does at `p` is what another one does elsewhere. -/
theorem yieldsAt (shape : ∀ n, y (n+1) p = x n r) (h : Yields x r a q) : Yields y p a q := by
  obtain ⟨n,end_,out,settled⟩ := h
  refine ⟨n+1,end_,out,fun m le => ?_⟩
  obtain ⟨k,rfl⟩ := Nat.exists_eq_add_of_le' le
  rw [← Nat.add_assoc,shape]
  exact settled (k+n) (Nat.le_add_left n k)

end Yielding

section Tokens
variable {p : Parser} {t : Tok} {rest : List Tok} {s : String}

theorem peekAhead (h : ahead p = t :: rest) (plain : t.isNewline = false) : Returns peek p (some t) p := by
  have found := peekAt (settledAhead h plain)
  rwa [aheadHere,h] at found

theorem peekNewline (h : ahead p = .newline :: rest) (outside : p.parenDepth = 0) : Returns peek p (some .newline) p := by
  have here := aheadHere (p := p)
  rw [h] at here
  rw [Returns,peek,updateThen,if_neg (by omega),stateThen,here]
  rfl

theorem advanceSkips : Returns advance p () (skip p 1) := rfl

theorem nextAhead (h : ahead p = t :: rest) (plain : t.isNewline = false) : Returns next p (some t) (skip p 1) :=
  returnsBind.mpr ⟨_,p,peekAhead h plain,returnsBind.mpr ⟨(),_,advanceSkips,returnsPure.mpr ⟨rfl,rfl⟩⟩⟩

theorem eatAhead {want : Tok} (h : ahead p = t :: rest) (plain : t.isNewline = false) (same : (some t == some want) = true) :
    Returns (eat want) p true (skip p 1) := by
  refine returnsBind.mpr ⟨_,p,peekAhead h plain,?_⟩
  rw [if_pos same]
  exact returnsBind.mpr ⟨(),_,advanceSkips,returnsPure.mpr ⟨rfl,rfl⟩⟩

theorem expectAhead {want : Tok} {what : String} (h : ahead p = t :: rest) (plain : t.isNewline = false)
    (same : (some t == some want) = true) : Returns (expect want what) p () (skip p 1) :=
  returnsBind.mpr ⟨true,_,eatAhead h plain same,returnsPure.mpr ⟨rfl,rfl⟩⟩

theorem identAhead {what : String} (h : ahead p = .ident s :: rest) : Returns (ident what) p s (skip p 1) :=
  returnsBind.mpr ⟨_,_,nextAhead h rfl,returnsPure.mpr ⟨rfl,rfl⟩⟩

theorem nameToken {what : String} {name : NameArg} (h : ahead p = name.token :: rest) : Returns (nameArg what) p name.text (skip p 1) := by
  cases name <;> exact returnsBind.mpr ⟨_,_,nextAhead h rfl,returnsPure.mpr ⟨rfl,rfl⟩⟩

theorem keywordAhead (h : ahead p = .ident s :: rest) : Returns (keyword s) p true (skip p 1) := by
  have found := keywordAt (settledAhead h rfl) s
  rwa [wordAhead h,BEq.rfl] at found

theorem skipNewlinesPast : Returns skipNewlines p () p.pastNewlines := rfl

end Tokens

section Atoms

/- The tokens an argument starts with. -/
def opensAtom : Tok → Bool
  | .num _ | .str _ | .lparen | .lambda => true
  | .ident s => !statementWord s
  | _ => false

/- The tokens an expression cannot go on with. -/
def closes (t : Tok) : Bool := !opensAtom t && (additiveOp (some t)).isNone && (multiplicativeOp (some t)).isNone

/- The next token is one the test holds of. -/
def Followed (test : Tok → Bool) (p : Parser) : Prop :=
  ∃ t rest, ahead p = t :: rest ∧ test t = true ∧ (t.isNewline = false ∨ p.parenDepth = 0)

/- The expression that was read is over here. -/
def Halts (p : Parser) : Prop := ∃ t rest, ahead p = t :: rest ∧ closes t = true ∧ (t.isNewline = false ∨ p.parenDepth = 0)

variable {p : Parser} {t : Tok} {ts rest : List Tok} {d : Nat} {e f : Expr}

theorem followedPeek {test : Tok → Bool} (h : Followed test p) : ∃ t, Returns peek p (some t) p ∧ test t = true := by
  obtain ⟨t,rest,here,good,plain | outside⟩ := h
  · exact ⟨t,peekAhead here plain,good⟩
  · cases newline : t.isNewline with
    | false => exact ⟨t,peekAhead here newline,good⟩
    | true =>
      cases t <;> cases newline
      exact ⟨_,peekNewline here outside,good⟩

/- Where `d` more levels fit, an atom is read off these tokens whatever follows them. -/
structure Atom (d : Nat) (ts : List Tok) (e : Expr) : Prop where
  opens : ∃ t ts', ts = t :: ts' ∧ opensAtom t = true
  reads : ∀ p rest, p.exprDepth + d ≤ maxExprDepth → ahead p = ts ++ rest → Yields atom p e (skip p ts.length)

/- Where `d` more levels fit, an expression is read off these tokens if it can go no further. -/
def Term (d : Nat) (ts : List Tok) (e : Expr) : Prop :=
  ∀ p rest, p.exprDepth + d ≤ maxExprDepth → ahead p = ts ++ rest → Halts (skip p ts.length) → Yields expr p e (skip p ts.length)

theorem opensPlain (opens : opensAtom t = true) : t.isNewline = false := by
  cases t <;> first | rfl | cases opens

/- An atom that goes on from its first token. -/
theorem atomPast (opens : opensAtom t = true) (reads : ∀ p rest, p.exprDepth + d ≤ maxExprDepth → ahead p = t :: (ts ++ rest) →
    Returns peek p (some t) p → ahead (skip p 1) = ts ++ rest → Yields atom p e (skip (skip p 1) ts.length)) : Atom d (t :: ts) e where
  opens := ⟨t,ts,rfl,opens⟩
  reads := by
    intro p rest room h
    have read := reads p rest room h (peekAhead h (opensPlain opens)) (aheadNext h)
    rwa [skipSkip,Nat.add_comm] at read

theorem atomNum (x : Scalar) : Atom d [.num x] (.lit (.num x)) :=
  atomPast rfl (fun _ _ _ _ peeked _ => yieldsNext (fun n => atom.eq_2 n)
    (yieldsPast peeked (yieldsPast advanceSkips yieldsPure)))

theorem atomStr (s : String) : Atom d [.str s] (.lit (.str s)) :=
  atomPast rfl (fun _ _ _ _ peeked _ => yieldsNext (fun n => atom.eq_2 n)
    (yieldsPast peeked (yieldsPast advanceSkips yieldsPure)))

/- Words that mean something at the head of an atom. -/
def atomWord (s : String) : Bool := ["arg","lege","verum","falsum","ask","resolve","pure","leva","pone"].contains s

theorem atomVar {s : String} (free : statementWord s = false) (plain : atomWord s = false) : Atom d [.ident s] (.var s) := by
  refine atomPast (by rw [opensAtom,free]; rfl) (fun p rest room h peeked next => yieldsNext (fun n => atom.eq_2 n)
    (yieldsPast peeked (yieldsPast advanceSkips ?_)))
  split
  all_goals first | exact yieldsPure | (exfalso; revert plain; decide)

theorem atomArg : Atom d [.ident "arg"] .arg :=
  atomPast rfl (fun _ _ _ _ peeked _ => yieldsNext (fun n => atom.eq_2 n) (yieldsPast peeked (yieldsPast advanceSkips yieldsPure)))

theorem atomVerum : Atom d [.ident "verum"] (.lit (.bool true)) :=
  atomPast rfl (fun _ _ _ _ peeked _ => yieldsNext (fun n => atom.eq_2 n) (yieldsPast peeked (yieldsPast advanceSkips yieldsPure)))

theorem atomAsk (name : NameArg) : Atom d [.ident "ask",name.token] (.ask name.text) :=
  atomPast rfl (fun _ _ _ _ peeked next => yieldsNext (fun n => atom.eq_2 n)
    (yieldsPast peeked (yieldsPast advanceSkips (yieldsPast (nameToken next) yieldsPure))))

theorem atomPure (h : Atom d ts e) : Atom d (.ident "pure" :: ts) (.pure .dorian e) :=
  atomPast rfl (fun _ rest room _ peeked next => yieldsNext (fun n => atom.eq_2 n)
    (yieldsPast peeked (yieldsPast advanceSkips (yieldsThen (h.reads _ rest room next) yieldsPure))))

theorem atomResolve (name : NameArg) (h : Atom d ts e) : Atom d (.ident "resolve" :: name.token :: ts) (.resolve name.text e) := by
  refine atomPast rfl (fun p rest room _ peeked next => yieldsNext (fun n => atom.eq_2 n)
    (yieldsPast peeked (yieldsPast advanceSkips (yieldsPast (nameToken next) ?_))))
  have operand := h.reads (skip (skip p 1) 1) rest room (aheadNext next)
  rw [skipSkip (p := skip p 1),Nat.add_comm] at operand
  exact yieldsThen operand yieldsPure

theorem leaveParenLeaves (q : Parser) : Returns leaveParen { q with parenDepth := q.parenDepth + 1 } () q := by
  rw [Returns,leaveParen,stateThen]
  split
  · rename_i zero
    cases zero
  · rfl

theorem leaveExprLeaves (q : Parser) : Returns leaveExpr { q with exprDepth := q.exprDepth + 1 } () q := by
  rw [Returns,leaveExpr,stateThen]
  split
  · rename_i zero
    cases zero
  · rfl

/- What is read inside parentheses, with the count of them one higher. -/
theorem yieldsParen {α β : Type} {x : Nat → ParseM α} {g : Nat → α → ParseM β} {a : α} {b : β} {q : Parser} {k : Nat}
    (inner : Yields x { p with parenDepth := p.parenDepth + 1 } a (skip { p with parenDepth := p.parenDepth + 1 } k))
    (outer : Yields (fun n => g n a) (skip p k) b q) : Yields (fun n => do enterParen; let a ← x n; leaveParen; g n a) p b q := by
  have entered : Returns enterParen p () { p with parenDepth := p.parenDepth + 1 } := rfl
  exact yieldsPast entered (yieldsThen inner (yieldsPast (leaveParenLeaves (skip p k)) outer))

theorem yieldsExpr {α β : Type} {x : Nat → ParseM α} {g : Nat → α → ParseM β} {a : α} {b : β} {q : Parser} {k : Nat}
    (inner : Yields x { p with exprDepth := p.exprDepth + 1 } a (skip { p with exprDepth := p.exprDepth + 1 } k))
    (outer : Yields (fun n => g n a) (skip p k) b q) : Yields (fun n => do enterExpr; let a ← x n; leaveExpr; g n a) p b q := by
  have entered : Returns enterExpr p () { p with exprDepth := p.exprDepth + 1 } := rfl
  exact yieldsPast entered (yieldsThen inner (yieldsPast (leaveExprLeaves (skip p k)) outer))

theorem atomParen (h : Term d ts e) : Atom d (.lparen :: (ts ++ [.rparen])) e := by
  refine atomPast rfl (fun p rest room _ peeked next => yieldsNext (fun n => atom.eq_2 n)
    (yieldsPast peeked (yieldsPast advanceSkips ?_)))
  rw [List.append_assoc] at next
  have closed := aheadPast next
  rw [List.length_append,List.length_singleton,← skipSkip]
  refine yieldsParen (k := ts.length) (h _ _ room next ⟨_,_,closed,rfl,.inl rfl⟩) ?_
  exact yieldsPast (expectAhead closed rfl rfl) yieldsPure

/- Arguments and the tokens each of them is read off. -/
def argTokens (args : List (List Tok × Expr)) : List Tok := args.flatMap Prod.fst

def applied (f : Expr) (args : List (List Tok × Expr)) : Expr := args.foldl (fun g a => .app g a.2) f

theorem startsAtomPeek (peeked : Returns peek p (some t) p) : Returns startsAtom p (opensAtom t) p := by
  refine returnsBind.mpr ⟨_,p,peeked,?_⟩
  cases t <;> exact returnsPure.mpr ⟨rfl,rfl⟩

theorem applicationStops (halts : Halts p) : Yields (fun n => applicationLoop n f) p f p := by
  obtain ⟨t,peeked,closed⟩ := followedPeek halts
  have stops := startsAtomPeek peeked
  simp only [closes,Bool.and_eq_true,Bool.not_eq_true'] at closed
  rw [closed.1.1] at stops
  exact yieldsNext (fun n => applicationLoop.eq_2 f n) (yieldsPast stops yieldsPure)

theorem applicationLoopReads {args : List (List Tok × Expr)} (args_ : ∀ a ∈ args, Atom d a.1 a.2) (room : p.exprDepth + d ≤ maxExprDepth)
    (h : ahead p = argTokens args ++ rest) (halts : Halts (skip p (argTokens args).length)) :
    Yields (fun n => applicationLoop n f) p (applied f args) (skip p (argTokens args).length) := by
  induction args generalizing p f with
  | nil => exact applicationStops halts
  | cons a args ih =>
    have arg := args_ a List.mem_cons_self
    obtain ⟨t,ts',same,opens⟩ := arg.opens
    rw [argTokens,List.flatMap_cons,List.append_assoc] at h
    have here : ahead p = t :: (ts' ++ (argTokens args ++ rest)) := by rw [h,same]; rfl
    have starts := startsAtomPeek (peekAhead here (opensPlain opens))
    rw [opens] at starts
    have size : (argTokens (a :: args)).length = a.1.length + (argTokens args).length := by
      rw [argTokens,List.flatMap_cons,List.length_append]
      rfl
    rw [size,← skipSkip] at halts ⊢
    refine yieldsNext (fun n => applicationLoop.eq_2 f n) (yieldsPast starts (yieldsThen (arg.reads p _ room h) ?_))
    exact ih (fun b mem => args_ b (.tail _ mem)) room (aheadPast h) halts

/- An expression that is an application alone. -/
theorem exprReads {k : Nat} (room : p.exprDepth + 1 ≤ maxExprDepth) (halts : Halts (skip p k))
    (h : Yields application { p with exprDepth := p.exprDepth + 1 } e (skip { p with exprDepth := p.exprDepth + 1 } k)) :
    Yields expr p e (skip p k) := by
  let q : Parser := { p with exprDepth := p.exprDepth + 1 }
  have halts' : Halts (skip q k) := halts
  obtain ⟨t,peeked,closed⟩ := followedPeek halts'
  simp only [closes,Bool.and_eq_true,Option.isNone_iff_eq_none] at closed
  have multiplicative_ : Yields multiplicative q e (skip q k) := by
    refine yieldsNext (fun n => multiplicative.eq_2 n) (yieldsThen h (yieldsNext (fun n => multiplicativeLoop.eq_2 _ n) (yieldsPast peeked ?_)))
    rw [closed.2]
    exact yieldsPure
  have additive_ : Yields additive q e (skip q k) := by
    refine yieldsNext (fun n => additive.eq_2 n) (yieldsThen multiplicative_ (yieldsNext (fun n => additiveLoop.eq_2 _ n) (yieldsPast peeked ?_)))
    rw [closed.1.2]
    exact yieldsPure
  refine yieldsNext (fun n => expr.eq_2 n) (yieldsExpr ?_ yieldsPure)
  have shallow : ¬ maxExprDepth < q.exprDepth := by
    change ¬ maxExprDepth < p.exprDepth + 1
    omega
  have stated : Returns (Comp.state : ParseM Parser) q q q := rfl
  exact yieldsPast stated (yieldsIs (fun n => (if_neg shallow).symm) additive_)

/- A head and its arguments. -/
theorem termApplied (args : List (List Tok × Expr)) (head : Atom d ts f) (args_ : ∀ a ∈ args, Atom d a.1 a.2) :
    Term (d+1) (ts ++ argTokens args) (applied f args) := by
  intro p rest room h halts
  let q : Parser := { p with exprDepth := p.exprDepth + 1 }
  have fits : q.exprDepth + d ≤ maxExprDepth := by change p.exprDepth + 1 + d ≤ _; omega
  have h' : ahead q = ts ++ (argTokens args ++ rest) := by rw [← List.append_assoc]; exact h
  refine exprReads (by omega) halts (yieldsNext (fun n => application.eq_2 n) (yieldsThen (head.reads q _ fits h') ?_))
  rw [List.length_append,← skipSkip] at halts ⊢
  exact applicationLoopReads args_ fits (aheadPast h') halts

theorem termLambda {s : String} (h : Term d ts e) : Term (d+1) (.lambda :: .ident s :: .arrow :: ts) (.lam s e) := by
  intro p rest room h' halts
  let q : Parser := { p with exprDepth := p.exprDepth + 1 }
  have fits : q.exprDepth + d ≤ maxExprDepth := by change p.exprDepth + 1 + d ≤ _; omega
  have here : ahead q = .lambda :: .ident s :: .arrow :: (ts ++ rest) := h'
  have param := aheadNext here
  have arrow := aheadNext param
  have body := aheadNext arrow
  have size : skip (skip (skip (skip q 1) 1) 1) ts.length = skip q (Tok.lambda :: .ident s :: .arrow :: ts).length := by
    simp only [skipSkip,List.length_cons]
    congr 1
    omega
  have halts' : Halts (skip (skip (skip (skip q 1) 1) 1) ts.length) := by rw [size]; exact halts
  have lambda_ : Yields atom q (.lam s e) (skip q (Tok.lambda :: .ident s :: .arrow :: ts).length) := by
    refine yieldsTo size (yieldsNext (fun n => atom.eq_2 n) (yieldsPast (peekAhead here rfl) (yieldsPast advanceSkips ?_)))
    exact yieldsPast (identAhead param) (yieldsPast (expectAhead arrow rfl rfl) (yieldsThen (h _ _ fits body halts') yieldsPure))
  refine exprReads (by omega) halts (yieldsNext (fun n => application.eq_2 n) (yieldsThen lambda_ ?_))
  exact applicationStops halts

theorem termAtom (h : Atom d ts e) : Term (d+1) ts e := by
  have alone := termApplied [] h (fun _ mem => by cases mem)
  rwa [argTokens,List.flatMap_nil,List.append_nil] at alone

end Atoms

section Blocks
variable {mode : Mode} {p q : Parser} {ts ts' rest : List Tok} {d : Nat} {e f : Expr} {s : String}

/- Between statements, where an expression may still be `d` levels deep. -/
structure Between (d : Nat) (p : Parser) : Prop where
  outside : p.parenDepth = 0
  room : p.exprDepth + d ≤ maxExprDepth

theorem betweenSkip {k : Nat} (h : Between d p) : Between d (skip p k) := ⟨h.outside,h.room⟩

theorem termReads (h : Term d ts e) (here : Between d p) (line : ahead p = ts ++ .newline :: rest) : Yields expr p e (skip p ts.length) :=
  h p _ here.room line ⟨_,_,aheadPast line,rfl,.inr here.outside⟩

theorem closeStmtsReads (h : ahead p = .newline :: .rbrace :: rest) : Returns closeStmts p () (skip p 2) := by
  have next := aheadNext h
  have past : p.pastNewlines = skip p 1 := by rw [pastNewline h,pastPlain next rfl]
  have skipped : Returns skipNewlines p () (skip p 1) := by rw [← past]; exact skipNewlinesPast
  exact returnsBind.mpr ⟨(),_,skipped,expectAhead next rfl rfl⟩

theorem stmtsPast (h : Yields (stmts mode) p.pastNewlines e q) : Yields (stmts mode) p e q := by
  obtain ⟨n,r,out,settled⟩ := h
  have later : Yields (fun n => stmts mode (n+1)) p.pastNewlines e q := ⟨n,r,out,fun m le => settled (m+1) (Nat.le_succ_of_le le)⟩
  refine yieldsAt (fun n => ?_) later
  rw [stmts,skipNewlines,updateThen,updateThen,settledStays (settledPast p)]

theorem skipTo {k l m : Nat} (sum : k + l = m) : skip (skip p k) l = skip p m := by rw [skipSkip,sum]

/- The statements of a block up to its closing brace, each line of them ended. -/
structure Block (mode : Mode) (d : Nat) (ts : List Tok) (e : Expr) : Prop where
  opens : ∃ s ts', ts = .ident s :: ts' ∧ rhymeLabel s = none
  reads : ∀ p rest, Between d p → ahead p = ts ++ .rbrace :: rest → Yields (stmts mode) p e (skip p (ts.length+1))

/- The block stands on lines of its own. -/
theorem blockOpened (h : Block mode d ts e) (here : Between d p) (line : ahead p = .newline :: (ts ++ .rbrace :: rest)) :
    Yields (stmts mode) p e (skip p (ts.length+2)) := by
  have next := aheadNext line
  obtain ⟨s,ts',same,-⟩ := h.opens
  have past : p.pastNewlines = skip p 1 := by
    rw [pastNewline line]
    exact pastPlain (by rw [next,same,List.cons_append]) rfl
  have read := h.reads _ _ (betweenSkip here) next
  rw [skipTo (m := ts.length+2) (by omega),← past] at read
  exact stmtsPast read

theorem amenBlock (h : Term d ts e) : Block mode d (.ident "amen" :: (ts ++ [.newline])) (.ret mode e) where
  opens := ⟨_,_,rfl,by decide⟩
  reads := by
    intro p rest here line
    rw [List.cons_append,List.append_assoc] at line
    have next := aheadNext line
    have read := termReads h (betweenSkip here) next
    have closed := closeStmtsReads (aheadPast next)
    have cadence : Yields (fun n => do let e ← expr n; closeStmts; pure (Expr.ret mode e)) (skip p 1) (Expr.ret mode e) _ :=
      yieldsThen read (yieldsPast closed yieldsPure)
    rw [skipSkip (k := 1),skipTo (m := (Tok.ident "amen" :: (ts ++ [Tok.newline])).length+1) (by simp; omega)] at cadence
    refine yieldsAt (fun n => ?_) cadence
    rw [stmts,skipNewlines,updateThen,settledStays (settledAhead line rfl),keywordIs (settledAhead line rfl) (wordAhead line)]
    rfl

theorem aheadBlock (line : ahead p = .newline :: (ts ++ .rbrace :: rest)) : ahead (skip p (ts.length+2)) = rest := by
  have past := aheadNext (aheadPast (aheadNext line))
  rwa [skipSkip (k := 1),skipTo (m := ts.length+2) (by omega)] at past

theorem skipNewlinesPlain {t : Tok} (h : ahead p = t :: rest) (plain : t.isNewline = false) : Returns skipNewlines p () p := by
  have skipped := skipNewlinesPast (p := p)
  rwa [pastPlain h plain] at skipped

theorem siBlock {c : Expr} {cs : List Tok} (cond : Term d cs c) (then_ : Block mode d ts e) (else_ : Block mode d ts' f) :
    Block mode d (.ident "si" :: (cs ++ .ident "tunc" :: .lbrace :: .newline :: (ts ++ .rbrace :: .ident "aliter" :: .lbrace :: .newline ::
      (ts' ++ [.rbrace,.newline])))) (.ifE c e f) where
  opens := ⟨_,_,rfl,by decide⟩
  reads := by
    intro p rest here line
    simp only [List.cons_append,List.append_assoc,List.nil_append] at line
    have condition := aheadNext line
    have tunc := aheadPast condition
    have brace := aheadNext tunc
    have opened := aheadNext brace
    have aliter := aheadBlock opened
    have brace' := aheadNext aliter
    have opened' := aheadNext brace'
    have closed := closeStmtsReads (aheadBlock opened')
    have read := cond (skip p 1) _ here.room condition ⟨_,_,tunc,rfl,.inl rfl⟩
    have branch : Yields (fun n => do
        let cond ← expr n
        if !(← keyword "tunc") then refuse "expected 'tunc' after si-condition"
        else
          skipNewlines
          expect .lbrace "expected '\x7b' after tunc"
          let thenE ← stmts mode n
          skipNewlines
          if !(← keyword "aliter") then refuse "expected 'aliter' after tunc-block"
          else
            skipNewlines
            expect .lbrace "expected '\x7b' after aliter"
            let elseE ← stmts mode n
            closeStmts
            pure (Expr.ifE cond thenE elseE)) (skip p 1) (Expr.ifE c e f) _ :=
      yieldsThen read (yieldsPast (keywordAhead tunc) (yieldsPast (skipNewlinesPlain brace rfl) (yieldsPast (expectAhead brace rfl rfl)
        (yieldsThen (blockOpened then_ ⟨here.outside,here.room⟩ opened)
        (yieldsPast (skipNewlinesPlain aliter rfl) (yieldsPast (keywordAhead aliter) (yieldsPast (skipNewlinesPlain brace' rfl)
        (yieldsPast (expectAhead brace' rfl rfl) (yieldsThen (blockOpened else_ ⟨here.outside,here.room⟩ opened')
        (yieldsPast closed yieldsPure))))))))))
    simp only [skipSkip] at branch
    refine yieldsAt (fun n => ?_) (yieldsTo ?_ branch)
    · have settled := settledAhead line rfl
      have here := wordAhead line
      rw [stmts,skipNewlines,updateThen,settledStays settled,keywordNot settled (by simp [here]),keywordNot settled (by simp [here]),
        keywordNot settled (by simp [here]),keywordNot settled (by simp [here]),keywordIs settled here]
      rfl
    · simp only [List.length_cons,List.length_append,List.length_nil]
      congr 1
      omega

/- A statement that is no cadence, on a line of its own. -/
structure Line (d : Nat) (ts : List Tok) (m : Expr) (name : Sym) : Prop where
  opens : ∃ s ts', ts = .ident s :: ts' ∧ rhymeLabel s = none ∧ cadenceWord s = false
  reads : ∀ p rest, Between d p → ahead p = ts ++ .newline :: rest → Yields statement p (m,name) (skip p ts.length)

theorem lineBlock (m_ : Line d ts e s) (k_ : Block mode d ts' f) : Block mode d (ts ++ .newline :: ts') (.bind mode e s f) where
  opens := by
    obtain ⟨s,us,rfl,label,-⟩ := m_.opens
    exact ⟨s,_,rfl,label⟩
  reads := by
    intro p rest here line
    rw [List.append_assoc,List.cons_append] at line
    obtain ⟨w,us,same,-,plain⟩ := m_.opens
    have first : ahead p = .ident w :: (us ++ .newline :: (ts' ++ .rbrace :: rest)) := by rw [line,same]; rfl
    have past := pastPlain first rfl
    have going : atCadence p.pastNewlines = false := by rw [past,atCadence,wordAhead first]; exact plain
    have both : Yields (fun n => do let m ← statement n; let rest ← stmts mode n; pure (Expr.bind mode m.1 m.2 rest)) p (Expr.bind mode e s f) _ :=
      yieldsThen (m_.reads p _ here line) (yieldsThen (blockOpened k_ (betweenSkip here) (aheadPast line)) yieldsPure)
    rw [skipTo (m := (ts ++ Tok.newline :: ts').length+1) (by simp; omega)] at both
    refine yieldsAt (fun n => ?_) both
    rw [stmtsStatement going,past]

/- What a statement that opens with a word of its own reads after it. -/
theorem wordReads {s : String} (build : Expr → Expr) (h : Term d ts e) (here : Between d p) (line : ahead p = .ident s :: (ts ++ .newline :: rest)) :
    Yields (fun n => do let e ← expr n; pure (build e,"_")) (skip p 1) (build e,"_") (skip p (Tok.ident s :: ts).length) := by
  have read : Yields (fun n => do let e ← expr n; pure (build e,"_")) (skip p 1) (build e,"_") _ :=
    yieldsThen (termReads h (betweenSkip here) (aheadNext line)) yieldsPure
  rwa [skipTo (m := (Tok.ident s :: ts).length) (by simp; omega)] at read

theorem poneLine (h : Term d ts e) : Line d (.ident "pone" :: ts) (.pone e) "_" where
  opens := ⟨_,_,rfl,by decide,by decide⟩
  reads := fun _ _ here line => yieldsPast (keywordAhead line) (wordReads .pone h here line)

theorem mitteLine (h : Term d ts e) : Line d (.ident "mitte" :: ts) (.mitte e) "_" where
  opens := ⟨_,_,rfl,by decide,by decide⟩
  reads := by
    intro p rest here line
    have pone_ : Returns (keyword "pone") p false p := by
      have found := keywordAt (settledAhead line rfl) "pone"
      rwa [wordAhead line] at found
    exact yieldsPast pone_ (yieldsPast (keywordAhead line) (wordReads .mitte h here line))

theorem cadenceFree (free : statementWord s = false) : cadenceWord s = false := by
  simp [statementWord,cadenceWord] at free ⊢
  simp [free]

theorem boundLine (free : statementWord s = false) (label : rhymeLabel s = none) (h : Term d ts e) :
    Line d (.ident s :: .bindArrow :: ts) e s where
  opens := ⟨_,_,rfl,label,cadenceFree free⟩
  reads := by
    intro p rest here line
    have arrow := aheadNext line
    have next := aheadNext arrow
    have read : Yields (fun n => do let e ← expr n; pure (e,s)) (skip (skip p 1) 1) (e,s) _ :=
      yieldsThen (termReads h (betweenSkip (betweenSkip here)) next) yieldsPure
    have size : skip (skip (skip p 1) 1) ts.length = skip p (Tok.ident s :: Tok.bindArrow :: ts).length := by
      rw [skipSkip,skipSkip,List.length_cons,List.length_cons]
      congr 1
      omega
    have other (kw : String) (word_ : statementWord kw = true) : Returns (keyword kw) p false p := by
      have differs : (some s == some kw) = false := by
        refine beq_eq_false_iff_ne.mpr (fun same => ?_)
        rw [Option.some.inj same,word_] at free
        cases free
      have found := keywordAt (settledAhead line rfl) kw
      rwa [wordAhead line,differs] at found
    exact yieldsPast (other "pone" (by decide)) (yieldsPast (other "mitte" (by decide))
      (yieldsPast (identAhead line) (yieldsPast (expectAhead arrow rfl rfl) (yieldsTo size read))))

end Blocks

section Scores
variable {p q r : Parser} {t : Tok} {ts rest : List Tok} {d : Nat} {e : Expr} {mode : Mode} {s w name : String} {prog prog' : Program}

theorem keywordOther {kw : String} (h : ahead p = t :: rest) (plain : t.isNewline = false) (other : t ≠ .ident kw) :
    Returns (keyword kw) p false p := by
  refine returnsBind.mpr ⟨_,_,peekAhead h plain,?_⟩
  cases t
  case ident s =>
    change Returns (if s = kw then _ else _) p false p
    rw [if_neg (fun same => other (congrArg Tok.ident same))]
    exact returnsPure.mpr ⟨rfl,rfl⟩
  all_goals exact returnsPure.mpr ⟨rfl,rfl⟩

theorem eatOther {want : Tok} (h : ahead p = t :: rest) (plain : t.isNewline = false) (other : (some t == some want) = false) :
    Returns (eat want) p false p := by
  refine returnsBind.mpr ⟨_,_,peekAhead h plain,?_⟩
  rw [other]
  exact returnsPure.mpr ⟨rfl,rfl⟩

theorem settledEnd (h : ahead p = []) : Settled p := by
  intro t found
  have here := aheadHere (p := p)
  rw [found,h] at here
  cases here

theorem peekEnd (h : ahead p = []) : Returns peek p none p := by
  have here := aheadHere (p := p)
  rw [h] at here
  have found := peekAt (settledEnd h)
  rwa [here] at found

/- The word names the final and the mode. -/
def NamesFinal (w : String) (final_ : Final) (mode : Mode) : Prop := ∀ p rest, ahead p = .ident w :: rest →
  Returns finalAndMode p (final_,mode) (skip p 1)

theorem unsungReads (first : ahead p.pastNewlines = .ident s :: rest) (label : rhymeLabel s = none) : Yields liturgicalStrip p [] p := by
  have plain : sungOpening p = false := by
    have here := aheadHere (p := p.pastNewlines)
    rw [first] at here
    unfold sungOpening
    split
    · rename_i l k _ _ found _
      have same : (some (Tok.ident l,k)).map Prod.fst = some (Tok.ident s) := found ▸ here
      cases same
      rw [label]
      rfl
    · rfl
  refine ⟨0,_,.ok ⟨rfl,rfl⟩,fun n _ => ?_⟩
  rw [liturgicalStrip,stateThen,plain]
  rfl

theorem verseReads {final_ : Final} (named : NamesFinal w final_ mode) (body : Block mode d ts e) (here : Between d p)
    (line : ahead p = .ident name :: .ident "in" :: .ident w :: .lbrace :: .newline :: (ts ++ .rbrace :: rest)) :
    Yields versus p ⟨name,mode,e,[]⟩ (skip p (ts.length+6)) := by
  have in_ := aheadNext line
  have final__ := aheadNext in_
  have brace := aheadNext final__
  have opened := aheadNext brace
  obtain ⟨s,us,same,label⟩ := body.opens
  have first : ahead (skip (skip (skip (skip p 1) 1) 1) 1).pastNewlines = .ident s :: (us ++ .rbrace :: rest) := by
    have next := aheadNext opened
    rw [same] at next
    rw [pastNewline opened,pastPlain next rfl]
    exact next
  have versus_ : Yields versus p ⟨name,mode,e,[]⟩ (skip (skip (skip (skip (skip p 1) 1) 1) 1) (ts.length+2)) :=
    yieldsPast (identAhead line) (yieldsPast (keywordAhead in_) (yieldsPast (named _ _ final__) (yieldsPast (skipNewlinesPlain brace rfl)
      (yieldsPast (expectAhead brace rfl rfl) (yieldsThen (unsungReads first label)
      (yieldsThen (blockOpened body ⟨here.outside,here.room⟩ opened) yieldsPure))))))
  refine yieldsTo ?_ versus_
  simp only [skipSkip]
  congr 1
  omega

theorem programEnds (h : ahead p.pastNewlines = []) : Yields (fun n => programLoop n prog) p prog p.pastNewlines :=
  yieldsNext (fun n => programLoop.eq_2 prog n) (yieldsPast skipNewlinesPast (yieldsPast (peekEnd h) yieldsPure))

theorem programPast (h : Yields (fun n => programLoop n prog) p.pastNewlines prog' q) : Yields (fun n => programLoop n prog) p prog' q := by
  obtain ⟨n,r,out,settled⟩ := h
  have later : Yields (fun n => programLoop (n+1) prog) p.pastNewlines prog' q := ⟨n,r,out,fun m le => settled (m+1) (Nat.le_succ_of_le le)⟩
  refine yieldsAt (fun n => ?_) later
  rw [programLoop.eq_2,skipNewlines,updateThen,updateThen,settledStays (settledPast p)]

theorem programNext (line : ahead p = .newline :: t :: rest) (plain : t.isNewline = false)
    (h : Yields (fun n => programLoop n prog) (skip p 1) prog' q) : Yields (fun n => programLoop n prog) p prog' q := by
  refine programPast ?_
  rwa [pastNewline line,pastPlain (aheadNext line) plain]

theorem pastLast (line : ahead p = [.newline]) : ahead p.pastNewlines = [] := by
  have last := aheadNext line
  rw [pastNewline line,settledStays (settledEnd last),last]

theorem programVerse {v : Versus} (line : ahead p = .ident "versus" :: rest) (verse : Yields versus (skip p 1) v q)
    (later : Yields (fun n => programLoop n { prog with verses := prog.verses ++ [v] }) q prog' r) :
    Yields (fun n => programLoop n prog) p prog' r :=
  yieldsNext (fun n => programLoop.eq_2 prog n) (yieldsPast (skipNewlinesPlain line rfl) (yieldsPast (peekAhead line rfl)
    (yieldsPast (keywordOther line rfl (by simp)) (yieldsPast (keywordAhead line) (yieldsThen verse later)))))

theorem programFugue {f : Fugue} (line : ahead p = .ident "fuga" :: rest) (fugue_ : Yields fugue (skip p 1) f q)
    (later : Yields (fun n => programLoop n { prog with fugues := prog.fugues ++ [f] }) q prog' r) :
    Yields (fun n => programLoop n prog) p prog' r :=
  yieldsNext (fun n => programLoop.eq_2 prog n) (yieldsPast (skipNewlinesPlain line rfl) (yieldsPast (peekAhead line rfl)
    (yieldsPast (keywordAhead line) (yieldsThen fugue_ later))))

section Fugues
variable {f g : Fugue} {genus : Genus}

theorem fugueOpens {final_ : Final} (named : NamesFinal w final_ mode)
    (line : ahead p = .ident name :: .ident "in" :: .ident w :: .lbrace :: rest)
    (later : Yields (fun n => fugueLoop n (Fugue.new name final_)) (skip p 4) f q) : Yields fugue p f q := by
  have in_ := aheadNext line
  have final__ := aheadNext in_
  have brace := aheadNext final__
  exact yieldsPast (identAhead line) (yieldsPast (keywordAhead in_) (yieldsPast (named _ _ final__) (yieldsPast (skipNewlinesPlain brace rfl)
    (yieldsPast (expectAhead brace rfl rfl) later))))

theorem fuguePast (h : Yields (fun n => fugueLoop n f) p.pastNewlines g q) : Yields (fun n => fugueLoop n f) p g q := by
  obtain ⟨n,r,out,settled⟩ := h
  have later : Yields (fun n => fugueLoop (n+1) f) p.pastNewlines g q := ⟨n,r,out,fun m le => settled (m+1) (Nat.le_succ_of_le le)⟩
  refine yieldsAt (fun n => ?_) later
  rw [fugueLoop.eq_2,skipNewlines,updateThen,updateThen,settledStays (settledPast p)]

theorem fugueNext (line : ahead p = .newline :: t :: rest) (plain : t.isNewline = false)
    (h : Yields (fun n => fugueLoop n f) (skip p 1) g q) : Yields (fun n => fugueLoop n f) p g q := by
  refine fuguePast ?_
  rwa [pastNewline line,pastPlain (aheadNext line) plain]

theorem fugueCloses (line : ahead p = .rbrace :: rest) : Yields (fun n => fugueLoop n f) p f (skip p 1) :=
  yieldsNext (fun n => fugueLoop.eq_2 f n) (yieldsPast (skipNewlinesPlain line rfl) (yieldsPast (eatAhead line rfl rfl) yieldsPure))

theorem fuguePedale {x : Scalar} (line : ahead p = .ident "pedale" :: .ident name :: .eq :: .num x :: rest)
    (later : Yields (fun n => fugueLoop n { f with pedals := f.pedals ++ [(name,.num x)] }) (skip p 4) g q) :
    Yields (fun n => fugueLoop n f) p g q := by
  have name_ := aheadNext line
  have eq_ := aheadNext name_
  have value := aheadNext eq_
  have literal_ : Returns literal (skip (skip (skip p 1) 1) 1) (.num x) (skip p 4) :=
    returnsBind.mpr ⟨_,_,nextAhead value rfl,returnsPure.mpr ⟨rfl,rfl⟩⟩
  have pedale_ : Returns pedale (skip p 1) (name,.num x) (skip p 4) :=
    returnsBind.mpr ⟨_,_,identAhead name_,returnsBind.mpr ⟨(),_,expectAhead eq_ rfl rfl,
      returnsBind.mpr ⟨_,_,literal_,returnsPure.mpr ⟨rfl,rfl⟩⟩⟩⟩
  exact yieldsNext (fun n => fugueLoop.eq_2 f n) (yieldsPast (skipNewlinesPlain line rfl) (yieldsPast (eatOther line rfl rfl)
    (yieldsPast (keywordAhead line) (yieldsPast pedale_ later))))

theorem fugueReale (body : Term d ts e) (here : Between d p)
    (line : ahead p = .ident "reale" :: .ident name :: .at_ :: .ident genus :: .eq :: (ts ++ .newline :: rest))
    (later : Yields (fun n => fugueLoop n { f with real := f.real ++ [((name,genus),e)] }) (skip p (ts.length+5)) g q) :
    Yields (fun n => fugueLoop n f) p g q := by
  have name_ := aheadNext line
  have at__ := aheadNext name_
  have genus_ := aheadNext at__
  have eq_ := aheadNext genus_
  have body_ := aheadNext eq_
  have size : skip (skip (skip (skip (skip (skip p 1) 1) 1) 1) 1) ts.length = skip p (ts.length+5) := by
    simp only [skipSkip]
    congr 1
    omega
  have overload_ : Yields overload (skip p 1) ((name,genus),e) (skip p (ts.length+5)) :=
    yieldsPast (identAhead name_) (yieldsPast (expectAhead at__ rfl rfl) (yieldsPast (identAhead genus_) (yieldsPast (expectAhead eq_ rfl rfl)
      (yieldsThen (yieldsTo size (termReads body ⟨here.outside,here.room⟩ body_)) yieldsPure))))
  exact yieldsNext (fun n => fugueLoop.eq_2 f n) (yieldsPast (skipNewlinesPlain line rfl) (yieldsPast (eatOther line rfl rfl)
    (yieldsPast (keywordOther line rfl (by simp)) (yieldsPast (keywordOther line rfl (by simp)) (yieldsPast (keywordAhead line)
    (yieldsThen overload_ later))))))

end Fugues

end Scores

end Officium.Parser

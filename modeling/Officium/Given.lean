import Officium.Determined

/-! What the parser does, with the calls that nest left open: the same functions, given what reads an
expression or an operand. Put `expr` and `atom` in and they are the parser's. -/
namespace Officium.Parser
open Bounded
open Lexer (Tok)

/- A name, `in` and a final up to the brace that opens what is named. -/
def heading (nameMsg inMsg braceMsg : String) : ParseM (Sym × Final × Mode) := do
  let name ← ident nameMsg
  if !(← keyword "in") then refuse inMsg
  else
    let final_ ← finalAndMode
    skipNewlines
    expect .lbrace braceMsg
    pure (name,final_)

/- `(name) =` behind the name of a subject. -/
def parameter : ParseM Sym := do
  expect .lparen "expected '(' after subject name"
  enterParen
  let param ← ident "expected subject parameter"
  leaveParen
  expect .rparen "expected ')' after subject parameter"
  expect .eq "expected '=' after subject header"
  pure param

/- A name and the `=` behind it. -/
def assigned (nameMsg eqMsg : String) : ParseM Sym := do
  let name ← ident nameMsg
  expect .eq eqMsg
  pure name

section Operands
variable (operand : Nat → ParseM Expr)

def applicationLoopBy : Nat → Expr → ParseM Expr
  | 0, _ => .cut
  | n+1, e => do
    if ← startsAtom then
      let a ← operand n
      applicationLoopBy n (.app e a)
    else pure e

def applicationBy : Nat → ParseM Expr
  | 0 => .cut
  | n+1 => do
    let e ← operand n
    applicationLoopBy operand n e

/- The operators of one level and what stands to their right. -/
def operatorLoopBy (op : Option Tok → Option Sym) : Nat → Expr → ParseM Expr
  | 0, _ => .cut
  | n+1, lhs => do
    match op (← peek) with
    | none => pure lhs
    | some name =>
      advance
      let rhs ← operand n
      operatorLoopBy op n (call2 name lhs rhs)

def operatorsBy (op : Option Tok → Option Sym) : Nat → ParseM Expr
  | 0 => .cut
  | n+1 => do
    let lhs ← operand n
    operatorLoopBy operand op n lhs

def multiplicativeBy : Nat → ParseM Expr := operatorsBy (applicationBy operand) multiplicativeOp

def additiveBy : Nat → ParseM Expr := operatorsBy (multiplicativeBy operand) additiveOp

def exprBy : Nat → ParseM Expr
  | 0 => .cut
  | n+1 => do
    enterExpr
    let e ← notTooDeep (additiveBy operand n)
    leaveExpr
    pure e

def atomBy (term : Nat → ParseM Expr) : Nat → ParseM Expr
  | 0 => .cut
  | n+1 => do
    match ← peek with
    | some (.num x) =>
      advance
      pure (.lit (.num x))
    | some (.str s) =>
      advance
      pure (.lit (.str s))
    | some .lparen =>
      advance
      enterParen
      let e ← term n
      leaveParen
      expect .rparen "expected ')'"
      pure e
    | some .lambda =>
      advance
      let param ← ident "expected a parameter after '\\'"
      expect .arrow "expected '->' in lambda"
      let body ← term n
      pure (.lam param body)
    | some .minus =>
      advance
      let e ← operand n
      pure (call2 "sub" (.lit (.num 0)) e)
    | some (.ident s) =>
      advance
      match s with
      | "arg" => pure .arg
      | "lege" => pure .lege
      | "verum" => pure (.lit (.bool true))
      | "falsum" => pure (.lit (.bool false))
      | "ask" =>
        let name ← nameArg "expected a name after 'ask'"
        pure (.ask name)
      | "resolve" =>
        let name ← nameArg "expected a name after 'resolve'"
        let genus ← operand n
        pure (.resolve name genus)
      | "pure" =>
        let e ← operand n
        pure (.pure .dorian e)
      | "leva" =>
        let e ← operand n
        pure (.lift e)
      | "pone" =>
        let e ← operand n
        pure (.pone e)
      | _ => pure (.var s)
    | _ => refuse "expected an expression"

end Operands

section By
variable (term : Nat → ParseM Expr)

def stmtsBy (mode : Mode) : Nat → ParseM Expr
  | 0 => .cut
  | n+1 => do
    skipNewlines
    if ← keyword "amen" then
      let e ← term n
      closeStmts
      pure (.ret mode e)
    else if ← keyword "nihil" then
      closeStmts
      pure .nihil
    else if ← keyword "clama" then
      let e ← term n
      closeStmts
      pure (.clama e)
    else if ← keyword "perage" then
      let e ← term n
      closeStmts
      pure (.perage e)
    else if ← keyword "si" then
      let cond ← term n
      if !(← keyword "tunc") then refuse "expected 'tunc' after si-condition"
      else
        skipNewlines
        expect .lbrace "expected '\x7b' after tunc"
        let thenE ← stmtsBy mode n
        skipNewlines
        if !(← keyword "aliter") then refuse "expected 'aliter' after tunc-block"
        else
          skipNewlines
          expect .lbrace "expected '\x7b' after aliter"
          let elseE ← stmtsBy mode n
          closeStmts
          pure (.ifE cond thenE elseE)
    else if ← keyword "pone" then
      let e ← term n
      let rest ← stmtsBy mode n
      pure (.bind mode (.pone e) "_" rest)
    else if ← keyword "mitte" then
      let e ← term n
      let rest ← stmtsBy mode n
      pure (.bind mode (.mitte e) "_" rest)
    else
      let name ← ident "expected a statement or cadence"
      expect .bindArrow "expected '<-' after binder"
      let rhs ← term n
      let rest ← stmtsBy mode n
      pure (.bind mode rhs name rest)

def overloadBy (n : Nat) : ParseM Overload := do
  let name ← ident "expected overload name"
  expect .at_ "expected '@' before genus"
  let genus ← assigned "expected genus" "expected '=' after overload header"
  let e ← term n
  pure ((name,genus),e)

def subiectumBy (n : Nat) : ParseM (Sym × Sym × Expr) := do
  let name ← ident "expected subject name"
  let param ← parameter
  let body ← term n
  pure (name,param,body)

def fugueLoopBy : Nat → Fugue → ParseM Fugue
  | 0, _ => .cut
  | n+1, f => do
    skipNewlines
    if ← eat .rbrace then pure f
    else if ← keyword "pedale" then
      let p ← pedale
      fugueLoopBy n { f with pedals := f.pedals ++ [p] }
    else if ← keyword "subiectum" then
      let s ← subiectumBy term n
      fugueLoopBy n { f with subject := some s }
    else if ← keyword "reale" then
      let o ← overloadBy term n
      fugueLoopBy n { f with real := f.real ++ [o] }
    else if ← keyword "tonale" then
      let o ← overloadBy term n
      fugueLoopBy n { f with tonal := f.tonal ++ [o] }
    else if ← keyword "contra" then
      let e ← term n
      fugueLoopBy n { f with contra := f.contra ++ [e] }
    else refuse "expected pedale/subiectum/reale/tonale/contra or '\x7d' in fugue"

def fugueBy (n : Nat) : ParseM Fugue := do
  let h ← heading "expected fugue name" "expected 'in' after fugue name" "expected '\x7b' opening the fugue"
  fugueLoopBy term n (Fugue.new h.1 h.2.1)

def versusBy (n : Nat) : ParseM Versus := do
  let h ← heading "expected verse name" "expected 'in' after verse name" "expected '\x7b' opening the verse"
  let rhymes ← liturgicalStrip n
  let body ← stmtsBy term h.2.2 n
  pure ⟨h.1,h.2.2,body,rhymes⟩

def programLoopBy : Nat → Program → ParseM Program
  | 0, _ => .cut
  | n+1, prog => do
    skipNewlines
    if (← peek).isNone then pure prog
    else if ← keyword "fuga" then
      let f ← fugueBy term n
      programLoopBy n { prog with fugues := prog.fugues ++ [f] }
    else if ← keyword "versus" then
      let v ← versusBy term n
      programLoopBy n { prog with verses := prog.verses ++ [v] }
    else refuse "expected 'fuga' or 'versus'"

end By

section Same
variable {α : Type} {n : Nat}

/- A test that refuses, and what is read after the rest of it. -/
theorem refuseThen {β : Type} {msg : String} (f : α → ParseM β) : (refuse msg : ParseM α) >>= f = refuse msg := rfl

theorem headingThen (nameMsg inMsg braceMsg : String) (f : Sym × Final × Mode → ParseM α) :
    heading nameMsg inMsg braceMsg >>= f = (do
      let name ← ident nameMsg
      if !(← keyword "in") then refuse inMsg
      else
        let final_ ← finalAndMode
        skipNewlines
        expect .lbrace braceMsg
        f (name,final_)) := by
  unfold heading
  simp only [bindAssoc,iteThen,refuseThen,pureThen]

theorem parameterThen (f : Sym → ParseM α) : parameter >>= f = (do
    expect .lparen "expected '(' after subject name"
    enterParen
    let param ← ident "expected subject parameter"
    leaveParen
    expect .rparen "expected ')' after subject parameter"
    expect .eq "expected '=' after subject header"
    f param) := by
  unfold parameter
  simp only [bindAssoc,pureThen]

theorem assignedThen (nameMsg eqMsg : String) (f : Sym → ParseM α) : assigned nameMsg eqMsg >>= f = (do
    let name ← ident nameMsg
    expect .eq eqMsg
    f name) := by
  unfold assigned
  simp only [bindAssoc,pureThen]

theorem applicationIs : applicationBy atom n = application n ∧ ∀ e, applicationLoopBy atom n e = applicationLoop n e := by
  have loop (n : Nat) : ∀ e, applicationLoopBy atom n e = applicationLoop n e := by
    induction n with
    | zero => exact fun _ => rfl
    | succ n ih =>
      intro e
      unfold applicationLoopBy applicationLoop
      simp only [ih]
  refine ⟨?_,loop n⟩
  cases n with
  | zero => rfl
  | succ n =>
    unfold applicationBy application
    simp only [loop]

theorem multiplicativeIs : multiplicativeBy atom n = multiplicative n := by
  have loop (n : Nat) : ∀ e, operatorLoopBy (applicationBy atom) multiplicativeOp n e = multiplicativeLoop n e := by
    induction n with
    | zero => exact fun _ => rfl
    | succ n ih =>
      intro e
      unfold operatorLoopBy multiplicativeLoop
      simp only [ih,applicationIs] <;> rfl
  cases n with
  | zero => rfl
  | succ n =>
    unfold multiplicativeBy operatorsBy multiplicative
    simp only [loop,applicationIs]

theorem additiveIs : additiveBy atom n = additive n := by
  have loop (n : Nat) : ∀ e, operatorLoopBy (multiplicativeBy atom) additiveOp n e = additiveLoop n e := by
    induction n with
    | zero => exact fun _ => rfl
    | succ n ih =>
      intro e
      unfold operatorLoopBy additiveLoop
      simp only [ih,multiplicativeIs] <;> rfl
  cases n with
  | zero => rfl
  | succ n =>
    unfold additiveBy operatorsBy additive
    simp only [loop,multiplicativeIs]

theorem exprIs : exprBy atom n = expr n := by
  cases n with
  | zero => rfl
  | succ n =>
    simp only [exprBy,expr,additiveIs]

theorem atomIs : atomBy atom expr n = atom n := by
  cases n with
  | zero => rfl
  | succ n =>
    rw [atomBy,atom] <;> rfl

theorem stmtsIs (mode : Mode) (n : Nat) : stmtsBy expr mode n = stmts mode n := by
  induction n with
  | zero => rfl
  | succ n ih =>
    unfold stmtsBy stmts
    rw [ih]

theorem overloadIs (n : Nat) : overloadBy expr n = overload n := by
  unfold overloadBy overload
  simp only [assignedThen]

theorem subiectumIs (n : Nat) : subiectumBy expr n = subiectum n := by
  unfold subiectumBy subiectum
  simp only [parameterThen]

theorem pedaleIs : pedale = (do
    let name ← assigned "expected pedal name" "expected '=' after pedal name"
    let v ← literal
    pure (name,v)) := by
  unfold pedale
  simp only [assignedThen]

theorem fugueLoopIs (n : Nat) (f : Fugue) : fugueLoopBy expr n f = fugueLoop n f := by
  induction n generalizing f with
  | zero => rfl
  | succ n ih =>
    unfold fugueLoopBy fugueLoop
    simp only [ih,subiectumIs,overloadIs]

theorem fugueIs (n : Nat) : fugueBy expr n = fugue n := by
  unfold fugueBy fugue
  simp only [headingThen,fugueLoopIs]

theorem versusIs (n : Nat) : versusBy expr n = versus n := by
  unfold versusBy versus
  simp only [headingThen,stmtsIs]

theorem programLoopIs (n : Nat) (prog : Program) : programLoopBy expr n prog = programLoop n prog := by
  induction n generalizing prog with
  | zero => rfl
  | succ n ih =>
    unfold programLoopBy programLoop
    simp only [ih,fugueIs,versusIs]

end Same

end Officium.Parser

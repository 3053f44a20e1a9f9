import Officium.Library.Bounded
import Officium.Lexer
import Officium.Env

/-! The recursive-descent parser, straight to the IR. Every function of the source that calls
another one of the descent, and every loop, is cut off after `n` nested calls or turns. -/
namespace Officium.Parser
open Bounded (Comp)
open Lexer (Tok Lexed rhymeLabel)

structure Parser where
  toks : Lexed
  pos : Nat
  parenDepth : Nat
  exprDepth : Nat

def maxExprDepth : Nat := 96

abbrev ParseM := Comp Parser Raise

namespace Parser

def line (p : Parser) : Nat :=
  match p.toks[p.pos]? with
  | some t => t.2
  | none => (p.toks.getLast?.map Prod.snd).getD 1

/- Past the newlines from the current position on. -/
def pastNewlines (p : Parser) : Parser :=
  { p with pos := p.pos + ((p.toks.drop p.pos).takeWhile (fun t => t.1.isNewline)).length }

end Parser

def fault {α : Type} (f : Fault) : ParseM α := .fail (.fault f)

def refuseAt {α : Type} (line : Nat) (msg : String) : ParseM α := .fail (.dissonance (.parse line msg))

/- `Err(self.err(msg))` -/
def refuse {α : Type} (msg : String) : ParseM α := do
  let p ← Comp.state
  refuseAt p.line msg

def advance : ParseM Unit := Comp.update (fun p => { p with pos := p.pos + 1 })

def skipNewlines : ParseM Unit := Comp.update Parser.pastNewlines

/- Inside parentheses newlines are just whitespace. -/
def peek : ParseM (Option Tok) := do
  Comp.update (fun p => if 0 < p.parenDepth then p.pastNewlines else p)
  let p ← Comp.state
  pure (p.toks[p.pos]?.map Prod.fst)

def next : ParseM (Option Tok) := do
  match ← peek with
  | none => pure none
  | some t =>
    advance
    pure (some t)

def eat (want : Tok) : ParseM Bool := do
  if (← peek) == some want then
    advance
    pure true
  else pure false

def expect (want : Tok) (what : String) : ParseM Unit := do
  if ← eat want then pure ()
  else refuse what

def ident (what : String) : ParseM String := do
  match ← next with
  | some (.ident s) => pure s
  | _ => refuse what

def keyword (kw : String) : ParseM Bool := do
  match ← peek with
  | some (.ident s) =>
    if s = kw then
      advance
      pure true
    else pure false
  | _ => pure false

def enterParen : ParseM Unit := Comp.update (fun p => { p with parenDepth := p.parenDepth + 1 })

def leaveParen : ParseM Unit := do
  let p ← Comp.state
  if p.parenDepth = 0 then fault .underflow
  else Comp.update (fun p => { p with parenDepth := p.parenDepth - 1 })

def enterExpr : ParseM Unit := Comp.update (fun p => { p with exprDepth := p.exprDepth + 1 })

def leaveExpr : ParseM Unit := do
  let p ← Comp.state
  if p.exprDepth = 0 then fault .underflow
  else Comp.update (fun p => { p with exprDepth := p.exprDepth - 1 })

def call2 (name : Sym) (a b : Expr) : Expr := .app (.app (.var name) a) b

/- The words that end an application. -/
def statementWord (s : String) : Bool :=
  ["tunc","aliter","amen","nihil","clama","perage","si","pone","mitte","fuga","versus","in",
    "pedale","subiectum","reale","tonale","contra"].contains s

def startsAtom : ParseM Bool := do
  match ← peek with
  | some (.num _) | some (.str _) | some .lparen | some .lambda => pure true
  | some (.ident s) => pure (!statementWord s)
  | _ => pure false

/- `ask "G"` or `ask G`. -/
def nameArg (what : String) : ParseM String := do
  match ← next with
  | some (.str s) | some (.ident s) => pure s
  | _ => refuse what

def literal : ParseM Value := do
  match ← next with
  | some (.num n) => pure (.num n)
  | some .minus =>
    match ← next with
    | some (.num n) => pure (.num (-n))
    | _ => refuse "expected a number after '-'"
  | some (.str s) => pure (.str s)
  | some (.ident s) =>
    if s = "verum" then pure (.bool true)
    else if s = "falsum" then pure (.bool false)
    else refuse "expected a literal"
  | _ => refuse "expected a literal"

def additiveOp : Option Tok → Option Sym
  | some .plus => some "add"
  | some .minus => some "sub"
  | _ => none

def multiplicativeOp : Option Tok → Option Sym
  | some .star => some "mul"
  | some .slash => some "div"
  | _ => none

def notTooDeep (descend : ParseM Expr) : ParseM Expr := do
  let p ← Comp.state
  if maxExprDepth < p.exprDepth then refuse "expression nests too deeply"
  else descend

mutual
def expr : Nat → ParseM Expr
  | 0 => .cut
  | n+1 => do
    enterExpr
    let e ← notTooDeep (additive n)
    leaveExpr
    pure e

def additive : Nat → ParseM Expr
  | 0 => .cut
  | n+1 => do
    let lhs ← multiplicative n
    additiveLoop n lhs

def additiveLoop : Nat → Expr → ParseM Expr
  | 0, _ => .cut
  | n+1, lhs => do
    match additiveOp (← peek) with
    | none => pure lhs
    | some op =>
      advance
      let rhs ← multiplicative n
      additiveLoop n (call2 op lhs rhs)

def multiplicative : Nat → ParseM Expr
  | 0 => .cut
  | n+1 => do
    let lhs ← application n
    multiplicativeLoop n lhs

def multiplicativeLoop : Nat → Expr → ParseM Expr
  | 0, _ => .cut
  | n+1, lhs => do
    match multiplicativeOp (← peek) with
    | none => pure lhs
    | some op =>
      advance
      let rhs ← application n
      multiplicativeLoop n (call2 op lhs rhs)

def application : Nat → ParseM Expr
  | 0 => .cut
  | n+1 => do
    let e ← atom n
    applicationLoop n e

def applicationLoop : Nat → Expr → ParseM Expr
  | 0, _ => .cut
  | n+1, e => do
    if ← startsAtom then
      let a ← atom n
      applicationLoop n (.app e a)
    else pure e

def atom : Nat → ParseM Expr
  | 0 => .cut
  | n+1 => do
    match ← peek with
    | some (.num x) =>
      advance
      pure (.lit (.num x))
    | some (.str s) =>
      advance
      pure (.lit (.str s))
    | some .lparen =>
      advance
      enterParen
      let e ← expr n
      leaveParen
      expect .rparen "expected ')'"
      pure e
    | some .lambda =>
      advance
      let param ← ident "expected a parameter after '\\'"
      expect .arrow "expected '->' in lambda"
      let body ← expr n
      pure (.lam param body)
    | some .minus =>
      advance
      let e ← atom n
      pure (call2 "sub" (.lit (.num 0)) e)
    | some (.ident s) =>
      advance
      match s with
      | "arg" => pure .arg
      | "lege" => pure .lege
      | "verum" => pure (.lit (.bool true))
      | "falsum" => pure (.lit (.bool false))
      | "ask" =>
        let name ← nameArg "expected a name after 'ask'"
        pure (.ask name)
      | "resolve" =>
        let name ← nameArg "expected a name after 'resolve'"
        let genus ← atom n
        pure (.resolve name genus)
      | "pure" =>
        let e ← atom n
        pure (.pure .dorian e)
      | "leva" =>
        let e ← atom n
        pure (.lift e)
      | "pone" =>
        let e ← atom n
        pure (.pone e)
      | _ => pure (.var s)
    | _ => refuse "expected an expression"
end

/- After a cadence the block must close. -/
def closeStmts : ParseM Unit := do
  skipNewlines
  expect .rbrace "expected '\x7d' after the cadence"

def stmts (mode : Mode) : Nat → ParseM Expr
  | 0 => .cut
  | n+1 => do
    skipNewlines
    if ← keyword "amen" then
      let e ← expr n
      closeStmts
      pure (.ret mode e)
    else if ← keyword "nihil" then
      closeStmts
      pure .nihil
    else if ← keyword "clama" then
      let e ← expr n
      closeStmts
      pure (.clama e)
    else if ← keyword "perage" then
      let e ← expr n
      closeStmts
      pure (.perage e)
    else if ← keyword "si" then
      let cond ← expr n
      if !(← keyword "tunc") then refuse "expected 'tunc' after si-condition"
      else
        skipNewlines
        expect .lbrace "expected '\x7b' after tunc"
        let thenE ← stmts mode n
        skipNewlines
        if !(← keyword "aliter") then refuse "expected 'aliter' after tunc-block"
        else
          skipNewlines
          expect .lbrace "expected '\x7b' after aliter"
          let elseE ← stmts mode n
          closeStmts
          pure (.ifE cond thenE elseE)
    else if ← keyword "pone" then
      let e ← expr n
      let rest ← stmts mode n
      pure (.bind mode (.pone e) "_" rest)
    else if ← keyword "mitte" then
      let e ← expr n
      let rest ← stmts mode n
      pure (.bind mode (.mitte e) "_" rest)
    else
      let name ← ident "expected a statement or cadence"
      expect .bindArrow "expected '<-' after binder"
      let rhs ← expr n
      let rest ← stmts mode n
      pure (.bind mode rhs name rest)

def finalAndMode : ParseM (Final × Mode) := do
  let name ← ident "expected a final (Re/Mi/Fa/Sol, lowercase = plagal)"
  match name with
  | "Re" => pure (.re,.fromFinal .re false)
  | "Mi" => pure (.mi,.fromFinal .mi false)
  | "Fa" => pure (.fa,.fromFinal .fa false)
  | "Sol" => pure (.sol,.fromFinal .sol false)
  | "re" => pure (.re,.fromFinal .re true)
  | "mi" => pure (.mi,.fromFinal .mi true)
  | "fa" => pure (.fa,.fromFinal .fa true)
  | "sol" => pure (.sol,.fromFinal .sol true)
  | _ => refuse "unknown final (want Re/Mi/Fa/Sol or re/mi/fa/sol)"

/- `((name,genus),e)` after `reale` or `tonale`. -/
def overload (n : Nat) : ParseM Overload := do
  let name ← ident "expected overload name"
  expect .at_ "expected '@' before genus"
  let genus ← ident "expected genus"
  expect .eq "expected '=' after overload header"
  let e ← expr n
  pure ((name,genus),e)

def pedale : ParseM (Sym × Value) := do
  let name ← ident "expected pedal name"
  expect .eq "expected '=' after pedal name"
  let v ← literal
  pure (name,v)

def subiectum (n : Nat) : ParseM (Sym × Sym × Expr) := do
  let name ← ident "expected subject name"
  expect .lparen "expected '(' after subject name"
  enterParen
  let param ← ident "expected subject parameter"
  leaveParen
  expect .rparen "expected ')' after subject parameter"
  expect .eq "expected '=' after subject header"
  let body ← expr n
  pure (name,param,body)

def fugueLoop : Nat → Fugue → ParseM Fugue
  | 0, _ => .cut
  | n+1, f => do
    skipNewlines
    if ← eat .rbrace then pure f
    else if ← keyword "pedale" then
      let p ← pedale
      fugueLoop n { f with pedals := f.pedals ++ [p] }
    else if ← keyword "subiectum" then
      let s ← subiectum n
      fugueLoop n { f with subject := some s }
    else if ← keyword "reale" then
      let o ← overload n
      fugueLoop n { f with real := f.real ++ [o] }
    else if ← keyword "tonale" then
      let o ← overload n
      fugueLoop n { f with tonal := f.tonal ++ [o] }
    else if ← keyword "contra" then
      let e ← expr n
      fugueLoop n { f with contra := f.contra ++ [e] }
    else refuse "expected pedale/subiectum/reale/tonale/contra or '\x7d' in fugue"

def fugue (n : Nat) : ParseM Fugue := do
  let name ← ident "expected fugue name"
  if !(← keyword "in") then refuse "expected 'in' after fugue name"
  else
    let final_ ← finalAndMode
    skipNewlines
    expect .lbrace "expected '\x7b' opening the fugue"
    fugueLoop n (Fugue.new name final_.1)

/- The walk over a sung verse that takes each line's label, text and separator out. -/
def stripLoop : Nat → Nat → Nat → Bool → List (Char × String) → ParseM (List (Char × String))
  | 0, _, _, _, _ => .cut
  | n+1, j, depth, atLineStart, rhymes => do
    let p ← Comp.state
    match p.toks[j]?.map Prod.fst with
    | none => pure rhymes
    | some .lbrace => stripLoop n (j+1) (depth+1) false rhymes
    | some .rbrace => if depth ≤ 1 then pure rhymes else stripLoop n (j+1) (depth-1) false rhymes
    | some .newline => stripLoop n (j+1) depth true rhymes
    | some (.ident l) =>
      match (if atLineStart then rhymeLabel l else none), p.toks[j+1]? with
      | some label, some (.str text,line) =>
        if p.toks[j+2]?.map Prod.fst == some .semi then
          Comp.update (fun p => { p with toks := p.toks.take j ++ p.toks.drop (j+3) })
          stripLoop n j depth false (rhymes ++ [(label,text)])
        else refuseAt line "expected ';' after the sung text"
      | _, _ => stripLoop n (j+1) depth false rhymes
    | some _ => stripLoop n (j+1) depth false rhymes

def sungOpening (p : Parser) : Bool :=
  match p.toks[p.pastNewlines.pos]?,p.toks[p.pastNewlines.pos+1]? with
  | some (.ident l,_),some (.str _,_) => (rhymeLabel l).isSome
  | _,_ => false

/- Every rhyme must be answered by at least one other line. -/
def unanswered (rhymes : List (Char × String)) : Option Char :=
  (rhymes.find? (fun r => (rhymes.filter (fun q => q.1 == r.1)).length < 2)).map Prod.fst

def liturgicalStrip (n : Nat) : ParseM (List (Char × String)) := do
  let p ← Comp.state
  if !sungOpening p then pure []
  else
    let rhymes ← stripLoop n p.pastNewlines.pos 1 true []
    let p ← Comp.state
    let line := (p.toks[p.pos]?.map Prod.snd).getD 1
    if rhymes.length ≠ 8 then
      let count := rhymes.length
      refuseAt line s!"a verse is sung in eight lines (this one has {count})"
    else if (rhymes[6]?.map Prod.fst) ≠ (rhymes[7]?.map Prod.fst) then
      refuseAt line "the volta couplet must rhyme (lines 7 and 8 share a label)"
    else
      match unanswered rhymes with
      | some l => refuseAt line s!"rhyme '{l}' is never answered"
      | none => pure rhymes

def versus (n : Nat) : ParseM Versus := do
  let name ← ident "expected verse name"
  if !(← keyword "in") then refuse "expected 'in' after verse name"
  else
    let mode ← finalAndMode
    skipNewlines
    expect .lbrace "expected '\x7b' opening the verse"
    let rhymes ← liturgicalStrip n
    let body ← stmts mode.2 n
    pure ⟨name,mode.2,body,rhymes⟩

def programLoop : Nat → Program → ParseM Program
  | 0, _ => .cut
  | n+1, prog => do
    skipNewlines
    if (← peek).isNone then pure prog
    else if ← keyword "fuga" then
      let f ← fugue n
      programLoop n { prog with fugues := prog.fugues ++ [f] }
    else if ← keyword "versus" then
      let v ← versus n
      programLoop n { prog with verses := prog.verses ++ [v] }
    else refuse "expected 'fuga' or 'versus'"

def parse (n : Nat) (src : String) : Option (Except Raise Program) :=
  match Lexer.lex n src with
  | none => none
  | some (.error e) => some (.error e)
  | some (.ok toks) => (programLoop n ⟨[],[]⟩ ⟨toks,0,0,0⟩).map (fun r => r.map Prod.fst)

/- `parse` returns this program. -/
def Parses (src : String) (prog : Program) : Prop := ∃ n, parse n src = some (.ok prog)

/- A test of the program a score parses to, within a bound. -/
def reads (n : Nat) (src : String) (test : Program → Bool) : Bool :=
  match parse n src with
  | some (.ok prog) => test prog
  | _ => false

theorem readsParses {n : Nat} {src : String} {test : Program → Bool} (h : reads n src test = true) :
    ∃ prog, Parses src prog ∧ test prog = true := by
  unfold reads at h
  split at h
  · rename_i prog found
    exact ⟨prog,⟨n,found⟩,h⟩
  · cases h

end Officium.Parser

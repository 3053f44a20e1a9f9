import Officium.Parser

/-! The front end with everything in it that could panic. Where the source indexes, slices, drains,
unwraps, decrements or says `unreachable!()`, a computation here may fault; its other accesses go
through `get`. What bytes that are no text are taken for is left open. -/
namespace Officium.Indexed
open Bounded (Comp)
open Lexer (Tok Lexed rhymeLabel digit exponentMark sign alphabetic nameByte parseF64 err)
open Officium.Parser (Parser ParseM fault refuseAt refuse keyword expect skipNewlines ident expr closeStmts finalAndMode fugue sungOpening unanswered)

section Lexing

/- `i - 1` of an unsigned `i` -/
def pred (i : Nat) : Except Raise Nat := if i = 0 then .error (.fault .underflow) else .ok (i-1)

/- `&xs[a..b]` -/
def slice {α : Type} (xs : List α) (a b : Nat) : Except Raise (List α) :=
  if a ≤ b ∧ b ≤ xs.length then .ok ((xs.drop a).take (b-a)) else .error (.fault .index)

/- `i < bytes.len() && bytes[i] == b` -/
def byteIs (bytes : List UInt8) (i : Nat) (b : UInt8) : Except Raise Bool :=
  if i < bytes.length then do
    let c ← index bytes i
    pure (c == b)
  else pure false

/- `while j < bytes.len() && keep { j += 1; }` -/
def scan (bytes : List UInt8) (keep : Nat → Except Raise Bool) (j : Nat) : Except Raise Nat :=
  if j < bytes.length then
    match keep j with
    | .error r => .error r
    | .ok true => scan bytes keep (j+1)
    | .ok false => .ok j
  else .ok j
termination_by bytes.length - j

def test (bytes : List UInt8) (p : UInt8 → Bool) (j : Nat) : Except Raise Bool := do
  let b ← index bytes j
  pure (p b)

def inNumber (bytes : List UInt8) (start j : Nat) : Except Raise Bool := do
  let b ← index bytes j
  if digit b || b == 46 || exponentMark b then pure true
  else if sign b && decide (start < j) then do
    let before ← pred j
    let prev ← index bytes before
    pure (exponentMark prev)
  else pure false

/- `core::str::from_utf8` and what is done about an error. -/
def textOr (otherwise : Except Raise String) (bytes : List UInt8) : Except Raise String :=
  match String.fromUTF8? ⟨bytes.toArray⟩ with
  | some s => .ok s
  | none => otherwise

/- The index of the last element that satisfies `p`. -/
def rposition {α : Type} (p : α → Bool) (xs : List α) : Option Nat :=
  (xs.reverse.findIdx? p).map (fun k => xs.length - 1 - k)

def isSung (toks : Lexed) : Except Raise Bool := do
  let lineStart := ((rposition (fun t => t.1.isNewline) toks).map (· + 1)).getD 0
  match ← slice toks lineStart toks.length with
  | [(.ident l,_),(.str _,_)] => pure (rhymeLabel l).isSome
  | _ => pure false

def andThen {α β : Type} (x : Except Raise α) (f : α → Option (Except Raise β)) : Option (Except Raise β) :=
  match x with
  | .ok a => f a
  | .error r => some (.error r)

section Loop
variable (invalid : Nat → Except Raise String) (fallback : Except Raise String)

def lexLoop (bytes : List UInt8) : Nat → Lexed → Nat → Nat → Option (Except Raise Lexed)
  | 0, toks, _, i => if i < bytes.length then none else some (.ok toks)
  | n+1, toks, line, i =>
    if i < bytes.length then
      andThen (index bytes i) (fun c =>
      match Char.ofNat c.toNat with
      | '\n' =>
        match toks.getLast? with
        | none | some (.newline,_) => lexLoop bytes n toks (line+1) (i+1)
        | some _ => lexLoop bytes n (toks ++ [(.newline,line)]) (line+1) (i+1)
      | ' ' | '\t' | '\r' => lexLoop bytes n toks line (i+1)
      | ';' =>
        andThen (isSung toks) (fun sung =>
          if sung then lexLoop bytes n (toks ++ [(.semi,line)]) line (i+1)
          else andThen (scan bytes (test bytes (fun b => b != 10)) i) (fun i => lexLoop bytes n toks line i))
      | '{' => lexLoop bytes n (toks ++ [(.lbrace,line)]) line (i+1)
      | '}' => lexLoop bytes n (toks ++ [(.rbrace,line)]) line (i+1)
      | '(' => lexLoop bytes n (toks ++ [(.lparen,line)]) line (i+1)
      | ')' => lexLoop bytes n (toks ++ [(.rparen,line)]) line (i+1)
      | '=' => lexLoop bytes n (toks ++ [(.eq,line)]) line (i+1)
      | '@' => lexLoop bytes n (toks ++ [(.at_,line)]) line (i+1)
      | '\\' => lexLoop bytes n (toks ++ [(.lambda,line)]) line (i+1)
      | '+' => lexLoop bytes n (toks ++ [(.plus,line)]) line (i+1)
      | '*' => lexLoop bytes n (toks ++ [(.star,line)]) line (i+1)
      | '/' => lexLoop bytes n (toks ++ [(.slash,line)]) line (i+1)
      | '-' =>
        andThen (byteIs bytes (i+1) 62) (fun arrow =>
          if arrow then lexLoop bytes n (toks ++ [(.arrow,line)]) line (i+2)
          else lexLoop bytes n (toks ++ [(.minus,line)]) line (i+1))
      | '<' =>
        andThen (byteIs bytes (i+1) 45) (fun arrow =>
          if arrow then lexLoop bytes n (toks ++ [(.bindArrow,line)]) line (i+2)
          else some (err line "stray '<'"))
      | '"' =>
        let start := i+1
        andThen (scan bytes (test bytes (fun b => b != 34 && b != 10)) start) (fun j =>
          andThen (byteIs bytes j 34) (fun closed =>
            if closed then
              andThen (slice bytes start j) (fun body =>
                andThen (textOr (invalid line) body) (fun s =>
                  lexLoop bytes n (toks ++ [(.str s,line)]) line (j+1)))
            else some (err line "unterminated string")))
      | _ =>
        if digit c then
          andThen (scan bytes (inNumber bytes i) i) (fun j =>
            andThen (slice bytes i j) (fun span =>
              andThen (textOr fallback span) (fun s =>
                match parseF64 s.toUTF8.data.toList with
                | some x => lexLoop bytes n (toks ++ [(.num x,line)]) line j
                | none => some (err line "malformed number"))))
        else if alphabetic c || c == 95 then
          andThen (scan bytes (test bytes nameByte) i) (fun j =>
            andThen (slice bytes i j) (fun span =>
              andThen (textOr fallback span) (fun s =>
                lexLoop bytes n (toks ++ [(.ident s,line)]) line j)))
        else some (err line "unexpected character"))
    else some (.ok toks)

def lex (n : Nat) (src : String) : Option (Except Raise Lexed) :=
  lexLoop invalid fallback src.toUTF8.data.toList n [] 1 0

end Loop
end Lexing

section Parsing

/- `Option::unwrap` -/
def unwrap {α : Type} : Option α → ParseM α
  | some a => pure a
  | none => fault .unreachable

/- `xs[i]` -/
def at_ {α : Type} (xs : List α) (i : Nat) : ParseM α :=
  match xs[i]? with
  | some x => pure x
  | none => fault .index

/- `self.toks.drain(a..b)` -/
def drain (a b : Nat) : ParseM Unit := do
  let p ← Comp.state
  if a ≤ b ∧ b ≤ p.toks.length then
    Comp.update (fun p => { p with toks := p.toks.take a ++ p.toks.drop b })
  else fault .index

def stripLoop : Nat → Nat → Nat → Bool → List (Char × String) → ParseM (List (Char × String))
  | 0, _, _, _, _ => .cut
  | n+1, j, depth, atLineStart, rhymes => do
    let p ← Comp.state
    if j < p.toks.length then
      match (← at_ p.toks j).1 with
      | .lbrace => stripLoop n (j+1) (depth+1) false rhymes
      | .rbrace =>
        if depth = 0 then fault .underflow
        else if depth - 1 = 0 then pure rhymes
        else stripLoop n (j+1) (depth-1) false rhymes
      | .newline => stripLoop n (j+1) depth true rhymes
      | .ident l =>
        if atLineStart && (rhymeLabel l).isSome then
          match p.toks[j+1]? with
          | some (.str text,line) =>
            if p.toks[j+2]?.map Prod.fst == some .semi then
              let label ← unwrap (rhymeLabel l)
              drain j (j+3)
              stripLoop n j depth false (rhymes ++ [(label,text)])
            else refuseAt line "expected ';' after the sung text"
          | _ => stripLoop n (j+1) depth false rhymes
        else stripLoop n (j+1) depth false rhymes
      | _ => stripLoop n (j+1) depth false rhymes
    else pure rhymes

def liturgicalStrip (n : Nat) : ParseM (List (Char × String)) := do
  let p ← Comp.state
  if !sungOpening p then pure []
  else
    let rhymes ← stripLoop n p.pastNewlines.pos 1 true []
    let p ← Comp.state
    let line := (p.toks[p.pos]?.map Prod.snd).getD 1
    if rhymes.length ≠ 8 then
      let count := rhymes.length
      refuseAt line s!"a verse is sung in eight lines (this one has {count})"
    else
      let seventh ← at_ rhymes 6
      let eighth ← at_ rhymes 7
      if seventh.1 ≠ eighth.1 then
        refuseAt line "the volta couplet must rhyme (lines 7 and 8 share a label)"
      else
        match unanswered rhymes with
        | some l => refuseAt line s!"rhyme '{l}' is never answered"
        | none => pure rhymes

/- The statement with `rest` in place of the unit it was built with. -/
def splice (m rest : Expr) : ParseM Expr :=
  match m with
  | .bind md mval name _ => pure (.bind md mval name rest)
  | _ => fault .unreachable

def stmts (mode : Mode) : Nat → ParseM Expr
  | 0 => .cut
  | n+1 => do
    skipNewlines
    if ← keyword "amen" then
      let e ← expr n
      closeStmts
      pure (.ret mode e)
    else if ← keyword "nihil" then
      closeStmts
      pure .nihil
    else if ← keyword "clama" then
      let e ← expr n
      closeStmts
      pure (.clama e)
    else if ← keyword "perage" then
      let e ← expr n
      closeStmts
      pure (.perage e)
    else if ← keyword "si" then
      let cond ← expr n
      if !(← keyword "tunc") then refuse "expected 'tunc' after si-condition"
      else
        skipNewlines
        expect .lbrace "expected '\x7b' after tunc"
        let thenE ← stmts mode n
        skipNewlines
        if !(← keyword "aliter") then refuse "expected 'aliter' after tunc-block"
        else
          skipNewlines
          expect .lbrace "expected '\x7b' after aliter"
          let elseE ← stmts mode n
          closeStmts
          pure (.ifE cond thenE elseE)
    else
      let m ← (do
        if ← keyword "pone" then
          let e ← expr n
          pure (.bind mode (.pone e) "_" (.lit .unit))
        else if ← keyword "mitte" then
          let e ← expr n
          pure (.bind mode (.mitte e) "_" (.lit .unit))
        else
          let name ← ident "expected a statement or cadence"
          expect .bindArrow "expected '<-' after binder"
          let rhs ← expr n
          pure (.bind mode rhs name (.lit .unit)))
      let rest ← stmts mode n
      splice m rest

def versus (n : Nat) : ParseM Versus := do
  let name ← ident "expected verse name"
  if !(← keyword "in") then refuse "expected 'in' after verse name"
  else
    let mode ← finalAndMode
    skipNewlines
    expect .lbrace "expected '\x7b' opening the verse"
    let rhymes ← liturgicalStrip n
    let body ← stmts mode.2 n
    pure ⟨name,mode.2,body,rhymes⟩

def programLoop : Nat → Program → ParseM Program
  | 0, _ => .cut
  | n+1, prog => do
    skipNewlines
    if (← Parser.peek).isNone then pure prog
    else if ← keyword "fuga" then
      let f ← fugue n
      programLoop n { prog with fugues := prog.fugues ++ [f] }
    else if ← keyword "versus" then
      let v ← versus n
      programLoop n { prog with verses := prog.verses ++ [v] }
    else refuse "expected 'fuga' or 'versus'"

def parse (invalid : Nat → Except Raise String) (fallback : Except Raise String) (n : Nat) (src : String) :
    Option (Except Raise Program) :=
  match lex invalid fallback n src with
  | none => none
  | some (.error e) => some (.error e)
  | some (.ok toks) => (programLoop n ⟨[],[]⟩ ⟨toks,0,0,0⟩).map (fun r => r.map Prod.fst)

end Parsing

end Officium.Indexed

import Officium.Dissonance

/-! The lexer. The source's index into the bytes is here the bytes that are left, so `bytes[i]` is
their head; the loop is cut off after `n` turns and a score of `n` bytes never needs more. -/
namespace Officium.Lexer

inductive Tok where
  | ident (s : String)
  | num (n : Scalar)
  | str (s : String)
  | lbrace
  | rbrace
  | lparen
  | rparen
  | eq
  | at_
  | arrow
  | bindArrow
  | lambda
  | plus
  | minus
  | star
  | slash
  | semi
  | newline
  deriving BEq

def Tok.isNewline : Tok → Bool
  | .newline => true
  | _ => false

/- A token and the line it stands on. -/
abbrev Lexed := List (Tok × Nat)

/- A rhyme label is a single uppercase ASCII letter. -/
def rhymeLabel (s : String) : Option Char :=
  match s.toList with
  | [c] => if c.isUpper then some c else none
  | _ => none

def digit (b : UInt8) : Bool := 48 ≤ b && b ≤ 57
def exponentMark (b : UInt8) : Bool := b == 101 || b == 69
def sign (b : UInt8) : Bool := b == 43 || b == 45
def alphabetic (b : UInt8) : Bool := (65 ≤ b && b ≤ 90) || (97 ≤ b && b ≤ 122)
def nameByte (b : UInt8) : Bool := alphabetic b || digit b || b == 95

/- The bytes of a number: digits, points and exponent marks, a sign only right after a mark. -/
def numberSpan (prev : UInt8) : List UInt8 → List UInt8 × List UInt8
  | [] => ([],[])
  | b :: rest =>
    if digit b || b == 46 || exponentMark b || (sign b && exponentMark prev) then
      let span := numberSpan b rest
      (b :: span.1,span.2)
    else ([],b :: rest)

def decimal (digits : List UInt8) : Nat := digits.foldl (fun n b => 10 * n + (b.toNat - 48)) 0

/- An exponent mark, an optional sign and at least one digit, or nothing. -/
def parseExponent : List UInt8 → Option Int
  | [] => some 0
  | mark :: rest =>
    let negative := rest.head? == some 45
    let digits := if (rest.head?.map sign).getD false then rest.tail else rest
    if exponentMark mark && !digits.isEmpty && digits.all digit then
      some (if negative then -(decimal digits : Int) else (decimal digits : Int))
    else none

/- `str::parse::<f64>` on a slice that starts with a digit. -/
def parseF64 (s : List UInt8) : Option Scalar :=
  let whole := s.takeWhile digit
  let rest := s.dropWhile digit
  let pointed := rest.head? == some 46
  let fraction := if pointed then rest.tail.takeWhile digit else []
  let rest := if pointed then rest.tail.dropWhile digit else rest
  match parseExponent rest with
  | none => none
  | some e =>
    let scale := e - (fraction.length : Int)
    some (Float.ofScientific (decimal (whole ++ fraction)) (scale < 0) scale.natAbs)

/- The tokens since the last newline. -/
def lineHead (toks : Lexed) : Lexed := (toks.reverse.takeWhile (fun t => !t.1.isNewline)).reverse

/- The line opens with a rhyme label and its sung text, and nothing else. -/
def isSung (toks : Lexed) : Bool :=
  match lineHead toks with
  | [(.ident l,_),(.str _,_)] => (rhymeLabel l).isSome
  | _ => false

def ascii (bytes : List UInt8) : String := String.ofList (bytes.map (fun b => Char.ofNat b.toNat))

def err {α : Type} (line : Nat) (msg : String) : Except Raise α := failure (.parse line msg)

def lexLoop : Nat → Lexed → Nat → List UInt8 → Option (Except Raise Lexed)
  | _, toks, _, [] => some (.ok toks)
  | 0, _, _, _ => none
  | n+1, toks, line, c :: rest =>
    match Char.ofNat c.toNat with
    | '\n' =>
      match toks.getLast? with
      | none | some (.newline,_) => lexLoop n toks (line+1) rest
      | some _ => lexLoop n (toks ++ [(.newline,line)]) (line+1) rest
    | ' ' | '\t' | '\r' => lexLoop n toks line rest
    | ';' =>
      if isSung toks then lexLoop n (toks ++ [(.semi,line)]) line rest
      else lexLoop n toks line (rest.dropWhile (fun b => b != 10))
    | '{' => lexLoop n (toks ++ [(.lbrace,line)]) line rest
    | '}' => lexLoop n (toks ++ [(.rbrace,line)]) line rest
    | '(' => lexLoop n (toks ++ [(.lparen,line)]) line rest
    | ')' => lexLoop n (toks ++ [(.rparen,line)]) line rest
    | '=' => lexLoop n (toks ++ [(.eq,line)]) line rest
    | '@' => lexLoop n (toks ++ [(.at_,line)]) line rest
    | '\\' => lexLoop n (toks ++ [(.lambda,line)]) line rest
    | '+' => lexLoop n (toks ++ [(.plus,line)]) line rest
    | '*' => lexLoop n (toks ++ [(.star,line)]) line rest
    | '/' => lexLoop n (toks ++ [(.slash,line)]) line rest
    | '-' =>
      match rest with
      | 62 :: more => lexLoop n (toks ++ [(.arrow,line)]) line more
      | _ => lexLoop n (toks ++ [(.minus,line)]) line rest
    | '<' =>
      match rest with
      | 45 :: more => lexLoop n (toks ++ [(.bindArrow,line)]) line more
      | _ => some (err line "stray '<'")
    | '"' =>
      let body := rest.takeWhile (fun b => b != 34 && b != 10)
      match rest.dropWhile (fun b => b != 34 && b != 10) with
      | 34 :: more =>
        match String.fromUTF8? ⟨body.toArray⟩ with
        | some s => lexLoop n (toks ++ [(.str s,line)]) line more
        | none => some (err line "invalid utf-8 in string")
      | _ => some (err line "unterminated string")
    | _ =>
      if digit c then
        let span := numberSpan c rest
        match parseF64 (c :: span.1) with
        | some x => lexLoop n (toks ++ [(.num x,line)]) line span.2
        | none => some (err line "malformed number")
      else if alphabetic c || c == 95 then
        lexLoop n (toks ++ [(.ident (ascii (c :: rest.takeWhile nameByte)),line)]) line (rest.dropWhile nameByte)
      else some (err line "unexpected character")

/- The branches that look further than at one byte. -/
theorem lexLoopNewline (n line : Nat) (toks : Lexed) (rest : List UInt8) : lexLoop (n+1) toks line (10 :: rest) =
    match toks.getLast? with
    | none | some (.newline,_) => lexLoop n toks (line+1) rest
    | some _ => lexLoop n (toks ++ [(.newline,line)]) (line+1) rest := rfl

theorem lexLoopMinus (n line : Nat) (toks : Lexed) (rest : List UInt8) : lexLoop (n+1) toks line (45 :: rest) =
    match rest with
    | 62 :: more => lexLoop n (toks ++ [(.arrow,line)]) line more
    | _ => lexLoop n (toks ++ [(.minus,line)]) line rest := rfl

def lex (n : Nat) (src : String) : Option (Except Raise Lexed) := lexLoop n [] 1 src.toUTF8.data.toList

end Officium.Lexer

import Officium.SungText

/-! The front end as it would be without the sung form: every `;` is a comment and a verse is its
statements. A source none of whose lines starts with a label and a string does not tell the two apart,
unless a refusal does. -/
namespace Officium.Lexer

/- The lexer's loop by what it takes for the head of a sung line. -/
def lexLoopBy (head : Lexed → Bool) : Nat → Lexed → Nat → List UInt8 → Option (Except Raise Lexed)
  | _, toks, _, [] => some (.ok toks)
  | 0, _, _, _ => none
  | n+1, toks, line, c :: rest =>
    match Char.ofNat c.toNat with
    | '\n' =>
      match toks.getLast? with
      | none | some (.newline,_) => lexLoopBy head n toks (line+1) rest
      | some _ => lexLoopBy head n (toks ++ [(.newline,line)]) (line+1) rest
    | ' ' | '\t' | '\r' => lexLoopBy head n toks line rest
    | ';' =>
      if head toks then lexLoopBy head n (toks ++ [(.semi,line)]) line rest
      else lexLoopBy head n toks line (rest.dropWhile (fun b => b != 10))
    | '{' => lexLoopBy head n (toks ++ [(.lbrace,line)]) line rest
    | '}' => lexLoopBy head n (toks ++ [(.rbrace,line)]) line rest
    | '(' => lexLoopBy head n (toks ++ [(.lparen,line)]) line rest
    | ')' => lexLoopBy head n (toks ++ [(.rparen,line)]) line rest
    | '=' => lexLoopBy head n (toks ++ [(.eq,line)]) line rest
    | '@' => lexLoopBy head n (toks ++ [(.at_,line)]) line rest
    | '\\' => lexLoopBy head n (toks ++ [(.lambda,line)]) line rest
    | '+' => lexLoopBy head n (toks ++ [(.plus,line)]) line rest
    | '*' => lexLoopBy head n (toks ++ [(.star,line)]) line rest
    | '/' => lexLoopBy head n (toks ++ [(.slash,line)]) line rest
    | '-' =>
      match rest with
      | 62 :: more => lexLoopBy head n (toks ++ [(.arrow,line)]) line more
      | _ => lexLoopBy head n (toks ++ [(.minus,line)]) line rest
    | '<' =>
      match rest with
      | 45 :: more => lexLoopBy head n (toks ++ [(.bindArrow,line)]) line more
      | _ => some (err line "stray '<'")
    | '"' =>
      let body := rest.takeWhile (fun b => b != 34 && b != 10)
      match rest.dropWhile (fun b => b != 34 && b != 10) with
      | 34 :: more =>
        match String.fromUTF8? ⟨body.toArray⟩ with
        | some s => lexLoopBy head n (toks ++ [(.str s,line)]) line more
        | none => some (err line "invalid utf-8 in string")
      | _ => some (err line "unterminated string")
    | _ =>
      if digit c then
        let span := numberSpan c rest
        match parseF64 (c :: span.1) with
        | some x => lexLoopBy head n (toks ++ [(.num x,line)]) line span.2
        | none => some (err line "malformed number")
      else if alphabetic c || c == 95 then
        lexLoopBy head n (toks ++ [(.ident (ascii (c :: rest.takeWhile nameByte)),line)]) line (rest.dropWhile nameByte)
      else some (err line "unexpected character")

theorem lexLoopIs (n : Nat) (toks : Lexed) (line : Nat) (bs : List UInt8) : lexLoopBy isSung n toks line bs = lexLoop n toks line bs := by
  induction n generalizing toks line bs with
  | zero => cases bs <;> rfl
  | succ n ih =>
    cases bs with
    | nil => rfl
    | cons c rest =>
      have later : lexLoopBy isSung n = lexLoop n := funext fun toks => funext fun line => funext (ih toks line)
      rw [lexLoopBy.eq_def,lexLoop.eq_def]
      simp only
      generalize lexLoopBy isSung n = loop at later ⊢
      subst later
      rfl

/- The lexer that takes nothing for one. -/
def plainLoop : Nat → Lexed → Nat → List UInt8 → Option (Except Raise Lexed) := lexLoopBy (fun _ => false)

def plainLex (n : Nat) (src : String) : Option (Except Raise Lexed) := plainLoop n [] 1 src.toUTF8.data.toList

section Loop
variable {n line : Nat} {toks toks' : Lexed} {bs : List UInt8} {h ts : List Tok}

/- No separator stands behind nothing but a label and a text, where this line and the bytes that are left
are read on. -/
def Unsung (h : List Tok) (bs : List UInt8) : Prop := ∀ a b ts h', bs = a ++ 59 :: b → Reads h a (59 :: b) ts h' → sung h' = false

theorem plainBreak (n line : Nat) (toks : Lexed) : plainLoop (n+1) toks line (10 :: bs) =
    if headOf toks = [] then plainLoop n toks (line+1) bs else plainLoop n (toks ++ [(.newline,line)]) (line+1) bs := by
  have shape : plainLoop (n+1) toks line (10 :: bs) =
      match toks.getLast? with
      | none | some (.newline,_) => plainLoop n toks (line+1) bs
      | some _ => plainLoop n (toks ++ [(.newline,line)]) (line+1) bs := rfl
  rw [shape]
  split
  · rename_i none_
    rw [if_pos (headNone.mpr fun u found => by rw [none_] at found; cases found)]
  · rename_i l last
    rw [if_pos (headNone.mpr fun u found => by rw [last] at found; cases found; rfl)]
  · rename_i u other last
    obtain ⟨t,l⟩ := u
    rw [if_neg]
    intro none_
    have never := headNone.mp none_ _ last
    cases t <;> first | exact other _ rfl | cases never

/- The two loops come to the same, a refusal too. -/
theorem plainLoopIs (unsung : Unsung (headOf toks) bs) : plainLoop n toks line bs = lexLoop n toks line bs := by
  induction n generalizing toks line bs with
  | zero => cases bs <;> rfl
  | succ n ih =>
    -- a piece taken by one turn of both
    have take {t : Tok} {p rest : List UInt8} (piece : Piece p t rest) (same : bs = p ++ rest) :
        plainLoop n (toks ++ [(t,line)]) line rest = lexLoop n (toks ++ [(t,line)]) line rest := by
      refine ih fun a b ts h' is_ reads => ?_
      rw [headPush (pieceToken piece)] at reads
      exact unsung (p ++ a) b (t :: ts) h' (by rw [same,is_,List.append_assoc]) (.token (is_ ▸ piece) reads)
    cases bs with
    | nil => rfl
    | cons c rest =>
      by_cases break_ : c = 10
      · subst break_
        rw [plainBreak,loopBreak]
        split
        · rename_i none_
          refine ih fun a b ts h' is_ reads => ?_
          rw [none_] at reads unsung
          exact unsung (10 :: a) b ts h' (by rw [is_]; rfl) (.emptyLine reads)
        · rename_i some_
          refine ih fun a b ts h' is_ reads => ?_
          rw [headLine] at reads
          exact unsung (10 :: a) b (.newline :: ts) h' (by rw [is_]; rfl) (.newline some_ reads)
      by_cases semi : c = 59
      · subst semi
        have plain := unsung [] rest [] _ rfl .here
        rw [loopSemi,plain]
        have cut := List.takeWhile_append_dropWhile (p := fun b => b != 10) (l := rest)
        refine ih fun a b ts h' is_ reads => ?_
        refine unsung (59 :: (rest.takeWhile (fun b => b != 10) ++ a)) b ts h' ?_ (.comment plain takeLine (is_ ▸ dropLine) reads)
        rw [List.cons_append,List.append_assoc,← is_,cut]
      by_cases is_ : blank c = true
      · rw [loopBlank is_]
        have shape : plainLoop (n+1) toks line (c :: rest) = plainLoop n toks line rest := by
          simp only [blank,Bool.or_eq_true,beq_iff_eq] at is_
          rcases is_ with (rfl | rfl) | rfl <;> rfl
        rw [shape]
        refine ih fun a b ts h' same reads => ?_
        exact unsung (c :: a) b ts h' (by rw [same]; rfl) (.blank is_ reads)
      rw [plainLoop,lexLoopBy.eq_def,lexLoop.eq_def]
      simp only
      generalize kind : Char.ofNat c.toNat = k
      split
      case h_16 =>
        cases charByte kind
        rcases Indexed.headCases rest 62 with ⟨more,rfl⟩ | ⟨other,alone⟩
        · exact take .arrow rfl
        · simp only
          refine take (.minus fun arrow => ?_) rfl
          rw [arrow] at alone
          cases alone
      case h_17 =>
        cases charByte kind
        rcases Indexed.headCases rest 45 with ⟨more,rfl⟩ | ⟨other,-⟩
        · exact take .bindArrow rfl
        · simp only
      case h_18 =>
        cases charByte kind
        have whole := List.takeWhile_append_dropWhile (p := fun b => b != 34 && b != 10) (l := rest)
        rcases Indexed.headCases (rest.dropWhile (fun b => b != 34 && b != 10)) 34 with ⟨more,closed⟩ | ⟨other,-⟩
        · rw [closed] at whole
          cases decoded : String.fromUTF8? ⟨(rest.takeWhile (fun b => b != 34 && b != 10)).toArray⟩ with
          | some s =>
            simp only [closed]
            refine take (.str List.all_takeWhile decoded) ?_
            rw [List.cons_append,List.append_assoc]
            exact congrArg (34 :: ·) whole.symm
          | none => simp only [closed]
        · simp only
      case h_19 =>
        by_cases first : digit c = true
        · cases value : parseF64 (c :: (numberSpan c rest).1) with
          | some x =>
            simp only [first,if_true]
            exact take (.number first (by rw [Indexed.numberSplit]) value) (congrArg (c :: ·) (Indexed.numberSplit c rest).symm)
          | none => simp only [first,if_true]
        · by_cases letter : (alphabetic c || c == 95) = true
          · simp only [first,letter,if_true]
            exact take (.word letter List.all_takeWhile dropEnds) (congrArg (c :: ·) List.takeWhile_append_dropWhile.symm)
          · simp only [first,letter,Bool.false_eq_true,if_false]
      all_goals cases charByte kind
      all_goals first | exact take (.mark ⟨rfl,fun _ _ _ _ => rfl⟩) rfl | exact absurd rfl break_ | exact absurd rfl semi | exact absurd rfl is_

/- A line that holds only a label and its text starts with them. -/
theorem readsSung {a b : List UInt8} {g : List Tok} (reads : Reads g a b ts h) (is_ : sung h = true) :
    (∃ before line, a = before ++ line ∧ before.getLast? = some 10 ∧ Labelled line) ∨ 10 ∉ a := by
  have below {before line a : List UInt8} (p : List UInt8) (same : a = before ++ line) (last : before.getLast? = some 10) (label : Labelled line) :
      ∃ before line, p ++ a = before ++ line ∧ before.getLast? = some 10 ∧ Labelled line :=
    ⟨p ++ before,line,by rw [same,List.append_assoc],by rw [List.getLast?_append,last]; rfl,label⟩
  have open_ {a b ts} (more : Reads [] a b ts h) (line : 10 ∉ a) :
      ∃ before line, 10 :: a = before ++ line ∧ before.getLast? = some 10 ∧ Labelled line := by
    obtain ⟨rfl,-⟩ := readsWithin more line
    exact ⟨[10],a,rfl,rfl,readsLabelled more line (sungLabelled (List.prefix_refl _) is_)⟩
  induction reads with
  | here => exact .inr nofun
  | @token g p t a b ts h piece more ih =>
    rcases ih is_ open_ with ⟨before,line,same,last,label⟩ | line
    · exact .inl (below p same last label)
    · exact .inr fun mem => (List.mem_append.mp mem).elim (pieceLine piece) line
  | @blank g c a b ts h blank_ more ih =>
    rcases ih is_ open_ with ⟨before,line,same,last,label⟩ | line
    · exact .inl (below [c] same last label)
    · exact .inr fun mem => (List.mem_cons.mp mem).elim (fun same => blankLine blank_ same.symm) line
  | newline some_ more ih =>
    rcases ih is_ open_ with ⟨before,line,same,last,label⟩ | line
    · exact .inl (below [10] same last label)
    · exact .inl (open_ more line)
  | emptyLine more ih =>
    rcases ih is_ open_ with ⟨before,line,same,last,label⟩ | line
    · exact .inl (below [10] same last label)
    · exact .inl (open_ more line)
  | semi is_sung more ih =>
    rcases ih is_ open_ with ⟨before,line,same,last,label⟩ | line
    · exact .inl (below [59] same last label)
    · exact .inr fun mem => (List.mem_cons.mp mem).elim nofun line
  | @comment g text a b ts h plain inside ends more ih =>
    rcases ih is_ open_ with ⟨before,line,same,last,label⟩ | line
    · exact .inl (below (59 :: text) same last label)
    · exact .inr fun mem => (List.mem_cons.mp mem).elim nofun fun mem => (List.mem_append.mp mem).elim inside line

/- No line starts with a label and a string. -/
def Unlabelled (src : String) : Prop := ∀ before line, bytes src = before ++ line → before = [] ∨ before.getLast? = some 10 → ¬Labelled line

/- A source of one line that does not start with a capital. -/
theorem lineUnlabelled {src : String} (line : 10 ∉ bytes src) (first : ((bytes src).dropWhile blank).head?.any (fun c => 65 ≤ c && c ≤ 90) = false) : Unlabelled src := by
  rintro before rest same (rfl | last) label
  · rw [same] at first
    exact Bool.false_ne_true (first.symm.trans (labelledFirst label))
  · exact line (same ▸ List.mem_append_left _ (List.mem_of_getLast? last))

theorem unlabelledUnsung {src : String} (unlabelled : Unlabelled src) : Unsung [] (bytes src) := by
  intro a b ts h same reads
  by_contra is_
  have is_ := Bool.not_eq_false _ ▸ is_
  have labelled {before line : List UInt8} (split : a = before ++ line) (start : before = [] ∨ before.getLast? = some 10) (label : Labelled line) : False := by
    obtain ⟨indent,c,gap,text,more,rfl,upper,blanks⟩ := label
    refine unlabelled before _ (by rw [same,split,List.append_assoc]) start ⟨indent,c,gap,text,more ++ 59 :: b,by simp,upper,blanks⟩
  rcases readsSung reads is_ with ⟨before,line,split,last,label⟩ | line
  · exact labelled split (.inr last) label
  · obtain ⟨rfl,-⟩ := readsWithin reads line
    exact labelled (List.nil_append a).symm (.inl rfl) (readsLabelled reads line (sungLabelled (List.prefix_refl _) is_))

/- Tokens that start with a label and a text behind a line break are those of a line that starts with them. -/
theorem readsHeadless {a b : List UInt8} {g pre us : List Tok} (reads : Reads g a b ts h) (same : ts = pre ++ .newline :: us) (label : Parser.labelled us = true) :
    ∃ before line, a = before ++ line ∧ before.getLast? = some 10 ∧ Labelled line := by
  have below {before line a : List UInt8} (p : List UInt8) (same : a = before ++ line) (last : before.getLast? = some 10) (label : Labelled line) :
      ∃ before line, p ++ a = before ++ line ∧ before.getLast? = some 10 ∧ Labelled line :=
    ⟨p ++ before,line,by rw [same,List.append_assoc],by rw [List.getLast?_append,last]; rfl,label⟩
  induction reads generalizing pre with
  | here => cases pre <;> cases same
  | @token g p t a b ts h piece more ih =>
    cases pre with
    | nil =>
      cases same
      cases pieceToken piece
    | cons t pre =>
      cases same
      obtain ⟨before,line,split,last,label⟩ := ih rfl
      exact below p split last label
  | @blank g c a b ts h is_ more ih =>
    obtain ⟨before,line,split,last,label⟩ := ih same
    exact below [c] split last label
  | newline some_ more ih =>
    cases pre with
    | nil =>
      cases same
      obtain ⟨before,line,split,rfl | last,label⟩ := readsLabel more rfl label
      · exact ⟨[10],line,by rw [split]; rfl,rfl,label⟩
      · exact below [10] split last label
    | cons t pre =>
      cases same
      obtain ⟨before,line,split,last,label⟩ := ih rfl
      exact below [10] split last label
  | emptyLine more ih =>
    obtain ⟨before,line,split,last,label⟩ := ih same
    exact below [10] split last label
  | semi is_sung more ih =>
    cases pre with
    | nil => cases same
    | cons t pre =>
      cases same
      obtain ⟨before,line,split,last,label⟩ := ih rfl
      exact below [59] split last label
  | @comment g text a b ts h plain inside ends more ih =>
    obtain ⟨before,line,split,last,label⟩ := ih same
    exact below (59 :: text) split last label

/- The source is lexed as if the sung form did not exist. -/
theorem plainLexIs {src : String} (unlabelled : Unlabelled src) (n : Nat) : lex n src = plainLex n src :=
  (plainLoopIs (show Unsung (headOf []) (bytes src) from unlabelledUnsung unlabelled)).symm

end Loop

end Officium.Lexer

namespace Officium.Parser
open Bounded
open Lexer (Tok Lexed bytes)

/- A verse that is its statements. -/
def plainVersus (n : Nat) : ParseM Versus := do
  let name ← ident "expected verse name"
  if !(← keyword "in") then refuse "expected 'in' after verse name"
  else
    let mode ← finalAndMode
    skipNewlines
    expect .lbrace "expected '\x7b' opening the verse"
    let body ← stmts mode.2 n
    pure ⟨name,mode.2,body,[]⟩

/- The loop over the items by what reads a verse. -/
def programLoopOf (verse : Nat → ParseM Versus) : Nat → Program → ParseM Program
  | 0, _ => .cut
  | n+1, prog => do
    skipNewlines
    if (← peek).isNone then pure prog
    else if ← keyword "fuga" then
      let f ← fugue n
      programLoopOf verse n { prog with fugues := prog.fugues ++ [f] }
    else if ← keyword "versus" then
      let v ← verse n
      programLoopOf verse n { prog with verses := prog.verses ++ [v] }
    else refuse "expected 'fuga' or 'versus'"

theorem programLoopOfIs (n : Nat) (prog : Program) : programLoopOf versus n prog = programLoop n prog := by
  induction n generalizing prog with
  | zero => rfl
  | succ n ih =>
    unfold programLoopOf programLoop
    simp only [ih]

def plainParse (n : Nat) (src : String) : Option (Except Raise Program) :=
  match Lexer.plainLex n src with
  | none => none
  | some (.error e) => some (.error e)
  | some (.ok toks) => (programLoopOf plainVersus n ⟨[],[]⟩ ⟨toks,0,0,0⟩).map (fun r => r.map Prod.fst)

section Verses
variable {n : Nat} {mode : Mode} {e : Expr} {v : Versus} {prog prog' : Program} {p q : Parser} {d : Nat} {ts us : List Tok}

/- A label is none of the words a statement starts with. -/
theorem labelWord {l : String} (label : (Lexer.rhymeLabel l).isSome = true) : ∀ word ∈ ["amen","nihil","clama","perage","si","pone","mitte"], l ≠ word := by
  have none_ : ∀ word ∈ ["amen","nihil","clama","perage","si","pone","mitte"], Lexer.rhymeLabel word = none := by decide
  rintro word mem rfl
  rw [none_ l mem] at label
  cases label

/- Statements do not begin with a label and a text. -/
theorem stmtsUnlabelled (returned : Returns (stmts mode n) p e q) : labelled (ahead p.pastNewlines) = false := by
  by_contra label
  obtain ⟨l,s,rest,here,label⟩ := labelledShape (Bool.not_eq_false _ ▸ label)
  cases n with
  | zero => exact (returnsCut returned).elim
  | succ n =>
    have settled := settledPast p
    have word_ := wordAhead here
    have other {kw : String} (mem : kw ∈ ["amen","nihil","clama","perage","si","pone","mitte"]) : word p.pastNewlines ≠ some kw := by
      rw [word_]
      exact fun same => labelWord label kw mem (Option.some.inj same)
    have plain : atCadence p.pastNewlines = false := by
      rw [atCadence,word_,Option.any_some]
      by_contra cadence
      have mem := List.contains_iff_mem.mp (Bool.not_eq_false _ ▸ cadence : cadenceWord l = true)
      exact labelWord label l (List.mem_append_left ["pone","mitte"] mem) rfl
    rw [Returns,stmtsStatement plain] at returned
    obtain ⟨m,r,stated,-⟩ := returnsBind.mp returned
    rw [Returns,statement,keywordNot settled (other (by decide)),keywordNot settled (other (by decide)),returnsThen (identAhead here)] at stated
    obtain ⟨_,r',arrow,-⟩ := returnsBind.mp stated
    obtain ⟨same,-⟩ := expectIs.mp arrow
    have next := aheadNext here
    have stays : settle (skip p.pastNewlines 1) = skip p.pastNewlines 1 := by
      rw [settle,settledStays (settledAhead next rfl),ite_self]
    rw [stays,next] at same
    cases same

theorem versusShape (n : Nat) : versus n = heading "expected verse name" "expected 'in' after verse name" "expected '\x7b' opening the verse" >>= fun h =>
    liturgicalStrip n >>= fun rhymes => stmts h.2.2 n >>= fun body => pure (⟨h.1,h.2.2,body,rhymes⟩ : Versus) := by
  rw [← versusIs,versusBy]
  simp only [stmtsIs]

theorem plainVersusShape (n : Nat) : plainVersus n = heading "expected verse name" "expected 'in' after verse name" "expected '\x7b' opening the verse" >>= fun h =>
    stmts h.2.2 n >>= fun body => pure (⟨h.1,h.2.2,body,[]⟩ : Versus) := by
  unfold plainVersus
  simp only [headingThen]

/- Statements are a verse. -/
theorem plainVersusSung (returned : Returns (plainVersus n) p v q) : Returns (versus n) p v q := by
  rw [plainVersusShape] at returned
  obtain ⟨h,r,headed,returned⟩ := returnsBind.mp returned
  obtain ⟨body,r',read,returned⟩ := returnsBind.mp returned
  obtain ⟨rfl,rfl⟩ := returnsPure.mp returned
  have stripped : Returns (liturgicalStrip n) r [] r := stripReturns.mpr (.inl ⟨by rw [sungOpens,stmtsUnlabelled read],rfl,rfl⟩)
  rw [versusShape]
  exact returnsBind.mpr ⟨h,r,headed,returnsBind.mpr ⟨[],r,stripped,returnsBind.mpr ⟨body,r',read,returnsPure.mpr ⟨rfl,rfl⟩⟩⟩⟩

theorem plainSung (returned : Returns (programLoopOf plainVersus n prog) p prog' q) : Returns (programLoop n prog) p prog' q := by
  induction n generalizing prog p with
  | zero => exact (returnsCut returned).elim
  | succ n ih =>
    unfold programLoopOf at returned
    unfold programLoop
    obtain ⟨_,r,skipped,returned⟩ := returnsBind.mp returned
    obtain ⟨t,r',peeked,returned⟩ := returnsBind.mp returned
    refine returnsBind.mpr ⟨_,r,skipped,returnsBind.mpr ⟨t,r',peeked,?_⟩⟩
    split at returned
    · rename_i none_
      rwa [if_pos none_]
    rename_i some_
    rw [if_neg some_]
    obtain ⟨b,r'',fuga,returned⟩ := returnsBind.mp returned
    refine returnsBind.mpr ⟨b,r'',fuga,?_⟩
    cases b with
    | true =>
      obtain ⟨f,s,read,returned⟩ := returnsBind.mp returned
      exact returnsBind.mpr ⟨f,s,read,ih returned⟩
    | false =>
      obtain ⟨b,s,verse,returned⟩ := returnsBind.mp returned
      refine returnsBind.mpr ⟨b,s,verse,?_⟩
      cases b with
      | true =>
        obtain ⟨v,s',read,returned⟩ := returnsBind.mp returned
        exact returnsBind.mpr ⟨v,s',plainVersusSung read,ih returned⟩
      | false => exact returned

/- No line behind another starts with a label and a text. -/
def Headless (ts : List Tok) : Prop := ∀ pre l s rest, ts = pre ++ .newline :: .ident l :: .str s :: rest → Lexer.rhymeLabel l = none

/- No verse opens with them on the line of its brace. -/
def Unopened (ts : List Tok) : Prop := ∀ pre name final_ hs l s rest, ts = pre ++ .ident "versus" :: (hs ++ .ident l :: .str s :: rest) →
  Header name final_ hs → braces 0 pre = some 0 → Lexer.rhymeLabel l = none

theorem headlessLater (us : List Tok) (headless : Headless (us ++ ts)) : Headless ts :=
  fun pre l s rest same => headless (us ++ pre) l s rest (by rw [same,List.append_assoc])

theorem unopenedLater (us : List Tok) (unopened : Unopened (us ++ ts)) (matched : braces 0 us = some 0) : Unopened ts :=
  fun pre name final_ hs l s rest same header within_ => unopened (us ++ pre) name final_ hs l s rest (by rw [same,List.append_assoc]) header
    (by rw [bracesAppend,matched]; exact within_)

/- Where neither stands the two readers are one. -/
theorem versusAlike (clear : Clear p) (headless : Headless (ahead p)) (unopened : Unopened (.ident "versus" :: ahead p)) :
    versus n p = plainVersus n p := by
  rw [versusShape,plainVersusShape]
  refine bindAlike rfl fun h q headed => ?_
  obtain ⟨final_,hs,header,same⟩ := headingHeader clear headed
  have plain : sungOpening q = false := by
    rw [sungOpens]
    by_contra label
    obtain ⟨l,s,rest,here,label⟩ := labelledShape (Bool.not_eq_false _ ▸ label)
    obtain ⟨newlines,next,blank⟩ := newlinesAhead q
    have none_ : Lexer.rhymeLabel l = none := by
      rcases List.eq_nil_or_concat newlines with rfl | ⟨more,t,rfl⟩
      · exact unopened [] h.1 final_ hs l s rest (by rw [same,next,here]; rfl) header rfl
      · have is_ := blank t (by simp)
        cases t <;> cases is_
        exact headless (hs ++ more) l s rest (by rw [same,next,here]; simp)
    rw [none_] at label
    cases label
  have stripped : Returns (liturgicalStrip n) q [] q := stripReturns.mpr (.inl ⟨plain,rfl,rfl⟩)
  exact returnsThen stripped _

theorem programAlike (clear : Clear p) (headless : Headless (ahead p)) (unopened : Unopened (ahead p)) :
    programLoop n prog p = programLoopOf plainVersus n prog p := by
  induction n generalizing prog p with
  | zero => rfl
  | succ n ih =>
    obtain ⟨newlines,same,blank⟩ := newlinesAhead p
    rw [same] at headless unopened
    have headless := headlessLater newlines headless
    have unopened := unopenedLater newlines unopened (bracesNewlines blank)
    rw [programLoop,programLoopOf,returnsThen skipNewlinesPast,returnsThen skipNewlinesPast,returnsThen (peekPast clear),returnsThen (peekPast clear)]
    split
    · rfl
    -- behind an item the score goes on
    have later {kw : String} {us hs bs : List Tok} {name final_ : String} {r : Parser} (here : ahead p.pastNewlines = .ident kw :: ahead (skip p.pastNewlines 1))
        (next : ahead (skip p.pastNewlines 1) = us ++ ahead r) (split : us = hs ++ bs) (header : Header name final_ hs) (closes : Closes 1 bs)
        (clear' : Clear r) (prog : Program) : programLoop n prog r = programLoopOf plainVersus n prog r := by
      rw [here,next] at headless unopened
      refine ih clear' (headlessLater (.ident kw :: us) headless) (unopenedLater (.ident kw :: us) unopened ?_)
      rw [split]
      exact headerBraces header closes
    by_cases fuga : word p.pastNewlines = some "fuga"
    · rw [keywordIs (settledPast p) fuga,keywordIs (settledPast p) fuga]
      obtain ⟨rest,here⟩ := wordHere fuga
      refine bindAlike rfl fun f r read => ?_
      obtain ⟨us,next,fugue_,clear'⟩ := fugueReads (show Clear (skip p.pastNewlines 1) from clear) read
      obtain ⟨_,_,hs,bs,split,header,closes⟩ := fugueParts fugue_
      exact later (by rw [here,aheadNext here]) next split header closes clear' _
    rw [keywordNot (settledPast p) fuga,keywordNot (settledPast p) fuga]
    by_cases verse : word p.pastNewlines = some "versus"
    · rw [keywordIs (settledPast p) verse,keywordIs (settledPast p) verse]
      obtain ⟨rest,here⟩ := wordHere verse
      have here' : ahead p.pastNewlines = .ident "versus" :: ahead (skip p.pastNewlines 1) := by rw [here,aheadNext here]
      have alike : versus n (skip p.pastNewlines 1) = plainVersus n (skip p.pastNewlines 1) :=
        versusAlike (p := skip p.pastNewlines 1) clear (headlessLater [.ident "versus"] (by rwa [here'] at headless)) (here' ▸ unopened)
      refine bindAlike alike fun v r read => ?_
      obtain ⟨us,next,verse_,clear'⟩ := versusReads_ (show Clear (skip p.pastNewlines 1) from clear) (plainVersusSung read)
      obtain ⟨_,hs,bs,split,header,closes,-⟩ := versusParts verse_
      exact later here' next split header closes clear' _
    · rw [keywordNot (settledPast p) verse,keywordNot (settledPast p) verse]

theorem plainVersusRhymes (n : Nat) : Gives (fun v => v.rhymes = []) (plainVersus n) := by
  rw [plainVersusShape]
  exact givesAfter fun h => givesAfter fun body => givesPure rfl

theorem plainRhymes (prog_ : ∀ v ∈ prog.verses, v.rhymes = []) :
    Gives (fun prog => ∀ v ∈ prog.verses, v.rhymes = []) (programLoopOf plainVersus n prog) := by
  induction n generalizing prog with
  | zero => exact givesCut
  | succ n ih =>
    unfold programLoopOf
    refine givesAfter fun _ => givesAfter fun t => ?_
    split
    · exact givesPure prog_
    refine givesAfter fun b => ?_
    split
    · exact givesAfter fun f => ih prog_
    refine givesAfter fun b => ?_
    split
    · exact givesBind (plainVersusRhymes n) fun v v_ => ih (snocMember prog_ v_)
    · exact givesRefuse _

end Verses

/- `plainParse` returns this program. -/
def PlainParses (src : String) (prog : Program) : Prop := ∃ n, plainParse n src = some (.ok prog)

theorem unlabelledHeadless {src : String} {h ts : List Tok} (unlabelled : Lexer.Unlabelled src) (reads : Lexer.Reads [] (bytes src) [] ts h) : Headless ts := by
  intro pre l s rest same
  cases label : Lexer.rhymeLabel l with
  | none => rfl
  | some c =>
    have label : labelled (.ident l :: .str s :: rest) = true := Option.isSome_iff_exists.mpr ⟨c,label⟩
    obtain ⟨before,line,split,last,starts⟩ := Lexer.readsHeadless reads same label
    exact absurd starts (unlabelled before line split (.inr last))

end Officium.Parser

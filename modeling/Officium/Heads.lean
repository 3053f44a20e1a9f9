import Officium.Written
import Officium.Check

/-! The heads of a sung verse. The parser takes them out before it reads the statements, and the
checker finds its way back by counting, so both the places the heads leave and the places where the
statements begin are kept here, in the tokens without the heads. -/
namespace Officium.Parser
open Bounded
open Lexer (Tok Lexed rhymeLabel)

section Peeking
variable {p q : Parser}

/- The word the parser stands at. -/
def word (p : Parser) : Option String :=
  match p.toks[p.pos]? with
  | some (.ident s,_) => some s
  | _ => none

/- The parser stands at no newline. -/
def Settled (p : Parser) : Prop := ∀ t, p.toks[p.pos]? = some t → t.1.isNewline = false

theorem settledPast (p : Parser) : Settled p.pastNewlines := by
  intro t found
  have rest : (p.toks.drop p.pos).dropWhile (fun t => t.1.isNewline) = p.toks.drop p.pastNewlines.pos := by
    unfold Parser.pastNewlines
    rw [← List.drop_drop]
    exact ((congrArg (List.drop _) (List.takeWhile_append_dropWhile (p := fun t : Tok × Nat => t.1.isNewline)).symm).trans List.drop_left).symm
  have first := List.head?_dropWhile_not (fun t : Tok × Nat => t.1.isNewline) (p.toks.drop p.pos)
  rw [rest,List.head?_drop] at first
  rw [show p.toks[p.pastNewlines.pos]? = some t from found] at first
  exact first

theorem settledStays (settled : Settled p) : p.pastNewlines = p := by
  have none : (p.toks.drop p.pos).takeWhile (fun t => t.1.isNewline) = [] := by
    cases found : p.toks.drop p.pos with
    | nil => rfl
    | cons t rest =>
      have here := settled t (by rw [← List.head?_drop,found]; rfl)
      exact List.takeWhile_cons_of_neg (by simp [here])
  unfold Parser.pastNewlines
  rw [none]
  rfl

theorem peekAt (settled : Settled p) : Returns peek p (p.toks[p.pos]?.map Prod.fst) p := by
  rw [Returns,peek,updateThen,settledStays settled,ite_self]
  rfl

theorem keywordAt (settled : Settled p) (kw : String) : Returns (keyword kw) p (word p == some kw)
    (if word p == some kw then { p with pos := p.pos + 1 } else p) := by
  rw [Returns,keyword,returnsThen (peekAt settled)]
  unfold word
  cases found : p.toks[p.pos]? with
  | none => rfl
  | some t =>
    obtain ⟨t,l⟩ := t
    cases t
    case ident s =>
      by_cases same : s = kw
      · simp only [Option.map_some,same,BEq.rfl,if_true]
        rfl
      · have other : (some s == some kw) = false := by simpa using same
        simp only [Option.map_some,if_neg same,other]
        rfl
    all_goals rfl

theorem keywordIs {α : Type} {x y : ParseM α} {kw : String} (settled : Settled p) (here : word p = some kw) :
    (keyword kw >>= fun b => if b = true then x else y) p = x { p with pos := p.pos + 1 } := by
  have found := keywordAt settled kw
  rw [here,BEq.rfl] at found
  exact returnsThen found _

theorem keywordNot {α : Type} {x y : ParseM α} {kw : String} (settled : Settled p) (other : word p ≠ some kw) :
    (keyword kw >>= fun b => if b = true then x else y) p = y p := by
  have found := keywordAt settled kw
  rw [beq_eq_false_iff_ne.mpr other] at found
  exact returnsThen found _

end Peeking

section Statements
variable {mode : Mode} {n : Nat} {p q : Parser}

/- The words a cadence starts with. -/
def cadenceWord (s : String) : Bool := ["amen","nihil","clama","perage","si"].contains s

def atCadence (p : Parser) : Bool := (word p).any cadenceWord

/- A statement that is not a cadence: what it binds and the name it is bound to. -/
def statement (n : Nat) : ParseM (Expr × Sym) := do
  if ← keyword "pone" then
    let e ← expr n
    pure (.pone e,"_")
  else if ← keyword "mitte" then
    let e ← expr n
    pure (.mitte e,"_")
  else
    let name ← ident "expected a statement or cadence"
    expect .bindArrow "expected '<-' after binder"
    let rhs ← expr n
    pure (rhs,name)

/- The statements of a block and the token each of them begins at. -/
def written : Nat → Parser → List (Nat × Expr)
  | 0, _ => []
  | n+1, p =>
    if atCadence p.pastNewlines then []
    else
      match statement n p.pastNewlines with
      | some (.ok (m,q)) => (p.pastNewlines.pos,m.1) :: written n q
      | _ => []

/- The statements down the spine of a body. -/
def spine : Expr → List Expr
  | .bind _ m _ k => m :: spine k
  | _ => []

theorem stmtsStatement (plain : atCadence p.pastNewlines = false) : stmts mode (n+1) p =
    (do let m ← statement n; let rest ← stmts mode n; pure (.bind mode m.1 m.2 rest) : ParseM Expr) p.pastNewlines := by
  have settled := settledPast p
  have other (kw : String) (cadence : cadenceWord kw = true) : word p.pastNewlines ≠ some kw := by
    intro here
    rw [atCadence,here,Option.any_some,cadence] at plain
    cases plain
  rw [stmts,skipNewlines,updateThen,keywordNot settled (other "amen" (by decide)),
    keywordNot settled (other "nihil" (by decide)),keywordNot settled (other "clama" (by decide)),
    keywordNot settled (other "perage" (by decide)),keywordNot settled (other "si" (by decide))]
  simp only [statement,bindAssoc,iteThen,pureThen]

theorem cadenceSpine (cadence : atCadence p.pastNewlines = true) {body : Expr} (h : Returns (stmts mode n) p body q) : spine body = [] := by
  cases n with
  | zero => exact (returnsCut h).elim
  | succ n =>
    have settled := settledPast p
    have ended {x : ParseM Expr} {s : Parser} (gives : Gives (fun e => spine e = []) x) (r : x s = some (.ok (body,q))) :
        spine body = [] := gives s body q r
    rw [Returns,stmts,skipNewlines,updateThen] at h
    by_cases amen : word p.pastNewlines = some "amen"
    · rw [keywordIs settled amen] at h
      exact ended (givesAfter (fun _ => givesAfter (fun _ => givesPure rfl))) h
    rw [keywordNot settled amen] at h
    by_cases nihil : word p.pastNewlines = some "nihil"
    · rw [keywordIs settled nihil] at h
      exact ended (givesAfter (fun _ => givesPure rfl)) h
    rw [keywordNot settled nihil] at h
    by_cases clama : word p.pastNewlines = some "clama"
    · rw [keywordIs settled clama] at h
      exact ended (givesAfter (fun _ => givesAfter (fun _ => givesPure rfl))) h
    rw [keywordNot settled clama] at h
    by_cases perage : word p.pastNewlines = some "perage"
    · rw [keywordIs settled perage] at h
      exact ended (givesAfter (fun _ => givesAfter (fun _ => givesPure rfl))) h
    rw [keywordNot settled perage] at h
    by_cases si : word p.pastNewlines = some "si"
    · rw [keywordIs settled si] at h
      refine ended (givesAfter (fun _ => givesAfter (fun b => ?_))) h
      split
      · exact givesRefuse _
      refine givesAfter (fun _ => givesAfter (fun _ => givesAfter (fun _ => givesAfter (fun _ => givesAfter (fun b => ?_)))))
      split
      · exact givesRefuse _
      exact givesAfter (fun _ => givesAfter (fun _ => givesAfter (fun _ => givesAfter (fun _ => givesPure rfl))))
    · rw [atCadence,Option.any_eq_true] at cadence
      obtain ⟨s,here,among⟩ := cadence
      rw [here] at amen nihil clama perage si
      simp_all [cadenceWord]

theorem writtenSpine {body : Expr} (h : Returns (stmts mode n) p body q) : (written n p).map Prod.snd = spine body := by
  induction n generalizing p body with
  | zero => exact (returnsCut h).elim
  | succ n ih =>
    rw [written]
    cases cadence : atCadence p.pastNewlines with
    | true => exact (cadenceSpine cadence h).symm
    | false =>
      rw [Returns,stmtsStatement cadence] at h
      obtain ⟨m,u,read,rest⟩ := returnsBind.mp h
      obtain ⟨k,v,later,same⟩ := returnsBind.mp rest
      obtain ⟨rfl,rfl⟩ := returnsPure.mp same
      unfold Returns at read
      rw [if_neg (by simp),read]
      exact congrArg (m.1 :: ·) (ih later)

end Statements

section Sung
variable {n : Nat} {p q : Parser} {v : Versus}

/- Where `stripLoop` takes a head out, and so where the token after the head is left. -/
def heads : Nat → Lexed → Nat → Nat → Bool → List Nat
  | 0, _, _, _, _ => []
  | n+1, toks, j, depth, atLineStart =>
    match toks[j]?.map Prod.fst with
    | none => []
    | some .lbrace => heads n toks (j+1) (depth+1) false
    | some .rbrace => if depth ≤ 1 then [] else heads n toks (j+1) (depth-1) false
    | some .newline => heads n toks (j+1) depth true
    | some (.ident l) =>
      match (if atLineStart then rhymeLabel l else none), toks[j+1]? with
      | some _, some (.str _,_) =>
        if toks[j+2]?.map Prod.fst == some .semi then j :: heads n (toks.take j ++ toks.drop (j+3)) j depth false
        else []
      | _, _ => heads n toks (j+1) depth false
    | some _ => heads n toks (j+1) depth false

def sungHeads (n : Nat) (p : Parser) : List Nat := heads n p.toks p.pastNewlines.pos 1 true

theorem headsRhymes {j depth : Nat} {atLineStart : Bool} {rhymes rhymes' : List (Char × String)}
    (h : Returns (stripLoop n j depth atLineStart rhymes) p rhymes' q) :
    rhymes'.length = rhymes.length + (heads n p.toks j depth atLineStart).length := by
  induction n generalizing j depth atLineStart rhymes p with
  | zero => exact (returnsCut h).elim
  | succ n ih =>
    rw [Returns,stripLoop,stateThen] at h
    rw [heads]
    cases found : p.toks[j]? with
    | none =>
      rw [found] at h
      obtain ⟨rfl,-⟩ := returnsPure.mp h
      rfl
    | some t =>
      obtain ⟨t,line⟩ := t
      rw [found] at h
      cases t
      case rbrace =>
        simp only [Option.map_some] at h ⊢
        split at h
        · rename_i last
          obtain ⟨rfl,-⟩ := returnsPure.mp h
          rw [if_pos last]
          rfl
        · rename_i inner
          rw [if_neg inner]
          exact ih h
      case ident l =>
        simp only [Option.map_some] at h ⊢
        cases label : (if atLineStart then rhymeLabel l else none) with
        | none =>
          rw [label] at h
          exact ih h
        | some c =>
          rw [label] at h
          cases after : p.toks[j+1]? with
          | none =>
            rw [after] at h
            exact ih h
          | some u =>
            obtain ⟨u,line⟩ := u
            rw [after] at h
            cases u
            case str text =>
              dsimp only at h ⊢
              split at h
              · rename_i semi
                rw [updateThen] at h
                have rest := ih h
                rw [if_pos semi]
                rw [List.length_append] at rest
                simp only [List.length_cons,List.length_nil] at rest ⊢
                omega
              · exact (returnsFail h).elim
            all_goals exact ih h
      all_goals exact ih h

/- The parser reads the verse from `p` on; at `q` the heads are out and the statements begin. -/
structure Reads (n : Nat) (v : Versus) (p q : Parser) : Prop where
  strip : Returns (liturgicalStrip n) p v.rhymes q
  body : ∃ r, Returns (stmts v.mode n) q v.body r

theorem stripRhymes {rhymes : List (Char × String)} (h : Returns (liturgicalStrip n) p rhymes q) (sung : rhymes ≠ []) :
    ∃ r, Returns (stripLoop n p.pastNewlines.pos 1 true []) p rhymes r := by
  rw [Returns,liturgicalStrip,stateThen] at h
  split at h
  · obtain ⟨rfl,-⟩ := returnsPure.mp h
    exact absurd rfl sung
  · obtain ⟨found,r,stripped,rest⟩ := returnsBind.mp h
    refine ⟨r,?_⟩
    rw [Returns,stateThen] at rest
    split at rest
    · exact (returnsFail rest).elim
    · split at rest
      · exact (returnsFail rest).elim
      · cases answered : unanswered found with
        | some l =>
          rw [answered] at rest
          exact (returnsFail rest).elim
        | none =>
          rw [answered] at rest
          obtain ⟨rfl,-⟩ := returnsPure.mp rest
          exact stripped

theorem readsHeads (reads : Reads n v p q) (sung : v.rhymes ≠ []) : (sungHeads n p).length = v.rhymes.length := by
  obtain ⟨r,stripped⟩ := stripRhymes reads.strip sung
  rw [headsRhymes stripped]
  exact (Nat.zero_add _).symm

theorem readsSpine (reads : Reads n v p q) : (written n q).map Prod.snd = spine v.body := by
  obtain ⟨r,body⟩ := reads.body
  exact writtenSpine body

theorem versusReads (n : Nat) : Gives (fun v => ∃ n p q, Reads n v p q) (versus n) := by
  refine givesAfter (fun name => givesAfter (fun b => ?_))
  split
  · exact givesRefuse _
  · refine givesAfter (fun mode => givesAfter (fun _ => givesAfter (fun _ => ?_)))
    intro p v r h
    obtain ⟨rhymes,q,stripped,rest⟩ := returnsBind.mp h
    obtain ⟨e,u,body,last⟩ := returnsBind.mp rest
    obtain ⟨rfl,rfl⟩ := returnsPure.mp last
    exact ⟨n,p,q,stripped,u,body⟩

/- What `versus` gives is so of every verse of the program. -/
theorem programVerses {P : Versus → Prop} (each : ∀ n, Gives P (versus n)) {prog : Program} (prog_ : ∀ v ∈ prog.verses, P v) :
    Gives (fun prog' => ∀ v ∈ prog'.verses, P v) (programLoop n prog) := by
  induction n generalizing prog with
  | zero => exact givesCut
  | succ n ih =>
    unfold programLoop
    refine givesAfter (fun _ => givesAfter (fun t => ?_))
    split
    · exact givesPure prog_
    refine givesAfter (fun b => ?_)
    split
    · exact givesAfter (fun f => ih prog_)
    refine givesAfter (fun b => ?_)
    split
    · exact givesBind (each n) (fun v v_ => ih (snocMember prog_ v_))
    · exact givesRefuse _

theorem parsesReads {src : String} {prog : Program} (h : Parses src prog) (mem : v ∈ prog.verses) : ∃ n p q, Reads n v p q := by
  obtain ⟨n,toks,q,-,found⟩ := parsesLoop h
  have start : ∀ v ∈ (Program.mk [] []).verses, ∃ n p q, Reads n v p q := fun v mem => by cases mem
  exact programVerses versusReads start _ _ _ found v mem

/- The turn of the program's loop that opens a verse, up to the brace. -/
def opening : ParseM (Sym × Mode) := do
  skipNewlines
  if (← peek).isNone then refuse "expected a verse"
  else if ← keyword "fuga" then refuse "expected a verse"
  else if ← keyword "versus" then
    let name ← ident "expected verse name"
    if !(← keyword "in") then refuse "expected 'in' after verse name"
    else
      let mode ← finalAndMode
      skipNewlines
      expect .lbrace "expected '\x7b' opening the verse"
      pure (name,mode.2)
  else refuse "expected 'fuga' or 'versus'"

/- The end of the score. -/
def ending : ParseM Bool := do
  skipNewlines
  pure (← peek).isNone

/- A test of a score's only verse as the parser reads it, within a bound. -/
def readsVersus (n : Nat) (src : String) (test : Versus → Parser → Parser → Bool) : Bool :=
  match Lexer.lex (n+2) src with
  | some (.ok toks) =>
    match opening ⟨toks,0,0,0⟩ with
    | some (.ok (o,p)) =>
      match liturgicalStrip (n+1) p with
      | some (.ok (rhymes,q)) =>
        match stmts o.2 (n+1) q with
        | some (.ok (body,r)) =>
          match ending r with
          | some (.ok (true,_)) => test ⟨o.1,o.2,body,rhymes⟩ p q
          | _ => false
        | _ => false
      | _ => false
    | _ => false
  | _ => false

theorem openingTurn {o : Sym × Mode} (h : Returns opening p o q) (prog : Program) :
    programLoop (n+1) prog p = (do
      let rhymes ← liturgicalStrip n
      let body ← stmts o.2 n
      programLoop n { prog with verses := prog.verses ++ [(⟨o.1,o.2,body,rhymes⟩ : Versus)] }) q := by
  have never {α : Type} {msg : String} {s t : Parser} {a : α} : ¬ Returns (refuse msg) s a t :=
    givesRefuse (p := fun _ => False) msg s a t
  obtain ⟨_,a,skipped,turn⟩ := returnsBind.mp h
  obtain ⟨t,b,peeked,turn⟩ := returnsBind.mp turn
  rw [programLoop,returnsThen skipped,returnsThen peeked]
  split at turn
  · exact (never turn).elim
  rename_i more
  obtain ⟨f,c,fuga,turn⟩ := returnsBind.mp turn
  rw [if_neg more,returnsThen fuga]
  split at turn
  · exact (never turn).elim
  rename_i verse
  obtain ⟨w,d,opens,turn⟩ := returnsBind.mp turn
  rw [if_neg verse,returnsThen opens]
  split at turn
  · rename_i here
    obtain ⟨name,e,named,turn⟩ := returnsBind.mp turn
    obtain ⟨i,g,within,turn⟩ := returnsBind.mp turn
    rw [if_pos here,versus,bindAssoc,returnsThen named,bindAssoc,returnsThen within]
    split at turn
    · exact (never turn).elim
    rename_i in_
    obtain ⟨mode,k,moded,turn⟩ := returnsBind.mp turn
    obtain ⟨_,l,passed,turn⟩ := returnsBind.mp turn
    obtain ⟨_,m,braced,turn⟩ := returnsBind.mp turn
    obtain ⟨rfl,rfl⟩ := returnsPure.mp turn
    rw [if_neg in_,bindAssoc,returnsThen moded,bindAssoc,returnsThen passed,bindAssoc,returnsThen braced]
    simp only [bindAssoc,pureThen]
  · exact (never turn).elim

theorem endingTurn {r : Parser} (h : Returns ending p true r) (prog : Program) : Returns (programLoop (n+1) prog) p prog r := by
  obtain ⟨_,a,skipped,h⟩ := returnsBind.mp h
  obtain ⟨t,b,peeked,last⟩ := returnsBind.mp h
  obtain ⟨none,rfl⟩ := returnsPure.mp last
  rw [Returns,programLoop,returnsThen skipped,returnsThen peeked,if_pos none]
  rfl

theorem readsVersusParses (n : Nat) (src : String) (test : Versus → Parser → Parser → Bool) (h : readsVersus n src test = true) :
    ∃ v p q, Parses src ⟨[],[v]⟩ ∧ Reads (n+1) v p q ∧ test v p q = true := by
  unfold readsVersus at h
  split at h
  · rename_i toks lexed
    split at h
    · rename_i o p opened
      split at h
      · rename_i rhymes q stripped
        split at h
        · rename_i body r read
          split at h
          · rename_i last ended
            refine ⟨(⟨o.1,o.2,body,rhymes⟩ : Versus),p,q,⟨n+2,?_⟩,⟨stripped,r,read⟩,h⟩
            rw [parse,lexed]
            simp only
            rw [openingTurn opened,returnsThen stripped,returnsThen read]
            exact congrArg _ (endingTurn ended _)
          · cases h
        · cases h
      · cases h
    · cases h
  · cases h

end Sung

end Officium.Parser

namespace Officium.Check
open Bounded
open Officium.Parser (Parses sungHeads written spine)

section Lines
variable {c : Checker} {lines : List Ty}

/- A sung line up to the sixth whose head stands before a statement has the type of that statement. -/
def Pinned (c : Checker) (lines : List Ty) (heads : List Nat) (statements : List (Nat × Expr)) : Prop :=
  ∀ (k i j : Nat) (m : Expr), k < 6 → heads[k]? = some j → statements[i]? = some (j,m) → lines[i]? = some (sungType c lines (k+1))

/- A sung line up to the sixth whose head stands before a statement has the statement of its own number. -/
def Aligned (heads : List Nat) (statements : List (Nat × Expr)) : Prop :=
  ∀ (k i j : Nat) (m : Expr), k < 6 → heads[k]? = some j → statements[i]? = some (j,m) → i = k

def aligned (heads : List Nat) (statements : List (Nat × Expr)) : Bool :=
  (List.range 6).all (fun k => (List.range statements.length).all (fun i => heads[k]? != statements[i]?.map Prod.fst || i == k))

theorem alignedTrue {heads : List Nat} {statements : List (Nat × Expr)} (test : aligned heads statements = true) :
    Aligned heads statements := by
  intro k i j m before head statement
  obtain ⟨within,-⟩ := List.getElem?_eq_some_iff.mp statement
  have same := List.all_eq_true.mp (List.all_eq_true.mp test k (List.mem_range.mpr before)) i (List.mem_range.mpr within)
  rw [head,statement] at same
  simpa using same

/- The types `check_versus` finds for the statements down the spine. -/
def Spun (prog : Program) (v : Versus) (lines : List Ty) : Prop :=
  ∃ n s, Returns (inferSpine (Checker.new prog) n v.mode [] v.body) Store.new lines s

theorem spineLines {n : Nat} {mode : Mode} {Γ : Gamma} {e : Expr} {s s' : Store} (h : Returns (inferSpine c n mode Γ e) s lines s') :
    lines.length = (spine e).length := by
  induction lines generalizing e Γ s s' with
  | nil =>
    cases e
    case bind m x k =>
      obtain ⟨line,u,-,rest⟩ := returnsBind.mp h
      obtain ⟨more,w,-,last⟩ := returnsBind.mp rest
      cases (returnsPure.mp last).1
    all_goals rfl
  | cons T lines ih =>
    cases e
    case bind m x k =>
      obtain ⟨line,u,-,rest⟩ := returnsBind.mp h
      obtain ⟨more,w,later,last⟩ := returnsBind.mp rest
      cases (returnsPure.mp last).1
      exact congrArg (· + 1) (ih later)
    all_goals
      obtain ⟨T',u,-,last⟩ := returnsBind.mp h
      cases (returnsPure.mp last).1

/- The type of the statement of the line's number, while there is one. -/
theorem sungOwn {k : Nat} (before : k < 6) (within : k < lines.length) : lines[k]? = some (sungType c lines (k+1)) := by
  rw [sungType,if_neg (by simp; omega),Nat.add_sub_cancel,List.getD_eq_getElem?_getD,List.getElem?_eq_getElem within]
  rfl

theorem alignedPinned {heads : List Nat} {statements : List (Nat × Expr)} (aligned : Aligned heads statements)
    (size : lines.length = statements.length) : Pinned c lines heads statements := by
  intro k i j m before head statement
  cases aligned k i j m before head statement
  obtain ⟨within,-⟩ := List.getElem?_eq_some_iff.mp statement
  exact sungOwn before (size ▸ within)

/- Where every statement has a type of its own, the line's number is all that is looked at. -/
theorem pinnedAligned {prog : Program} {heads : List Nat} {statements : List (Nat × Expr)}
    (pinned : ∀ lines : List Ty, lines.length = statements.length → Pinned (Checker.new prog) lines heads statements) :
    Aligned heads statements := by
  intro k i j m before head statement
  obtain ⟨within,-⟩ := List.getElem?_eq_some_iff.mp statement
  let own : List Ty := (List.range statements.length).map (fun i => .var (4+i))
  have size : own.length = statements.length := by simp [own]
  have typed {l : Nat} (lt : l < statements.length) : own[l]? = some (.var (4+l)) := by simp [own,lt]
  have same := pinned own size k i j m before head statement
  rw [typed within] at same
  by_cases there : k < statements.length
  · rw [← sungOwn before (size ▸ there),typed there] at same
    have := Ty.var.inj (Option.some.inj same)
    omega
  · rw [sungType,if_pos (by simp; omega)] at same
    have := Ty.var.inj (Option.some.inj same)
    omega

end Lines

section Rhymes

/- The verse is pinned line by line if, and for every typing of its statements only if, no line of it
shifts the count: the statement after the head of line `k` is the `k`th of the verse. -/
theorem rhymesPinned {src : String} {prog : Program} {v : Versus} (parsed : Parses src prog) (mem : v ∈ prog.verses)
    (sung : v.rhymes ≠ []) :
    (∃ n p q, Parser.Reads n v p q) ∧ ∀ n p q, Parser.Reads n v p q →
      (sungHeads n p).length = v.rhymes.length ∧ (written n q).map Prod.snd = spine v.body ∧
      (Aligned (sungHeads n p) (written n q) → ∀ lines, Spun prog v lines →
        Pinned (Checker.new prog) lines (sungHeads n p) (written n q)) ∧
      ((∀ lines, lines.length = (spine v.body).length → Pinned (Checker.new prog) lines (sungHeads n p) (written n q)) →
        Aligned (sungHeads n p) (written n q)) := by
  refine ⟨Parser.parsesReads parsed mem,fun n p q reads => ?_⟩
  have statements := Parser.readsSpine reads
  have size : (spine v.body).length = (written n q).length := by rw [← statements,List.length_map]
  refine ⟨Parser.readsHeads reads sung,statements,?_,fun pinned => ?_⟩
  · rintro aligned lines ⟨m,s,typed⟩
    exact alignedPinned aligned ((spineLines typed).trans size)
  · exact pinnedAligned (fun lines same => pinned lines (same.trans size.symm))

def straight : String :=
  "versus x in Fa \x7b\nA \"a\" ; a <- verum\nB \"b\" ; b <- \"s\"\nA \"c\" ; c <- verum\nB \"d\" ; d <- \"s\"\nA \"e\" ; e <- verum\nB \"f\" ; f <- \"s\"\nC \"g\" ; g <- verum\nC \"h\" ; amen g\n\x7d"

theorem rhymesPinnedStraight : ∃ v, Parses straight ⟨[],[v]⟩ ∧ v.rhymes ≠ [] ∧ ∃ n p q, Parser.Reads n v p q ∧
    ∀ lines, Spun ⟨[],[v]⟩ v lines → Pinned (Checker.new ⟨[],[v]⟩) lines (sungHeads n p) (written n q) := by
  obtain ⟨v,p,q,parsed,reads,test⟩ := Parser.readsVersusParses 300 straight
    (fun v p q => !v.rhymes.isEmpty && aligned (sungHeads 301 p) (written 301 q)) (by decide +kernel)
  rw [Bool.and_eq_true] at test
  have sung : v.rhymes ≠ [] := by
    intro none
    rw [none] at test
    cases test.1
  exact ⟨v,parsed,sung,301,p,q,reads,((rhymesPinned parsed List.mem_cons_self sung).2 301 p q reads).2.2.1 (alignedTrue test.2)⟩

/- The second line is sung over nothing, so every line after it is compared as the next statement. -/
def shifted : String :=
  "versus x in Fa \x7b\nA \"a\" ; a <- verum\nB \"b\" ;\nA \"c\" ; b <- \"s\"\nB \"d\" ; c <- verum\nA \"e\" ; d <- \"s\"\nB \"f\" ; e <- verum\nC \"g\" ; f <- \"s\"\nC \"h\" ; amen a\n\x7d"

/- The third head stands before the second statement, whose type is not the one it is compared by. -/
def shiftedLine (v : Versus) (heads : List Nat) (statements : List (Nat × Expr)) : Bool :=
  match inferSpine (Checker.new ⟨[],[v]⟩) 300 v.mode [] v.body Store.new, heads[2]?, statements[1]? with
  | some (.ok (lines,_)), some j, some w =>
    !v.rhymes.isEmpty && j == w.1 && lines[1]? != some (sungType (Checker.new ⟨[],[v]⟩) lines 3)
  | _, _, _ => false

theorem rhymesShift : ¬ ∀ (src : String) (prog : Program) (v : Versus), Parses src prog → v ∈ prog.verses → v.rhymes ≠ [] →
    ∀ n p q, Parser.Reads n v p q → ∀ lines, Spun prog v lines → Pinned (Checker.new prog) lines (sungHeads n p) (written n q) := by
  intro all
  obtain ⟨v,p,q,parsed,reads,test⟩ := Parser.readsVersusParses 300 shifted (fun v p q => shiftedLine v (sungHeads 301 p) (written 301 q))
    (by decide +kernel)
  unfold shiftedLine at test
  split at test
  · rename_i lines s j w typed head statement
    simp only [Bool.and_eq_true,beq_iff_eq,bne_iff_ne,Bool.not_eq_true',List.isEmpty_eq_false_iff] at test
    obtain ⟨⟨sung,same⟩,other⟩ := test
    exact other (all shifted _ v parsed List.mem_cons_self sung 301 p q reads lines ⟨300,s,typed⟩ 2 1 j w.2 (by decide) head
      (by rw [statement,same]))
  · cases test

end Rhymes

end Officium.Check

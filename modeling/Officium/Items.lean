import Officium.Strips

/-! The items of a score. Each is read off tokens of its own, in front of whatever follows it, so that a
program is read off its items one by one. -/
namespace Officium.Parser
open Bounded
open Lexer (Tok Lexed)

/- Outside all parentheses and expressions. -/
def Clear (p : Parser) : Prop := p.parenDepth = 0 ∧ p.exprDepth = 0

/- The value is read off these tokens, whatever is behind them. -/
def ReadsOff {α : Type} (x : Nat → ParseM α) (a : α) (us : List Tok) : Prop :=
  ∀ p rest, Clear p → ahead p = us ++ rest → ∃ n q, Returns (x n) p a q ∧ ahead q = rest ∧ Clear q

section Parts
variable {α β : Type} {l m : Nesting} {x : Nat → ParseM α} {n : Nat} {a : α} {p q : Parser} {us us' : List Tok}

/- The computation reads the same in any two windows. -/
def Part (l : Nesting) (x : ParseM α) : Prop := ∀ X X', Tracks False (Window X X' l 0 0) x x (fun _ => Window X X' (.inside 0) 0 0)

/- One reading shows what is read off tokens that are the same but for newlines in parentheses. -/
theorem partReads (part : Part l (x n)) (clear : Clear p) (returned : Returns (x n) p a q) (same : ahead p = us ++ ahead q)
    (through : l.through us = some (.inside 0)) (even : unspaced 0 us = unspaced 0 us') (through' : l.through us' = some (.inside 0))
    (free : ¬Trapped us') : ReadsOff x a us' := by
  intro p' rest clear' same'
  have window : Window (ahead q) rest l 0 0 p p' := ⟨⟨us,us',same,same',even,through,through',free⟩,⟨clear.1,clear'.1⟩,clear.2,clear'.2⟩
  obtain ⟨q',returned',last⟩ := (part (ahead q) rest).returns p p' a q window returned
  obtain ⟨vs,vs',-,behind,-,-,over_,-⟩ := last.tokens
  obtain ⟨rfl,-⟩ := throughOver over_
  exact ⟨n,q',returned',behind,last.depths.1.2,last.depths.2.2⟩

theorem partOnce (part : Part l (x n)) (clear : Clear p) (returned : Returns (x n) p a q) (same : ahead p = us ++ ahead q)
    (whole : Whole l (.inside 0) us) : ReadsOff x a us :=
  partReads part clear returned same whole.through rfl whole.through whole.free

/- A parser before these tokens and no others. -/
def before (us : List Tok) : Parser := ⟨us.map (fun t => (t,0)),0,0,0⟩

theorem beforeAhead (us : List Tok) : ahead (before us) = us := by
  rw [ahead,before,List.drop_zero,List.map_map]
  exact List.map_id us

theorem partLike (part : ∀ n, Part l (x n)) (reads : ReadsOff x a us) (whole : Whole l (.inside 0) us) (even : unspaced 0 us = unspaced 0 us')
    (through' : l.through us' = some (.inside 0)) (free : ¬Trapped us') : ReadsOff x a us' := by
  obtain ⟨n,q,returned,over_,-⟩ := reads (before us) [] ⟨rfl,rfl⟩ (by rw [beforeAhead,List.append_nil])
  exact partReads (part n) ⟨rfl,rfl⟩ returned (by rw [over_,beforeAhead,List.append_nil]) whole.through even through' free

/- What is read first and what is read after it. -/
theorem readsThen {f : Nat → α → ParseM β} {b : β} (mono : ∀ n k a, n ≤ k → Below (x n) (x k) ∧ Below (f n a) (f k a)) (first : ReadsOff x a us)
    (rest : ReadsOff (fun n => f n a) b us') : ReadsOff (fun n => x n >>= f n) b (us ++ us') := by
  intro p vs clear same
  obtain ⟨n,q,returned,next,clear'⟩ := first p (us' ++ vs) clear (by rw [same,List.append_assoc])
  obtain ⟨k,r,returned',last,clear''⟩ := rest q vs clear' next
  refine ⟨max n k,r,returnsBind.mpr ⟨a,q,?_,?_⟩,last,clear''⟩
  · exact (mono n (max n k) a (Nat.le_max_left n k)).1 _ _ returned
  · exact (mono k (max n k) a (Nat.le_max_right n k)).2 _ _ returned'

theorem headingPart (nameMsg inMsg braceMsg : String) : Part .header (heading nameMsg inMsg braceMsg) :=
  fun X X' => tracksHeading (windowFooting X X') nameMsg inMsg braceMsg

theorem headingReads {nameMsg inMsg braceMsg : String} {h : Sym × Final × Mode} (clear : Clear p)
    (returned : Returns (heading nameMsg inMsg braceMsg) p h q) :
    ∃ us, ahead p = us ++ ahead q ∧ Whole .header (.inside 0) us ∧ ReadsOff (fun _ => heading nameMsg inMsg braceMsg) h us ∧ Clear q := by
  obtain ⟨⟨us,same,whole⟩,clear'⟩ := headingTaken clear returned
  have reads : ReadsOff (fun _ => heading nameMsg inMsg braceMsg) h us := partOnce (n := 0) (headingPart _ _ _) clear returned same whole
  exact ⟨us,same,whole,reads,clear'⟩

theorem fuguePart (n : Nat) (f : Fugue) : Part (.inside 1) (fugueLoop n f) := fun X X' => by
  have F := windowFooting X X'
  rw [← fugueLoopIs]
  exact fugueAbreast F (exprTerms F 0) n 0 f

theorem stmtsPart (mode : Mode) (n : Nat) : Part (.inside 1) (stmts mode n) := fun X X' => by
  have F := windowFooting X X'
  rw [← stmtsIs]
  exact stmtsAbreast F (exprTerms F 0) mode n 0

end Parts

section Fugues
variable {n : Nat} {f : Fugue} {p q : Parser} {us us' : List Tok}

/- The heading of a fugue and what is in its braces. -/
def FugueRead (us : List Tok) (f : Fugue) : Prop :=
  ∃ hs bs h, us = hs ++ bs ∧ Whole .header (.inside 0) hs ∧ Whole (.inside 1) (.inside 0) bs ∧
    ReadsOff (fun _ => heading "expected fugue name" "expected 'in' after fugue name" "expected '\x7b' opening the fugue") h hs ∧
    ReadsOff (fun n => fugueLoop n (Fugue.new h.1 h.2.1)) f bs

theorem fugueReads (clear : Clear p) (returned : Returns (fugue n) p f q) : ∃ us, ahead p = us ++ ahead q ∧ FugueRead us f ∧ Clear q := by
  rw [← fugueIs] at returned
  obtain ⟨h,r,headed,rest⟩ := returnsBind.mp returned
  rw [fugueLoopIs] at rest
  obtain ⟨hs,before_,whole,first,clear'⟩ := headingReads clear headed
  obtain ⟨⟨bs,after_,whole'⟩,clear''⟩ := fugueTaken clear' rest
  refine ⟨hs ++ bs,by rw [before_,after_,List.append_assoc],⟨hs,bs,h,rfl,whole,whole',first,?_⟩,clear''⟩
  exact partOnce (n := n) (fuguePart n _) clear' rest after_ whole'

theorem readsFugue (read : FugueRead us f) : ReadsOff fugue f us := by
  obtain ⟨hs,bs,h,rfl,-,-,heading_,body⟩ := read
  intro p rest clear same
  obtain ⟨n,q,returned,last⟩ := readsThen (f := fun n h => fugueLoop n (Fugue.new h.1 h.2.1)) (fun n k a le => ⟨belowRefl _,fugueLoopBelow le _⟩) heading_ body p rest clear same
  refine ⟨n,q,?_,last⟩
  rw [← fugueIs,fugueBy]
  simp only [fugueLoopIs]
  exact returned

end Fugues

section Verses
variable {n : Nat} {mode : Mode} {e : Expr} {v : Versus} {rhymes : List (Char × String)} {p q : Parser} {us us' rest : List Tok}

/- What is in the braces of a verse: the heads, if it is sung, and the statements. -/
def verseBody (mode : Mode) (n : Nat) : ParseM (List (Char × String) × Expr) := do
  let rhymes ← liturgicalStrip n
  let body ← stmts mode n
  pure (rhymes,body)

theorem bodyBelow {n k : Nat} (le : n ≤ k) : Below (verseBody mode n) (verseBody mode k) :=
  belowBind (liturgicalStripBelow le) fun _ => belowBind (stmtsBelow le) fun _ => belowRefl _

/- A label and a text in the braces are before the closing one. -/
theorem labelledBody (through : (Nesting.inside 1).through us = some (.inside 0)) (rest : List Tok) : labelled (us ++ rest) = labelled us := by
  obtain ⟨t,vs,rfl⟩ := throughSome Nesting.insideLive through
  cases t
  case ident l =>
    have inside : (Nesting.inside 1).through vs = some (.inside 0) := through
    obtain ⟨u,ws,rfl⟩ := throughSome Nesting.insideLive inside
    cases u <;> rfl
  all_goals rfl

/- A verse that is not sung is read off its statements. -/
theorem readsPlain (reads : ReadsOff (stmts mode) e us) (whole : (Nesting.inside 1).through us = some (.inside 0))
    (plain : labelled (us.dropWhile Tok.isNewline) = false) : ReadsOff (verseBody mode) ([],e) us := by
  intro p rest clear same
  obtain ⟨n,q,returned,last⟩ := reads p rest clear same
  have opens : sungOpening p = false := by
    rw [sungOpens,aheadPastNewlines,same,pastEnd (throughPlain Nesting.insideLive whole),labelledBody (throughPast Nesting.insideLive whole),plain]
  have stripped : Returns (liturgicalStrip n) p [] p := stripReturns.mpr (.inl ⟨opens,rfl,rfl⟩)
  exact ⟨n,q,returnsBind.mpr ⟨[],p,stripped,returnsBind.mpr ⟨e,q,returned,returnsPure.mpr ⟨rfl,rfl⟩⟩⟩,last⟩

theorem plainReads (clear : Clear p) (plain : sungOpening p = false) (returned : Returns (stmts mode n) p e q) :
    ∃ us, ahead p = us ++ ahead q ∧ Whole (.inside 1) (.inside 0) us ∧ labelled (us.dropWhile Tok.isNewline) = false ∧
      ReadsOff (stmts mode) e us ∧ Clear q := by
  obtain ⟨⟨us,same,whole⟩,clear'⟩ := stmtsTaken clear returned
  refine ⟨us,same,whole,?_,partOnce (stmtsPart mode n) clear returned same whole,clear'⟩
  rw [sungOpens,aheadPastNewlines,same,pastEnd (throughPlain Nesting.insideLive whole.through),
    labelledBody (throughPast Nesting.insideLive whole.through)] at plain
  exact plain

/- Newlines and a first token that is none. -/
theorem takeNewlines {newlines : List Tok} {t : Tok} (all : ∀ t ∈ newlines, t.isNewline = true) (plain : t.isNewline = false) (vs : List Tok) :
    (newlines ++ t :: vs).takeWhile Tok.isNewline = newlines ∧ (newlines ++ t :: vs).dropWhile Tok.isNewline = t :: vs := by
  rw [List.takeWhile_append_of_pos all,List.dropWhile_append_of_pos all,List.takeWhile_cons_of_neg (by simp [plain]),
    List.dropWhile_cons_of_neg (by simp [plain]),List.append_nil]
  exact ⟨rfl,rfl⟩

/- A sung verse is read off its heads and statements. -/
theorem sungReads (clear : Clear p) (opens : sungOpening p = true) {r : Parser} (passes : Passes rhymes)
    (stripped : Returns (stripLoop n p.pastNewlines.pos 1 true []) p rhymes r) (returned : Returns (stmts mode n) r e q) :
    ∃ us, ahead p = us ++ ahead q ∧ ReadsOff (verseBody mode) (rhymes,e) us ∧ Clear q := by
  obtain ⟨us,heads,strips,rfl,replaced⟩ := stripLoopStrips stripped
  have clear' : Clear r := ⟨replaced.others.2.1.trans clear.1,replaced.others.2.2.trans clear.2⟩
  obtain ⟨⟨ub,same,whole⟩,clear''⟩ := stmtsTaken clear' returned
  have reads := partOnce (stmtsPart mode n) clear' returned same whole
  rw [replacedAhead opens replaced] at same
  have all : ∀ t ∈ (ahead p).takeWhile Tok.isNewline, t.isNewline = true := fun t mem => List.all_eq_true.mp List.all_takeWhile t mem
  have whole_ : (ahead p).takeWhile Tok.isNewline ++ ahead p.pastNewlines = ahead p := by
    rw [aheadPastNewlines,List.takeWhile_append_dropWhile]
  generalize (ahead p).takeWhile Tok.isNewline = newlines at same all whole_
  -- the newlines before the first head stay before the statements
  have inside : ∃ vs, ub = newlines ++ vs ∧ us = vs ++ ahead q := by
    rcases List.append_eq_append_iff.mp same with within_ | ⟨more,rfl,-⟩
    · exact within_
    · have stays : (Nesting.inside 1).through ub = some (.inside 1) :=
        (newlinesThrough (d := 0) Nesting.insideLive fun t mem => all t (List.mem_append_left _ mem)).1
      cases stays.symm.trans whole.through
  obtain ⟨vs,rfl,after_⟩ := inside
  have closed := whole.through
  rw [throughAppend,(newlinesThrough (d := 0) Nesting.insideLive all).1] at closed
  obtain ⟨body,some_,found,again⟩ := stripsBody strips after_ (Nat.le_refl 1) closed
  have here : ahead p.pastNewlines = body ++ ahead q := (aheadTokens _).trans found
  obtain ⟨t,ts,rfl⟩ := List.exists_cons_of_ne_nil some_
  have plain : t.isNewline = false := by
    have settled := settledHead (settledPast p)
    rw [here] at settled
    cases t <;> first | rfl | exact absurd rfl settled
  refine ⟨newlines ++ t :: ts,by rw [← whole_,here,List.append_assoc],?_,clear''⟩
  intro p' rest clear₁ same'
  rw [List.append_assoc,List.cons_append] at same'
  obtain ⟨taken,dropped⟩ := takeNewlines all plain (ts ++ rest)
  have here' : ahead p'.pastNewlines = t :: ts ++ rest := by rw [aheadPastNewlines,same',dropped]; rfl
  obtain ⟨labelled_,strips'⟩ := again rest
  have opens' : sungOpening p' = true := by
    rw [sungOpens] at opens ⊢
    rw [here',labelled_]
    exact aheadTokens p.pastNewlines ▸ opens
  have from_ : tokensFrom p' p'.pastNewlines.pos = t :: ts ++ rest := (aheadTokens p'.pastNewlines).symm.trans here'
  obtain ⟨k,r',stripped',replaced'⟩ := stripsLoop strips' from_
  have next : ahead r' = newlines ++ vs ++ rest := by rw [replacedAhead opens' replaced',same',taken,List.append_assoc]
  have clear₂ : Clear r' := ⟨replaced'.others.2.1.trans clear₁.1,replaced'.others.2.2.trans clear₁.2⟩
  obtain ⟨m,q',returned',last⟩ := reads r' rest clear₂ next
  refine ⟨max k m,q',returnsBind.mpr ⟨rhymes,r',?_,returnsBind.mpr ⟨e,q',?_,returnsPure.mpr ⟨rfl,rfl⟩⟩⟩,last⟩
  · exact liturgicalStripBelow (Nat.le_max_left k m) _ _ (stripReturns.mpr (.inr ⟨opens',passes,stripped'⟩))
  · exact stmtsBelow (Nat.le_max_right k m) _ _ returned'

/- The heading of a verse and what is in its braces. A verse that is not sung holds nothing but statements. -/
def VersusRead (us : List Tok) (v : Versus) : Prop :=
  ∃ hs bs h, us = hs ++ bs ∧ Whole .header (.inside 0) hs ∧ v.name = h.1 ∧ v.mode = h.2.2 ∧
    ReadsOff (fun _ => heading "expected verse name" "expected 'in' after verse name" "expected '\x7b' opening the verse") h hs ∧
    ReadsOff (verseBody v.mode) (v.rhymes,v.body) bs ∧
    (v.rhymes = [] → Whole (.inside 1) (.inside 0) bs ∧ labelled (bs.dropWhile Tok.isNewline) = false ∧ ReadsOff (stmts v.mode) v.body bs)

theorem versusReads_ (clear : Clear p) (returned : Returns (versus n) p v q) : ∃ us, ahead p = us ++ ahead q ∧ VersusRead us v ∧ Clear q := by
  rw [← versusIs] at returned
  obtain ⟨h,r,headed,returned⟩ := returnsBind.mp returned
  obtain ⟨rhymes,r',stripped,returned⟩ := returnsBind.mp returned
  obtain ⟨e,r'',body,returned⟩ := returnsBind.mp returned
  obtain ⟨rfl,rfl⟩ := returnsPure.mp returned
  rw [stmtsIs] at body
  obtain ⟨hs,before_,whole,first,clear'⟩ := headingReads clear headed
  rcases stripReturns.mp stripped with ⟨plain,rfl,rfl⟩ | ⟨opens,passes,stripped⟩
  · obtain ⟨bs,after_,whole',unlabelled,reads,clear''⟩ := plainReads clear' plain body
    refine ⟨hs ++ bs,by rw [before_,after_,List.append_assoc],⟨hs,bs,h,rfl,whole,rfl,rfl,first,?_,fun _ => ⟨whole',unlabelled,reads⟩⟩,clear''⟩
    exact readsPlain reads whole'.through unlabelled
  · obtain ⟨bs,after_,reads,clear''⟩ := sungReads clear' opens passes stripped body
    refine ⟨hs ++ bs,by rw [before_,after_,List.append_assoc],⟨hs,bs,h,rfl,whole,rfl,rfl,first,reads,fun none_ => ?_⟩,clear''⟩
    rw [show rhymes = [] from none_] at passes
    cases passes.1

theorem readsVersus_ (read : VersusRead us v) : ReadsOff versus v us := by
  obtain ⟨name,mode,e,rhymes⟩ := v
  obtain ⟨hs,bs,h,rfl,-,rfl,rfl,heading_,body,-⟩ := read
  have named : ReadsOff (fun n => verseBody h.2.2 n >>= fun b => pure (⟨h.1,h.2.2,b.2,b.1⟩ : Versus)) ⟨h.1,h.2.2,e,rhymes⟩ bs := by
    intro p rest clear same
    obtain ⟨n,q,returned,last⟩ := body p rest clear same
    exact ⟨n,q,returnsBind.mpr ⟨_,q,returned,returnsPure.mpr ⟨rfl,rfl⟩⟩,last⟩
  intro p rest clear same
  obtain ⟨n,q,returned,last⟩ := readsThen (f := fun n h => verseBody h.2.2 n >>= fun b => pure (⟨h.1,h.2.2,b.2,b.1⟩ : Versus))
    (fun n k a le => ⟨belowRefl _,belowBind (bodyBelow le) fun _ => belowRefl _⟩) heading_ named p rest clear same
  refine ⟨n,q,?_,last⟩
  rw [← versusIs,versusBy]
  simp only [verseBody,bindAssoc,pureThen] at returned
  simp only [stmtsIs]
  exact returned

end Verses

section Turns
variable {n : Nat} {prog prog' : Program} {p q : Parser} {rest : List Tok}

theorem clearPast (clear : Clear p) : Clear p.pastNewlines := clear

theorem peekPast (clear : Clear p) : Returns peek p.pastNewlines (ahead p.pastNewlines).head? p.pastNewlines := by
  rw [Returns,peekIs,settleOutside (clearPast clear).1]

theorem wordHere {s : String} (h : word p = some s) : ∃ rest, ahead p = .ident s :: rest := by
  have here := aheadHere (p := p)
  unfold word at h
  split at h
  · rename_i u line found
    cases h
    rw [found] at here
    exact headCons here.symm
  · cases h

theorem turnOver (clear : Clear p) (none_ : ahead p.pastNewlines = []) : Returns (programLoop (n+1) prog) p prog p.pastNewlines := by
  have peeked := peekPast clear
  rw [none_] at peeked
  rw [Returns,programLoop,returnsThen skipNewlinesPast,returnsThen peeked]
  rfl

theorem turnFuga (clear : Clear p) (here : ahead p.pastNewlines = .ident "fuga" :: rest) :
    programLoop (n+1) prog p = (fugue n >>= fun f => programLoop n { prog with fugues := prog.fugues ++ [f] }) (skip p.pastNewlines 1) := by
  have peeked := peekPast clear
  rw [here,List.head?_cons] at peeked
  rw [programLoop,returnsThen skipNewlinesPast,returnsThen peeked,if_neg (show ¬Option.isNone (some _) = true from Bool.false_ne_true),keywordIs (settledPast p) (wordAhead here)]
  rfl

theorem turnVersus (clear : Clear p) (here : ahead p.pastNewlines = .ident "versus" :: rest) :
    programLoop (n+1) prog p = (versus n >>= fun v => programLoop n { prog with verses := prog.verses ++ [v] }) (skip p.pastNewlines 1) := by
  have peeked := peekPast clear
  rw [here,List.head?_cons] at peeked
  have word_ := wordAhead here
  rw [programLoop,returnsThen skipNewlinesPast,returnsThen peeked,if_neg (show ¬Option.isNone (some _) = true from Bool.false_ne_true),keywordNot (settledPast p) (by rw [word_]; decide),
    keywordIs (settledPast p) word_]
  rfl

theorem turnReturns (clear : Clear p) (h : Returns (programLoop (n+1) prog) p prog' q) : (ahead p.pastNewlines = [] ∧ prog' = prog) ∨
    (∃ rest, ahead p.pastNewlines = .ident "fuga" :: rest) ∨ ∃ rest, ahead p.pastNewlines = .ident "versus" :: rest := by
  rw [Returns,programLoop,returnsThen skipNewlinesPast,returnsThen (peekPast clear)] at h
  split at h
  · rename_i none_
    obtain ⟨rfl,-⟩ := returnsPure.mp h
    exact .inl ⟨by simpa using none_,rfl⟩
  · by_cases fuga : word p.pastNewlines = some "fuga"
    · exact .inr (.inl (wordHere fuga))
    · rw [keywordNot (settledPast p) fuga] at h
      by_cases verse : word p.pastNewlines = some "versus"
      · exact .inr (.inr (wordHere verse))
      · rw [keywordNot (settledPast p) verse] at h
        exact (givesRefuse (p := fun _ => False) _ _ _ _ h).elim

end Turns

/- A score as its items, with newlines between them. -/
inductive Items : List Tok → Program → Prop where
  | over_ {ts} (blank : ∀ t ∈ ts, t.isNewline = true) : Items ts ⟨[],[]⟩
  | fuga {newlines us ts f prog} (blank : ∀ t ∈ newlines, t.isNewline = true) (read : FugueRead us f) (later : Items ts prog) :
      Items (newlines ++ .ident "fuga" :: (us ++ ts)) ⟨f :: prog.fugues,prog.verses⟩
  | versus {newlines us ts v prog} (blank : ∀ t ∈ newlines, t.isNewline = true) (read : VersusRead us v) (later : Items ts prog) :
      Items (newlines ++ .ident "versus" :: (us ++ ts)) ⟨prog.fugues,v :: prog.verses⟩

section Scores
variable {n : Nat} {prog prog' prog₁ prog₂ : Program} {p q : Parser} {ts us : List Tok}

/- The items of one program and then those of another. -/
def joined (prog prog' : Program) : Program := ⟨prog.fugues ++ prog'.fugues,prog.verses ++ prog'.verses⟩

/- What the program's loop returns are the items ahead. -/
theorem programItems (clear : Clear p) (h : Returns (programLoop n prog) p prog' q) : ∃ found, prog' = joined prog found ∧ Items (ahead p) found := by
  induction n generalizing p prog with
  | zero => exact (returnsCut h).elim
  | succ n ih =>
    obtain ⟨newlines,same,blank⟩ := newlinesAhead p
    rcases turnReturns clear h with ⟨none_,rfl⟩ | ⟨rest,here⟩ | ⟨rest,here⟩
    · refine ⟨⟨[],[]⟩,by simp [joined],?_⟩
      rw [same,none_,List.append_nil]
      exact .over_ blank
    · rw [Returns,turnFuga clear here] at h
      obtain ⟨f,r,read,more⟩ := returnsBind.mp h
      obtain ⟨us,next,fugue_,clear'⟩ := fugueReads (show Clear (skip p.pastNewlines 1) from clear) read
      obtain ⟨found,rfl,items⟩ := ih clear' more
      refine ⟨⟨f :: found.fugues,found.verses⟩,by simp [joined],?_⟩
      rw [same,here,← aheadNext here,next]
      exact .fuga blank fugue_ items
    · rw [Returns,turnVersus clear here] at h
      obtain ⟨v,r,read,more⟩ := returnsBind.mp h
      obtain ⟨us,next,verse,clear'⟩ := versusReads_ (show Clear (skip p.pastNewlines 1) from clear) read
      obtain ⟨found,rfl,items⟩ := ih clear' more
      refine ⟨⟨found.fugues,v :: found.verses⟩,by simp [joined],?_⟩
      rw [same,here,← aheadNext here,next]
      exact .versus blank verse items

/- And the items ahead are what it returns. -/
theorem itemsProgram (items : Items ts prog') (clear : Clear p) (same : ahead p = ts) :
    ∃ n q, Returns (programLoop n prog) p (joined prog prog') q := by
  induction items generalizing p prog with
  | @over_ ts blank =>
    refine ⟨1,p.pastNewlines,?_⟩
    have none_ : ahead p.pastNewlines = [] := by
      rw [aheadPastNewlines,same,← List.append_nil ts,List.dropWhile_append_of_pos blank]
      rfl
    rw [show joined prog ⟨[],[]⟩ = prog by simp [joined]]
    exact turnOver clear none_
  | @fuga newlines us ts f found blank read later ih =>
    have here : ahead p.pastNewlines = .ident "fuga" :: (us ++ ts) := by rw [aheadPastNewlines,same,(takeNewlines blank rfl _).2]
    obtain ⟨n,r,returned,next,clear'⟩ := readsFugue read (skip p.pastNewlines 1) ts (clearPast clear) (aheadNext here)
    have more : ∃ k q, Returns (programLoop k { prog with fugues := prog.fugues ++ [f] }) r
        (joined { prog with fugues := prog.fugues ++ [f] } found) q := ih clear' next
    obtain ⟨k,q,more⟩ := more
    rw [show joined { prog with fugues := prog.fugues ++ [f] } found = joined prog ⟨f :: found.fugues,found.verses⟩ by simp [joined]] at more
    refine ⟨max n k + 1,q,?_⟩
    rw [Returns,turnFuga clear here]
    exact returnsBind.mpr ⟨f,r,fugueBelow (Nat.le_max_left n k) _ _ returned,programLoopBelow (Nat.le_max_right n k) _ _ _ more⟩
  | @versus newlines us ts v found blank read later ih =>
    have here : ahead p.pastNewlines = .ident "versus" :: (us ++ ts) := by rw [aheadPastNewlines,same,(takeNewlines blank rfl _).2]
    obtain ⟨n,r,returned,next,clear'⟩ := readsVersus_ read (skip p.pastNewlines 1) ts (clearPast clear) (aheadNext here)
    have more : ∃ k q, Returns (programLoop k { prog with verses := prog.verses ++ [v] }) r
        (joined { prog with verses := prog.verses ++ [v] } found) q := ih clear' next
    obtain ⟨k,q,more⟩ := more
    rw [show joined { prog with verses := prog.verses ++ [v] } found = joined prog ⟨found.fugues,v :: found.verses⟩ by simp [joined]] at more
    refine ⟨max n k + 1,q,?_⟩
    rw [Returns,turnVersus clear here]
    exact returnsBind.mpr ⟨v,r,versusBelow (Nat.le_max_left n k) _ _ returned,programLoopBelow (Nat.le_max_right n k) _ _ _ more⟩

theorem itemsBlank {newlines : List Tok} (blank : ∀ t ∈ newlines, t.isNewline = true) (items : Items ts prog) : Items (newlines ++ ts) prog := by
  cases items with
  | over_ blank' => exact .over_ fun t mem => (List.mem_append.mp mem).elim (blank t) (blank' t)
  | fuga blank' read later =>
    rw [← List.append_assoc]
    exact .fuga (fun t mem => (List.mem_append.mp mem).elim (blank t) (blank' t)) read later
  | versus blank' read later =>
    rw [← List.append_assoc]
    exact .versus (fun t mem => (List.mem_append.mp mem).elim (blank t) (blank' t)) read later

theorem itemsAppend (first : Items ts prog₁) (second : Items us prog₂) : Items (ts ++ us) (joined prog₁ prog₂) := by
  induction first with
  | over_ blank => exact itemsBlank blank second
  | @fuga newlines vs ts f prog blank read later ih =>
    rw [List.append_assoc,List.cons_append,List.append_assoc]
    exact .fuga blank read ih
  | @versus newlines vs ts v prog blank read later ih =>
    rw [List.append_assoc,List.cons_append,List.append_assoc]
    exact .versus blank read ih

/- The parser, started on these tokens, returns this program. -/
def ParsesTo (toks : Lexed) (prog : Program) : Prop := ∃ n q, Returns (programLoop n ⟨[],[]⟩) ⟨toks,0,0,0⟩ prog q

theorem parsesToItems {toks : Lexed} : ParsesTo toks prog ↔ Items (toks.map Prod.fst) prog := by
  constructor
  · rintro ⟨n,q,returned⟩
    obtain ⟨found,rfl,items⟩ := programItems (p := ⟨toks,0,0,0⟩) ⟨rfl,rfl⟩ returned
    exact items
  · intro items
    have returned : ∃ n q, Returns (programLoop n ⟨[],[]⟩) ⟨toks,0,0,0⟩ (joined ⟨[],[]⟩ prog) q := itemsProgram items ⟨rfl,rfl⟩ rfl
    exact returned

end Scores

end Officium.Parser

import Officium.Spelling
import Officium.Agreement

/-! A source cut into what the lexer takes from it turn by turn: tokens, blanks, line breaks and
comments. What a piece is depends on the tokens of its line and on the byte that follows, on no more. -/
namespace Officium.Lexer

/- A line that is only a rhyme label and its sung text. -/
def sung : List Tok → Bool
  | [.ident l,.str _] => (rhymeLabel l).isSome
  | _ => false

/- Bytes that no token goes on with. -/
def stops (b : UInt8) : Bool := b == 32 || b == 9 || b == 13 || b == 10 || b == 59

def blank (b : UInt8) : Bool := b == 32 || b == 9 || b == 13

/- The bytes of a token where these follow. -/
inductive Piece : List UInt8 → Tok → List UInt8 → Prop where
  | mark {b t bs} (marks : Marks b t) : Piece [b] t bs
  | arrow {bs} : Piece [45,62] .arrow bs
  | minus {bs} (alone : bs.head? ≠ some 62) : Piece [45] .minus bs
  | bindArrow {bs} : Piece [60,45] .bindArrow bs
  | word {c rest bs} (first : (alphabetic c || c == 95) = true) (others : rest.all nameByte = true) (ends : Until nameByte bs) :
      Piece (c :: rest) (.ident (ascii (c :: rest))) bs
  | number {c rest x bs} (first : digit c = true) (span : numberSpan c (rest ++ bs) = (rest,bs)) (value : parseF64 (c :: rest) = some x) :
      Piece (c :: rest) (.num x) bs
  | str {body s bs} (inside : body.all (fun b => b != 34 && b != 10) = true) (decoded : String.fromUTF8? ⟨body.toArray⟩ = some s) :
      Piece (34 :: (body ++ [34])) (.str s) bs

/- The text is over or a line break follows. -/
def LineEnd (bs : List UInt8) : Prop := bs = [] ∨ bs.head? = some 10

/- After the tokens `h` of a line the bytes `a`, where `b` follows, are read as `ts` and leave the line at
`h'`. -/
inductive Reads : List Tok → List UInt8 → List UInt8 → List Tok → List Tok → Prop where
  | here {h b} : Reads h [] b [] h
  | token {h p t a b ts h'} (piece : Piece p t (a ++ b)) (more : Reads (h ++ [t]) a b ts h') : Reads h (p ++ a) b (t :: ts) h'
  | blank {h c a b ts h'} (blank : blank c = true) (more : Reads h a b ts h') : Reads h (c :: a) b ts h'
  | newline {h a b ts h'} (some_ : h ≠ []) (more : Reads [] a b ts h') : Reads h (10 :: a) b (.newline :: ts) h'
  | emptyLine {a b ts h'} (more : Reads [] a b ts h') : Reads [] (10 :: a) b ts h'
  | semi {h a b ts h'} (is_sung : sung h = true) (more : Reads (h ++ [.semi]) a b ts h') : Reads h (59 :: a) b (.semi :: ts) h'
  | comment {h text a b ts h'} (plain : sung h = false) (inside : 10 ∉ text) (ends : LineEnd (a ++ b)) (more : Reads h a b ts h') :
      Reads h (59 :: (text ++ a)) b ts h'

section Follow
variable {p a b b' bs bs' w : List UInt8} {t : Tok} {h h' h'' ts ts' : List Tok}

/- Followed alike, or by a byte that ends any token. -/
def Alike (bs bs' : List UInt8) : Prop := bs'.head? = bs.head? ∨ ∃ x, bs'.head? = some x ∧ stops x = true

theorem stopsName {x : UInt8} (h : stops x = true) : nameByte x = false ∧ numberByte x = false ∧ x ≠ 62 := by
  simp only [stops,Bool.or_eq_true,beq_iff_eq] at h
  rcases h with (((rfl | rfl) | rfl) | rfl) | rfl <;> decide

theorem untilAlike {q : UInt8 → Bool} (never : ∀ x, stops x = true → q x = false) (ends : Until q bs) (alike : Alike bs bs') : Until q bs' := by
  intro x found
  rcases alike with same | ⟨y,is_,stop⟩
  · exact ends x (same ▸ found)
  · rw [is_] at found
    cases found
    exact never _ stop

theorem spanAlike {prev : UInt8} {rest : List UInt8} (span : numberSpan prev (rest ++ bs) = (rest,bs)) (alike : Alike bs bs') :
    numberSpan prev (rest ++ bs') = (rest,bs') := by
  induction rest generalizing prev with
  | nil =>
    rw [List.nil_append] at span ⊢
    cases bs' with
    | nil => rfl
    | cons x more =>
      have out : (digit x || x == 46 || exponentMark x || (sign x && exponentMark prev)) = false := by
        rcases alike with same | ⟨y,is_,stop⟩
        · cases bs with
          | nil => cases same
          | cons x' more' =>
            cases Option.some.inj same
            rw [numberSpan] at span
            split at span
            · cases congrArg (List.length ∘ Prod.fst) span
            · rename_i out
              exact Bool.not_eq_true _ ▸ out
        · cases Option.some.inj is_
          have never := (stopsName stop).2.1
          simp only [numberByte,Bool.or_eq_false_iff] at never
          simp [never]
      rw [numberSpan,if_neg (by rw [out]; decide)]
  | cons d rest ih =>
    rw [List.cons_append,numberSpan] at span ⊢
    split at span
    · rename_i inside
      have same := Prod.mk.inj span
      have tail : numberSpan d (rest ++ bs) = (rest,bs) := Prod.ext (List.cons.inj same.1).2 same.2
      rw [if_pos inside,ih tail]
    · cases (Prod.mk.inj span).1

theorem pieceAlike (piece : Piece p t bs) (alike : Alike bs bs') : Piece p t bs' := by
  cases piece with
  | mark marks => exact .mark marks
  | arrow => exact .arrow
  | minus alone =>
    refine .minus fun arrow => ?_
    rcases alike with same | ⟨y,is_,stop⟩
    · exact alone (same ▸ arrow)
    · rw [is_] at arrow
      cases arrow
      cases stop
  | bindArrow => exact .bindArrow
  | word first others ends => exact .word first others (untilAlike (fun x stop => (stopsName stop).1) ends alike)
  | number first span value => exact .number first (spanAlike span alike) value
  | str inside decoded => exact .str inside decoded

theorem pieceSome (piece : Piece p t bs) : p ≠ [] := by cases piece <;> nofun

theorem readsNothing (reads : Reads h [] b ts h') : ts = [] ∧ h' = h := by
  generalize none_ : ([] : List UInt8) = a at reads
  cases reads with
  | here => exact ⟨rfl,rfl⟩
  | token piece more => exact absurd (List.append_eq_nil_iff.mp none_.symm).1 (pieceSome piece)
  | _ => cases none_

theorem alikeAppend (alike : Alike b b') : Alike (a ++ b) (a ++ b') := by
  cases a with
  | nil => exact alike
  | cons x a => exact .inl rfl

theorem readsTrans (first : Reads h a (w ++ b) ts h') (second : Reads h' w b ts' h'') : Reads h (a ++ w) b (ts ++ ts') h'' := by
  generalize follow : w ++ b = bs at first
  induction first with
  | here => exact second
  | @token h p t a b' ts h' piece more ih =>
    subst follow
    rw [List.append_assoc]
    rw [← List.append_assoc] at piece
    exact .token piece (ih second rfl)
  | blank is_ more ih => exact .blank is_ (ih second follow)
  | newline some_ more ih => exact .newline some_ (ih second follow)
  | emptyLine more ih => exact .emptyLine (ih second follow)
  | semi is_sung more ih => exact .semi is_sung (ih second follow)
  | @comment h text a b' ts h' plain inside ends more ih =>
    subst follow
    rw [List.cons_append,List.append_assoc]
    rw [← List.append_assoc] at ends
    exact .comment plain inside ends (ih second rfl)

/- What is read does not change when a line break follows, or what followed does so alike. -/
theorem readsFollow (reads : Reads h a b ts h') (alike : b'.head? = b.head? ∨ b'.head? = some 10) : Reads h a b' ts h' := by
  have alike' : Alike b b' := alike.imp_right fun line => ⟨10,line,rfl⟩
  induction reads with
  | here => exact .here
  | token piece more ih => exact .token (pieceAlike piece (alikeAppend alike')) (ih alike alike')
  | blank is_ more ih => exact .blank is_ (ih alike alike')
  | newline some_ more ih => exact .newline some_ (ih alike alike')
  | emptyLine more ih => exact .emptyLine (ih alike alike')
  | semi is_sung more ih => exact .semi is_sung (ih alike alike')
  | @comment h text a b ts h' plain inside ends more ih =>
    refine .comment plain inside ?_ (ih alike alike')
    cases a with
    | cons x a => exact ends.imp nofun id
    | nil =>
      rcases alike with same | line
      · rcases ends with rfl | line
        · exact .inl (List.head?_eq_none_iff.mp same)
        · exact .inr (same.trans line)
      · exact .inr line

/- Bytes put in at the end of what is read: they are read after it, or they are more of its last comment. -/
theorem readsInsert (reads : Reads h a b ts h') (stop : ∃ x, w.head? = some x ∧ stops x = true) (inside : 10 ∉ w)
    (more : Reads h' w b [] h') : Reads h (a ++ w) b ts h' := by
  induction reads with
  | here => exact more
  | @token h p t a b ts h' piece _ ih =>
    rw [List.append_assoc]
    refine .token (pieceAlike piece ?_) (ih more)
    rw [List.append_assoc]
    obtain ⟨x,first,ends⟩ := stop
    cases w with
    | nil => cases first
    | cons x' w => exact alikeAppend (.inr ⟨x,first,ends⟩)
  | blank is_ _ ih => exact .blank is_ (ih more)
  | newline some_ _ ih => exact .newline some_ (ih more)
  | emptyLine _ ih => exact .emptyLine (ih more)
  | semi is_sung _ ih => exact .semi is_sung (ih more)
  | @comment h text a b ts h' plain free ends rest ih =>
    rw [List.cons_append,List.append_assoc]
    cases a with
    | cons x a => exact .comment plain free (ends.imp nofun id) (ih more)
    | nil =>
      obtain ⟨rfl,rfl⟩ := readsNothing rest
      rw [List.nil_append,← List.append_nil w,← List.append_assoc]
      exact .comment plain (fun mem => (List.mem_append.mp mem).elim free inside) ends .here

end Follow

section Loop
variable {n line : Nat} {toks toks' : Lexed} {p bs : List UInt8} {t : Tok} {h h' ts : List Tok}

/- The tokens of the line so far. -/
def headOf (toks : Lexed) : List Tok := (lineHead toks).map Prod.fst

theorem headPush (plain : t.isNewline = false) : headOf (toks ++ [(t,line)]) = headOf toks ++ [t] := by
  rw [headOf,lineHead,List.reverse_append,List.reverse_singleton,List.singleton_append,List.takeWhile_cons_of_pos (by simp [plain]),
    List.reverse_cons,List.map_append]
  rfl

theorem headLine : headOf (toks ++ [(.newline,line)]) = [] := by
  rw [headOf,lineHead,List.reverse_append,List.reverse_singleton,List.singleton_append,List.takeWhile_cons_of_neg Bool.false_ne_true]
  rfl

/- A line has no token yet at the start and after a line break. -/
theorem headNone : headOf toks = [] ↔ ∀ u, toks.getLast? = some u → u.1.isNewline = true := by
  rcases List.eq_nil_or_concat toks with rfl | ⟨before,last,rfl⟩
  · exact ⟨fun _ u found => (by cases found),fun _ => rfl⟩
  · obtain ⟨t,line⟩ := last
    rw [List.concat_eq_append,List.getLast?_concat]
    cases plain : t.isNewline with
    | true =>
      have is_ : t = .newline := by cases t <;> first | rfl | cases plain
      rw [is_]
      exact iff_of_true headLine fun u found => by cases found; rfl
    | false =>
      rw [headPush plain]
      exact iff_of_false (by simp) fun all => by
        have never := all _ rfl
        rw [plain] at never
        cases never

theorem sungHead : isSung toks = sung (headOf toks) := by
  unfold isSung headOf
  generalize lineHead toks = head
  match head with
  | [] => rfl
  | [(t,_)] => cases t <;> rfl
  | [(t,_),(u,_)] => cases t <;> cases u <;> rfl
  | (t,_) :: (u,_) :: _ :: _ => cases t <;> cases u <;> rfl

theorem pieceToken (piece : Piece p t bs) : t.isNewline = false := by
  cases piece with
  | mark marks => exact marks.1
  | _ => rfl

theorem loopPiece (piece : Piece p t bs) (n line : Nat) (toks : Lexed) :
    lexLoop (n+1) toks line (p ++ bs) = lexLoop n (toks ++ [(t,line)]) line bs := by
  cases piece with
  | mark marks => exact marks.2 n toks line bs
  | arrow => rfl
  | minus alone =>
    cases bs with
    | nil => rfl
    | cons b bs =>
      by_cases arrow : b = 62
      · exact absurd (congrArg some arrow) alone
      · rw [List.singleton_append,lexLoopMinus]
        split
        · rename_i same
          exact absurd (List.cons.inj same).1 arrow
        · rfl
  | bindArrow => rfl
  | @word c rest _ first others ends =>
    obtain ⟨taken,dropped⟩ := spanEnds others ends
    rw [List.cons_append,lexWord first,taken,dropped]
  | @number c rest x _ first span value =>
    rw [List.cons_append,lexNumber first,span,value]
  | @str body s _ inside decoded =>
    have ends : Until (fun b => b != 34 && b != 10) (34 :: bs) := fun b found => by cases found; rfl
    obtain ⟨taken,dropped⟩ := spanEnds inside ends
    rw [List.cons_append,List.append_assoc,List.singleton_append,lexLoop.eq_def]
    simp only [taken,dropped,decoded]
    rfl

theorem loopBreak (n line : Nat) (toks : Lexed) : lexLoop (n+1) toks line (10 :: bs) =
    if headOf toks = [] then lexLoop n toks (line+1) bs else lexLoop n (toks ++ [(.newline,line)]) (line+1) bs := by
  rw [lexLoopNewline]
  split
  · rename_i none_
    rw [if_pos (headNone.mpr fun u found => by rw [none_] at found; cases found)]
  · rename_i l last
    rw [if_pos (headNone.mpr fun u found => by rw [last] at found; cases found; rfl)]
  · rename_i u other last
    obtain ⟨t,l⟩ := u
    rw [if_neg]
    intro none_
    have never := headNone.mp none_ _ last
    cases t <;> first | exact other _ rfl | cases never

theorem loopBlank {c : UInt8} (is_ : blank c = true) (n line : Nat) (toks : Lexed) : lexLoop (n+1) toks line (c :: bs) = lexLoop n toks line bs := by
  simp only [blank,Bool.or_eq_true,beq_iff_eq] at is_
  rcases is_ with (rfl | rfl) | rfl <;> rfl

theorem loopSemi (n line : Nat) (toks : Lexed) : lexLoop (n+1) toks line (59 :: bs) =
    if sung (headOf toks) then lexLoop n (toks ++ [(.semi,line)]) line bs else lexLoop n toks line (bs.dropWhile (fun b => b != 10)) := by
  have shape : lexLoop (n+1) toks line (59 :: bs) = if isSung toks then lexLoop n (toks ++ [(.semi,line)]) line bs
      else lexLoop n toks line (bs.dropWhile (fun b => b != 10)) := rfl
  rw [shape,sungHead]

theorem takeLine : 10 ∉ bs.takeWhile (fun b => b != 10) := by
  intro mem
  have never := List.all_eq_true.mp (List.all_takeWhile (p := fun b => b != 10) (l := bs)) _ mem
  cases never

theorem dropEnds {q : UInt8 → Bool} : Until q (bs.dropWhile q) := by
  intro b found
  have first := List.head?_dropWhile_not q bs
  rw [found] at first
  exact first

theorem dropLine : LineEnd (bs.dropWhile (fun b => b != 10)) := by
  cases found : bs.dropWhile (fun b => b != 10) with
  | nil => exact .inl rfl
  | cons b more =>
    have first := List.head?_dropWhile_not (fun b => b != 10) bs
    rw [found] at first
    exact .inr (congrArg some (by simpa using first))

theorem lineEndDrops {text : List UInt8} (inside : 10 ∉ text) (ends : LineEnd bs) : (text ++ bs).dropWhile (fun b => b != 10) = bs := by
  refine (spanEnds (List.all_eq_true.mpr fun b mem => ?_) fun b found => ?_).2
  · exact bne_iff_ne.mpr fun same => inside (same ▸ mem)
  · rcases ends with rfl | line
    · cases found
    · rw [line] at found
      cases found
      rfl

/- From these tokens on the loop comes to the bytes `b` with these tokens more. -/
def Passes (toks : Lexed) (line : Nat) (bs : List UInt8) (ts h' : List Tok) (b : List UInt8) : Prop :=
  ∃ k us line', us.map Prod.fst = ts ∧ headOf (toks ++ us) = h' ∧ ∀ n, lexLoop (n+k) toks line bs = lexLoop n (toks ++ us) line' b

theorem passesStep {line' : Nat} {rest b : List UInt8} (step : ∀ n, lexLoop (n+1) toks line bs = lexLoop n toks line' rest)
    (later : Passes toks line' rest ts h' b) : Passes toks line bs ts h' b := by
  obtain ⟨k,us,last,same,head,passes⟩ := later
  refine ⟨k+1,us,last,same,head,fun n => ?_⟩
  rw [← Nat.add_assoc,step,passes]

theorem passesPush {line' : Nat} {rest b : List UInt8} (step : ∀ n, lexLoop (n+1) toks line bs = lexLoop n (toks ++ [(t,line)]) line' rest)
    (later : Passes (toks ++ [(t,line)]) line' rest ts h' b) : Passes toks line bs (t :: ts) h' b := by
  obtain ⟨k,us,last,same,head,passes⟩ := later
  refine ⟨k+1,(t,line) :: us,last,congrArg (t :: ·) same,by rwa [List.append_assoc] at head,fun n => ?_⟩
  rw [← Nat.add_assoc,step,passes,List.append_assoc]
  rfl

/- The loop passes over what is read. -/
theorem readsPasses {a b : List UInt8} (reads : Reads h a b ts h') {toks : Lexed} (head : headOf toks = h) {line : Nat} :
    Passes toks line (a ++ b) ts h' b := by
  induction reads generalizing toks line with
  | here => exact ⟨0,[],line,rfl,by rwa [List.append_nil],fun n => by rw [List.append_nil]; rfl⟩
  | @token h p t a b ts h' piece more ih =>
    rw [List.append_assoc]
    exact passesPush (fun n => loopPiece piece n line toks) (ih ((headPush (pieceToken piece)).trans (congrArg (· ++ [t]) head)))
  | blank is_ more ih => exact passesStep (fun n => loopBlank is_ n line toks) (ih head)
  | newline some_ more ih => exact passesPush (fun n => (loopBreak n line toks).trans (if_neg (head ▸ some_))) (ih headLine)
  | emptyLine more ih => exact passesStep (fun n => (loopBreak n line toks).trans (if_pos head)) (ih head)
  | semi is_sung more ih =>
    exact passesPush (fun n => (loopSemi n line toks).trans (if_pos (head ▸ is_sung))) (ih ((headPush rfl).trans (congrArg (· ++ [.semi]) head)))
  | @comment h text a b ts h' plain inside ends more ih =>
    refine passesStep (fun n => ?_) (ih head : Passes toks line (a ++ b) ts h' b)
    rw [List.cons_append,List.append_assoc,loopSemi,head,if_neg (by rw [plain]; decide),lineEndDrops inside ends]

/- What is read is what the loop makes of it. -/
theorem readsLoop (reads : Reads h bs [] ts h') {toks : Lexed} (head : headOf toks = h) {line : Nat} : Lexes toks line bs ts := by
  obtain ⟨k,us,last,same,-,passes⟩ := (readsPasses reads head : Passes toks line (bs ++ []) ts h' [])
  refine ⟨us,k,same,fun n le => ?_⟩
  obtain ⟨m,rfl⟩ := Nat.exists_eq_add_of_le' le
  rw [List.append_nil] at passes
  rw [passes]
  cases m <;> rfl

/- What the loop makes of the bytes is read so. -/
theorem loopReads (lexed : lexLoop n toks line bs = some (.ok toks')) :
    ∃ us h', toks' = toks ++ us ∧ Reads (headOf toks) bs [] (us.map Prod.fst) h' := by
  induction n generalizing toks line bs with
  | zero =>
    cases bs with
    | nil =>
      cases lexed
      exact ⟨[],_,(List.append_nil _).symm,.here⟩
    | cons c rest => cases lexed
  | succ n ih =>
    -- a piece taken by one turn, and what the loop makes of the rest
    have take {t : Tok} {p rest : List UInt8} (piece : Piece p t rest) (same : bs = p ++ rest)
        (next : lexLoop n (toks ++ [(t,line)]) line rest = some (.ok toks')) :
        ∃ us h', toks' = toks ++ us ∧ Reads (headOf toks) bs [] (us.map Prod.fst) h' := by
      obtain ⟨us,h',rfl,reads⟩ := ih next
      rw [headPush (pieceToken piece)] at reads
      exact ⟨(t,line) :: us,h',List.append_assoc .., same ▸ .token (by rwa [List.append_nil]) reads⟩
    cases bs with
    | nil =>
      cases lexed
      exact ⟨[],_,(List.append_nil _).symm,.here⟩
    | cons c rest =>
      by_cases break_ : c = 10
      · rw [break_,loopBreak] at lexed
        split at lexed
        · rename_i none_
          obtain ⟨us,h',rfl,reads⟩ := ih lexed
          rw [none_] at reads ⊢
          exact ⟨us,h',rfl,break_ ▸ .emptyLine reads⟩
        · rename_i some_
          obtain ⟨us,h',rfl,reads⟩ := ih lexed
          rw [headLine] at reads
          exact ⟨(.newline,line) :: us,h',List.append_assoc ..,break_ ▸ .newline some_ reads⟩
      by_cases semi : c = 59
      · rw [semi,loopSemi] at lexed
        split at lexed
        · rename_i is_sung
          obtain ⟨us,h',rfl,reads⟩ := ih lexed
          rw [headPush rfl] at reads
          exact ⟨(.semi,line) :: us,h',List.append_assoc ..,semi ▸ .semi is_sung reads⟩
        · rename_i plain
          obtain ⟨us,h',rfl,reads⟩ := ih lexed
          refine ⟨us,h',rfl,?_⟩
          rw [semi,← List.takeWhile_append_dropWhile (p := fun b => b != 10) (l := rest)]
          exact .comment (Bool.not_eq_true _ ▸ plain) takeLine (by rw [List.append_nil]; exact dropLine) reads
      by_cases is_ : blank c = true
      · rw [loopBlank is_] at lexed
        obtain ⟨us,h',rfl,reads⟩ := ih lexed
        exact ⟨us,h',rfl,.blank is_ reads⟩
      rw [lexLoop.eq_def] at lexed
      simp only at lexed
      generalize kind : Char.ofNat c.toNat = k at lexed
      split at lexed
      case h_16 =>
        cases charByte kind
        rcases Indexed.headCases rest 62 with ⟨more,rfl⟩ | ⟨other,alone⟩
        · exact take .arrow rfl lexed
        · simp only at lexed
          refine take (.minus fun arrow => ?_) rfl lexed
          rw [arrow] at alone
          cases alone
      case h_17 =>
        cases charByte kind
        rcases Indexed.headCases rest 45 with ⟨more,rfl⟩ | ⟨other,-⟩
        · exact take .bindArrow rfl lexed
        · simp only at lexed
          cases lexed
      case h_18 =>
        cases charByte kind
        have whole := List.takeWhile_append_dropWhile (p := fun b => b != 34 && b != 10) (l := rest)
        rcases Indexed.headCases (rest.dropWhile (fun b => b != 34 && b != 10)) 34 with ⟨more,closed⟩ | ⟨other,-⟩
        · rw [closed] at whole
          simp only [closed] at lexed
          split at lexed
          · rename_i s decoded
            refine take (.str List.all_takeWhile decoded) ?_ lexed
            rw [List.cons_append,List.append_assoc]
            exact congrArg (34 :: ·) whole.symm
          · cases lexed
        · split at lexed
          · rename_i more closed
            exact absurd closed (other more)
          · cases lexed
      case h_19 =>
        split at lexed
        · rename_i first
          split at lexed
          · rename_i x value
            exact take (.number first (by rw [Indexed.numberSplit]) value) (congrArg (c :: ·) (Indexed.numberSplit c rest).symm) lexed
          · cases lexed
        · split at lexed
          · rename_i first
            exact take (.word first List.all_takeWhile dropEnds) (congrArg (c :: ·) List.takeWhile_append_dropWhile.symm) lexed
          · cases lexed
      all_goals cases charByte kind
      all_goals first | exact take (.mark ⟨rfl,fun _ _ _ _ => rfl⟩) rfl lexed | exact absurd rfl break_ | exact absurd rfl semi | exact absurd rfl is_

/- What comes after a part that is read is read after it. -/
theorem readsAfter {a b : List UInt8} {ts₁ h₁ : List Tok} (first : Reads [] a b ts₁ h₁) (whole : Reads [] (a ++ b) [] ts h) :
    ∃ ts₂ h', ts = ts₁ ++ ts₂ ∧ Reads h₁ b [] ts₂ h' := by
  obtain ⟨k,us,line,rfl,head,passes⟩ := (readsPasses first rfl : Passes [] 1 (a ++ b) ts₁ h₁ b)
  obtain ⟨vs,l,rfl,settled⟩ := (readsLoop whole rfl : Lexes [] 1 (a ++ b) ts)
  have lexed := settled (l+k) (Nat.le_add_right l k)
  rw [passes l] at lexed
  obtain ⟨more,h',same,reads⟩ := loopReads lexed
  rw [head] at reads
  refine ⟨more.map Prod.fst,h',?_,reads⟩
  rw [List.nil_append,List.nil_append] at same
  rw [same,List.map_append]

/- The tokens of a source, and that the lexer finds them. -/
theorem lexIff {src : String} {ts : List Tok} :
    (∃ h, Reads [] (bytes src) [] ts h) ↔ ∃ n toks, lex n src = some (.ok toks) ∧ toks.map Prod.fst = ts := by
  constructor
  · rintro ⟨h,reads⟩
    obtain ⟨us,k,same,settled⟩ := (readsLoop reads rfl : Lexes [] 1 (bytes src) ts)
    exact ⟨k,us,settled k (Nat.le_refl k),same⟩
  · rintro ⟨n,toks,lexed,rfl⟩
    obtain ⟨us,h,rfl,reads⟩ := loopReads lexed
    exact ⟨h,reads⟩

end Loop

end Officium.Lexer

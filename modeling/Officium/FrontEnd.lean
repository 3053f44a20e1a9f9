import Officium.Agreement

/-! The front end always comes to an end: the lexer takes a byte in every turn, and the parser a
token in every loop and before every call that could come back to it. -/
namespace Officium.Parser
open Bounded
open Lexer (Tok Lexed rhymeLabel numberSpan parseF64 nameByte)

section Lines

/- The lines of a text. A newline ends one and what stands after the last newline is another. -/
def lines : List UInt8 → Nat
  | [] => 0
  | b :: rest => if b = 10 then lines rest + 1 else max 1 (lines rest)

def Within (L line : Nat) : Prop := 1 ≤ line ∧ line ≤ L

/- `Dissonance::Parse` at a line of the text. -/
def Refusal (L : Nat) (r : Raise) : Prop := ∃ line msg, r = .dissonance (.parse line msg) ∧ Within L line

def Placed (L : Nat) (toks : Lexed) : Prop := ∀ t ∈ toks, Within L t.2

variable {b : UInt8} {rest more : List UInt8} {L line : Nat}

theorem linesPos : 0 < lines (b :: rest) := by
  rw [lines]
  split <;> omega

theorem linesTail : lines rest ≤ lines (b :: rest) := by
  rw [lines]
  split <;> omega

theorem linesSuffix (h : more <:+ rest) : lines more ≤ lines rest := by
  obtain ⟨before,rfl⟩ := h
  induction before with
  | nil => exact Nat.le_refl _
  | cons b before ih => exact Nat.le_trans ih linesTail

theorem placedPush {toks : Lexed} (toks_ : Placed L toks) (t : Tok) (line_ : Within L line) : Placed L (toks ++ [(t,line)]) := by
  intro u mem
  rcases List.mem_append.mp mem with before | now
  · exact toks_ u before
  · rw [List.mem_singleton.mp now]
    exact line_

end Lines

section Lexing
variable {L : Nat}

inductive Scanned (L : Nat) : Except Raise Lexed → Prop where
  | ok {toks} (h : Placed L toks) : Scanned L (.ok toks)
  | error {r} (h : Refusal L r) : Scanned L (.error r)

theorem spanSuffix (prev : UInt8) (rest : List UInt8) : (numberSpan prev rest).2 <:+ rest :=
  ⟨_,Indexed.numberSplit prev rest⟩

/- A byte a turn is enough, and more turns change nothing. -/
theorem lexLoopEnds {n m line : Nat} {toks : Lexed} {bytes : List UInt8} (enough : bytes.length ≤ n) (le : n ≤ m)
    (line_ : 1 ≤ line) (room : line + lines bytes ≤ L + 1) (toks_ : Placed L toks) :
    ∃ r, Lexer.lexLoop n toks line bytes = some r ∧ Lexer.lexLoop m toks line bytes = some r ∧ Scanned L r := by
  induction n generalizing m toks line bytes with
  | zero =>
    cases List.length_eq_zero_iff.mp (Nat.le_zero.mp enough)
    refine ⟨.ok toks,rfl,?_,.ok toks_⟩
    cases m <;> rfl
  | succ n ih =>
    obtain ⟨m,rfl⟩ := Nat.exists_eq_add_of_le' (Nat.le_trans (Nat.succ_le_succ (Nat.zero_le n)) le)
    cases bytes with
    | nil => exact ⟨.ok toks,rfl,rfl,.ok toks_⟩
    | cons c rest =>
      have here : Within L line := ⟨line_,by have : 0 < lines (c :: rest) := linesPos; omega⟩
      have below : lines rest ≤ lines (c :: rest) := linesTail
      have on {more : List UInt8} (toks : Lexed) (toks_ : Placed L toks) (suffix : more <:+ rest) :
          ∃ r, Lexer.lexLoop n toks line more = some r ∧ Lexer.lexLoop m toks line more = some r ∧ Scanned L r := by
        have size := suffix.length_le
        have fewer := linesSuffix suffix
        exact ih (by simp only [List.length_cons] at enough; omega) (by omega) line_ (by omega) toks_
      have push (t : Tok) := placedPush toks_ t here
      have stop (msg : String) : ∃ r, some (Lexer.err line msg) = some r ∧ some (Lexer.err line msg) = some r ∧ Scanned L r :=
        ⟨_,rfl,rfl,.error ⟨line,msg,rfl,here⟩⟩
      rw [Lexer.lexLoop.eq_def (n+1),Lexer.lexLoop.eq_def (m+1)]
      simp only
      generalize kind : Char.ofNat c.toNat = k
      have refl : rest <:+ rest := List.suffix_refl rest
      split
      case h_1 =>
        have newline : c = 10 := by
          have value : (Char.ofNat c.toNat).toNat = c.toNat := by
            rw [Char.ofNat,dif_pos (.inl (by have := c.toNat_lt; omega))]
            rfl
          rw [kind] at value
          exact UInt8.toNat.inj value.symm
        have ended : line + 1 + lines rest ≤ L + 1 := by
          rw [lines,if_pos newline] at room
          omega
        have next (toks : Lexed) (toks_ : Placed L toks) :
            ∃ r, Lexer.lexLoop n toks (line+1) rest = some r ∧ Lexer.lexLoop m toks (line+1) rest = some r ∧ Scanned L r :=
          ih (by simp only [List.length_cons] at enough; omega) (by omega) (by omega) ended toks_
        cases last : toks.getLast? with
        | none => exact next toks toks_
        | some t =>
          obtain ⟨t,l⟩ := t
          cases t <;> first | exact next toks toks_ | exact next _ (push .newline)
      case h_5 =>
        cases sung : Lexer.isSung toks with
        | true => exact on _ (push .semi) refl
        | false => exact on toks toks_ (List.dropWhile_suffix _)
      case h_16 =>
        rcases Indexed.headCases rest 62 with ⟨more,rfl⟩ | ⟨other,-⟩
        · exact on _ (push .arrow) (List.suffix_cons _ more)
        · simp only
          exact on _ (push .minus) refl
      case h_17 =>
        rcases Indexed.headCases rest 45 with ⟨more,rfl⟩ | ⟨other,-⟩
        · exact on _ (push .bindArrow) (List.suffix_cons _ more)
        · simp only
          exact stop _
      case h_18 =>
        have suffix := List.dropWhile_suffix (fun b => b != 34 && b != 10) (l := rest)
        rcases Indexed.headCases (rest.dropWhile (fun b => b != 34 && b != 10)) 34 with ⟨more,closed⟩ | ⟨other,-⟩
        · rw [closed] at suffix
          simp only [closed]
          cases String.fromUTF8? ⟨(rest.takeWhile (fun b => b != 34 && b != 10)).toArray⟩ with
          | none => exact stop _
          | some s => exact on _ (push (.str s)) ((List.suffix_cons _ more).trans suffix)
        · simp only
          exact stop _
      case h_19 =>
        split
        · cases parseF64 (c :: (numberSpan c rest).1) with
          | none => exact stop _
          | some x => exact on _ (push (.num x)) (spanSuffix c rest)
        · split
          · exact on _ (push _) (List.dropWhile_suffix _)
          · exact stop _
      all_goals first | exact on _ (push _) refl | exact on toks toks_ refl

theorem lexEnds (src : String) : ∃ r, Scanned (lines src.toUTF8.data.toList) r ∧
    ∀ m, src.toUTF8.data.toList.length ≤ m → Lexer.lex m src = some r := by
  have start : Placed (lines src.toUTF8.data.toList) [] := fun _ mem => by cases mem
  have ends {m : Nat} (le : src.toUTF8.data.toList.length ≤ m) :=
    lexLoopEnds (Nat.le_refl _) le (Nat.le_refl 1) (Nat.le_of_eq (Nat.add_comm 1 _)) start
  obtain ⟨r,found,-,r_⟩ := ends (Nat.le_refl _)
  refine ⟨r,r_,fun m le => ?_⟩
  obtain ⟨r',found',settled,-⟩ := ends le
  cases Option.some.inj (found.symm.trans found')
  exact settled

end Lexing

section Moving

def left (p : Parser) : Nat := p.toks.length - p.pos

def Sane (L : Nat) (p : Parser) : Prop := 1 ≤ L ∧ Placed L p.toks

/- From `p` to `q` at least `k` tokens are taken and the nesting comes back to what it was. -/
structure Took (L k : Nat) (p q : Parser) : Prop where
  sane : Sane L q
  paren : q.parenDepth = p.parenDepth
  depth : q.exprDepth = p.exprDepth
  left : left q + k ≤ left p

/- The computation ends, takes at least `k` tokens, and can only refuse a line of the text. -/
def Takes {α : Type} (L k : Nat) (x : Nat → ParseM α) (p : Parser) : Prop :=
  Ends x p (fun _ q => Took L k p q) (Refusal L)

variable {α β : Type} {L k l : Nat} {p q r : Parser}

theorem tookNone (p_ : Sane L p) : Took L 0 p p := ⟨p_,rfl,rfl,Nat.le_refl _⟩

theorem tookTrans (h : Took L k p q) (h' : Took L l q r) : Took L (k+l) p r where
  sane := h'.sane
  paren := h'.paren.trans h.paren
  depth := h'.depth.trans h.depth
  left := by have := h.left; have := h'.left; omega

theorem tookLess (h : Took L k p q) (le : l ≤ k) : Took L l p q where
  sane := h.sane
  paren := h.paren
  depth := h.depth
  left := by have := h.left; omega

theorem lineWithin (p_ : Sane L p) : Within L p.line := by
  unfold Parser.line
  split
  · rename_i t found
    exact p_.2 t (List.mem_of_getElem? found)
  · cases last : p.toks.getLast? with
    | none => exact ⟨Nat.le_refl 1,p_.1⟩
    | some t => exact p_.2 t (List.mem_of_getLast? last)

theorem pastNewlinesTook (p_ : Sane L p) : Took L 0 p p.pastNewlines := by
  refine ⟨p_,rfl,rfl,?_⟩
  exact Nat.sub_le_sub_left (Nat.le_add_right _ _) _

theorem advanceTook (p_ : Sane L p) {t : Tok} (here : p.toks[p.pos]?.map Prod.fst = some t) :
    Took L 1 p { p with pos := p.pos + 1 } := by
  obtain ⟨u,found,-⟩ := Option.map_eq_some_iff.mp here
  obtain ⟨lt,-⟩ := List.getElem?_eq_some_iff.mp found
  refine ⟨p_,rfl,rfl,?_⟩
  unfold left
  change p.toks.length - (p.pos + 1) + 1 ≤ _
  omega

theorem refuseEnds {g : α → Parser → Prop} (p_ : Sane L p) (msg : String) :
    Ends (fun _ => (refuse msg : ParseM α)) p g (Refusal L) :=
  endsBind endsState (fun _ _ ⟨u_,_⟩ => endsFail (u_ ▸ ⟨_,msg,rfl,lineWithin p_⟩))

theorem peekEnds (p_ : Sane L p) :
    Ends (fun _ => peek) p (fun t q => Took L 0 p q ∧ q.toks[q.pos]?.map Prod.fst = t) (Refusal L) := by
  refine endsBind (endsUpdate _) (fun _ q q_ => endsBind endsState (fun u t t_ => ?_))
  obtain ⟨rfl,rfl⟩ := t_
  refine endsPure ⟨?_,rfl⟩
  rw [q_]
  split
  · exact pastNewlinesTook p_
  · exact tookNone p_

theorem updateTakes {g : Parser → Parser} (h : Took L k p (g p)) : Takes L k (fun _ => Comp.update g) p :=
  endsWeaken (fun _ _ same => by rw [same]; exact h) (endsUpdate g)

theorem skipNewlinesTakes (p_ : Sane L p) : Takes L 0 (fun _ => skipNewlines) p := updateTakes (pastNewlinesTook p_)

theorem advanceTakes {t : Tok} (p_ : Sane L p) (here : p.toks[p.pos]?.map Prod.fst = some t) :
    Takes L 1 (fun _ => advance) p := updateTakes (advanceTook p_ here)

section Sequences
variable {x y : Nat → ParseM α} {f : Nat → α → ParseM β} {m : Nat}

theorem takesLess (h : Takes L k x p) (le : l ≤ k) : Takes L l x p := endsWeaken (fun _ _ took => tookLess took le) h

theorem takesPure {a : α} (p_ : Sane L p) : Takes L 0 (fun _ => (pure a : ParseM α)) p := endsPure (tookNone p_)

theorem takesFrom (h : Took L k p q) (rest : Takes L l x q) (le : m ≤ k + l) : Ends x q (fun _ r => Took L m p r) (Refusal L) :=
  endsWeaken (fun _ _ took => tookLess (tookTrans h took) le) rest

theorem takesBindWith {good : α → Parser → Prop} (first : Ends x p (fun a q => Took L k p q ∧ good a q) (Refusal L))
    (rest : ∀ a q, Took L k p q → good a q → Takes L l (fun n => f n a) q) (le : m ≤ k + l) :
    Takes L m (fun n => x n >>= f n) p :=
  endsBind first (fun a q ⟨took,a_⟩ => takesFrom took (rest a q took a_) le)

theorem takesBind (first : Takes L k x p) (rest : ∀ a q, Took L k p q → Takes L l (fun n => f n a) q) (le : m ≤ k + l) :
    Takes L m (fun n => x n >>= f n) p :=
  endsBind first (fun a q took => takesFrom took (rest a q took) le)

theorem takesThen (first : Takes L k x p) (rest : ∀ a q, Took L k p q → Takes L 0 (fun n => f n a) q) (le : m ≤ k) :
    Takes L m (fun n => x n >>= f n) p := takesBind first rest le

/- A test that takes a token exactly if it holds. -/
def Tests (L : Nat) (test : ParseM Bool) (p : Parser) : Prop :=
  Ends (fun _ => test) p (fun b q => Took L b.toNat p q) (Refusal L)

theorem takesIf {test : ParseM Bool} (asked : Tests L test p) (yes : ∀ q, Took L 1 p q → Takes L k x q)
    (no : ∀ q, Took L 0 p q → Takes L l y q) (le : m ≤ 1 + k) (le' : m ≤ l) :
    Takes L m (fun n => test >>= fun b => if b = true then x n else y n) p := by
  refine endsBind asked (fun b q took => ?_)
  cases b with
  | true => exact takesFrom took (yes q took) le
  | false => exact takesFrom took (no q took) (by omega)

theorem takesUnless {test : ParseM Bool} {msg : String} (asked : Tests L test p)
    (yes : ∀ q, Took L 1 p q → Takes L k x q) (le : m ≤ 1 + k) :
    Takes L m (fun n => test >>= fun b => if (!b) = true then refuse msg else x n) p := by
  refine endsBind asked (fun b q took => ?_)
  cases b with
  | true => exact takesFrom took (yes q took) le
  | false => exact refuseEnds took.sane msg

end Sequences

theorem advanceGives {a : α} {t : Tok} (took : Took L 0 p q) (here : q.toks[q.pos]?.map Prod.fst = some t) :
    Ends (fun _ => (do advance; pure a : ParseM α)) q (fun b r => b = a ∧ Took L 1 p r) (Refusal L) :=
  endsBind (advanceTakes took.sane here) (fun _ _ more => endsPure ⟨rfl,tookTrans took more⟩)

theorem nextEnds (p_ : Sane L p) :
    Ends (fun _ => next) p (fun t q => Took L t.isSome.toNat p q) (Refusal L) := by
  refine endsBind (peekEnds p_) (fun t q ⟨took,here⟩ => ?_)
  cases t with
  | none => exact endsPure took
  | some t => exact endsWeaken (fun _ _ ⟨same,more⟩ => same ▸ more) (advanceGives took here)

theorem eatTests (p_ : Sane L p) (want : Tok) : Tests L (eat want) p := by
  refine endsBind (peekEnds p_) (fun t q ⟨took,here⟩ => ?_)
  by_cases same : (t == some want) = true
  · simp only [same,if_true]
    cases t with
    | none => cases same
    | some t => exact endsWeaken (fun _ _ ⟨same,more⟩ => same ▸ more) (advanceGives took here)
  · simp only [same]
    exact endsPure took

theorem keywordTests (p_ : Sane L p) (kw : String) : Tests L (keyword kw) p := by
  refine endsBind (peekEnds p_) (fun t q here => ?_)
  split
  · rename_i s
    split
    · exact endsWeaken (fun _ _ ⟨same,more⟩ => same ▸ more) (advanceGives here.1 here.2)
    · exact endsPure here.1
  · exact endsPure here.1

theorem expectTakes (p_ : Sane L p) (want : Tok) (what : String) : Takes L 1 (fun _ => expect want what) p :=
  takesIf (eatTests p_ want) (fun _ q_ => takesPure q_.sane) (fun _ q_ => refuseEnds (g := fun _ r => Took L 1 _ r) q_.sane what)
    (Nat.le_refl 1) (Nat.le_refl 1)

/- A parser that looks at the next token and is done. -/
theorem nextTakes {f : Option Tok → ParseM α} (p_ : Sane L p)
    (rest : ∀ t q, Sane L q → (∃ a, f t = pure a ∧ t.isSome) ∨ ∃ msg, f t = refuse msg) :
    Takes L 1 (fun _ => next >>= f) p := by
  refine endsBind (nextEnds p_) (fun t q took => ?_)
  rcases rest t q took.sane with ⟨a,same,some⟩ | ⟨msg,same⟩
  · rw [same]
    rw [some] at took
    exact endsPure took
  · rw [same]
    exact refuseEnds took.sane msg

theorem identTakes (p_ : Sane L p) (what : String) : Takes L 1 (fun _ => ident what) p := by
  refine nextTakes p_ (fun t q _ => ?_)
  split
  · exact .inl ⟨_,rfl,rfl⟩
  · exact .inr ⟨_,rfl⟩

theorem nameArgTakes (p_ : Sane L p) (what : String) : Takes L 1 (fun _ => nameArg what) p := by
  refine nextTakes p_ (fun t q _ => ?_)
  split
  · exact .inl ⟨_,rfl,rfl⟩
  · exact .inl ⟨_,rfl,rfl⟩
  · exact .inr ⟨_,rfl⟩

theorem literalTakes (p_ : Sane L p) : Takes L 1 (fun _ => literal) p := by
  refine endsBind (nextEnds p_) (fun t q took => ?_)
  have refusal (msg : String) : Ends (fun _ => (refuse msg : ParseM Value)) q (fun _ r => Took L 1 p r) (Refusal L) :=
    refuseEnds took.sane msg
  split
  · exact endsPure took
  · refine takesFrom took (k := 1) (l := 0) (takesLess (nextTakes took.sane (fun t r _ => ?_)) (Nat.zero_le 1)) (Nat.le_refl 1)
    split
    · exact .inl ⟨_,rfl,rfl⟩
    · exact .inr ⟨_,rfl⟩
  · exact endsPure took
  · split
    · exact endsPure took
    · split
      · exact endsPure took
      · exact refusal _
  · exact refusal _

theorem startsAtomTakes (p_ : Sane L p) : Takes L 0 (fun _ => startsAtom) p := by
  refine endsBind (peekEnds p_) (fun t q here => ?_)
  split <;> exact endsPure here.1

end Moving

section Expressions
variable {L k : Nat} {p q : Parser}

/- Every function of the descent ends from `p`. -/
structure Descends (L : Nat) (p : Parser) : Prop where
  expr : Takes L 1 expr p
  additive : Takes L 1 additive p
  additiveLoop : ∀ e, Takes L 0 (fun n => additiveLoop n e) p
  multiplicative : Takes L 1 multiplicative p
  multiplicativeLoop : ∀ e, Takes L 0 (fun n => multiplicativeLoop n e) p
  application : Takes L 1 application p
  applicationLoop : ∀ e, Takes L 0 (fun n => applicationLoop n e) p
  atom : Takes L 1 atom p

/- Everything ends that starts with fewer tokens left. -/
def Later (L k : Nat) : Prop := ∀ q, Sane L q → left q < k → Descends L q

theorem laterTook (later : Later L (left p)) (took : Took L 1 p q) : Descends L q :=
  later q took.sane (by have := took.left; omega)

variable {α β : Type} {x : Nat → ParseM α} {f : Nat → α → ParseM β} {l m : Nat}

/- What stands in parentheses leaves the count of them as it was, so that it can be taken back. -/
theorem insideParen (p_ : Sane L p) (inner : ∀ q, Sane L q → left q = left p → Takes L k x q)
    (rest : ∀ a q, Took L k p q → Takes L l (fun n => f n a) q) (le : m ≤ k + l) :
    Takes L m (fun n => do enterParen; let a ← x n; leaveParen; f n a) p := by
  refine endsBind (endsUpdate _) (fun _ q entered => ?_)
  have inside := inner q (entered ▸ p_) (entered ▸ rfl)
  refine endsBind inside (fun a r took => endsBind (endsBind endsState (fun u v same => ?_)) (fun _ v v_ => takesFrom v_ (rest a v v_) le))
  obtain ⟨rfl,rfl⟩ := same
  have depth : v.parenDepth = p.parenDepth + 1 := by rw [took.paren,entered]
  rw [if_neg (by omega)]
  refine endsWeaken (fun _ w same => ?_) (endsUpdate _)
  rw [same]
  refine ⟨took.sane,by rw [depth]; rfl,by rw [took.depth,entered],?_⟩
  have fewer := took.left
  rw [entered] at fewer
  exact fewer

theorem insideExpr (p_ : Sane L p) (inner : ∀ q, Sane L q → left q = left p → Takes L k x q)
    (rest : ∀ a q, Took L k p q → Takes L l (fun n => f n a) q) (le : m ≤ k + l) :
    Takes L m (fun n => do enterExpr; let a ← x n; leaveExpr; f n a) p := by
  refine endsBind (endsUpdate _) (fun _ q entered => ?_)
  have inside := inner q (entered ▸ p_) (entered ▸ rfl)
  refine endsBind inside (fun a r took => endsBind (endsBind endsState (fun u v same => ?_)) (fun _ v v_ => takesFrom v_ (rest a v v_) le))
  obtain ⟨rfl,rfl⟩ := same
  have depth : v.exprDepth = p.exprDepth + 1 := by rw [took.depth,entered]
  rw [if_neg (by omega)]
  refine endsWeaken (fun _ w same => ?_) (endsUpdate _)
  rw [same]
  refine ⟨took.sane,by rw [took.paren,entered],by rw [depth]; rfl,?_⟩
  have fewer := took.left
  rw [entered] at fewer
  exact fewer

theorem atomTakes (p_ : Sane L p) (later : Later L (left p)) : Takes L 1 atom p := by
  refine endsNext (fun n => atom.eq_2 n) (endsBind (peekEnds p_) (fun t q here => ?_))
  have leaf (e : Expr) {t : Tok} (here : Took L 0 p q ∧ q.toks[q.pos]?.map Prod.fst = some t) :
      Ends (fun _ => (do advance; pure e : ParseM Expr)) q (fun _ r => Took L 1 p r) (Refusal L) :=
    endsWeaken (fun _ _ h => h.2) (advanceGives here.1 here.2)
  have past {α : Type} {f : Nat → ParseM α} {t : Tok} (here : Took L 0 p q ∧ q.toks[q.pos]?.map Prod.fst = some t)
      (rest : ∀ r, Took L 1 p r → Takes L 0 f r) :
      Ends (fun n => (do advance; f n : ParseM α)) q (fun _ r => Took L 1 p r) (Refusal L) :=
    endsBind (advanceTakes here.1.sane here.2) (fun _ r more =>
      takesFrom (tookTrans here.1 more) (rest r (tookTrans here.1 more)) (Nat.le_refl 1))
  have operand {r : Parser} (took : Took L 1 p r) (g : Expr → Expr) :
      Takes L 0 (fun n => (do let e ← atom n; pure (g e) : ParseM Expr)) r :=
    takesBind (laterTook later took).atom (fun _ _ more => takesPure more.sane) (Nat.zero_le _)
  split
  · exact leaf _ here
  · exact leaf _ here
  · refine past here (fun r took => insideParen (k := 1) (l := 1) took.sane (fun u u_ same => ?_) (fun e v more => ?_) (Nat.zero_le _))
    · have := took.left
      exact (later u u_ (by omega)).expr
    · exact takesBind (expectTakes more.sane _ _) (fun _ _ last => takesPure last.sane) (Nat.le_refl 1)
  · refine past here (fun r took => takesThen (identTakes took.sane _) (fun param u more => ?_) (Nat.zero_le _))
    refine takesThen (expectTakes more.sane _ _) (fun _ v arrow => ?_) (Nat.zero_le _)
    have far := tookLess (tookTrans took (tookTrans more arrow)) (l := 1) (by omega)
    exact takesBind (laterTook later far).expr (fun _ _ last => takesPure last.sane) (Nat.zero_le _)
  · exact past here (fun r took => operand took _)
  · refine past here (fun r took => ?_)
    split
    · exact takesPure took.sane
    · exact takesPure took.sane
    · exact takesPure took.sane
    · exact takesPure took.sane
    · exact takesThen (nameArgTakes took.sane _) (fun _ _ last => takesPure last.sane) (Nat.zero_le _)
    · refine takesThen (nameArgTakes took.sane _) (fun name u more => ?_) (Nat.zero_le _)
      exact operand (tookLess (tookTrans took more) (by omega)) _
    · exact operand took _
    · exact operand took _
    · exact operand took _
    · exact takesPure took.sane
  · exact refuseEnds here.1.sane _

/- A loop over operators takes the operator before it comes round. -/
theorem operatorLoopTakes (op : Option Tok → Option Sym) {operand : Nat → ParseM Expr} {loop : Nat → Expr → ParseM Expr} (stops : op none = none)
    (p_ : Sane L p) (operands : ∀ q, Took L 1 p q → Takes L 1 operand q)
    (again : ∀ q e, Took L 1 p q → Takes L 0 (fun n => loop n e) q) (lhs : Expr) :
    Takes L 0 (fun n => do
      match op (← peek) with
      | none => pure lhs
      | some o =>
        advance
        let rhs ← operand n
        loop n (call2 o lhs rhs)) p := by
  refine takesBindWith (peekEnds p_) (fun t q took here => ?_) (Nat.zero_le (0+0))
  split
  · exact takesPure took.sane
  · rename_i o found
    cases t with
    | none =>
      rw [stops] at found
      cases found
    | some t =>
      refine takesBind (advanceTakes took.sane here) (fun _ r more => ?_) (Nat.zero_le (1+1))
      have far := tookTrans took more
      exact takesBind (operands r far) (fun rhs u last => again u _ (tookLess (tookTrans far last) (by omega))) (by omega)

theorem applicationLoopTakes (p_ : Sane L p) (atoms : ∀ q, Took L 0 p q → Takes L 1 atom q)
    (again : ∀ q e, Took L 1 p q → Takes L 0 (fun n => applicationLoop n e) q) (e : Expr) :
    Takes L 0 (fun n => applicationLoop n e) p := by
  refine endsNext (fun n => applicationLoop.eq_2 e n) (takesBind (startsAtomTakes p_) (fun b q took => ?_) (Nat.zero_le (0+0)))
  cases b with
  | false => exact takesPure took.sane
  | true =>
    refine takesThen (atoms q took) (fun a r more => again r _ ?_) (Nat.zero_le _)
    exact tookLess (tookTrans took more) (by omega)

theorem exprTakes (p_ : Sane L p) (terms : ∀ q, Sane L q → left q = left p → Takes L 1 additive q) : Takes L 1 expr p := by
  refine endsNext (fun n => expr.eq_2 n) (insideExpr p_ (k := 1) (l := 0) (fun q q_ same => ?_) (fun e q took => takesPure took.sane) (Nat.le_refl 1))
  refine endsBind endsState (fun u v same' => ?_)
  obtain ⟨rfl,rfl⟩ := same'
  split
  · exact refuseEnds q_ _
  · exact terms _ q_ same

theorem descends (p_ : Sane L p) : Descends L p := by
  induction size : left p using Nat.strong_induction_on generalizing p with
  | _ k ih =>
    subst size
    have later {q r : Parser} (le : left q ≤ left p) (took : Took L 1 q r) : Descends L r :=
      ih (left r) (by have := took.left; omega) took.sane rfl
    have atoms {q : Parser} (q_ : Sane L q) (le : left q ≤ left p) : Takes L 1 atom q :=
      atomTakes q_ (fun r r_ lt => ih (left r) (by omega) r_ rfl)
    have applications {q : Parser} (q_ : Sane L q) (le : left q ≤ left p) : Takes L 1 application q :=
      endsNext (fun n => application.eq_2 n) (takesBind (atoms q_ le) (fun e r took => (later le took).applicationLoop e) (Nat.le_refl 1))
    have products {q : Parser} (q_ : Sane L q) (le : left q ≤ left p) : Takes L 1 multiplicative q :=
      endsNext (fun n => multiplicative.eq_2 n)
        (takesBind (applications q_ le) (fun e r took => (later le took).multiplicativeLoop e) (Nat.le_refl 1))
    have sums {q : Parser} (q_ : Sane L q) (le : left q ≤ left p) : Takes L 1 additive q :=
      endsNext (fun n => additive.eq_2 n)
        (takesBind (products q_ le) (fun e r took => (later le took).additiveLoop e) (Nat.le_refl 1))
    have self := Nat.le_refl (left p)
    exact {
      expr := exprTakes p_ (fun q q_ same => sums q_ (by omega))
      additive := sums p_ self
      additiveLoop := fun e => endsNext (fun n => additiveLoop.eq_2 e n)
        (operatorLoopTakes additiveOp rfl p_ (fun q took => (later self took).multiplicative)
          (fun q e took => (later self took).additiveLoop e) e)
      multiplicative := products p_ self
      multiplicativeLoop := fun e => endsNext (fun n => multiplicativeLoop.eq_2 e n)
        (operatorLoopTakes multiplicativeOp rfl p_ (fun q took => (later self took).application)
          (fun q e took => (later self took).multiplicativeLoop e) e)
      application := applications p_ self
      applicationLoop := applicationLoopTakes p_ (fun q took => atoms took.sane (by have := took.left; omega))
        (fun q e took => (later self took).applicationLoop e)
      atom := atoms p_ self }

theorem expression (p_ : Sane L p) : Takes L 1 expr p := (descends p_).expr

end Expressions

section Statements
variable {L : Nat} {p : Parser}

theorem closeStmtsTakes (p_ : Sane L p) : Takes L 1 (fun _ => closeStmts) p :=
  takesBind (skipNewlinesTakes p_) (fun _ _ took => expectTakes took.sane _ _) (Nat.le_refl (0+1))

theorem cadenceTakes (p_ : Sane L p) (f : Expr → Expr) :
    Takes L 0 (fun n => (do let e ← expr n; closeStmts; pure (f e) : ParseM Expr)) p :=
  takesThen (expression p_) (fun _ _ took =>
    takesThen (closeStmtsTakes took.sane) (fun _ _ took => takesPure took.sane) (Nat.zero_le _)) (Nat.zero_le _)

/- A statement that is taken before the rest of its block. -/
theorem boundTakes {mode : Mode} (p_ : Sane L p) (again : ∀ q, Took L 1 p q → Takes L 1 (stmts mode) q) (f : Expr → Expr → Expr) :
    Takes L 0 (fun n => (do let e ← expr n; let rest ← stmts mode n; pure (f e rest) : ParseM Expr)) p :=
  takesThen (expression p_) (fun _ q took =>
    takesThen (again q took) (fun _ _ took => takesPure took.sane) (Nat.zero_le _)) (Nat.zero_le _)

theorem blockTakes {mode : Mode} {msg : String} (p_ : Sane L p) (again : ∀ q, Sane L q → left q ≤ left p → Takes L 1 (stmts mode) q)
    {f : Nat → Expr → ParseM Expr} (rest : ∀ e q, Sane L q → left q ≤ left p → Takes L 0 (fun n => f n e) q) :
    Takes L 0 (fun n => do skipNewlines; expect .lbrace msg; let e ← stmts mode n; f n e) p := by
  refine takesThen (skipNewlinesTakes p_) (fun _ q skipped => ?_) (Nat.zero_le _)
  refine takesThen (expectTakes skipped.sane _ _) (fun _ r opened => ?_) (Nat.zero_le _)
  have := skipped.left
  have := opened.left
  refine takesThen (again r opened.sane (by omega)) (fun e u body => ?_) (Nat.zero_le _)
  have := body.left
  exact rest e u body.sane (by omega)

theorem stmtsTakes (mode : Mode) (p_ : Sane L p) : Takes L 1 (stmts mode) p := by
  induction size : left p using Nat.strong_induction_on generalizing p with
  | _ k ih =>
    subst size
    have again {q : Parser} (q_ : Sane L q) (lt : left q < left p) : Takes L 1 (stmts mode) q := ih (left q) lt q_ rfl
    refine endsNext (fun n => stmts.eq_2 mode n) (takesBind (skipNewlinesTakes p_) (fun _ p' skipped => ?_) (Nat.le_refl (0+1)))
    have start := skipped.left
    refine takesIf (keywordTests skipped.sane "amen") (fun q q_ => cadenceTakes q_.sane _) (fun q q_ => ?_) (Nat.le_refl 1) (Nat.le_refl 1)
    have start := Nat.le_trans q_.left start
    refine takesIf (keywordTests q_.sane "nihil") (fun q q_ => ?_) (fun q q_ => ?_) (k := 0) (Nat.le_refl 1) (Nat.le_refl 1)
    · exact takesThen (closeStmtsTakes q_.sane) (fun _ _ took => takesPure took.sane) (Nat.zero_le _)
    have start := Nat.le_trans q_.left start
    refine takesIf (keywordTests q_.sane "clama") (fun q q_ => cadenceTakes q_.sane _) (fun q q_ => ?_) (Nat.le_refl 1) (Nat.le_refl 1)
    have start := Nat.le_trans q_.left start
    refine takesIf (keywordTests q_.sane "perage") (fun q q_ => cadenceTakes q_.sane _) (fun q q_ => ?_) (Nat.le_refl 1) (Nat.le_refl 1)
    have start := Nat.le_trans q_.left start
    refine takesIf (keywordTests q_.sane "si") (fun q q_ => ?_) (fun q q_ => ?_) (k := 0) (Nat.le_refl 1) (Nat.le_refl 1)
    · have within := q_.left
      refine takesThen (expression q_.sane) (fun c r r_ => ?_) (Nat.zero_le _)
      have tested := r_.left
      refine takesUnless (keywordTests r_.sane "tunc") (fun r then_ => ?_) (k := 0) (Nat.zero_le _)
      have tunc := then_.left
      refine blockTakes then_.sane (fun u u_ le => again u_ (by omega)) (fun t u u_ le => ?_)
      refine takesThen (skipNewlinesTakes u_) (fun _ v skipped => ?_) (Nat.zero_le _)
      have between := skipped.left
      refine takesUnless (keywordTests skipped.sane "aliter") (fun v else_ => ?_) (k := 0) (Nat.zero_le _)
      have aliter := else_.left
      refine blockTakes else_.sane (fun w w_ le => again w_ (by omega)) (fun e w w_ le => ?_)
      exact takesThen (closeStmtsTakes w_) (fun _ _ took => takesPure took.sane) (Nat.zero_le _)
    have start := Nat.le_trans q_.left start
    refine takesIf (keywordTests q_.sane "pone") (fun q q_ => boundTakes q_.sane (fun r r_ => again r_.sane ?_) _) (fun q q_ => ?_)
      (Nat.le_refl 1) (Nat.le_refl 1)
    · have := q_.left
      have := r_.left
      omega
    have start := Nat.le_trans q_.left start
    refine takesIf (keywordTests q_.sane "mitte") (fun q q_ => boundTakes q_.sane (fun r r_ => again r_.sane ?_) _) (fun q q_ => ?_)
      (Nat.le_refl 1) (Nat.le_refl 1)
    · have := q_.left
      have := r_.left
      omega
    have start := Nat.le_trans q_.left start
    refine takesThen (identTakes q_.sane _) (fun name r r_ => ?_) (Nat.le_refl 1)
    refine takesThen (expectTakes r_.sane _ _) (fun _ u u_ => ?_) (Nat.zero_le _)
    refine boundTakes u_.sane (fun v v_ => again v_.sane ?_) (fun e k => .bind mode e name k)
    have := r_.left
    have := u_.left
    have := v_.left
    omega

end Statements

section Fugues
variable {L : Nat} {p : Parser}

theorem finalAndModeTakes (p_ : Sane L p) : Takes L 1 (fun _ => finalAndMode) p := by
  refine takesThen (identTakes p_ _) (fun name q took => ?_) (Nat.le_refl 1)
  split
  all_goals first | exact takesPure took.sane | exact refuseEnds took.sane _

theorem overloadTakes (p_ : Sane L p) : Takes L 1 overload p := by
  refine takesThen (identTakes p_ _) (fun name q took => ?_) (Nat.le_refl 1)
  refine takesThen (expectTakes took.sane _ _) (fun _ q took => ?_) (Nat.zero_le _)
  refine takesThen (identTakes took.sane _) (fun genus q took => ?_) (Nat.zero_le _)
  refine takesThen (expectTakes took.sane _ _) (fun _ q took => ?_) (Nat.zero_le _)
  exact takesThen (expression took.sane) (fun _ _ took => takesPure took.sane) (Nat.zero_le _)

theorem pedaleTakes (p_ : Sane L p) : Takes L 1 (fun _ => pedale) p := by
  refine takesThen (identTakes p_ _) (fun name q took => ?_) (Nat.le_refl 1)
  refine takesThen (expectTakes took.sane _ _) (fun _ q took => ?_) (Nat.zero_le _)
  exact takesThen (literalTakes took.sane) (fun _ _ took => takesPure took.sane) (Nat.zero_le _)

theorem subiectumTakes (p_ : Sane L p) : Takes L 1 subiectum p := by
  refine takesThen (identTakes p_ _) (fun name q took => ?_) (Nat.le_refl 1)
  refine takesThen (expectTakes took.sane _ _) (fun _ q took => ?_) (Nat.zero_le _)
  refine insideParen took.sane (fun r r_ _ => identTakes r_ _) (fun param q took => ?_) (k := 1) (l := 0) (Nat.zero_le _)
  refine takesThen (expectTakes took.sane _ _) (fun _ q took => ?_) (Nat.zero_le _)
  refine takesThen (expectTakes took.sane _ _) (fun _ q took => ?_) (Nat.zero_le _)
  exact takesThen (expression took.sane) (fun _ _ took => takesPure took.sane) (Nat.zero_le _)

theorem fugueLoopTakes (p_ : Sane L p) (f : Fugue) : Takes L 1 (fun n => fugueLoop n f) p := by
  induction size : left p using Nat.strong_induction_on generalizing p f with
  | _ k ih =>
    subst size
    have again {α : Type} {x : Nat → ParseM α} {g : α → Fugue} {q : Parser} (le : left q + 1 ≤ left p) (item : Takes L 1 x q) :
        Takes L 0 (fun n => (do let a ← x n; fugueLoop n (g a) : ParseM Fugue)) q :=
      takesThen item (fun a r took =>
        takesLess (ih (left r) (by have := took.left; omega) took.sane _ rfl) (Nat.zero_le 1)) (Nat.zero_le _)
    refine endsNext (fun n => fugueLoop.eq_2 f n) (takesBind (skipNewlinesTakes p_) (fun _ q q_ => ?_) (Nat.le_refl (0+1)))
    have start := q_.left
    refine takesIf (eatTests q_.sane _) (fun q q_ => takesPure q_.sane) (fun q q_ => ?_) (Nat.le_refl 1) (Nat.le_refl 1)
    have start := Nat.le_trans q_.left start
    have item {q r : Parser} (start : left q ≤ left p) (took : Took L 1 q r) : left r + 1 ≤ left p :=
      Nat.le_trans took.left start
    refine takesIf (keywordTests q_.sane _) (fun r r_ => again (item start r_) (pedaleTakes r_.sane)) (fun q q_ => ?_)
      (Nat.le_refl 1) (Nat.le_refl 1)
    have start := Nat.le_trans q_.left start
    refine takesIf (keywordTests q_.sane _) (fun r r_ => again (item start r_) (subiectumTakes r_.sane)) (fun q q_ => ?_)
      (Nat.le_refl 1) (Nat.le_refl 1)
    have start := Nat.le_trans q_.left start
    refine takesIf (keywordTests q_.sane _) (fun r r_ => again (item start r_) (overloadTakes r_.sane)) (fun q q_ => ?_)
      (Nat.le_refl 1) (Nat.le_refl 1)
    have start := Nat.le_trans q_.left start
    refine takesIf (keywordTests q_.sane _) (fun r r_ => again (item start r_) (overloadTakes r_.sane)) (fun q q_ => ?_)
      (Nat.le_refl 1) (Nat.le_refl 1)
    have start := Nat.le_trans q_.left start
    exact takesIf (keywordTests q_.sane _) (fun r r_ => again (item start r_) (expression r_.sane))
      (fun q q_ => refuseEnds (g := fun _ r => Took L 1 q r) q_.sane _) (Nat.le_refl 1) (Nat.le_refl 1)

theorem fugueTakes (p_ : Sane L p) : Takes L 1 fugue p := by
  refine takesThen (identTakes p_ _) (fun name q took => ?_) (Nat.le_refl 1)
  refine takesUnless (keywordTests took.sane _) (fun q took => ?_) (k := 0) (Nat.zero_le _)
  refine takesThen (finalAndModeTakes took.sane) (fun f q took => ?_) (Nat.zero_le _)
  refine takesThen (skipNewlinesTakes took.sane) (fun _ q took => ?_) (Nat.zero_le _)
  refine takesThen (expectTakes took.sane _ _) (fun _ q took => ?_) (Nat.zero_le _)
  exact takesLess (fugueLoopTakes took.sane _) (Nat.zero_le 1)

end Fugues

section Verses
variable {L : Nat} {p : Parser}

theorem refuseAtEnds {α : Type} {good : α → Parser → Prop} {line : Nat} (line_ : Within L line) (msg : String) :
    Ends (fun _ => (refuseAt line msg : ParseM α)) p good (Refusal L) := endsFail ⟨line,msg,rfl,line_⟩

/- Each turn is past a token or takes three out. -/
theorem stripLoopTakes (p_ : Sane L p) (j depth : Nat) (atLineStart : Bool) (rhymes : List (Char × String)) :
    Takes L 0 (fun n => stripLoop n j depth atLineStart rhymes) p := by
  induction size : p.toks.length - j using Nat.strong_induction_on generalizing p j depth atLineStart rhymes with
  | _ k ih =>
    subst size
    refine endsNext (fun n => stripLoop.eq_2 j depth atLineStart rhymes n) (endsBind endsState (fun u v same => ?_))
    obtain ⟨rfl,rfl⟩ := same
    cases found : v.toks[j]? with
    | none => exact takesPure p_
    | some t =>
      obtain ⟨t,line⟩ := t
      obtain ⟨lt,-⟩ := List.getElem?_eq_some_iff.mp found
      have on (depth : Nat) (start : Bool) : Takes L 0 (fun n => stripLoop n (j+1) depth start rhymes) v :=
        ih _ (by omega) p_ (j+1) depth start rhymes rfl
      cases t
      case rbrace =>
        simp only [Option.map_some]
        split
        · exact takesPure p_
        · exact on _ _
      case ident l =>
        simp only [Option.map_some]
        split
        · rename_i label text line' _ after
          split
          · refine endsBind (endsUpdate _) (fun _ q cut => ?_)
            have shorter : q.toks.length = v.toks.length - min 3 (v.toks.length - j) := by
              rw [cut,List.length_append,List.length_take,List.length_drop]
              omega
            have q_ : Sane L q := by
              refine ⟨p_.1,fun t mem => p_.2 t ?_⟩
              rw [cut] at mem
              exact (List.mem_append.mp mem).elim List.mem_of_mem_take List.mem_of_mem_drop
            have took : Took L 0 v q := by
              refine ⟨q_,by rw [cut],by rw [cut],?_⟩
              have same : q.pos = v.pos := by rw [cut]
              unfold left
              omega
            exact takesFrom took (ih _ (by omega) q_ j depth false _ rfl) (Nat.le_refl 0)
          · exact refuseAtEnds (p_.2 _ (List.mem_of_getElem? after)) _
        · exact on _ _
      all_goals exact on _ _

theorem liturgicalStripTakes (p_ : Sane L p) : Takes L 0 liturgicalStrip p := by
  refine endsBind endsState (fun u v same => ?_)
  obtain ⟨rfl,rfl⟩ := same
  split
  · exact takesPure p_
  refine takesThen (stripLoopTakes p_ _ _ _ _) (fun rhymes q took => endsBind endsState (fun u w same => ?_)) (Nat.le_refl 0)
  obtain ⟨rfl,rfl⟩ := same
  have opening : Within L ((w.toks[w.pos]?.map Prod.snd).getD 1) := by
    cases found : w.toks[w.pos]? with
    | none => exact ⟨Nat.le_refl 1,took.sane.1⟩
    | some t => exact took.sane.2 t (List.mem_of_getElem? found)
  split
  · exact refuseAtEnds opening _
  · split
    · exact refuseAtEnds opening _
    · split
      · exact refuseAtEnds opening _
      · exact takesPure took.sane

theorem versusTakes (p_ : Sane L p) : Takes L 1 versus p := by
  refine takesThen (identTakes p_ _) (fun name q took => ?_) (Nat.le_refl 1)
  refine takesUnless (keywordTests took.sane _) (fun q took => ?_) (k := 0) (Nat.zero_le _)
  refine takesThen (finalAndModeTakes took.sane) (fun mode q took => ?_) (Nat.zero_le _)
  refine takesThen (skipNewlinesTakes took.sane) (fun _ q took => ?_) (Nat.zero_le _)
  refine takesThen (expectTakes took.sane _ _) (fun _ q took => ?_) (Nat.zero_le _)
  refine takesThen (liturgicalStripTakes took.sane) (fun rhymes q took => ?_) (Nat.zero_le _)
  exact takesThen (stmtsTakes mode.2 took.sane) (fun body q took => takesPure took.sane) (Nat.zero_le _)

theorem programLoopTakes (p_ : Sane L p) (prog : Program) : Takes L 0 (fun n => programLoop n prog) p := by
  induction size : left p using Nat.strong_induction_on generalizing p prog with
  | _ k ih =>
    subst size
    have again {α : Type} {x : Nat → ParseM α} {g : α → Program} {q : Parser} (le : left q + 1 ≤ left p) (item : Takes L 1 x q) :
        Takes L 0 (fun n => (do let a ← x n; programLoop n (g a) : ParseM Program)) q :=
      takesThen item (fun a r took => ih (left r) (by have := took.left; omega) took.sane _ rfl) (Nat.zero_le _)
    refine endsNext (fun n => programLoop.eq_2 prog n) (takesThen (skipNewlinesTakes p_) (fun _ q q_ => ?_) (Nat.le_refl 0))
    have start := q_.left
    refine takesBindWith (peekEnds q_.sane) (fun t r r_ _ => ?_) (Nat.le_refl (0+0))
    have start := Nat.le_trans r_.left start
    split
    · exact takesPure r_.sane
    refine takesIf (keywordTests r_.sane _) (fun u u_ => again (Nat.le_trans u_.left start) (fugueTakes u_.sane)) (fun q q_ => ?_)
      (Nat.zero_le _) (Nat.le_refl 0)
    have start := Nat.le_trans q_.left start
    exact takesIf (keywordTests q_.sane _) (fun u u_ => again (Nat.le_trans u_.left start) (versusTakes u_.sane))
      (fun q q_ => refuseEnds (g := fun _ r => Took L 0 q r) q_.sane _) (Nat.zero_le _) (Nat.le_refl 0)

end Verses

section Front

/- What the front end may return. -/
inductive Returned {α : Type} (L : Nat) : Except Raise α → Prop where
  | ok (a : α) : Returned L (.ok a)
  | error {r} (h : Refusal L r) : Returned L (.error r)

theorem parseEnds (src : String) : ∃ n r, Returned (lines src.toUTF8.data.toList) r ∧ ∀ m, n ≤ m → parse m src = some r := by
  obtain ⟨lexed,lexed_,read⟩ := lexEnds src
  cases lexed_ with
  | @error r refused => exact ⟨_,.error r,.error refused,fun m le => by rw [parse,read m le]⟩
  | @ok toks placed =>
    cases bytes : src.toUTF8.data.toList with
    | nil =>
      have none : Lexer.lex 0 src = some (.ok []) := by rw [Lexer.lex,bytes]; rfl
      cases Except.ok.inj (Option.some.inj (none.symm.trans (read 0 (by rw [bytes]; exact Nat.le_refl 0))))
      refine ⟨1,.ok ⟨[],[]⟩,.ok _,fun m le => ?_⟩
      obtain ⟨k,rfl⟩ := Nat.exists_eq_add_of_le' le
      rw [parse,read (k+1) (by rw [bytes]; exact Nat.zero_le _)]
      rfl
    | cons b rest =>
      have sane : Sane (lines (b :: rest)) ⟨toks,0,0,0⟩ := ⟨linesPos,bytes ▸ placed⟩
      obtain ⟨n,r,out,settled⟩ := programLoopTakes sane ⟨[],[]⟩
      refine ⟨max n src.toUTF8.data.toList.length,r.map Prod.fst,?_,fun m le => ?_⟩
      · cases out with
        | ok _ => exact .ok _
        | error h => exact .error h
      · rw [parse,read m (by omega)]
        simp only [settled m (by omega),Option.map_some]

/- From some bound on the lexer and the parser return, and never anything but a value or a refusal
that names a line of the text. Whatever bytes that are no text are taken for, a fault included, the
answer is the same: there are none. -/
theorem frontEndSafe (src : String) : ∃ n lexed parsed,
    Returned (lines src.toUTF8.data.toList) lexed ∧ Returned (lines src.toUTF8.data.toList) parsed ∧
    ∀ m, n ≤ m → ∀ (invalid : Nat → Except Raise String) (fallback : Except Raise String),
      Indexed.lex invalid fallback m src = some lexed ∧ Indexed.parse invalid fallback m src = some parsed := by
  obtain ⟨lexed,lexed_,read⟩ := lexEnds src
  obtain ⟨n,parsed,parsed_,settled⟩ := parseEnds src
  refine ⟨max n src.toUTF8.data.toList.length,lexed,parsed,?_,parsed_,fun m le invalid fallback => ⟨?_,?_⟩⟩
  · cases lexed_ with
    | ok _ => exact .ok _
    | error h => exact .error h
  · rw [Indexed.lexAgrees]
    exact read m (by omega)
  · rw [Indexed.parseAgrees]
    exact settled m (by omega)

end Front

end Officium.Parser

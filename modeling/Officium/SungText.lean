import Officium.Composition
import Officium.Rows

/-! A sung verse as it is written, line by line. A line is lexed behind its head as it is without it, as
long as it does not start with another label and text. -/
namespace Officium.Lexer
open Officium.Parser (Row Calm headTokens sungTokens plainTokens labelled)

/- The line starts with a single uppercase letter and a string. -/
def Labelled (line : List UInt8) : Prop := ∃ indent label gap text more, line = indent ++ label :: (gap ++ 34 :: (text ++ 34 :: more)) ∧
  (65 ≤ label && label ≤ 90) = true ∧ indent.all blank = true ∧ gap.all blank = true ∧ text.all (fun b => b != 34 && b != 10) = true

/- A head as it is written, with blanks between its parts. -/
structure Head where
  label : Char
  text : String
  indent : String
  gap : String
  space : String
  upper : label.isUpper = true
  closed : (bytes text).all (fun b => b != 34 && b != 10) = true
  blanks : (bytes indent).all blank = true ∧ (bytes gap).all blank = true ∧ (bytes space).all blank = true

def Head.written (h : Head) : String := h.indent ++ String.singleton h.label ++ h.gap ++ "\"" ++ h.text ++ "\"" ++ h.space ++ ";"

section Heads
variable {a b : List UInt8} {g h ts : List Tok}

theorem upperIff {c : Char} : c.isUpper = true ↔ 65 ≤ c.val.toNat ∧ c.val.toNat ≤ 90 := by
  change decide (c.val ≥ 65 ∧ c.val ≤ 90) = true ↔ _
  rw [decide_eq_true_eq,ge_iff_le,UInt32.le_iff_toNat_le,UInt32.le_iff_toNat_le]
  rfl

theorem upperIdentifier {c : Char} (upper : c.isUpper = true) : Identifier (String.singleton c) := by
  have upper := upperIff.mp upper
  have small : c.val.toNat ≤ 127 := Nat.le_trans upper.2 (by decide)
  have single : bytes (String.singleton c) = [c.val.toUInt8] := by
    rw [bytesChars,show (String.singleton c).toList = [c] by simp,List.flatMap_singleton,
      String.utf8EncodeChar_eq_singleton (Char.utf8Size_eq_one_iff.mpr small)]
  have value : c.val.toUInt8.toNat = c.val.toNat := by rw [UInt32.toNat_toUInt8,Nat.mod_eq_of_lt (by omega)]
  rw [Identifier,single]
  simp only [named,alphabetic,List.all_nil,Bool.and_true,Bool.or_eq_true,Bool.and_eq_true,decide_eq_true_eq,UInt8.le_iff_toNat_le,value]
  exact .inl (.inl upper)

theorem strPiece {s : String} (closed : (bytes s).all (fun b => b != 34 && b != 10) = true) (bs : List UInt8) :
    Piece (34 :: (bytes s ++ [34])) (.str s) bs := by
  obtain ⟨s',decoded,encoded⟩ := Utf8.textDecodes (Utf8.textOf s)
  cases bytesInj encoded
  exact .str closed decoded

theorem headReads (head : Head) (b : List UInt8) : Reads [] (bytes head.written) b (headTokens (some (head.label,head.text)))
    (headTokens (some (head.label,head.text))) := by
  obtain ⟨c,rest,spelled,first,others,same⟩ := identifierBytes (upperIdentifier head.upper)
  have label (bs : List UInt8) (ends : Until nameByte bs) : Piece (bytes (String.singleton head.label)) (.ident (String.singleton head.label)) bs := by
    rw [spelled,← same]
    exact .word first others ends
  have semi : Reads [.ident (String.singleton head.label),.str head.text] (bytes head.space ++ [59]) b [.semi] (headTokens (some (head.label,head.text))) :=
    readsTrans (readsBlanks head.blanks.2.2) (.semi (by rw [sung,Parser.labelSingle head.upper]; rfl) .here)
  have text : Reads [.ident (String.singleton head.label)] (bytes head.gap ++ (34 :: (bytes head.text ++ [34]) ++ (bytes head.space ++ [59]))) b
      [.str head.text,.semi] (headTokens (some (head.label,head.text))) :=
    readsTrans (readsBlanks head.blanks.2.1) (.token (strPiece head.closed _) semi)
  have ends : Until nameByte (bytes head.gap ++ (34 :: (bytes head.text ++ [34]) ++ (bytes head.space ++ [59])) ++ b) := by
    intro x found
    cases gap : bytes head.gap with
    | nil =>
      rw [gap] at found
      cases found
      rfl
    | cons y more =>
      have is_ := head.blanks.2.1
      rw [gap] at found is_
      cases found
      rw [List.all_cons,Bool.and_eq_true] at is_
      exact (stopsName (blankStops is_.1)).1
  have whole : Reads [] (bytes head.indent ++ (bytes (String.singleton head.label) ++ _)) b _ _ :=
    readsTrans (readsBlanks head.blanks.1) (.token (label _ ends) text)
  have spelled : bytes head.written = bytes head.indent ++ (bytes (String.singleton head.label) ++
      (bytes head.gap ++ (34 :: (bytes head.text ++ [34]) ++ (bytes head.space ++ [59])))) := by
    simp only [Head.written,bytesAppend,show bytes "\"" = [34] from rfl,show bytes ";" = [59] from rfl,List.append_assoc,List.cons_append,List.nil_append]
  rw [spelled]
  exact whole

end Heads

section Lines
variable {c : UInt8} {p a b : List UInt8} {t : Tok} {g g' h ts us : List Tok}

/- What a head is made of. -/
def headPart : Tok → Bool
  | .ident _ | .str _ | .semi => true
  | _ => false

/- None of it is a token of a single byte wherever it stands. -/
theorem marksOther (marks : Marks c t) : headPart t = false := by
  have alone : lexLoop 1 [] 1 [c] = some (.ok [(t,1)]) := marks.2 0 [] 1 []
  have followed : lexLoop 1 [] 1 [c,65] = none := marks.2 0 [] 1 [65]
  by_cases letter : (alphabetic c || c == 95) = true
  · rw [lexWord letter] at followed
    cases followed
  rw [lexLoop.eq_def] at alone
  simp only at alone
  generalize kind : Char.ofNat c.toNat = k at alone
  split at alone
  case h_19 =>
    split at alone
    · split at alone
      · cases alone
        rfl
      · cases alone
    · cases alone
  all_goals
    cases alone
    try rfl

theorem pieceOther (piece : Piece p t b) : t ≠ .semi := by
  rintro rfl
  cases piece with
  | mark marks => cases marksOther marks

/- The tokens of one line stand behind what was on it. -/
theorem readsWithin (reads : Reads g a b ts h) (line : 10 ∉ a) : h = g ++ ts ∧ ∀ t ∈ ts, t ≠ .newline := by
  induction reads with
  | here => exact ⟨(List.append_nil _).symm,nofun⟩
  | token piece more ih =>
    obtain ⟨same,others⟩ := ih fun mem => line (List.mem_append_right _ mem)
    refine ⟨by rw [same,List.append_assoc]; rfl,List.forall_mem_cons.mpr ⟨?_,others⟩⟩
    rintro rfl
    cases pieceToken piece
  | blank is_ more ih => exact ih fun mem => line (.tail _ mem)
  | newline some_ more ih => exact absurd List.mem_cons_self line
  | emptyLine more ih => exact absurd List.mem_cons_self line
  | semi is_sung more ih =>
    obtain ⟨same,others⟩ := ih fun mem => line (.tail _ mem)
    exact ⟨by rw [same,List.append_assoc]; rfl,List.forall_mem_cons.mpr ⟨nofun,others⟩⟩
  | comment plain inside ends more ih => exact ih fun mem => line (.tail _ (List.mem_append_right _ mem))

/- Where no separator can follow there is none, and the line is read the same behind anything else none can
follow. -/
theorem readsLine (reads : Reads g a b ts h) (line : 10 ∉ a) (calm : ∀ us, us <+: ts → sung (g ++ us) = false) :
    (∀ t ∈ ts, t ≠ .semi) ∧ ∀ g', (∀ us, us <+: ts → sung (g' ++ us) = false) → Reads g' a b ts (g' ++ ts) := by
  induction reads with
  | here => exact ⟨nofun,fun g' _ => by rw [List.append_nil]; exact .here⟩
  | @token g p t a b ts h piece more ih =>
    obtain ⟨others,again⟩ := ih (fun mem => line (List.mem_append_right _ mem)) fun us pre => by
      rw [List.append_assoc]
      exact calm (t :: us) (List.cons_prefix_cons.mpr ⟨rfl,pre⟩)
    refine ⟨List.forall_mem_cons.mpr ⟨pieceOther piece,others⟩,fun g' calm' => ?_⟩
    have later : Reads (g' ++ [t]) a b ts (g' ++ [t] ++ ts) := again (g' ++ [t]) fun us pre => by
      rw [List.append_assoc]
      exact calm' (t :: us) (List.cons_prefix_cons.mpr ⟨rfl,pre⟩)
    rw [List.append_assoc] at later
    exact .token piece later
  | blank is_ more ih =>
    obtain ⟨others,again⟩ := ih (fun mem => line (.tail _ mem)) calm
    exact ⟨others,fun g' calm' => .blank is_ (again g' calm')⟩
  | newline some_ more ih => exact absurd List.mem_cons_self line
  | emptyLine more ih => exact absurd List.mem_cons_self line
  | semi is_sung more ih =>
    have never := calm [] List.nil_prefix
    rw [List.append_nil,is_sung] at never
    cases never
  | comment plain inside ends more ih =>
    obtain ⟨others,again⟩ := ih (fun mem => line (.tail _ (List.mem_append_right _ mem))) calm
    refine ⟨others,fun g' calm' => .comment ?_ inside ends (again g' calm')⟩
    have none_ := calm' [] List.nil_prefix
    rwa [List.append_nil] at none_

/- The next token of a line, with the blanks before it. -/
theorem readsNext (reads : Reads g a b ts h) (open_ : g ≠ []) (first : ts = t :: us) (other : t ≠ .semi ∧ t ≠ .newline) :
    ∃ w p a', a = w ++ (p ++ a') ∧ w.all blank = true ∧ Piece p t (a' ++ b) ∧ Reads (g ++ [t]) a' b us h := by
  induction reads with
  | here => cases first
  | @token g p t a b ts h piece more ih =>
    cases first
    exact ⟨[],p,a,rfl,rfl,piece,more⟩
  | @blank g c a b ts h is_ more ih =>
    obtain ⟨w,p,a',rfl,blanks,piece,more⟩ := ih open_ first
    exact ⟨c :: w,p,a',rfl,by rw [List.all_cons,is_,blanks]; rfl,piece,more⟩
  | newline some_ more ih =>
    cases first
    exact absurd rfl other.2
  | emptyLine more ih => exact absurd rfl open_
  | semi is_sung more ih =>
    cases first
    exact absurd rfl other.1
  | @comment g text a b ts h plain inside ends more ih =>
    -- behind a comment the line is over
    cases a with
    | nil =>
      obtain ⟨rfl,-⟩ := readsNothing more
      cases first
    | cons x a =>
      rcases ends with none_ | break_
      · cases none_
      · cases break_
        rcases readsBreak more with ⟨-,ts',rfl,-⟩ | ⟨none_,-⟩
        · cases first
          exact absurd rfl other.2
        · exact absurd none_ open_

theorem pieceLabel {l : String} (piece : Piece p (.ident l) b) (label : (rhymeLabel l).isSome = true) : ∃ c, p = [c] ∧ (65 ≤ c && c ≤ 90) = true := by
  generalize same : Tok.ident l = t at piece
  cases piece with
  | mark marks =>
    subst same
    cases marksOther marks
  | @word c rest _ first others ends =>
    cases same
    have chars : (ascii (c :: rest)).toList = Char.ofNat c.toNat :: rest.map (fun b => Char.ofNat b.toNat) := String.toList_ofList
    rw [rhymeLabel,chars] at label
    cases rest with
    | cons d rest => cases label
    | nil =>
      refine ⟨c,rfl,?_⟩
      have upper : (Char.ofNat c.toNat).isUpper = true := by
        by_contra other
        simp only [List.map_nil,other] at label
        cases label
      have value : (Char.ofNat c.toNat).val.toNat = c.toNat := by
        rw [Char.ofNat,dif_pos (.inl (by have := c.toNat_lt; omega))]
        rfl
      rw [upperIff,value] at upper
      simp only [Bool.and_eq_true,decide_eq_true_eq,UInt8.le_iff_toNat_le]
      exact upper
  | _ => cases same

theorem pieceText {s : String} (piece : Piece p (.str s) b) : ∃ text, p = 34 :: (text ++ [34]) ∧ text.all (fun b => b != 34 && b != 10) = true := by
  generalize same : Tok.str s = t at piece
  cases piece with
  | mark marks =>
    subst same
    cases marksOther marks
  | str inside decoded => exact ⟨_,rfl,inside⟩
  | _ => cases same

theorem labelledStarts {x : UInt8} (label : Labelled (x :: a)) : x ≠ 10 := by
  obtain ⟨indent,c,gap,text,more,same,upper,blanks,-⟩ := label
  rintro rfl
  cases indent with
  | nil =>
    cases (List.cons.inj same).1
    cases upper
  | cons y indent =>
    cases (List.cons.inj same).1
    cases blanks

theorem labelledBlank {x : UInt8} (is_ : blank x = true) (label : Labelled a) : Labelled (x :: a) := by
  obtain ⟨indent,c,gap,text,more,rfl,upper,blanks,others⟩ := label
  exact ⟨x :: indent,c,gap,text,more,rfl,upper,by rw [List.all_cons,is_,blanks]; rfl,others⟩

theorem labelledFirst {a : List UInt8} (label : Labelled a) : (a.dropWhile blank).head?.any (fun c => 65 ≤ c && c ≤ 90) = true := by
  obtain ⟨indent,c,gap,text,more,rfl,upper,blanks,-⟩ := label
  have other : blank c = false := by
    by_contra is_
    have is_ := Bool.not_eq_false _ ▸ is_
    simp only [blank,Bool.or_eq_true,beq_iff_eq] at is_
    rcases is_ with (rfl | rfl) | rfl <;> cases upper
  rw [List.dropWhile_append_of_pos (List.all_eq_true.mp blanks),List.dropWhile_cons_of_neg (by rw [other]; decide)]
  exact upper

/- Where the next tokens are a label and a text the line they are on starts with them. -/
theorem readsLabel (reads : Reads g a b ts h) (start : g = []) (label : labelled ts = true) :
    ∃ before line, a = before ++ line ∧ (before = [] ∨ before.getLast? = some 10) ∧ Labelled line := by
  have below {a before line : List UInt8} (p : List UInt8) (same : a = before ++ line) (last : before.getLast? = some 10) (label : Labelled line) :
      ∃ before line, p ++ a = before ++ line ∧ (before = [] ∨ before.getLast? = some 10) ∧ Labelled line :=
    ⟨p ++ before,line,by rw [same,List.append_assoc],.inr (by rw [List.getLast?_append,last]; rfl),label⟩
  induction reads with
  | here => cases label
  | @token g p t a b ts h piece more ih =>
    subst start
    obtain ⟨l,s,rest,same,label⟩ := Parser.labelledShape label
    cases same
    obtain ⟨c,rfl,upper⟩ := pieceLabel piece label
    obtain ⟨w,q,a',rfl,blanks,piece',-⟩ := readsNext more (List.cons_ne_nil _ _) rfl ⟨nofun,nofun⟩
    obtain ⟨text,rfl,inside⟩ := pieceText piece'
    exact ⟨[],_,rfl,.inl rfl,[],c,w,text,a',by simp,upper,rfl,blanks,inside⟩
  | @blank g c a b ts h is_ more ih =>
    obtain ⟨before,line,same,rfl | last,label⟩ := ih start label
    · exact ⟨[],c :: line,by rw [same]; rfl,.inl rfl,labelledBlank is_ label⟩
    · exact below [c] same last label
  | newline some_ more ih => exact absurd start some_
  | @emptyLine a b ts h more ih =>
    obtain ⟨before,line,same,rfl | last,label⟩ := ih rfl label
    · exact ⟨[10],line,by rw [same]; rfl,.inr rfl,label⟩
    · exact below [10] same last label
  | semi is_sung more ih => cases label
  | @comment g text a b ts h plain inside ends more ih =>
    obtain ⟨before,line,same,rfl | last,label⟩ := ih start label
    · obtain rfl : a = line := same
      cases a with
      | nil =>
        obtain ⟨rfl,-⟩ := readsNothing more
        cases label
      | cons x a =>
        rcases ends with none_ | break_
        · cases none_
        · cases break_
          exact absurd rfl (labelledStarts label)
    · exact below (59 :: text) same last label

theorem readsLabelled (reads : Reads [] a b ts h) (line : 10 ∉ a) (label : labelled ts = true) : Labelled a := by
  obtain ⟨before,rest,rfl,rfl | last,label⟩ := readsLabel reads rfl label
  · exact label
  · exact absurd (List.mem_append_left _ (List.mem_of_getLast? last)) line

theorem sungLabelled (pre : us <+: ts) (is_ : sung us = true) : labelled ts = true := by
  obtain ⟨vs,rfl⟩ := pre
  unfold sung at is_
  split at is_
  · exact is_
  · cases is_

end Lines

/- A line of a verse: its head, if it has one, what else is on it and the tokens of that. -/
structure Line where
  head : Option Head
  rest : String
  tokens : List Tok
  line : 10 ∉ bytes rest
  lexed : ∃ n toks, lex n rest = some (.ok toks) ∧ toks.map Prod.fst = tokens
  unlabelled : ¬Labelled (bytes rest)

namespace Line

def sung (l : Line) : String := (l.head.elim "" Head.written) ++ l.rest

def row (l : Line) : Row := ⟨l.head.map (fun h => (h.label,h.text)),l.tokens⟩

variable {b : List UInt8}

theorem untold (l : Line) : labelled l.tokens = false := by
  obtain ⟨h,reads⟩ := lexIff.mpr l.lexed
  by_contra label
  exact l.unlabelled (readsLabelled reads l.line (Bool.not_eq_false _ ▸ label))

theorem plainHead (l : Line) (us : List Tok) (pre : us <+: l.tokens) : Lexer.sung ([] ++ us) = false := by
  by_contra is_
  have label := sungLabelled pre (Bool.not_eq_false _ ▸ is_)
  rw [l.untold] at label
  cases label

/- The line is read with its head as it is without. -/
theorem reads (l : Line) (ends : LineEnd b) : (∀ t ∈ l.tokens, t ≠ .newline ∧ t ≠ .semi) ∧ Reads [] (bytes l.rest) b l.tokens l.tokens ∧
    Reads [] (bytes l.sung) b (headTokens l.row.head ++ l.tokens) (headTokens l.row.head ++ l.tokens) := by
  obtain ⟨h,alone⟩ := lexIff.mpr l.lexed
  have followed : Reads [] (bytes l.rest) b l.tokens h := readsFollow alone (ends.imp (fun none_ => by rw [none_]) id)
  obtain ⟨others,again⟩ := readsLine followed l.line l.plainHead
  obtain ⟨rfl,breaks⟩ := readsWithin followed l.line
  refine ⟨fun t mem => ⟨breaks t mem,others t mem⟩,followed,?_⟩
  obtain ⟨head,rest,tokens,line,lexed,unlabelled⟩ := l
  cases head with
  | none =>
    rw [show Line.sung ⟨none,rest,tokens,line,lexed,unlabelled⟩ = rest from String.empty_append]
    exact followed
  | some head =>
    have behind := again (headTokens (some (head.label,head.text))) fun us _ => rfl
    rw [show Line.sung ⟨some head,rest,tokens,line,lexed,unlabelled⟩ = head.written ++ rest from rfl,bytesAppend]
    exact readsTrans (headReads head (bytes rest ++ b)) behind

theorem calm (l : Line) : Calm l.row where
  label := by
    intro c s headed
    obtain ⟨h,-,same⟩ := Option.map_eq_some_iff.mp headed
    cases same
    exact h.upper
  line := (l.reads (.inl rfl)).1
  unlabelled := l.untold

end Line

/- Each line below a line break. -/
def below : List String → String
  | [] => ""
  | l :: lines => "\n" ++ (l ++ below lines)

section Below
variable {b : List UInt8} {g h : List Tok} {lines : List Line} {strings : List String}

theorem belowEnds (ends : LineEnd b) (strings : List String) : LineEnd (bytes (below strings) ++ b) := by
  cases strings with
  | nil => exact ends
  | cons l strings => exact .inr (by rw [below,bytesAppend]; rfl)

theorem breakReads {a ts : List Tok} {bs : List UInt8} (later : Reads [] bs b a h) (same : ts = Parser.lineBreak (!g.isEmpty) ++ a) : Reads g (10 :: bs) b ts h := by
  subst same
  cases g with
  | nil => exact .emptyLine later
  | cons t g => exact .newline nofun later

/- The lines are read one by one, with their heads and without. -/
theorem linesRead (ends : LineEnd b) (lines : List Line) (g g' : List Tok) :
    (∃ h, Reads g (bytes (below (lines.map Line.rest))) b (plainTokens (!g.isEmpty) (lines.map Line.row)) h ∧
      ∀ l, lines.getLast? = some l → h = l.tokens) ∧
    ∃ h, Reads g' (bytes (below (lines.map Line.sung))) b (sungTokens (!g'.isEmpty) (lines.map Line.row)) h ∧
      ∀ l, lines.getLast? = some l → h = headTokens l.row.head ++ l.tokens := by
  induction lines generalizing g g' with
  | nil => exact ⟨⟨g,.here,nofun⟩,g',.here,nofun⟩
  | cons l lines ih =>
    obtain ⟨⟨h,plain,last⟩,h',sung,last'⟩ := ih l.tokens (headTokens l.row.head ++ l.tokens)
    have reads (strings : List String) := l.reads (belowEnds ends strings)
    have opens : (!(headTokens l.row.head ++ l.tokens).isEmpty) = l.row.opens := by
      obtain ⟨head,rest,tokens,_,_,_⟩ := l
      cases head <;> rfl
    rw [opens] at sung
    refine ⟨⟨h,?_,?_⟩,h',?_,?_⟩
    · rw [List.map_cons,below,bytesAppend,bytesAppend,List.map_cons,plainTokens]
      have whole := readsTrans (reads _).2.1 plain
      exact breakReads whole rfl
    · intro l' found
      cases lines with
      | nil =>
        cases found
        exact (readsNothing plain).2
      | cons m lines => exact last l' found
    · rw [List.map_cons,below,bytesAppend,bytesAppend,List.map_cons,sungTokens,← List.append_assoc (headTokens l.row.head)]
      have whole := readsTrans (reads _).2.2 sung
      exact breakReads whole rfl
    · intro l' found
      cases lines with
      | nil =>
        cases found
        exact (readsNothing sung).2
      | cons m lines => exact last' l' found

/- Behind a line that has a token what is below is read the same. -/
theorem afterLine {a ts : List Tok} {bs : List UInt8} (reads : Reads g bs [] ts a) (ends : LineEnd bs) (some_ : g ≠ []) (some' : h ≠ []) :
    ∃ a', Reads h bs [] ts a' := by
  rcases ends with rfl | break_
  · obtain ⟨rfl,rfl⟩ := readsNothing reads
    exact ⟨h,.here⟩
  · cases bs with
    | nil => cases break_
    | cons x bs =>
      cases break_
      rcases readsBreak reads with ⟨-,ts',rfl,more⟩ | ⟨none_,-⟩
      · exact ⟨a,.newline some' more⟩
      · exact absurd none_ some_

/- The tokens of the line behind these. -/
def onLine (g ts : List Tok) : List Tok := ts.foldl (fun g t => if t.isNewline then [] else g ++ [t]) g

theorem readsOnLine {a : List UInt8} {ts : List Tok} (reads : Reads g a b ts h) : h = onLine g ts := by
  induction reads with
  | here => rfl
  | token piece more ih =>
    rw [ih,onLine,onLine,List.foldl_cons,if_neg (by rw [pieceToken piece]; decide)]
  | _ => assumption

/- Behind a token that ends no line there is one on the line. -/
theorem readsOpen {a : List UInt8} {ts : List Tok} {t : Tok} (reads : Reads g a b (ts ++ [t]) h) (plain : t.isNewline = false) : h ≠ [] := by
  rw [readsOnLine reads,onLine,List.foldl_append,List.foldl_cons,List.foldl_nil,if_neg (by rw [plain]; decide)]
  exact List.append_ne_nil_of_right_ne_nil _ (List.cons_ne_nil t [])

/- What can be read behind a line that has a token. -/
def Behind (bs : List UInt8) (ts : List Tok) : Prop := ∃ g h, g ≠ [] ∧ Reads g bs [] ts h

theorem readsBehind {a bs : List UInt8} {ts us : List Tok} (first : Reads [] a bs ts g) (some_ : g ≠ []) (ends : LineEnd bs) :
    (∃ h, Reads [] (a ++ bs) [] us h) ↔ ∃ later, Behind bs later ∧ us = ts ++ later := by
  constructor
  · rintro ⟨h,whole⟩
    obtain ⟨later,h',rfl,second⟩ := readsAfter first whole
    exact ⟨later,⟨g,h',some_,second⟩,rfl⟩
  · rintro ⟨later,⟨g',h,some',second⟩,rfl⟩
    obtain ⟨h',second⟩ := afterLine second ends some' some_
    exact ⟨h',readsTrans (by rwa [List.append_nil]) second⟩

end Below

end Officium.Lexer

import Mathlib.Logic.Relation
import Officium.Pieces

/-! Comments and blanks are transparent: edits of a source that leave its tokens as they are. -/
namespace Officium.Lexer

section Splitting
variable {p a b bs : List UInt8} {t : Tok} {h h' ts : List Tok}

theorem marksNever {c : UInt8} (leaves : lexLoop 1 [] 1 [c] = some (.ok [])) : ¬Marks c t := by
  intro marks
  rw [marks.2 0 [] 1 []] at leaves
  cases leaves

theorem spanNumber (prev : UInt8) (bs : List UInt8) : ∀ b ∈ (numberSpan prev bs).1, numberByte b = true := by
  induction bs generalizing prev with
  | nil =>
    intro b mem
    cases mem
  | cons c bs ih =>
    rw [numberSpan]
    split
    · rename_i inside
      intro b mem
      rcases List.mem_cons.mp mem with rfl | mem
      · simp only [Bool.or_eq_true,Bool.and_eq_true] at inside
        simp only [numberByte,Bool.or_eq_true]
        exact inside.imp_right And.left
      · exact ih c b mem
    · intro b mem
      cases mem

theorem pieceLine (piece : Piece p t bs) : 10 ∉ p := by
  cases piece with
  | mark marks =>
    intro mem
    cases List.mem_singleton.mp mem
    exact marksNever rfl marks
  | arrow => decide
  | minus alone => decide
  | bindArrow => decide
  | @word c rest _ first others ends =>
    intro mem
    rcases List.mem_cons.mp mem with rfl | mem
    · cases first
    · cases List.all_eq_true.mp others _ mem
  | @number c rest x _ first span value =>
    intro mem
    rcases List.mem_cons.mp mem with rfl | mem
    · cases first
    · have among := spanNumber c (rest ++ bs) 10
      rw [span] at among
      cases among mem
  | @str body s _ inside decoded =>
    intro mem
    rcases List.mem_cons.mp mem with quote | mem
    · cases quote
    · rcases List.mem_append.mp mem with mem | quote
      · cases List.all_eq_true.mp inside _ mem
      · cases List.mem_singleton.mp quote

theorem blankLine {c : UInt8} (is_ : blank c = true) : c ≠ 10 := by
  rintro rfl
  cases is_

/- What has no line break lies before the next one. -/
theorem beforeBreak {p a a' b : List UInt8} (same : p ++ a' = a ++ b) (line : 10 ∉ p) (ends : LineEnd b) : ∃ more, a = p ++ more ∧ a' = more ++ b := by
  rcases List.append_eq_append_iff.mp same with ⟨more,is_,is'⟩ | ⟨more,is_,is'⟩
  · exact ⟨more,is_,is'⟩
  · cases more with
    | nil => exact ⟨[],by rw [is_,List.append_nil,List.append_nil],is'.symm⟩
    | cons c more =>
      rcases ends with rfl | first
      · cases is'
      · rw [is'] at first
        cases first
        exact absurd (is_ ▸ List.mem_append_right _ List.mem_cons_self) line

/- A source read whole is read up to the end of any of its lines. -/
theorem readsSplit (reads : Reads h bs [] ts h') (same : bs = a ++ b) (ends : LineEnd b) :
    ∃ ts₁ ts₂ h₁, ts = ts₁ ++ ts₂ ∧ Reads h a b ts₁ h₁ ∧ Reads h₁ b [] ts₂ h' := by
  generalize last : ([] : List UInt8) = none_ at reads
  induction reads generalizing a with
  | @here h _ =>
    obtain ⟨rfl,rfl⟩ := List.append_eq_nil_iff.mp same.symm
    exact ⟨[],[],h,rfl,.here,.here⟩
  | @token h p t a' _ ts h' piece more ih =>
    subst last
    obtain ⟨rest,rfl,rfl⟩ := beforeBreak same (pieceLine piece) ends
    obtain ⟨ts₁,ts₂,h₁,rfl,first,second⟩ := ih rfl rfl
    rw [List.append_nil] at piece
    exact ⟨t :: ts₁,ts₂,h₁,rfl,.token piece first,second⟩
  | @blank h c a' _ ts h' is_ more ih =>
    subst last
    obtain ⟨rest,rfl,rfl⟩ := beforeBreak (p := [c]) same (fun mem => blankLine is_ (List.mem_singleton.mp mem).symm) ends
    obtain ⟨ts₁,ts₂,h₁,rfl,first,second⟩ := ih rfl rfl
    exact ⟨ts₁,ts₂,h₁,rfl,.blank is_ first,second⟩
  | @newline h a' _ ts h' some_ more ih =>
    subst last
    cases a with
    | nil =>
      have whole : 10 :: a' = b := same
      exact ⟨[],_,h,rfl,.here,whole ▸ .newline some_ more⟩
    | cons c rest =>
      obtain ⟨rfl,rfl⟩ := List.cons.inj same
      obtain ⟨ts₁,ts₂,h₁,rfl,first,second⟩ := ih rfl rfl
      exact ⟨_,ts₂,h₁,rfl,.newline some_ first,second⟩
  | @emptyLine a' _ ts h' more ih =>
    subst last
    cases a with
    | nil =>
      have whole : 10 :: a' = b := same
      exact ⟨[],_,[],rfl,.here,whole ▸ .emptyLine more⟩
    | cons c rest =>
      obtain ⟨rfl,rfl⟩ := List.cons.inj same
      obtain ⟨ts₁,ts₂,h₁,rfl,first,second⟩ := ih rfl rfl
      exact ⟨_,ts₂,h₁,rfl,.emptyLine first,second⟩
  | @semi h a' _ ts h' is_sung more ih =>
    subst last
    obtain ⟨rest,rfl,rfl⟩ := beforeBreak (p := [59]) same (by decide) ends
    obtain ⟨ts₁,ts₂,h₁,rfl,first,second⟩ := ih rfl rfl
    exact ⟨_,ts₂,h₁,rfl,.semi is_sung first,second⟩
  | @comment h text a' _ ts h' plain inside over_ more ih =>
    subst last
    obtain ⟨rest,rfl,rfl⟩ := beforeBreak (p := 59 :: text) same (fun mem => (List.mem_cons.mp mem).elim nofun inside) ends
    obtain ⟨ts₁,ts₂,h₁,rfl,first,second⟩ := ih rfl rfl
    rw [List.append_nil] at over_
    exact ⟨ts₁,ts₂,h₁,rfl,.comment plain inside over_ first,second⟩

end Splitting

section Edits

/- The place lies between two tokens: whole pieces are read before it, or it is in a comment. -/
inductive Between (a b : List UInt8) : Prop where
  | pieces {ts h} (reads : Reads [] a b ts h)
  | comment {before text ts h} (cut : a = before ++ 59 :: text) (reads : Reads [] before (59 :: (text ++ b)) ts h) (plain : sung h = false)
      (inside : 10 ∉ text)

/- Blanks, and a comment at most. -/
inductive Idle : List UInt8 → Prop where
  | blanks {space} (is_ : space.all blank = true) : Idle space
  | comment {space text} (is_ : space.all blank = true) (inside : 10 ∉ text) : Idle (space ++ 59 :: text)

/- One edit that leaves the tokens as they are: a comment at the end of a line that is not just a label and
its text, an idle line next to a line break, or blanks between two tokens. -/
inductive Edit : String → String → Prop where
  | comment {a b text : String} (ends : LineEnd (bytes b)) (other : ∀ ts h, Reads [] (bytes a) (bytes b) ts h → sung h = false)
      (inside : 10 ∉ bytes text) : Edit (a ++ b) (a ++ (";" ++ text) ++ b)
  | line {a b idle : String} (is_ : Idle (bytes idle)) : Edit (a ++ ("\n" ++ b)) (a ++ ("\n" ++ (idle ++ ("\n" ++ b))))
  | blanks {a b space : String} (is_ : (bytes space).all blank = true) (between : Between (bytes a) (bytes b)) : Edit (a ++ b) (a ++ space ++ b)

variable {a b w text : List UInt8} {h h' ts : List Tok}

theorem readsBlanks (is_ : w.all blank = true) : Reads h w b [] h := by
  induction w with
  | nil => exact .here
  | cons c w ih =>
    rw [List.all_cons,Bool.and_eq_true] at is_
    exact .blank is_.1 (ih is_.2)

theorem readsComment (plain : sung h = false) (inside : 10 ∉ text) (ends : LineEnd b) : Reads h (59 :: text) b [] h := by
  have whole : Reads h (59 :: (text ++ [])) b [] h := .comment plain inside ends .here
  rwa [List.append_nil] at whole

theorem readsIdle (idle : Idle w) (ends : LineEnd b) : Reads [] w b [] [] := by
  cases idle with
  | blanks is_ => exact readsBlanks is_
  | comment is_ inside => exact readsTrans (readsBlanks is_) (readsComment rfl inside ends)

theorem readsBreak (reads : Reads h (10 :: a) b ts h') :
    (h ≠ [] ∧ ∃ ts', ts = .newline :: ts' ∧ Reads [] a b ts' h') ∨ (h = [] ∧ Reads [] a b ts h') := by
  generalize whole : 10 :: a = bs at reads
  cases reads with
  | here => cases whole
  | @token h p t a' _ ts h' piece more =>
    cases p with
    | nil => exact absurd rfl (pieceSome piece)
    | cons c p =>
      cases (List.cons.inj whole).1
      exact absurd List.mem_cons_self (pieceLine piece)
  | blank is_ more =>
    cases whole
    cases is_
  | newline some_ more =>
    cases whole
    exact .inl ⟨some_,_,rfl,more⟩
  | emptyLine more =>
    cases whole
    exact .inr ⟨rfl,more⟩
  | semi is_sung more => cases whole
  | comment plain inside ends more => cases whole

theorem pieceSemi {p bs : List UInt8} {t : Tok} (piece : Piece p t bs) : p.head? ≠ some 59 := by
  intro first
  cases piece with
  | mark marks =>
    cases first
    exact marksNever rfl marks
  | word first' others ends =>
    cases first
    cases first'
  | number first' span value =>
    cases first
    cases first'
  | _ => cases first

theorem readsSemi (plain : sung h = false) (reads : Reads h (59 :: w) b ts h') :
    ∃ text a, w = text ++ a ∧ 10 ∉ text ∧ LineEnd (a ++ b) ∧ Reads h a b ts h' := by
  generalize whole : 59 :: w = bs at reads
  cases reads with
  | here => cases whole
  | @token h p t a' _ ts h' piece more =>
    cases p with
    | nil => exact absurd rfl (pieceSome piece)
    | cons c p => exact absurd (congrArg some (List.cons.inj whole).1.symm) (pieceSemi piece)
  | blank is_ more =>
    cases whole
    cases is_
  | newline some_ more => cases whole
  | emptyLine more => cases whole
  | semi is_sung more =>
    rw [plain] at is_sung
    cases is_sung
  | comment plain inside ends more =>
    cases whole
    exact ⟨_,_,rfl,inside,ends,more⟩

theorem blankStops {c : UInt8} (is_ : blank c = true) : stops c = true := by
  simp only [blank,Bool.or_eq_true] at is_
  simp only [stops,Bool.or_eq_true]
  exact .inl (.inl is_)

theorem blanksInside (is_ : w.all blank = true) : 10 ∉ w := fun mem => blankLine (List.all_eq_true.mp is_ 10 mem) rfl

/- Blanks between two tokens. -/
theorem readsBetween (between : Between a b) (is_ : w.all blank = true) (reads : ∃ h, Reads [] (a ++ b) [] ts h) :
    ∃ h, Reads [] (a ++ w ++ b) [] ts h := by
  obtain ⟨h,reads⟩ := reads
  cases w with
  | nil => exact ⟨h,by rwa [List.append_nil]⟩
  | cons c w =>
  have stop : ∃ x, (c :: w).head? = some x ∧ stops x = true := by
    rw [List.all_cons,Bool.and_eq_true] at is_
    exact ⟨c,rfl,blankStops is_.1⟩
  cases between with
  | pieces first =>
    obtain ⟨ts₂,h',rfl,second⟩ := readsAfter first reads
    have put := readsInsert first stop (blanksInside is_) (readsBlanks is_)
    exact ⟨h',readsTrans (by rwa [List.append_nil]) second⟩
  | @comment before text ts₁ h₁ cut first plain inside =>
    subst cut
    rw [List.append_assoc,List.cons_append] at reads
    obtain ⟨ts₂,h',rfl,second⟩ := readsAfter first reads
    obtain ⟨text',rest,same,inside',ends,more⟩ := readsSemi plain second
    rw [List.append_nil] at ends
    obtain ⟨tail,rfl,rfl⟩ := beforeBreak same inside ends
    -- the blanks are more of the comment
    have wider : 10 ∉ text ++ (c :: w) ++ tail := by
      simp only [List.mem_append,not_or] at inside' ⊢
      exact ⟨⟨inside,blanksInside is_⟩,inside'.2⟩
    have again : Reads h₁ (59 :: (text ++ (c :: w) ++ tail ++ rest)) [] ts₂ h' := .comment plain wider (by rwa [List.append_nil]) more
    refine ⟨h',?_⟩
    have whole := readsTrans (readsFollow first (.inl rfl) : Reads [] before (59 :: (text ++ (c :: w) ++ tail ++ rest) ++ []) ts₁ h₁) again
    simpa [List.append_assoc] using whole

theorem readsEdit {src src' : String} (edit : Edit src src') (reads : ∃ h, Reads [] (bytes src) [] ts h) : ∃ h, Reads [] (bytes src') [] ts h := by
  cases edit with
  | @comment a b text ends other inside =>
    obtain ⟨h,reads⟩ := reads
    rw [bytesAppend] at reads
    obtain ⟨ts₁,ts₂,h₁,rfl,first,second⟩ := readsSplit reads rfl ends
    have plain := other ts₁ h₁ first
    have put : Reads [] (bytes a ++ 59 :: bytes text) (bytes b) ts₁ h₁ :=
      readsInsert first ⟨59,rfl,rfl⟩ (fun mem => (List.mem_cons.mp mem).elim nofun inside) (readsComment plain inside ends)
    rw [bytesAppend,bytesAppend,bytesAppend]
    exact ⟨h,readsTrans (by rwa [List.append_nil]) second⟩
  | @line a b idle is_ =>
    obtain ⟨h,reads⟩ := reads
    rw [bytesAppend,bytesAppend] at reads
    obtain ⟨ts₁,ts₂,h₁,rfl,first,second⟩ := readsSplit reads rfl (.inr rfl)
    rw [bytesAppend,bytesAppend,bytesAppend,bytesAppend]
    -- the line break that was there, the idle line, and a line break that leaves no token
    refine ⟨h,readsTrans (readsFollow first (.inr rfl)) ?_⟩
    rcases readsBreak second with ⟨some_,ts',rfl,more⟩ | ⟨rfl,more⟩
    · exact .newline some_ (readsTrans (readsIdle is_ (.inr rfl)) (.emptyLine more))
    · exact .emptyLine (readsTrans (readsIdle is_ (.inr rfl)) (.emptyLine more))
  | @blanks a b space is_ between =>
    rw [bytesAppend] at reads
    rw [bytesAppend,bytesAppend]
    exact readsBetween between is_ reads

/- After any number of such edits the source is lexed to the same tokens, from some bound on. -/
theorem layoutTransparent {src src' : String} (edits : Relation.ReflTransGen Edit src src') {n : Nat} {toks : Lexed}
    (lexed : lex n src = some (.ok toks)) :
    ∃ toks' k, (∀ m, k ≤ m → lex m src' = some (.ok toks')) ∧ toks'.map Prod.fst = toks.map Prod.fst := by
  have reads : ∃ h, Reads [] (bytes src') [] (toks.map Prod.fst) h := by
    induction edits with
    | refl => exact lexIff.mpr ⟨n,toks,lexed,rfl⟩
    | tail _ edit ih => exact readsEdit edit ih
  obtain ⟨h,reads⟩ := reads
  obtain ⟨us,k,same,settled⟩ := (readsLoop reads rfl : Lexes [] 1 (bytes src') (toks.map Prod.fst))
  exact ⟨us,k,settled,same⟩

theorem layoutTransparentLine : ∃ toks' k, (∀ m, k ≤ m → lex m ("a" ++ ("\n" ++ ("; c" ++ ("\n" ++ "b")))) = some (.ok toks')) ∧
    toks'.map Prod.fst = [(Tok.ident "a",1),(.newline,1),(.ident "b",2)].map Prod.fst :=
  layoutTransparent (.single (.line (show Idle (bytes "; c") from @Idle.comment [] [32,99] rfl (by decide)))) (show lex 3 ("a" ++ ("\n" ++ "b")) = _ from rfl)

end Edits

end Officium.Lexer

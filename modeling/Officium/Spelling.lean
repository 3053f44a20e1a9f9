import Officium.Agreement

/-! Text whose tokens are known. What the lexer makes of it depends on what it has read only where a
line begins, so a token's bytes name the token and what is left after them. -/
namespace Officium.Lexer

def bytes (s : String) : List UInt8 := s.toUTF8.data.toList

theorem bytesAppend (s s' : String) : bytes (s ++ s') = bytes s ++ bytes s' := by
  rw [bytes,String.toUTF8_eq_toByteArray,String.toByteArray_append,ByteArray.toList_data_append]
  rfl

theorem bytesChars (s : String) : bytes s = s.toList.flatMap String.utf8EncodeChar := by
  have same : s.toList.utf8Encode = s.toByteArray := String.utf8Encode_toList
  rw [bytes,String.toUTF8_eq_toByteArray,← same,List.utf8Encode,List.toList_data_toByteArray]

theorem bytesInj {s s' : String} (h : bytes s = bytes s') : s = s' :=
  String.toByteArray_inj.mp (ByteArray.ext (Array.toList_inj.mp h))

/- The bytes of a name. -/
def named : List UInt8 → Bool
  | [] => false
  | c :: rest => (alphabetic c || c == 95) && rest.all nameByte

def Identifier (s : String) : Prop := named (bytes s) = true

instance (s : String) : Decidable (Identifier s) := inferInstanceAs (Decidable (_ = _))

/- The text is over, or goes on with a byte that is none of these. -/
def Until (p : UInt8 → Bool) (bs : List UInt8) : Prop := ∀ b, bs.head? = some b → p b = false

def numberByte (b : UInt8) : Bool := digit b || b == 46 || exponentMark b || sign b

/- A byte that is a token of its own wherever it stands. -/
def Marks (b : UInt8) (t : Tok) : Prop := t.isNewline = false ∧ ∀ n toks line rest,
  lexLoop (n+1) toks line (b :: rest) = lexLoop n (toks ++ [(t,line)]) line rest

def Plain (ts : List Tok) : Prop := ∀ t, ts.head? = some t → t.isNewline = false

/- The bytes are these tokens. -/
inductive Spelled : List UInt8 → List Tok → Prop where
  | nil : Spelled [] []
  | space {bs ts} (more : Spelled bs ts) : Spelled (32 :: bs) ts
  | newline {bs ts} (plain : Plain ts) (more : Spelled bs ts) : Spelled (10 :: bs) (.newline :: ts)
  | mark {b t bs ts} (marks : Marks b t) (more : Spelled bs ts) : Spelled (b :: bs) (t :: ts)
  | arrow {bs ts} (more : Spelled bs ts) : Spelled (45 :: 62 :: bs) (.arrow :: ts)
  | bindArrow {bs ts} (more : Spelled bs ts) : Spelled (60 :: 45 :: bs) (.bindArrow :: ts)
  | word {s bs ts} (identifier : Identifier s) (ends : Until nameByte bs) (more : Spelled bs ts) :
      Spelled (bytes s ++ bs) (.ident s :: ts)
  | number {ds x bs ts} (digits : ds ≠ [] ∧ ds.all digit = true) (value : parseF64 ds = some x) (ends : Until numberByte bs)
      (more : Spelled bs ts) : Spelled (ds ++ bs) (.num x :: ts)
  | str {s bs ts} (closed : (bytes s).all (fun b => b != 34 && b != 10) = true) (more : Spelled bs ts) :
      Spelled (34 :: (bytes s ++ 34 :: bs)) (.str s :: ts)

section Steps
variable {n line : Nat} {toks : Lexed} {c : UInt8} {bs rest : List UInt8}

theorem charByte {k : Char} (same : Char.ofNat c.toNat = k) : c = UInt8.ofNat k.toNat := by
  have value : (Char.ofNat c.toNat).toNat = c.toNat := by
    rw [Char.ofNat,dif_pos (.inl (by have := c.toNat_lt; omega))]
    rfl
  rw [← same,value,UInt8.ofNat_toNat]

theorem lexSpace : lexLoop (n+1) toks line (32 :: rest) = lexLoop n toks line rest := rfl

theorem lexNewline {t : Tok × Nat} (last : toks.getLast? = some t) (plain : t.1.isNewline = false) :
    lexLoop (n+1) toks line (10 :: rest) = lexLoop n (toks ++ [(.newline,line)]) (line+1) rest := by
  rw [lexLoopNewline,last]
  obtain ⟨t,l⟩ := t
  cases t <;> first | rfl | cases plain

theorem lexWord (first : (alphabetic c || c == 95) = true) : lexLoop (n+1) toks line (c :: rest) =
    lexLoop n (toks ++ [(.ident (ascii (c :: rest.takeWhile nameByte)),line)]) line (rest.dropWhile nameByte) := by
  rw [lexLoop.eq_def]
  simp only
  generalize kind : Char.ofNat c.toNat = k
  split
  case h_19 =>
    have other : digit c = false := by
      by_contra is_digit
      simp only [alphabetic,digit,Bool.or_eq_true,Bool.and_eq_true,decide_eq_true_eq,beq_iff_eq,Bool.not_eq_false,
        UInt8.le_iff_toNat_le] at first is_digit
      rcases first with (⟨low,-⟩ | ⟨low,-⟩) | rfl
      · exact absurd (Nat.le_trans low is_digit.2) (by decide)
      · exact absurd (Nat.le_trans low is_digit.2) (by decide)
      · exact absurd is_digit.2 (by decide)
    rw [if_neg (by simp [other]),if_pos first]
  all_goals
    cases charByte kind
    cases first

theorem lexNumber (first : digit c = true) : lexLoop (n+1) toks line (c :: rest) =
    match parseF64 (c :: (numberSpan c rest).1) with
    | some x => lexLoop n (toks ++ [(.num x,line)]) line (numberSpan c rest).2
    | none => some (err line "malformed number") := by
  rw [lexLoop.eq_def]
  simp only
  generalize kind : Char.ofNat c.toNat = k
  split
  case h_19 =>
    exact if_pos first
  all_goals
    cases charByte kind
    cases first

/- A run of bytes that are let through, and then one that is not. -/
theorem spanEnds {p : UInt8 → Bool} (through : rest.all p = true) (ends : Until p bs) :
    (rest ++ bs).takeWhile p = rest ∧ (rest ++ bs).dropWhile p = bs := by
  have all : ∀ b ∈ rest, p b = true := List.all_eq_true.mp through
  have stop : bs.takeWhile p = [] ∧ bs.dropWhile p = bs := by
    cases bs with
    | nil => exact ⟨rfl,rfl⟩
    | cons b bs =>
      have no := ends b rfl
      exact ⟨List.takeWhile_cons_of_neg (by simp [no]),List.dropWhile_cons_of_neg (by simp [no])⟩
  rw [List.takeWhile_append_of_pos all,List.dropWhile_append_of_pos all,stop.1,stop.2,List.append_nil]
  exact ⟨rfl,rfl⟩

theorem numberSpanEnds (prev : UInt8) (digits : rest.all digit = true) (ends : Until numberByte bs) :
    numberSpan prev (rest ++ bs) = (rest,bs) := by
  induction rest generalizing prev with
  | nil =>
    cases bs with
    | nil => rfl
    | cons b bs =>
      have no := ends b rfl
      simp only [numberByte,Bool.or_eq_false_iff] at no
      rw [List.nil_append,numberSpan,if_neg (by simp [no])]
  | cons d rest ih =>
    rw [List.all_cons,Bool.and_eq_true] at digits
    rw [List.cons_append,numberSpan,if_pos (by simp [digits.1]),ih d digits.2]

theorem identifierBytes {s : String} (h : Identifier s) : ∃ c rest, bytes s = c :: rest ∧ (alphabetic c || c == 95) = true ∧
    rest.all nameByte = true ∧ ascii (c :: rest) = s := by
  unfold Identifier named at h
  split at h
  · cases h
  rename_i c rest spelled
  rw [Bool.and_eq_true] at h
  refine ⟨c,rest,spelled,h.1,h.2,?_⟩
  have first : nameByte c = true := by
    simp only [nameByte,Bool.or_eq_true] at h ⊢
    rcases h.1 with letter | dash
    · exact .inl (.inl letter)
    · exact .inr dash
  have small : Utf8.Ascii (c :: rest) :=
    List.forall_mem_cons.mpr ⟨Indexed.nameAscii first,fun b mem => Indexed.nameAscii (List.all_eq_true.mp h.2 b mem)⟩
  have decoded := Utf8.asciiDecodes small
  obtain ⟨s',decoded',encoded⟩ := Utf8.textDecodes (Utf8.textOf s)
  change String.fromUTF8? ⟨(bytes s).toArray⟩ = some s' at decoded'
  rw [spelled,decoded] at decoded'
  exact (Option.some.inj decoded').trans (bytesInj encoded)

theorem lexStr {s : String} (closed : (bytes s).all (fun b => b != 34 && b != 10) = true) :
    lexLoop (n+1) toks line (34 :: (bytes s ++ 34 :: bs)) = lexLoop n (toks ++ [(.str s,line)]) line bs := by
  have quote : Until (fun b => b != 34 && b != 10) (34 :: bs) := fun b found => by cases found; rfl
  obtain ⟨taken,dropped⟩ := spanEnds closed quote
  obtain ⟨s',decoded,encoded⟩ := Utf8.textDecodes (Utf8.textOf s)
  change String.fromUTF8? ⟨(bytes s).toArray⟩ = some s' at decoded
  cases bytesInj encoded
  rw [lexLoop.eq_def]
  simp only [taken,dropped,decoded]
  rfl

/- After these tokens the bytes are read as those, from some bound on. -/
def Lexes (toks : Lexed) (line : Nat) (bs : List UInt8) (ts : List Tok) : Prop :=
  ∃ us k, us.map Prod.fst = ts ∧ ∀ n, k ≤ n → lexLoop n toks line bs = some (.ok (toks ++ us))

theorem lexesStep {line' : Nat} {ts : List Tok} (step : ∀ n, lexLoop (n+1) toks line rest = lexLoop n toks line' bs)
    (later : Lexes toks line' bs ts) : Lexes toks line rest ts := by
  obtain ⟨us,k,same,settled⟩ := later
  refine ⟨us,k+1,same,fun n le => ?_⟩
  obtain ⟨m,rfl⟩ := Nat.exists_eq_add_of_le' le
  rw [← Nat.add_assoc,step]
  exact settled _ (Nat.le_add_left k m)

theorem lexesPush {t : Tok} {line' : Nat} {ts : List Tok}
    (step : ∀ n, lexLoop (n+1) toks line rest = lexLoop n (toks ++ [(t,line)]) line' bs)
    (later : Lexes (toks ++ [(t,line)]) line' bs ts) : Lexes toks line rest (t :: ts) := by
  obtain ⟨us,k,same,settled⟩ := later
  refine ⟨(t,line) :: us,k+1,congrArg (t :: ·) same,fun n le => ?_⟩
  obtain ⟨m,rfl⟩ := Nat.exists_eq_add_of_le' le
  rw [← Nat.add_assoc,step,settled _ (Nat.le_add_left k m),List.append_assoc]
  rfl

theorem openAfter {t : Tok} (plain : t.isNewline = false) :
    ∃ u, (toks ++ [(t,line)]).getLast? = some u ∧ u.1.isNewline = false := ⟨_,List.getLast?_concat,plain⟩

theorem spelledLexes {ts : List Tok} (h : Spelled bs ts)
    (fits : Plain ts ∨ ∃ t, toks.getLast? = some t ∧ t.1.isNewline = false) : Lexes toks line bs ts := by
  induction h generalizing toks line with
  | nil => exact ⟨[],0,rfl,fun n _ => by rw [List.append_nil]; cases n <;> rfl⟩
  | space more ih => exact lexesStep (fun _ => lexSpace) (ih fits)
  | newline plain more ih =>
    rcases fits with never | ⟨t,last,open_⟩
    · cases never _ rfl
    · exact lexesPush (fun _ => lexNewline last open_) (ih (.inl plain))
  | mark marks more ih => exact lexesPush (fun _ => marks.2 _ _ _ _) (ih (.inr (openAfter marks.1)))
  | arrow more ih => exact lexesPush (fun _ => rfl) (ih (.inr (openAfter rfl)))
  | bindArrow more ih => exact lexesPush (fun _ => rfl) (ih (.inr (openAfter rfl)))
  | @word s bs ts identifier ends more ih =>
    obtain ⟨c,rest,spelled,first,others,same⟩ := identifierBytes identifier
    obtain ⟨taken,dropped⟩ := spanEnds others ends
    have step (n) : lexLoop (n+1) toks line (bytes s ++ bs) = lexLoop n (toks ++ [(.ident s,line)]) line bs := by
      rw [spelled,List.cons_append,lexWord first,taken,dropped,same]
    exact lexesPush step (ih (.inr (openAfter rfl)))
  | @number ds x bs ts digits value ends more ih =>
    cases ds with
    | nil => exact absurd rfl digits.1
    | cons d ds =>
      have all := digits.2
      rw [List.all_cons,Bool.and_eq_true] at all
      have step (n) : lexLoop (n+1) toks line ((d :: ds) ++ bs) = lexLoop n (toks ++ [(.num x,line)]) line bs := by
        rw [List.cons_append,lexNumber all.1,numberSpanEnds d all.2 ends,value]
      exact lexesPush step (ih (.inr (openAfter rfl)))
  | str closed more ih => exact lexesPush (fun _ => lexStr closed) (ih (.inr (openAfter rfl)))

end Steps

section Numerals

theorem digitChar {c : Char} (h : c.isDigit = true) : ∃ b, String.utf8EncodeChar c = [b] ∧ digit b = true := by
  simp only [Char.isDigit,Bool.and_eq_true,decide_eq_true_eq,UInt32.le_iff_toNat_le] at h
  have small : c.val.toNat ≤ 127 := Nat.le_trans h.2 (by decide)
  refine ⟨c.val.toUInt8,String.utf8EncodeChar_eq_singleton (Char.utf8Size_eq_one_iff.mpr small),?_⟩
  have value : c.val.toUInt8.toNat = c.val.toNat := by rw [UInt32.toNat_toUInt8,Nat.mod_eq_of_lt (by omega)]
  simp only [digit,Bool.and_eq_true,decide_eq_true_eq,UInt8.le_iff_toNat_le,value]
  exact h

theorem digitChars {cs : List Char} (h : ∀ c ∈ cs, c.isDigit = true) : (cs.flatMap String.utf8EncodeChar).all digit = true := by
  refine List.all_eq_true.mpr (fun b mem => ?_)
  obtain ⟨c,among,inside⟩ := List.mem_flatMap.mp mem
  obtain ⟨b',one,digit_⟩ := digitChar (h c among)
  rw [one,List.mem_singleton] at inside
  rw [inside]
  exact digit_

theorem numeralChars (n : Nat) : (toString n).toList = Nat.toDigits 10 n := by
  change (Nat.repr n).toList = _
  rw [Nat.repr_eq_ofList_toDigits,String.toList_ofList]

theorem numeralBytes (n : Nat) : bytes (toString n) ≠ [] ∧ (bytes (toString n)).all digit = true := by
  rw [bytesChars,numeralChars]
  refine ⟨fun none => ?_,digitChars (fun c => Nat.isDigit_of_mem_toDigits (by decide) (by decide))⟩
  obtain ⟨c,mem⟩ := List.exists_mem_of_ne_nil _ (Nat.toDigits_ne_nil (n := n) (b := 10))
  exact absurd (List.flatMap_eq_nil_iff.mp none c mem) String.utf8EncodeChar_ne_nil

theorem digitsValue {ds : List UInt8} (digits : ds.all digit = true) : ∃ x, parseF64 ds = some x := by
  have last : Until digit [] := nofun
  obtain ⟨taken,dropped⟩ := spanEnds digits last
  rw [List.append_nil] at taken dropped
  unfold parseF64
  simp only [taken,dropped]
  exact ⟨_,rfl⟩

theorem numeralSpelled (n : Nat) {bs : List UInt8} {ts : List Tok} (ends : Until numberByte bs) (more : Spelled bs ts) :
    ∃ x, Spelled (bytes (toString n) ++ bs) (.num x :: ts) := by
  obtain ⟨some_,all⟩ := numeralBytes n
  obtain ⟨x,value⟩ := digitsValue all
  exact ⟨x,.number ⟨some_,all⟩ value ends more⟩

theorem letterNumeral {l : UInt8} {s : String} (spelled : bytes s = [l]) (letter : alphabetic l = true) (n : Nat) :
    Identifier (s ++ toString n) := by
  have all := (numeralBytes n).2
  unfold Identifier named
  rw [bytesAppend,spelled,List.singleton_append]
  simp only [letter,Bool.true_or,Bool.true_and,List.all_eq_true] at all ⊢
  exact fun b mem => by simp [nameByte,all b mem]

end Numerals

section Comments
variable {n line : Nat} {c : UInt8} {bs rest : List UInt8}

/- A comment on the first line leaves no token, and no newline either. -/
theorem commentLexes {ts : List Tok} (inside : rest.all (fun b => b != 10) = true) (later : Lexes [] (line+1) bs ts) :
    Lexes [] line (59 :: (rest ++ 10 :: bs)) ts := by
  have ends : Until (fun b => b != 10) (10 :: bs) := fun b found => by cases found; rfl
  have step (n) : lexLoop (n+1) [] line (59 :: (rest ++ 10 :: bs)) = lexLoop n [] line (10 :: bs) :=
    congrArg (lexLoop n [] line) (spanEnds inside ends).2
  exact lexesStep step (lexesStep (fun _ => rfl) later)

end Comments

end Officium.Lexer

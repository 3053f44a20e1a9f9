import Officium.Items
import Officium.Layout

/-! Two scores one below the other. The lines of the first are lexed as if nothing followed, those of the
second as if nothing came before, and each item is read off its own tokens. -/
namespace Officium.Parser
open Lexer (Tok bytes)

section Sources
variable {src : String} {prog : Program} {ts : List Tok}

/- What a source parses to are the items in its tokens. -/
theorem parsesItems : Parses src prog ↔ ∃ ts, (∃ h, Lexer.Reads [] (bytes src) [] ts h) ∧ Items ts prog := by
  constructor
  · rintro ⟨n,parsed⟩
    unfold parse at parsed
    cases lexed : Lexer.lex n src with
    | none => rw [lexed] at parsed; cases parsed
    | some r =>
      rw [lexed] at parsed
      cases r with
      | error e => cases parsed
      | ok toks =>
        obtain ⟨r,found,same⟩ := Option.map_eq_some_iff.mp parsed
        cases r with
        | error e => cases same
        | ok answer =>
          cases same
          exact ⟨toks.map Prod.fst,Lexer.lexIff.mpr ⟨n,toks,lexed,rfl⟩,parsesToItems.mp ⟨n,answer.2,found⟩⟩
  · rintro ⟨ts,reads,items⟩
    obtain ⟨n,toks,lexed,rfl⟩ := Lexer.lexIff.mp reads
    obtain ⟨k,q,returned⟩ := parsesToItems.mpr items
    refine ⟨max n k,?_⟩
    have lexed' : Lexer.lex (max n k) src = some (.ok toks) := lexLoopBelow (Nat.le_max_left n k) lexed
    rw [parse,lexed']
    dsimp only
    rw [programLoopBelow (Nat.le_max_right n k) _ _ _ returned]
    rfl

end Sources

/- One score below another parses to the items of the first and then those of the second. -/
theorem parsesCompose {a b : String} {progA progB : Program} (first : Parses a progA) (second : Parses b progB) :
    Parses (a ++ "\n" ++ b) ⟨progA.fugues ++ progB.fugues,progA.verses ++ progB.verses⟩ := by
  obtain ⟨ts,⟨h,above⟩,items⟩ := parsesItems.mp first
  obtain ⟨us,⟨h',below⟩,items'⟩ := parsesItems.mp second
  refine parsesItems.mpr ?_
  rw [Lexer.bytesAppend,Lexer.bytesAppend,List.append_assoc]
  have followed : Lexer.Reads [] (bytes a) (10 :: bytes b ++ []) ts h := Lexer.readsFollow above (.inr rfl)
  -- the line break leaves a token unless the first score ends with an empty line
  by_cases empty : h = []
  · subst empty
    refine ⟨ts ++ us,⟨h',?_⟩,itemsAppend items items'⟩
    exact Lexer.readsTrans followed (.emptyLine below)
  · refine ⟨ts ++ .newline :: us,⟨h',Lexer.readsTrans followed (.newline empty below)⟩,?_⟩
    exact itemsAppend items (itemsBlank (fun t mem => by cases List.mem_singleton.mp mem; rfl : ∀ t ∈ [Tok.newline], t.isNewline = true) items')

theorem parsesComposeSeam : ∃ progA progB : Program, progA.verses.length = 1 ∧ progB.fugues.length = 1 ∧
    Parses ("versus x in Re \x7b nihil \x7d ; last" ++ "\n" ++ " ; first\nfuga f in re \x7b \x7d")
      ⟨progA.fugues ++ progB.fugues,progA.verses ++ progB.verses⟩ := by
  have above : reads 30 "versus x in Re \x7b nihil \x7d ; last" (fun prog => prog.verses.length == 1) = true := by decide +kernel
  have below : reads 30 " ; first\nfuga f in re \x7b \x7d" (fun prog => prog.fugues.length == 1) = true := by decide +kernel
  obtain ⟨progA,first,one⟩ := readsParses above
  obtain ⟨progB,second,one'⟩ := readsParses below
  exact ⟨progA,progB,beq_iff_eq.mp one,beq_iff_eq.mp one',parsesCompose first second⟩

end Officium.Parser

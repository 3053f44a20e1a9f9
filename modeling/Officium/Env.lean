import Officium.Dissonance

/-! The fugue, the program and the Reader environment compiled from its fugues. -/
namespace Officium

abbrev Overload := (Sym × Genus) × Expr

structure Fugue where
  name : Sym
  final_ : Final
  pedals : List (Sym × Value)
  subject : Option (Sym × Sym × Expr)
  real : List Overload
  tonal : List Overload
  contra : List Expr

def Fugue.new (name : Sym) (final_ : Final) : Fugue := ⟨name,final_,[],none,[],[],[]⟩

structure Versus where
  name : Sym
  mode : Mode
  body : Expr
  rhymes : List (Char × String)

structure Program where
  fugues : List Fugue
  verses : List Versus

def Program.verse (p : Program) (name : Sym) : Option Versus :=
  p.verses.find? (fun v => v.name == name)

structure Env where
  pedals : List (Sym × Value)
  real : List Overload
  tonal : List Overload
  contra : List Expr
  subjects : List (Sym × Sym × Expr)

namespace Env

def default : Env := ⟨[],[],[],[],[]⟩

def addFugue (env : Env) (f : Fugue) : Env :=
  ⟨env.pedals ++ f.pedals,env.real ++ f.real,env.tonal ++ f.tonal,env.contra ++ f.contra,
    env.subjects ++ f.subject.toList⟩

def fromFugues (fugues : List Fugue) : Env := fugues.foldl addFugue default

def ask (env : Env) (s : Sym) : Except Raise Value :=
  match env.pedals.find? (fun p => p.1 == s) with
  | some p => .ok p.2
  | none => failure (.unboundVar s)

def find (table : List Overload) (name : Sym) (genus : Genus) : Option Expr :=
  (table.find? (fun o => o.1.1 == name && o.1.2 == genus)).map Prod.snd

def resolve (env : Env) (name : Sym) (genus : Genus) : Except Raise Expr :=
  match find env.real name genus with
  | some e => .ok e
  | none =>
    match find env.tonal name genus with
    | some e => .ok e
    | none => failure (.unresolved name genus)

theorem resolveMember {env : Env} {name : Sym} {g : Genus} {e : Expr} (h : env.resolve name g = .ok e) :
    ((name,g),e) ∈ env.real ++ env.tonal := by
  have member {table : List Overload} (h : Env.find table name g = some e) : ((name,g),e) ∈ table := by
    obtain ⟨o,some_,same⟩ := Option.map_eq_some_iff.mp h
    have key := List.find?_some some_
    simp only [Bool.and_eq_true,beq_iff_eq] at key
    have whole : o = ((name,g),e) := Prod.ext (Prod.ext key.1 key.2) same
    exact whole ▸ List.mem_of_find?_eq_some some_
  unfold Env.resolve at h
  split at h
  · rename_i found
    cases h
    exact List.mem_append_left _ (member found)
  · split at h
    · rename_i found
      cases h
      exact List.mem_append_right _ (member found)
    · cases h

theorem askMember {env : Env} {name : Sym} {v : Value} (h : env.ask name = .ok v) : ∃ p ∈ env.pedals, p.2 = v := by
  unfold Env.ask at h
  split at h
  · rename_i p found
    cases h
    exact ⟨p,List.mem_of_find?_eq_some found,rfl⟩
  · cases h

/- The tables are those of the fugues one after another. -/
theorem fromFuguesTables (fugues : List Fugue) :
    (fromFugues fugues).pedals = fugues.flatMap Fugue.pedals ∧
    (fromFugues fugues).real = fugues.flatMap Fugue.real ∧
    (fromFugues fugues).tonal = fugues.flatMap Fugue.tonal := by
  have fold (env : Env) : (fugues.foldl addFugue env).pedals = env.pedals ++ fugues.flatMap Fugue.pedals ∧
      (fugues.foldl addFugue env).real = env.real ++ fugues.flatMap Fugue.real ∧
      (fugues.foldl addFugue env).tonal = env.tonal ++ fugues.flatMap Fugue.tonal := by
    induction fugues generalizing env with
    | nil => simp
    | cons f rest ih =>
      obtain ⟨pedals,real,tonal⟩ := ih (env.addFugue f)
      simp only [List.foldl_cons,pedals,real,tonal,List.flatMap_cons,← List.append_assoc]
      exact ⟨rfl,rfl,rfl⟩
  exact fold default

end Env

end Officium

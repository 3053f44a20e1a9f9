import Mathlib.Data.List.Basic
import Officium.Drivers

/-! The two drivers side by side. The host runs a verse on for as long as it takes, the kernel gives it up after so many
slices and is done with the body: up to there the two do the same, and a whole score comes to the same exactly where the
kernel gives nothing up. -/
namespace Officium.Mirror

/- A verse that was given up. -/
def Abandoned (e : Event) : Prop := ∃ c, e = .ran (failure (.outOfFuel c))

/- What the second driver does, or what it begins with up to a verse that is given up. -/
inductive Mirrors : List Event → List Event → Prop where
  | same {events : List Event} (ended : ∀ e ∈ events, ¬Abandoned e) : Mirrors events events
  | abandoned {done_ events : List Event} (begun : done_ <+: events) (c : Continuation) :
      Mirrors (done_ ++ [.ran (failure (.outOfFuel c))]) events

/- What the second brings to an end the first brings to the same. -/
def Outlasts (g f : Runner) : Prop := ∀ v arg r, f v arg = some r → (∀ c, r ≠ failure (.outOfFuel c)) → g v arg = some r

/- The first gives nothing up, the second always answers. -/
def Relentless (g : Runner) : Prop := ∀ v arg r, g v arg = some r → ∀ c, r ≠ failure (.outOfFuel c)

def Answering (f : Runner) : Prop := ∀ v arg, ∃ r, f v arg = some r

/- One verse of the three, and what follows where it cadences. -/
def sung (next : VerseOutcome → List Event) : Option Verdict → List Event
  | none => []
  | some (.ok out) => .ran (.ok out) :: next out
  | some (.error d) => [.ran (.error d)]

section Singing
variable {f g : Runner} {prog : Program}

theorem executioSung (planned : Plan) {v : Versus} (found : prog.verse "executio" = some v) :
    singExecutio f prog planned = sung gravitySink (f v (.plan planned)) := by
  unfold singExecutio
  rw [found]
  dsimp only
  cases f v (.plan planned) with
  | none => rfl
  | some r => cases r <;> rfl

theorem consiliumSung (field : Field) {v : Versus} (found : prog.verse "consilium" = some v) :
    singConsilium f prog field = sung (fun out => singExecutio f prog out.plan) (f v (.field field)) := by
  unfold singConsilium
  rw [found]
  dsimp only
  cases f v (.field field) with
  | none => rfl
  | some r => cases r <;> rfl

/- Without a field there is no deflection to plan. -/
def planning (f : Runner) (prog : Program) (out : VerseOutcome) : List Event :=
  match out.value with
  | some (.field field) => singConsilium f prog field
  | _ => []

theorem correctioSung (body : Value) {v : Versus} (found : prog.verse "correctio" = some v) :
    celebrateBody f prog body = sung (planning f prog) (f v body) := by
  unfold celebrateBody
  rw [found]
  dsimp only
  cases f v body with
  | none => rfl
  | some r =>
    cases r with
    | error d => rfl
    | ok out =>
      unfold sung planning
      dsimp only
      cases out.value with
      | none => rfl
      | some w => cases w <;> rfl

/- The verses are sung through the runner and through nothing else: what relates two runs of a verse relates two bodies. -/
theorem bodyRelates (R : List Event → List Event → Prop) (nothing : R [] []) (sink : ∀ out, R (gravitySink out) (gravitySink out))
    (sings : ∀ v arg next next', (∀ out, R (next out) (next' out)) → R (sung next (f v arg)) (sung next' (g v arg)))
    (body : Value) : R (celebrateBody f prog body) (celebrateBody g prog body) := by
  have executio (planned : Plan) : R (singExecutio f prog planned) (singExecutio g prog planned) := by
    cases found : prog.verse "executio" with
    | none =>
      unfold singExecutio
      rw [found]
      exact nothing
    | some v =>
      rw [executioSung planned found,executioSung planned found]
      exact sings _ _ _ _ sink
  have consilium (field : Field) : R (singConsilium f prog field) (singConsilium g prog field) := by
    cases found : prog.verse "consilium" with
    | none =>
      unfold singConsilium
      rw [found]
      exact nothing
    | some v =>
      rw [consiliumSung field found,consiliumSung field found]
      exact sings _ _ _ _ fun out => executio out.plan
  cases found : prog.verse "correctio" with
  | none =>
    unfold celebrateBody
    rw [found]
    exact nothing
  | some v =>
    rw [correctioSung body found,correctioSung body found]
    refine sings _ _ _ _ fun out => ?_
    unfold planning
    split
    · exact consilium _
    · exact nothing

end Singing

section Mirroring
variable {f g : Runner} {prog : Program} {next next' : VerseOutcome → List Event} {events events' : List Event}

theorem nothingMirrors : Mirrors [] [] := .same fun _ mem => absurd mem List.not_mem_nil

theorem ranEnded {r : Verdict} (ended : ∀ c, r ≠ failure (.outOfFuel c)) : ¬Abandoned (.ran r) := by
  rintro ⟨c,same⟩
  exact ended c (Event.ran.inj same)

theorem sinkEnded (out : VerseOutcome) : ∀ e ∈ gravitySink out, ¬Abandoned e := by
  intro e mem
  unfold gravitySink at mem
  cases found : out.committed with
  | none =>
    rw [found] at mem
    cases mem
  | some plan =>
    rw [found,List.mem_singleton] at mem
    rintro ⟨c,same⟩
    cases mem.symm.trans same

theorem mirrorsCons {e : Event} (ended : ¬Abandoned e) (rest : Mirrors events events') : Mirrors (e :: events) (e :: events') := by
  cases rest with
  | same ended' => exact .same (List.forall_mem_cons.mpr ⟨ended,ended'⟩)
  | abandoned begun c => exact .abandoned (List.cons_prefix_cons.mpr ⟨rfl,begun⟩) c

/- Where nothing is given up they are the same. -/
theorem mirrorsSame (mirrors : Mirrors events events') (ended : ∀ e ∈ events, ¬Abandoned e) : events' = events := by
  cases mirrors with
  | same => rfl
  | abandoned begun c => exact absurd ⟨c,rfl⟩ (ended _ List.mem_concat_self)

/- The step of every stage: the verse is given up, or both have run it to the same end. -/
theorem sungMirrors (answering : Answering f) (outlasts : Outlasts g f) (v : Versus) (arg : Value)
    (later : ∀ out, Mirrors (next out) (next' out)) : Mirrors (sung next (f v arg)) (sung next' (g v arg)) := by
  obtain ⟨r,ran⟩ := answering v arg
  rw [ran]
  rcases pausedOrEnded r with ⟨c,rfl⟩ | ended
  · exact .abandoned List.nil_prefix c
  · rw [outlasts v arg r ran ended]
    cases r with
    | error d => exact mirrorsCons (ranEnded ended) nothingMirrors
    | ok out => exact mirrorsCons (ranEnded ended) (later out)

theorem bodyMirrors (answering : Answering f) (outlasts : Outlasts g f) (body : Value) :
    Mirrors (celebrateBody f prog body) (celebrateBody g prog body) :=
  bodyRelates Mirrors nothingMirrors (fun out => .same (sinkEnded out)) (fun v arg _ _ => sungMirrors answering outlasts v arg) body

theorem sungEnded (relentless : Relentless g) (v : Versus) (arg : Value) (later : ∀ out, ∀ e ∈ next out, ¬Abandoned e) :
    ∀ e ∈ sung next (g v arg), ¬Abandoned e := by
  cases ran : g v arg with
  | none => exact fun _ mem => absurd mem List.not_mem_nil
  | some r =>
    have ended : ¬Abandoned (.ran r) := ranEnded (relentless v arg r ran)
    cases r with
    | error d => exact List.forall_mem_singleton.mpr ended
    | ok out => exact List.forall_mem_cons.mpr ⟨ended,later out⟩

theorem bodyEnded (relentless : Relentless g) (body : Value) : ∀ e ∈ celebrateBody g prog body, ¬Abandoned e :=
  bodyRelates (f := g) (g := g) (fun events _ => ∀ e ∈ events, ¬Abandoned e) (fun _ mem => absurd mem List.not_mem_nil) sinkEnded
    (fun v arg _ _ => sungEnded relentless v arg) body

/- Over the procession the two come to the same exactly where nothing is given up. -/
theorem processionMirrors (answering : Answering f) (outlasts : Outlasts g f) (relentless : Relentless g) (procession : List Value) :
    procession.flatMap (celebrateBody g prog) = procession.flatMap (celebrateBody f prog) ↔
      ∀ e ∈ procession.flatMap (celebrateBody f prog), ¬Abandoned e := by
  constructor
  · intro same
    rw [← same]
    intro e mem
    obtain ⟨body,-,mem'⟩ := List.mem_flatMap.mp mem
    exact bodyEnded relentless body e mem'
  · intro ended
    exact List.flatMap_congr fun body mem =>
      mirrorsSame (bodyMirrors answering outlasts body) fun e mem' => ended e (List.mem_flatMap.mpr ⟨body,mem,mem'⟩)

end Mirroring

section Drivers
variable {env : Env} {fuel n : Nat}

theorem kernelAnswering : Answering (Kernel.runner env) := fun v arg => ⟨Kernel.runFull env v arg,rfl⟩

theorem hostLoopEnds {before r : Verdict} (returned : Host.runFullLoop env fuel n before = some r) : ∀ c, r ≠ failure (.outOfFuel c) := by
  induction n generalizing before with
  | zero => cases returned
  | succ n ih =>
    rcases pausedOrEnded before with ⟨cont,rfl⟩ | ended
    · rw [hostPaused] at returned
      exact ih returned
    · rw [hostEnded ended fuel n] at returned
      exact Option.some.inj returned ▸ ended

theorem hostRelentless : Relentless (Host.runner env n fuel) := fun _ _ _ returned => hostLoopEnds returned

/- With more slices than the kernel's have steps the host is past every verse the kernel is past. -/
theorem hostOutlasts (some_ : fuel ≠ 0) (enough : Kernel.fuelSlice * Kernel.maxSlices < n) :
    Outlasts (Host.runner env n fuel) (Kernel.runner env) := by
  intro v arg r ran ended
  have unsliced : resume env (initial v.mode v.body arg emptyState) (Kernel.fuelSlice * Kernel.maxSlices) = r :=
    (Kernel.runFullUnsliced env v arg).symm.trans (Option.some.inj ran)
  have le : Kernel.fuelSlice * Kernel.maxSlices ≤ fuel * (0 + 1 + Kernel.fuelSlice * Kernel.maxSlices) :=
    Nat.le_trans (Nat.le_add_left _ (0+1)) (Nat.le_mul_of_pos_left _ (Nat.pos_of_ne_zero some_))
  have looped := hostLoopRun ended 0 (Kernel.fuelSlice * Kernel.maxSlices) n (resumeStable unsliced ended le) enough
  rw [Nat.zero_add,Nat.mul_one] at looped
  exact looped

/- Looked at late enough, the host has done with each body what the kernel does, or has come past the verse the kernel gave
up; a score comes to the same on both exactly where it has the wiring, or no verse, and the kernel gives nothing up. -/
theorem driversMirror (prog : Program) (fuel : Nat) (some_ : fuel ≠ 0) : ∃ enough, ∀ n, enough ≤ n →
    (∀ body, Mirrors (Kernel.celebrateBody (Env.fromFugues prog.fugues) prog body)
      (Host.celebrateBody (Env.fromFugues prog.fugues) prog body fuel n)) ∧
    (bodies.flatMap (fun body => Host.celebrateBody (Env.fromFugues prog.fugues) prog body fuel n) = Kernel.celebrare prog ↔
      ((prog.verse "correctio").isSome = true ∨ prog.verses = []) ∧ ∀ e ∈ Kernel.celebrare prog, ¬Abandoned e) := by
  refine ⟨Kernel.fuelSlice * Kernel.maxSlices + 1,fun n enough => ?_⟩
  have outlasts : Outlasts (Host.runner (Env.fromFugues prog.fugues) n fuel) (Kernel.runner (Env.fromFugues prog.fugues)) :=
    hostOutlasts some_ enough
  refine ⟨bodyMirrors kernelAnswering outlasts,?_⟩
  cases found : prog.verse "correctio" with
  | some v =>
    have wired : Kernel.celebrare prog = bodies.flatMap (celebrateBody (Kernel.runner (Env.fromFugues prog.fugues)) prog) := by
      unfold Kernel.celebrare
      rw [found]
      rfl
    rw [wired]
    exact (processionMirrors kernelAnswering outlasts hostRelentless bodies).trans
      ⟨fun ended => ⟨.inl rfl,ended⟩,fun both => both.2⟩
  | none =>
    have idle : bodies.flatMap (fun body => Host.celebrateBody (Env.fromFugues prog.fugues) prog body fuel n) = [] := by
      refine List.flatMap_eq_nil_iff.mpr fun body _ => ?_
      unfold Host.celebrateBody celebrateBody
      rw [found]
    rw [idle]
    unfold Kernel.celebrare
    rw [found]
    dsimp only
    cases verses : prog.verses with
    | nil => exact ⟨fun _ => ⟨.inr rfl,fun _ mem => absurd mem List.not_mem_nil⟩,fun _ => rfl⟩
    | cons v rest =>
      refine ⟨fun same => ?_,?_⟩
      · cases same
      · rintro ⟨wired | none_,-⟩
        · cases wired
        · cases none_

def psalmus : Program := ⟨[],[⟨"correctio",.dorian,.lit (.bool true),[]⟩]⟩

theorem driversMirrorPsalmus : ∃ enough, ∀ n, enough ≤ n →
    bodies.flatMap (fun body => Host.celebrateBody (Env.fromFugues psalmus.fugues) psalmus body 100000 n) = Kernel.celebrare psalmus := by
  obtain ⟨enough,late⟩ := driversMirror psalmus 100000 (by decide)
  have full (body : Value) : Kernel.runFull (Env.fromFugues psalmus.fugues) ⟨"correctio",.dorian,.lit (.bool true),[]⟩ body =
      .ok ⟨some (.bool true),.unit,[],none⟩ := by
    rw [Kernel.runFullUnsliced]
    exact resumeStable (n := 2) rfl (fun c same => by cases same) (by decide)
  refine ⟨enough,fun n le => (late n le).2.mpr ⟨.inl rfl,fun e mem => ?_⟩⟩
  obtain ⟨body,-,mem'⟩ := List.mem_flatMap.mp (show e ∈ bodies.flatMap (Kernel.celebrateBody (Env.fromFugues psalmus.fugues) psalmus) from mem)
  have trace : Kernel.celebrateBody (Env.fromFugues psalmus.fugues) psalmus body = [.ran (.ok ⟨some (.bool true),.unit,[],none⟩)] := by
    refine (correctioSung body rfl).trans ?_
    unfold Kernel.runner
    rw [full]
    rfl
  rw [trace,List.mem_singleton] at mem'
  rw [mem']
  exact ranEnded fun c same => by cases same

end Drivers

end Officium.Mirror

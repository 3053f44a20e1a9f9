import Mathlib.Data.List.Range
import Officium.Kernel.Ring

/-! No sound buffer is missed. Descriptors complete in the order of the ring and are scanned in that order,
each once; a page stands in the mask from the first scan of one of its descriptors on until a delivery. -/
namespace Officium.Ring
open Plays (play Along playCons playWhile)

def has (mask : UInt8) (page : Nat) : Bool := mask.toNat.testBit page

/- A descriptor of the page was scanned since the page was last delivered. The log runs backwards. -/
def Owed (page : Nat) : List Entry → Prop
  | [] => False
  | .completed _ :: older => Owed page older
  | .scanned d :: older => d % BUFFERS = page ∨ Owed page older
  | .delivered mask :: older => has mask page = false ∧ Owed page older

/- Every page delivered was owed. -/
def Justified : List Entry → Prop
  | [] => True
  | .delivered mask :: older => (∀ page, has mask page = true → Owed page older) ∧ Justified older
  | .completed _ :: older | .scanned _ :: older => Justified older

/- What the handler has read of CIV once `NEXT_DONE` is stored. -/
def Handler.stored : Handler → Option Nat
  | .merge civ _ | .wake civ | .writeLvi civ => some civ
  | _ => none

/- The marks of the last scan are in `REFILL_MASK`. -/
def Handler.settled : Handler → Bool
  | .scan _ _ _ | .store _ _ _ | .merge _ _ => false
  | _ => true

/- Fewer than 32 descriptors completed since the last handled interrupt, where the next one reads CIV. -/
def Timely (s : System) : Prop := s.handler = .readCiv → (completions s.log).length < s.seen + BDL_ENTRIES

instance (s : System) : Decidable (Timely s) := inferInstanceAs (Decidable (_ → _))

section Bits

theorem hasZero (page : Nat) : has 0 page = false := Nat.zero_testBit page

theorem hasOr (a b : UInt8) (page : Nat) : has (a ||| b) page = (has a page || has b page) := by
  rw [has,UInt8.toNat_or,Nat.testBit_or]
  rfl

theorem shiftNat : ∀ k < BUFFERS, ((1 : UInt8) <<< UInt8.ofNat k).toNat = 2 ^ k := by decide

theorem hasShift (d page : Nat) : has (1 <<< UInt8.ofNat (d % BUFFERS)) page = true ↔ d % BUFFERS = page := by
  rw [has,shiftNat _ (Nat.mod_lt d (by decide)),Nat.testBit_two_pow,decide_eq_true_iff]

end Bits

section Logs
variable {log : List Entry} {d : Nat} {mask : UInt8}

@[simp] theorem completionsCompleted : completions (.completed d :: log) = completions log ++ [d] := by simp [completions]
@[simp] theorem completionsScanned : completions (.scanned d :: log) = completions log := by simp [completions]
@[simp] theorem completionsDelivered : completions (.delivered mask :: log) = completions log := by simp [completions]
@[simp] theorem scansCompleted : scans (.completed d :: log) = scans log := by simp [scans]
@[simp] theorem scansScanned : scans (.scanned d :: log) = scans log ++ [d] := by simp [scans]
@[simp] theorem scansDelivered : scans (.delivered mask :: log) = scans log := by simp [scans]

/- Descriptors in the order of the ring, from the first on. -/
def Cyclic (l : List Nat) : Prop := l = (List.range l.length).map (· % BDL_ENTRIES)

theorem cyclicNext {l : List Nat} (cyclic : Cyclic l) (next : d = l.length % BDL_ENTRIES) : Cyclic (l ++ [d]) := by
  rw [Cyclic,List.length_append,List.length_singleton,List.range_succ,List.map_append,← cyclic,next]
  rfl

end Logs

section Counting

/- How far the handler is with the descriptors completed, `scanned` of them scanned. -/
def Position (s : System) (completed scanned : Nat) : Handler → Prop
  | .idle | .ack _ | .readCiv => scanned = s.seen ∧ s.nextDone.toNat = s.seen % BDL_ENTRIES ∧
      (completed < s.seen + BDL_ENTRIES → s.card.halted = false ∧ s.card.lvi = (s.seen + (BDL_ENTRIES - 1)) % BDL_ENTRIES)
  | .scan civ next _ => civ = s.seen % BDL_ENTRIES ∧ next = scanned % BDL_ENTRIES ∧ scanned ≤ s.seen ∧ s.seen < scanned + BDL_ENTRIES ∧
      s.nextDone.toNat < BDL_ENTRIES
  | .store civ next _ => civ = s.seen % BDL_ENTRIES ∧ next = civ ∧ scanned = s.seen ∧ s.nextDone.toNat < BDL_ENTRIES
  | .merge civ _ | .wake civ | .writeLvi civ => civ = s.seen % BDL_ENTRIES ∧ s.nextDone.toNat = civ ∧ scanned = s.seen

/- Descriptors complete and are scanned in order, and CIV is the one after the last completed. -/
structure Counted (s : System) : Prop where
  completed : Cyclic (completions s.log)
  scanned : Cyclic (scans s.log)
  seen : s.seen ≤ (completions s.log).length
  civ : s.card.civ < BDL_ENTRIES
  running : s.card.halted = false → s.card.civ = (completions s.log).length % BDL_ENTRIES
  halted : s.card.halted = true → (s.card.civ + 1) % BDL_ENTRIES = (completions s.log).length % BDL_ENTRIES
  position : Position s (completions s.log).length (scans s.log).length s.handler

variable {s t : System}

theorem startCounted (nabm : UInt16) : Counted (start nabm) where
  completed := rfl
  scanned := rfl
  seen := Nat.le_refl 0
  civ := Nat.zero_lt_succ 31
  running := fun _ => rfl
  halted := nofun
  position := ⟨rfl,rfl,fun _ => ⟨rfl,rfl⟩⟩

/- A completion moves CIV on, or halts the DMA on the last valid descriptor, which is 31 after the one last read. -/
theorem completeCounted (counted : Counted s) (runs : s.card.halted = false) :
    Counted { s with card := s.card.complete, log := .completed s.card.civ :: s.log } := by
  obtain ⟨completed,scanned,seen,civ,running,-,position⟩ := counted
  have here := running runs
  have ordered := cyclicNext completed here
  unfold BDL_ENTRIES at civ here
  by_cases last : s.card.civ = s.card.lvi
  · have halts : s.card.complete = { s.card with status := s.card.status ||| SR_LVBCI ||| SR_BCIS, halted := true } := if_pos last
    rw [halts]
    constructor
    · simpa using ordered
    · simpa using scanned
    · simp only [completionsCompleted,List.length_append,List.length_singleton]
      omega
    · exact civ
    · nofun
    · intro _
      simp only [completionsCompleted,List.length_append,List.length_singleton,BDL_ENTRIES]
      omega
    · simp only [completionsCompleted,scansCompleted,List.length_append,List.length_singleton]
      cases handler : s.handler with
      | idle | ack | readCiv =>
        rw [handler] at position
        refine ⟨position.1,position.2.1,fun few => ?_⟩
        have lvi := (position.2.2 (Nat.lt_of_succ_lt few)).2
        simp only [BDL_ENTRIES] at few lvi
        omega
      | _ => rw [handler] at position; exact position
  · have moves : s.card.complete = { s.card with civ := (s.card.civ + 1) % BDL_ENTRIES, status := s.card.status ||| SR_BCIS } := if_neg last
    rw [moves]
    constructor
    · simpa using ordered
    · simpa using scanned
    · simp only [completionsCompleted,List.length_append,List.length_singleton]
      omega
    · exact Nat.mod_lt _ (by decide)
    · intro _
      simp only [completionsCompleted,List.length_append,List.length_singleton,BDL_ENTRIES]
      omega
    · intro stopped
      rw [runs] at stopped
      cases stopped
    · simp only [completionsCompleted,scansCompleted,List.length_append,List.length_singleton]
      cases handler : s.handler with
      | idle | ack | readCiv =>
        rw [handler] at position
        exact ⟨position.1,position.2.1,fun few => position.2.2 (Nat.lt_of_succ_lt few)⟩
      | _ => rw [handler] at position; exact position

/- The handler's own operations. What it reads of CIV tells how many descriptors completed where fewer than 32 did. -/
theorem handlerCounted (counted : Counted s) (timely : Timely s) (h : handlerStep s = .ok t) : Counted t := by
  obtain ⟨completed,scanned,seen,civ,running,halted,position⟩ := counted
  unfold handlerStep at h
  split at h
  · cases h
  · rename_i status here
    rw [here] at position
    cases h
    exact ⟨completed,scanned,seen,civ,running,halted,position⟩
  · rename_i here
    rw [here] at position
    cases h
    have few := timely here
    obtain ⟨all,stored,card⟩ := position
    have now := running (card few).1
    unfold BDL_ENTRIES at civ now stored few
    refine ⟨completed,scanned,Nat.le_refl _,civ,running,halted,?_,?_,?_,?_,?_⟩
    all_goals simp only [BDL_ENTRIES]
    all_goals omega
  · rename_i civ_ next mask here
    rw [here] at position
    obtain ⟨read,at_,le,lt,stored⟩ := position
    split at h
    · rename_i done
      cases h
      refine ⟨completed,scanned,seen,civ,running,halted,read,done,?_,stored⟩
      unfold BDL_ENTRIES at read at_ lt
      change (scans s.log).length = s.seen
      omega
    · rename_i more
      cases h
      have ordered := cyclicNext scanned at_
      unfold BDL_ENTRIES at read at_ lt
      refine ⟨?_,?_,?_,civ,?_,?_,read,?_,?_,?_,stored⟩
      · simpa using completed
      · simpa using ordered
      · simpa using seen
      · simpa using running
      · simpa using halted
      all_goals simp only [scansScanned,List.length_append,List.length_singleton,BDL_ENTRIES]
      all_goals omega
  · rename_i civ_ next mask here
    rw [here] at position
    obtain ⟨read,at_,all,-⟩ := position
    have small : (UInt8.ofNat next).toNat = next := by
      refine UInt8.toNat_ofNat_of_lt' ?_
      unfold BDL_ENTRIES at read
      change next < 256
      omega
    cases h
    refine ⟨completed,scanned,seen,civ,running,halted,?_⟩
    dsimp only
    split
    · exact ⟨read,small.trans at_,all⟩
    · exact ⟨read,small.trans at_,all⟩
  · rename_i civ_ mask here
    rw [here] at position
    cases h
    exact ⟨completed,scanned,seen,civ,running,halted,position⟩
  · rename_i civ_ here
    rw [here] at position
    cases h
    exact ⟨completed,scanned,seen,civ,running,halted,position⟩
  · -- writing LVI makes CIV true again
    rename_i civ_ here
    rw [here] at position
    obtain ⟨read,stored,all⟩ := position
    cases h
    have behind : (civ_ + BDL_ENTRIES - 1) % BDL_ENTRIES = (s.seen + (BDL_ENTRIES - 1)) % BDL_ENTRIES := by
      unfold BDL_ENTRIES at read ⊢
      omega
    unfold Card.writeLvi
    cases stopped : s.card.halted with
    | true => exact ⟨completed,scanned,seen,Nat.mod_lt _ (by decide),fun _ => halted stopped,nofun,all,stored.trans read,fun _ => ⟨rfl,behind⟩⟩
    | false => exact ⟨completed,scanned,seen,civ,fun _ => running stopped,nofun,all,stored.trans read,fun _ => ⟨rfl,behind⟩⟩

theorem interruptCases (h : interrupt s = .ok t) : s.handler = .idle ∧ (t = s ∨ t = { s with handler := .ack s.card.status }) := by
  unfold interrupt at h
  split at h
  · rename_i here
    split at h
    · cases h
      exact ⟨here,.inl rfl⟩
    · split at h
      · cases h
        exact ⟨here,.inl rfl⟩
      · cases h
        exact ⟨here,.inr rfl⟩
  · cases h

theorem swapCases (s : System) (empty : Synth) : (s.refillMask = 0 ∧ swap s empty = { s with synth := empty }) ∨
    (s.refillMask ≠ 0 ∧ swap s empty = { s with refillMask := 0, synth := .fill s.refillMask 0, log := .delivered s.refillMask :: s.log }) := by
  by_cases none_ : s.refillMask = 0
  · exact .inl ⟨none_,if_pos none_⟩
  · exact .inr ⟨none_,if_neg none_⟩

/- What a step of the task may do: a swap, or nothing that the card or the handler sees. -/
theorem synthCases (h : synthStep s = .ok t) : s.handler = .idle ∧
    ((s.synth = .first ∧ t = swap s .register) ∨ (s.synth = .second ∧ t = swap s .pending) ∨
      (s.synth = .register ∧ t = { s with registered := true, synth := .second }) ∨
      (∃ mask buf, s.synth = .fill mask buf ∧ t = { s with synth := if buf < BUFFERS then .fill mask (buf + 1) else .first }) ∨
      (s.synth = .pending ∧ s.woken = true ∧ t = { s with woken := false, synth := .first })) := by
  unfold synthStep at h
  split at h
  · rename_i here
    refine ⟨here,?_⟩
    split at h
    · rename_i at_
      cases h
      exact .inl ⟨at_,rfl⟩
    · rename_i at_
      cases h
      exact .inr (.inr (.inl ⟨at_,rfl⟩))
    · rename_i at_
      cases h
      exact .inr (.inl ⟨at_,rfl⟩)
    · rename_i mask buf at_
      cases h
      exact .inr (.inr (.inr (.inl ⟨mask,buf,at_,rfl⟩)))
    · rename_i at_
      split at h
      · rename_i woken
        cases h
        exact .inr (.inr (.inr (.inr ⟨at_,woken,rfl⟩)))
      · cases h
  · cases h

theorem synthCounted (counted : Counted s) (h : synthStep s = .ok t) : Counted t := by
  obtain ⟨completed,scanned,seen,civ,running,halted,position⟩ := counted
  have swapped (empty : Synth) : Counted (swap s empty) := by
    rcases swapCases s empty with ⟨-,same⟩ | ⟨-,same⟩
    · rw [same]
      exact ⟨completed,scanned,seen,civ,running,halted,position⟩
    · rw [same]
      have idle := (synthCases h).1
      rw [idle] at position
      refine ⟨?_,?_,?_,civ,?_,?_,?_⟩
      · simpa using completed
      · simpa using scanned
      · simpa using seen
      · simpa using running
      · simpa using halted
      · simp only [completionsDelivered,scansDelivered,idle]
        exact position
  rcases (synthCases h).2 with ⟨-,rfl⟩ | ⟨-,rfl⟩ | ⟨-,rfl⟩ | ⟨mask,buf,-,rfl⟩ | ⟨-,-,rfl⟩
  · exact swapped _
  · exact swapped _
  all_goals exact ⟨completed,scanned,seen,civ,running,halted,position⟩

theorem stepCounted (e : Event) (counted : Counted s) (timely : Timely s) (h : step s e = .ok t) : Counted t := by
  cases e with
  | complete =>
    simp only [step] at h
    split at h
    · cases h
    · rename_i runs
      cases h
      exact completeCounted counted (by simpa using runs)
  | error =>
    cases h
    obtain ⟨completed,scanned,seen,civ,running,halted,position⟩ := counted
    refine ⟨completed,scanned,seen,civ,running,halted,?_⟩
    cases handler : s.handler <;> (rw [handler] at position; exact position)
  | interrupt =>
    obtain ⟨idle,rfl | rfl⟩ := interruptCases h
    · exact counted
    · obtain ⟨completed,scanned,seen,civ,running,halted,position⟩ := counted
      rw [idle] at position
      exact ⟨completed,scanned,seen,civ,running,halted,position⟩
  | handler => exact handlerCounted counted timely h
  | synth => exact synthCounted counted h

end Counting

section Masking
variable {s t : System}

/- The mask of the scan that is going on. -/
def Handler.mask : Handler → UInt8
  | .scan _ _ mask | .store _ _ mask | .merge _ mask => mask
  | _ => 0

/- The pages owed are those of the mask and of the scan going on. -/
structure Masked (s : System) : Prop where
  owed : ∀ page, Owed page s.log ↔ has s.refillMask page = true ∨ has s.handler.mask page = true
  justified : Justified s.log

theorem startMasked (nabm : UInt16) : Masked (start nabm) where
  owed := fun page => ⟨nofun,fun h => h.elim (fun h => by cases (hasZero page).symm.trans h) (fun h => by cases (hasZero page).symm.trans h)⟩
  justified := trivial

theorem maskedSame (masked : Masked s) (log : t.log = s.log) (refillMask : t.refillMask = s.refillMask) (mask : t.handler.mask = s.handler.mask) :
    Masked t := by
  refine ⟨fun page => ?_,log ▸ masked.justified⟩
  rw [log,refillMask,mask]
  exact masked.owed page

theorem handlerMasked (masked : Masked s) (h : handlerStep s = .ok t) : Masked t := by
  have owed := masked.owed
  unfold handlerStep at h
  split at h
  · cases h
  · rename_i status here
    cases h
    exact maskedSame masked rfl rfl (by rw [here]; rfl)
  · rename_i here
    cases h
    exact maskedSame masked rfl rfl (by rw [here]; rfl)
  · rename_i civ next mask here
    split at h
    · cases h
      exact maskedSame masked rfl rfl (by rw [here]; rfl)
    · cases h
      refine ⟨fun page => ?_,masked.justified⟩
      change next % BUFFERS = page ∨ Owed page s.log ↔ _
      rw [owed,here]
      simp only [Handler.mask,hasOr,Bool.or_eq_true,hasShift]
      rw [or_comm,or_assoc]
  · rename_i civ next mask here
    cases h
    refine maskedSame masked rfl rfl ?_
    rw [here]
    dsimp only
    split
    · rename_i empty
      exact empty.symm
    · rfl
  · rename_i civ mask here
    cases h
    refine ⟨fun page => ?_,masked.justified⟩
    rw [owed,here]
    simp only [Handler.mask,hasOr,Bool.or_eq_true,hasZero,Bool.false_eq_true,or_false]
  · rename_i civ here
    cases h
    exact maskedSame masked rfl rfl (by rw [here]; rfl)
  · rename_i civ here
    cases h
    exact maskedSame masked rfl rfl (by rw [here]; rfl)

/- Where no scan is going on the pages owed are those of `REFILL_MASK`. -/
theorem maskedSettled (masked : Masked s) (settled : s.handler.settled = true) (page : Nat) :
    Owed page s.log ↔ has s.refillMask page = true := by
  have none_ : s.handler.mask = 0 := by
    cases handler : s.handler <;> first | rfl | (rw [handler] at settled; cases settled)
  rw [masked.owed,none_]
  simp only [hasZero,Bool.false_eq_true,or_false]

/- A swap delivers all that is owed. -/
theorem swapMasked (masked : Masked s) (idle : s.handler = .idle) (empty : Synth) : Masked (swap s empty) := by
  have owed := maskedSettled masked (by rw [idle]; rfl)
  rcases swapCases s empty with ⟨-,same⟩ | ⟨-,same⟩
  · rw [same]
    exact maskedSame masked rfl rfl rfl
  · rw [same]
    refine ⟨fun page => ?_,fun page => (owed page).mpr,masked.justified⟩
    change has s.refillMask page = false ∧ Owed page s.log ↔ _
    rw [owed,idle]
    simp [Handler.mask,hasZero]

theorem stepMasked (e : Event) (masked : Masked s) (h : step s e = .ok t) : Masked t := by
  cases e with
  | complete =>
    simp only [step] at h
    split at h
    · cases h
    · cases h
      exact ⟨masked.owed,masked.justified⟩
  | error =>
    cases h
    exact maskedSame masked rfl rfl rfl
  | interrupt =>
    obtain ⟨idle,rfl | rfl⟩ := interruptCases h
    · exact masked
    · exact maskedSame masked rfl rfl (by rw [idle]; rfl)
  | handler => exact handlerMasked masked h
  | synth =>
    obtain ⟨idle,⟨-,rfl⟩ | ⟨-,rfl⟩ | ⟨-,rfl⟩ | ⟨mask,buf,-,rfl⟩ | ⟨-,-,rfl⟩⟩ := synthCases h
    · exact swapMasked masked idle _
    · exact swapMasked masked idle _
    all_goals exact maskedSame masked rfl rfl rfl

end Masking

section Waking
variable {s t : System}

/- The task is registered or queued from its registration on, and queued where there is something to deliver
and its waker was taken. -/
def Watched (s : System) : Prop :=
  match s.synth with
  | .second => s.registered = true ∨ s.woken = true
  | .pending => s.woken = true ∨ (s.registered = true ∧ (s.refillMask = 0 ∨ ∃ civ, s.handler = .wake civ))
  | _ => True

theorem startWatched (nabm : UInt16) : Watched (start nabm) := .inl rfl

/- Away from the handler's last operations nothing changes for the task. -/
theorem watchedKept (watched : Watched s) (synth : t.synth = s.synth) (registered : t.registered = s.registered) (woken : t.woken = s.woken)
    (mask : t.refillMask = s.refillMask) (other : ∀ civ, s.handler ≠ .wake civ) : Watched t := by
  unfold Watched at watched ⊢
  rw [synth,registered,woken,mask]
  split at watched
  · exact watched
  · refine watched.imp_right (And.imp_right fun still => .inl (still.resolve_right ?_))
    rintro ⟨civ,same⟩
    exact other civ same
  · trivial

theorem handlerWatched (watched : Watched s) (h : handlerStep s = .ok t) : Watched t := by
  unfold handlerStep at h
  split at h
  · cases h
  · rename_i here
    cases h
    exact watchedKept watched rfl rfl rfl rfl (by rw [here]; nofun)
  · rename_i here
    cases h
    exact watchedKept watched rfl rfl rfl rfl (by rw [here]; nofun)
  · rename_i here
    split at h <;> (cases h; exact watchedKept watched rfl rfl rfl rfl (by rw [here]; nofun))
  · rename_i here
    cases h
    exact watchedKept watched rfl rfl rfl rfl (by rw [here]; nofun)
  · cases h
    unfold Watched at watched ⊢
    dsimp only
    split
    · rename_i at_
      rwa [at_] at watched
    · rename_i at_
      rw [at_] at watched
      exact watched.imp_right fun still => ⟨still.1,.inr ⟨_,rfl⟩⟩
    · trivial
  · cases h
    unfold Watched at watched ⊢
    dsimp only
    split
    · rename_i at_
      rw [at_] at watched
      right
      rcases watched with registered | woken
      · rw [registered,Bool.or_true]
      · rw [woken,Bool.true_or]
    · rename_i at_
      rw [at_] at watched
      left
      rcases watched with woken | ⟨registered,-⟩
      · rw [woken,Bool.true_or]
      · rw [registered,Bool.or_true]
    · trivial
  · rename_i here
    cases h
    exact watchedKept watched rfl rfl rfl rfl (by rw [here]; nofun)

theorem stepWatched (e : Event) (watched : Watched s) (h : step s e = .ok t) : Watched t := by
  cases e with
  | complete =>
    simp only [step] at h
    split at h
    · cases h
    · cases h
      exact watched
  | error =>
    cases h
    exact watched
  | interrupt =>
    obtain ⟨idle,rfl | rfl⟩ := interruptCases h
    · exact watched
    · exact watchedKept watched rfl rfl rfl rfl (by rw [idle]; nofun)
  | handler => exact handlerWatched watched h
  | synth =>
    obtain ⟨idle,⟨-,rfl⟩ | ⟨at_,rfl⟩ | ⟨-,rfl⟩ | ⟨mask,buf,-,rfl⟩ | ⟨-,-,rfl⟩⟩ := synthCases h
    · rcases swapCases s .register with ⟨-,same⟩ | ⟨-,same⟩ <;> (rw [same]; trivial)
    · rcases swapCases s .pending with ⟨none_,same⟩ | ⟨-,same⟩
      · rw [same]
        rw [Watched,at_] at watched
        exact watched.symm.imp_right fun registered => ⟨registered,.inl none_⟩
      · rw [same]
        trivial
    · exact .inl rfl
    · unfold Watched
      dsimp only
      split
      · rename_i at_
        split at at_ <;> cases at_
      · rename_i at_
        split at at_ <;> cases at_
      · trivial
    · trivial

end Waking

section Runs
variable {s t : System} {page : Nat}

/- A scan ends when CIV is reached, whatever the card does meanwhile. -/
theorem scanEnds {civ next : Nat} {mask : UInt8} (low : civ < BDL_ENTRIES) (low' : next < BDL_ENTRIES) (here : s.handler = .scan civ next mask)
    {events : List Event} (h : play step s events = .ok t) (enough : (civ + BDL_ENTRIES - next) % BDL_ENTRIES < events.count .handler) :
    ∃ before u mask', before <+: events ∧ play step s before = .ok u ∧ u.handler = .store civ civ mask' := by
  induction events generalizing s next mask with
  | nil => exact absurd enough (Nat.not_lt_zero _)
  | cons e rest ih =>
    obtain ⟨u,now,later⟩ := playCons h
    have onwards {next' : Nat} {mask' : UInt8} (low' : next' < BDL_ENTRIES) (here' : u.handler = .scan civ next' mask')
        (enough' : (civ + BDL_ENTRIES - next') % BDL_ENTRIES < rest.count .handler) :
        ∃ before u mask', before <+: e :: rest ∧ play step s before = .ok u ∧ u.handler = .store civ civ mask' := by
      obtain ⟨before,v,mask'',within_,played,stored⟩ := ih low' here' later enough'
      exact ⟨e :: before,v,mask'',List.cons_prefix_cons.mpr ⟨rfl,within_⟩,(Plays.playStep now before).trans played,stored⟩
    cases e with
    | complete =>
      simp only [step] at now
      split at now
      · cases now
      · cases now
        exact onwards low' here (by rwa [List.count_cons_of_ne (by decide)] at enough)
    | error =>
      cases now
      exact onwards low' here (by rwa [List.count_cons_of_ne (by decide)] at enough)
    | interrupt =>
      rw [(interruptCases now).1] at here
      cases here
    | synth =>
      rw [(synthCases now).1] at here
      cases here
    | handler =>
      rw [List.count_cons_self] at enough
      simp only [step,handlerStep,here] at now
      split at now
      · rename_i reached
        cases now
        exact ⟨[.handler],_,mask,List.cons_prefix_cons.mpr ⟨rfl,List.nil_prefix⟩,
          Plays.playStep (by simp only [step,handlerStep,here]; rw [if_pos reached]) [],by rw [reached]⟩
      · rename_i more
        cases now
        unfold BDL_ENTRIES at low low' enough
        refine onwards (Nat.mod_lt _ (by decide)) rfl ?_
        unfold BDL_ENTRIES
        omega

/- The operations the task has left up to its next swap, that one included. -/
def turnsLeft : Synth → Nat
  | .first | .second => 1
  | .register | .pending => 2
  | .fill _ buf => (BUFFERS - buf) + 2

theorem turnsLeftMost (synth : Synth) : turnsLeft synth ≤ 6 := by
  cases synth <;> simp only [turnsLeft,BUFFERS] <;> omega

theorem swapTurn (masked : Masked s) (idle : s.handler = .idle) (owed : Owed page s.log) (empty : Synth) :
    ∃ mask, (swap s empty).log = .delivered mask :: s.log ∧ has mask page = true := by
  have held := (maskedSettled masked (by rw [idle]; rfl) page).mp owed
  rcases swapCases s empty with ⟨none_,-⟩ | ⟨-,same⟩
  · rw [none_,hasZero] at held
    cases held
  · exact ⟨s.refillMask,by rw [same],held⟩

/- An operation of the task delivers what is owed or comes closer to it. -/
theorem synthTurn (masked : Masked s) (owed : Owed page s.log) (h : synthStep s = .ok t) :
    (∃ mask, t.log = .delivered mask :: s.log ∧ has mask page = true) ∨ (t.log = s.log ∧ turnsLeft t.synth < turnsLeft s.synth) := by
  obtain ⟨idle,⟨-,rfl⟩ | ⟨-,rfl⟩ | ⟨at_,rfl⟩ | ⟨mask,buf,at_,rfl⟩ | ⟨at_,-,rfl⟩⟩ := synthCases h
  · exact .inl (swapTurn masked idle owed _)
  · exact .inl (swapTurn masked idle owed _)
  · exact .inr ⟨rfl,by rw [at_]; exact Nat.lt_succ_self 1⟩
  · refine .inr ⟨rfl,?_⟩
    rw [at_]
    dsimp only
    split
    · simp only [turnsLeft]
      omega
    · simp only [turnsLeft]
      omega
  · exact .inr ⟨rfl,by rw [at_]; exact Nat.lt_succ_self 1⟩

/- The card and the handler leave the task where it is, and what is owed owed. -/
variable (page) in
theorem otherTurn {e : Event} (other : e ≠ .synth) (h : step s e = .ok t) :
    t.synth = s.synth ∧ (∃ newer, t.log = newer ++ s.log) ∧ (Owed page s.log → Owed page t.log) := by
  cases e with
  | complete =>
    simp only [step] at h
    split at h
    · cases h
    · cases h
      exact ⟨rfl,⟨[_],rfl⟩,id⟩
  | error =>
    cases h
    exact ⟨rfl,⟨[],rfl⟩,id⟩
  | interrupt =>
    obtain ⟨-,rfl | rfl⟩ := interruptCases h
    · exact ⟨rfl,⟨[],rfl⟩,id⟩
    · exact ⟨rfl,⟨[],rfl⟩,id⟩
  | handler =>
    simp only [step,handlerStep] at h
    split at h
    · cases h
    · cases h; exact ⟨rfl,⟨[],rfl⟩,id⟩
    · cases h; exact ⟨rfl,⟨[],rfl⟩,id⟩
    · split at h
      · cases h; exact ⟨rfl,⟨[],rfl⟩,id⟩
      · cases h; exact ⟨rfl,⟨[_],rfl⟩,.inr⟩
    · cases h; exact ⟨rfl,⟨[],rfl⟩,id⟩
    · cases h; exact ⟨rfl,⟨[],rfl⟩,id⟩
    · cases h; exact ⟨rfl,⟨[],rfl⟩,id⟩
    · cases h; exact ⟨rfl,⟨[],rfl⟩,id⟩
  | synth => exact absurd rfl other

theorem stepLog {e : Event} (h : step s e = .ok t) : ∃ newer, t.log = newer ++ s.log := by
  by_cases task : e = .synth
  · subst task
    have swapped (empty : Synth) : ∃ newer, (swap s empty).log = newer ++ s.log := by
      rcases swapCases s empty with ⟨-,same⟩ | ⟨-,same⟩
      · exact ⟨[],by rw [same]; rfl⟩
      · exact ⟨[_],by rw [same]; rfl⟩
    obtain ⟨-,⟨-,rfl⟩ | ⟨-,rfl⟩ | ⟨-,rfl⟩ | ⟨mask,buf,-,rfl⟩ | ⟨-,-,rfl⟩⟩ := synthCases h
    · exact swapped _
    · exact swapped _
    all_goals exact ⟨[],rfl⟩
  · exact (otherTurn 0 task h).2.1

theorem playLog {events : List Event} (h : play step s events = .ok t) : ∃ newer, t.log = newer ++ s.log := by
  refine Plays.playInvariant (fun t => ∃ newer, t.log = newer ++ s.log) ?_ ⟨[],rfl⟩ h
  rintro u e v ⟨newer,same⟩ next
  obtain ⟨newest,same'⟩ := stepLog next
  exact ⟨newest ++ newer,by rw [same',same,List.append_assoc]⟩

/- What is owed is delivered within so many operations of the task, whatever comes between them. -/
theorem owedDelivered (masked : Masked s) (owed : Owed page s.log) {events : List Event} (h : play step s events = .ok t)
    (enough : turnsLeft s.synth ≤ events.count .synth) :
    ∃ newer mask, t.log = newer ++ s.log ∧ .delivered mask ∈ newer ∧ has mask page = true := by
  induction events generalizing s with
  | nil =>
    have some_ : 0 < turnsLeft s.synth := by cases s.synth <;> exact Nat.succ_pos _
    exact absurd enough (Nat.not_le_of_lt some_)
  | cons e rest ih =>
    obtain ⟨u,now,later⟩ := playCons h
    by_cases task : e = .synth
    · subst task
      rw [List.count_cons_self] at enough
      rcases synthTurn masked owed now with ⟨mask,logged,held⟩ | ⟨logged,closer⟩
      · obtain ⟨newer,same⟩ := playLog later
        exact ⟨newer ++ [.delivered mask],mask,by rw [same,logged,List.append_assoc]; rfl,List.mem_append_right _ (List.mem_singleton.mpr rfl),held⟩
      · obtain ⟨newer,mask,same,delivered,held⟩ := ih (stepMasked _ masked now) (logged ▸ owed) later (by omega)
        exact ⟨newer,mask,by rw [same,logged],delivered,held⟩
    · obtain ⟨synth,⟨first,logged⟩,still⟩ := otherTurn page task now
      rw [List.count_cons_of_ne task] at enough
      obtain ⟨newer,mask,same,delivered,held⟩ := ih (stepMasked _ masked now) (still owed) later (synth ▸ enough)
      exact ⟨newer ++ first,mask,by rw [same,logged,List.append_assoc],List.mem_append_left _ delivered,held⟩

end Runs

section Missing
variable {s t : System}

/- What holds in every state of a run, and of every way it may go on from there. -/
structure NoneMissed (s : System) : Prop where
  nextDone : s.nextDone.toNat < BDL_ENTRIES
  civ : ∀ civ, s.handler.stored = some civ → s.nextDone.toNat = civ
  runs : s.handler ≠ .idle → ∃ t, step s .handler = .ok t
  ends : ∀ civ next mask, s.handler = .scan civ next mask → ∀ events t, play step s events = .ok t → 32 ≤ events.count .handler →
    ∃ before u mask', before <+: events ∧ play step s before = .ok u ∧ u.handler = .store civ civ mask'
  once : scans s.log <+: completions s.log
  first : s.handler.settled = true → scans s.log = (completions s.log).take s.seen ∧ ∀ page, Owed page s.log ↔ has s.refillMask page = true
  justified : Justified s.log
  awake : ∀ page, Owed page s.log → s.handler = .idle → ∃ t, step s .synth = .ok t
  delivers : ∀ page, Owed page s.log → ∀ events t, play step s events = .ok t → 6 ≤ events.count .synth →
    ∃ newer mask, t.log = newer ++ s.log ∧ .delivered mask ∈ newer ∧ has mask page = true

theorem cyclicPrefix {l m : List Nat} (cyclic : Cyclic l) (cyclic' : Cyclic m) (le : l.length ≤ m.length) : l = m.take l.length := by
  rw [Cyclic] at cyclic cyclic'
  rw [cyclic',← List.map_take,List.take_range,Nat.min_eq_left le]
  exact cyclic

theorem positionFacts {completed scanned : Nat} {handler : Handler} (position : Position s completed scanned handler) :
    s.nextDone.toNat < BDL_ENTRIES ∧ scanned ≤ s.seen ∧ (∀ civ, handler.stored = some civ → s.nextDone.toNat = civ) ∧
      (handler.settled = true → scanned = s.seen) := by
  have below (n : Nat) : n % BDL_ENTRIES < BDL_ENTRIES := Nat.mod_lt n (by decide)
  cases handler with
  | idle | ack | readCiv => exact ⟨position.2.1 ▸ below _,Nat.le_of_eq position.1,nofun,fun _ => position.1⟩
  | scan => exact ⟨position.2.2.2.2,position.2.2.1,nofun,nofun⟩
  | store => exact ⟨position.2.2.2,Nat.le_of_eq position.2.2.1,nofun,nofun⟩
  | merge | wake | writeLvi =>
    obtain ⟨read,stored,all⟩ := position
    exact ⟨stored ▸ read ▸ below _,Nat.le_of_eq all,fun civ same => by cases same; exact stored,fun _ => all⟩

theorem noneMissed (counted : Counted s) (masked : Masked s) (watched : Watched s) : NoneMissed s := by
  obtain ⟨small,behind,stored,settled⟩ := positionFacts counted.position
  have prefix_ : scans s.log = (completions s.log).take (scans s.log).length :=
    cyclicPrefix counted.scanned counted.completed (Nat.le_trans behind counted.seen)
  constructor
  · exact small
  · exact stored
  · intro busy
    unfold step handlerStep
    cases handler : s.handler with
    | idle => exact absurd handler busy
    | scan civ next mask =>
      dsimp only
      split
      · exact ⟨_,rfl⟩
      · exact ⟨_,rfl⟩
    | _ => exact ⟨_,rfl⟩
  · intro civ next mask here events t h enough
    have position := counted.position
    rw [here] at position
    obtain ⟨read,at_,-⟩ := position
    have below (n : Nat) : n % BDL_ENTRIES < BDL_ENTRIES := Nat.mod_lt n (by decide)
    exact scanEnds (read ▸ below _) (at_ ▸ below _) here h (Nat.lt_of_lt_of_le (below _) enough)
  · rw [prefix_]
    exact List.take_prefix _ _
  · intro done
    exact ⟨settled done ▸ prefix_,maskedSettled masked done⟩
  · exact masked.justified
  · intro page owed idle
    have held : s.refillMask ≠ 0 := by
      intro none_
      have marked := (maskedSettled masked (by rw [idle]; rfl) page).mp owed
      rw [none_,hasZero] at marked
      cases marked
    unfold step synthStep
    rw [idle]
    cases at_ : s.synth with
    | pending =>
      rw [Watched,at_] at watched
      have woken : s.woken = true := by
        refine watched.resolve_right fun still => ?_
        rcases still.2 with none_ | ⟨civ,other⟩
        · exact held none_
        · rw [idle] at other
          cases other
      exact ⟨_,if_pos woken⟩
    | _ => exact ⟨_,rfl⟩
  · intro page owed events t h enough
    exact owedDelivered masked owed h (Nat.le_trans (turnsLeftMost _) enough)

/- No sound buffer is missed in any run in which fewer than 32 descriptors complete between two handled interrupts. -/
theorem bufferNoneMissed (nabm : UInt16) (events : List Event) (s : System) (h : play step (start nabm) events = .ok s)
    (timely : Along step Timely (start nabm) events) : NoneMissed s := by
  have kept := playWhile (fun s => Counted s ∧ Masked s ∧ Watched s) Timely
    (fun s e t inv now next => ⟨stepCounted e inv.1 now next,stepMasked e inv.2.1 next,stepWatched e inv.2.2 next⟩)
    ⟨startCounted nabm,startMasked nabm,startWatched nabm⟩ timely h
  exact noneMissed kept.1.1 kept.1.2.1 kept.1.2.2

/- Two descriptors complete, the second while the handler acknowledges the first; the task waits for them. -/
def twoDone : List Event :=
  [.synth,.synth,.synth,.synth,.complete,.interrupt,.complete] ++ List.replicate 9 .handler ++ [.complete,.synth,.synth]

theorem bufferNoneMissedTwo : ∃ s, play step (start 1) twoDone = .ok s ∧ NoneMissed s ∧
    s.log = [.delivered 3,.completed 2,.scanned 1,.scanned 0,.completed 1,.completed 0] :=
  ⟨_,rfl,bufferNoneMissed 1 twoDone _ rfl (by decide),rfl⟩

end Missing

end Officium.Ring

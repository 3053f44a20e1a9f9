import Mathlib.Algebra.BigOperators.Group.Finset.Basic
import Mathlib.Algebra.Ring.Int.Defs
import Officium.Kernel.Organ

/-! What the synthesizer writes into the sound buffers. Its voices are known by their steps and their age, the frames
since each was last struck: every frame is the sum of what the waves are at that age, and none is ever clipped. -/
namespace Officium.Synth
open Organ (Voice Voices active freqToStep noteOn noteOff allNotesOff maxVoices Tuned)

/- One period of a sine wave. -/
def SINE : List Int := [
  0,804,1608,2410,3212,4011,4808,5602,6393,7179,7962,8739,9512,10278,11039,11793,
  12539,13279,14010,14732,15446,16151,16846,17530,18204,18868,19519,20159,20787,21403,22005,22594,
  23170,23731,24279,24811,25329,25832,26319,26790,27245,27683,28105,28510,28898,29268,29621,29956,
  30273,30571,30852,31113,31356,31580,31785,31971,32137,32285,32412,32521,32609,32678,32728,32757,
  32767,32757,32728,32678,32609,32521,32412,32285,32137,31971,31785,31580,31356,31113,30852,30571,
  30273,29956,29621,29268,28898,28510,28105,27683,27245,26790,26319,25832,25329,24811,24279,23731,
  23170,22594,22005,21403,20787,20159,19519,18868,18204,17530,16846,16151,15446,14732,14010,13279,
  12539,11793,11039,10278,9512,8739,7962,7179,6393,5602,4808,4011,3212,2410,1608,804,
  0,-804,-1608,-2410,-3212,-4011,-4808,-5602,-6393,-7179,-7962,-8739,-9512,-10278,-11039,-11793,
  -12539,-13279,-14010,-14732,-15446,-16151,-16846,-17530,-18204,-18868,-19519,-20159,-20787,-21403,-22005,-22594,
  -23170,-23731,-24279,-24811,-25329,-25832,-26319,-26790,-27245,-27683,-28105,-28510,-28898,-29268,-29621,-29956,
  -30273,-30571,-30852,-31113,-31356,-31580,-31785,-31971,-32137,-32285,-32412,-32521,-32609,-32678,-32728,-32757,
  -32767,-32757,-32728,-32678,-32609,-32521,-32412,-32285,-32137,-31971,-31785,-31580,-31356,-31113,-30852,-30571,
  -30273,-29956,-29621,-29268,-28898,-28510,-28105,-27683,-27245,-26790,-26319,-25832,-25329,-24811,-24279,-23731,
  -23170,-22594,-22005,-21403,-20787,-20159,-19519,-18868,-18204,-17530,-16846,-16151,-15446,-14732,-14010,-13279,
  -12539,-11793,-11039,-10278,-9512,-8739,-7962,-7179,-6393,-5602,-4808,-4011,-3212,-2410,-1608,-804]

/- The multiples of the fundamental, each with its amplitude. -/
def HARMONICS : List (UInt32 × Int) := [(1,32),(2,16),(3,8),(4,4)]

/- An `i32`, unless it overflows. -/
def i32 (n : Int) : Option Int := if -2147483648 ≤ n ∧ n < 2147483648 then some n else none

/- The harmonics of one voice: the top 8 bits of the phase of each index the table. -/
def addHarmonics (phase : UInt32) : List (UInt32 × Int) → Int → Option Int
  | [], acc => some acc
  | (multiple,amplitude) :: rest, acc => do
    let s ← SINE[((phase * multiple) >>> 24).toNat]?
    let product ← i32 (s * amplitude)
    let acc ← i32 (acc + product)
    addHarmonics phase rest acc

/- One frame: every voice is added up and moved on. -/
def mix : Voices → Int → Option (Voices × Int)
  | [], acc => some ([],acc)
  | none :: rest, acc => do
    let (rest,acc) ← mix rest acc
    some (none :: rest,acc)
  | some v :: rest, acc => do
    let acc ← addHarmonics v.phase HARMONICS acc
    let (rest,acc) ← mix rest acc
    some (some { v with phase := v.phase + v.step } :: rest,acc)

/- `(acc >> 9).clamp(i16::MIN as i32, i16::MAX as i32)`. -/
def sampleOf (acc : Int) : Int := max (-32768) (min (acc >>> (9 : Nat)) 32767)

/- Interleaved stereo; an odd sample at the end is left as it is. -/
def synthesize : Voices → List Int → Option (Voices × List Int)
  | voices, _ :: _ :: out => do
    let (voices,acc) ← mix voices 0
    let (voices,out) ← synthesize voices out
    some (voices,sampleOf acc :: sampleOf acc :: out)
  | voices, out => some (voices,out)

/- What is asked of the synth: a key struck or let go, silence, a buffer to be filled. -/
inductive Request where
  | noteOn (freqHz : UInt32)
  | noteOff (freqHz : UInt32)
  | allNotesOff
  | refill (out : List Int)

/- The voices after the requests, and the buffers as they were filled. -/
def perform : Voices → List Request → Option (Voices × List (List Int))
  | voices, [] => some (voices,[])
  | voices, .noteOn freqHz :: rest => perform (noteOn voices freqHz) rest
  | voices, .noteOff freqHz :: rest => perform (noteOff voices freqHz) rest
  | voices, .allNotesOff :: rest => perform (allNotesOff voices) rest
  | voices, .refill out :: rest => do
    let (voices,filled) ← synthesize voices out
    let (voices,buffers) ← perform voices rest
    some (voices,filled :: buffers)

section Waves

/- What a voice adds to a frame at a phase. -/
def wave (phase : UInt32) : Int := (HARMONICS.map (fun h => SINE.getD ((phase * h.1) >>> 24).toNat 0 * h.2)).sum

/- Sixty units of amplitude, for each voice of the full table. -/
def LOUDEST : Int := 1966020

theorem sineBounded : ∀ s ∈ SINE, -32767 ≤ s ∧ s ≤ 32767 := by decide +kernel

theorem sineAt (phase multiple : UInt32) : SINE[((phase * multiple) >>> 24).toNat]? = some (SINE.getD ((phase * multiple) >>> 24).toNat 0) := by
  have inside : ((phase * multiple) >>> 24).toNat < SINE.length := by
    have length : SINE.length = 2^8 := by decide +kernel
    have shift : ((phase * multiple) >>> 24).toNat = (phase * multiple).toNat >>> 24 := UInt32.toNat_shiftRight _ _
    rw [length,shift,Nat.shiftRight_eq_div_pow]
    exact Nat.div_lt_of_lt_mul (UInt32.toNat_lt _)
  rw [List.getD_eq_getElem?_getD,List.getElem?_eq_getElem inside]
  rfl

theorem sineWithin (i : Nat) : -32767 ≤ SINE.getD i 0 ∧ SINE.getD i 0 ≤ 32767 := by
  rw [List.getD_eq_getElem?_getD]
  cases found : SINE[i]? with
  | none => decide
  | some s => exact sineBounded s (List.mem_of_getElem? found)

theorem i32Fits {n : Int} (low : -2147483648 ≤ n) (high : n < 2147483648) : i32 n = some n := if_pos ⟨low,high⟩

theorem waveBounded (phase : UInt32) : -LOUDEST ≤ wave phase ∧ wave phase ≤ LOUDEST := by
  have a := sineWithin ((phase * 1) >>> 24).toNat
  have b := sineWithin ((phase * 2) >>> 24).toNat
  have c := sineWithin ((phase * 3) >>> 24).toNat
  have d := sineWithin ((phase * 4) >>> 24).toNat
  simp only [wave,HARMONICS,LOUDEST,List.map_cons,List.map_nil,List.sum_cons,List.sum_nil]
  omega

/- With room for the loudest wave nothing overflows on the way. -/
theorem addHarmonicsIs {acc : Int} (phase : UInt32) (low : -2000000000 ≤ acc) (high : acc ≤ 2000000000) :
    addHarmonics phase HARMONICS acc = some (acc + wave phase) := by
  have a := sineWithin ((phase * 1) >>> 24).toNat
  have b := sineWithin ((phase * 2) >>> 24).toNat
  have c := sineWithin ((phase * 3) >>> 24).toNat
  have d := sineWithin ((phase * 4) >>> 24).toNat
  simp only [HARMONICS,addHarmonics,sineAt,Option.bind_eq_bind,Option.bind_some,wave,List.map_cons,List.map_nil,List.sum_cons,List.sum_nil]
  generalize SINE.getD ((phase * 1) >>> 24).toNat 0 = w at a
  generalize SINE.getD ((phase * 2) >>> 24).toNat 0 = x at b
  generalize SINE.getD ((phase * 3) >>> 24).toNat 0 = y at c
  generalize SINE.getD ((phase * 4) >>> 24).toNat 0 = z at d
  rw [i32Fits (by omega) (by omega),Option.bind_some,i32Fits (by omega) (by omega),Option.bind_some,
    i32Fits (by omega) (by omega),Option.bind_some,i32Fits (by omega) (by omega),Option.bind_some,
    i32Fits (by omega) (by omega),Option.bind_some,i32Fits (by omega) (by omega),Option.bind_some,
    i32Fits (by omega) (by omega),Option.bind_some,i32Fits (by omega) (by omega),Option.bind_some]
  congr 1
  omega

end Waves

section Frames
variable {voices : Voices} {acc : Int}

/- What the voices add up to where they are. -/
def heard (voices : Voices) : Int := (voices.map (fun slot => (slot.map (fun v => wave v.phase)).getD 0)).sum

theorem heardBounded (voices : Voices) : -(voices.length * LOUDEST) ≤ heard voices ∧ heard voices ≤ voices.length * LOUDEST := by
  induction voices with
  | nil => decide
  | cons slot rest ih =>
    have here : -LOUDEST ≤ (slot.map (fun v => wave v.phase)).getD 0 ∧ (slot.map (fun v => wave v.phase)).getD 0 ≤ LOUDEST := by
      cases slot with
      | none => decide
      | some v => exact waveBounded v.phase
    have sum : heard (slot :: rest) = (slot.map (fun v => wave v.phase)).getD 0 + heard rest := List.sum_cons
    rw [sum,List.length_cons]
    unfold LOUDEST at ih here ⊢
    push_cast
    omega

theorem mixIs (low : -2000000000 + voices.length * LOUDEST ≤ acc) (high : acc ≤ 2000000000 - voices.length * LOUDEST) :
    mix voices acc = some (Organ.synthesize 1 voices,acc + heard voices) := by
  induction voices generalizing acc with
  | nil =>
    rw [mix]
    congr 2
    exact (Int.add_zero acc).symm
  | cons slot rest ih =>
    rw [List.length_cons] at low high
    push_cast at low high
    unfold LOUDEST at ih low high
    cases slot with
    | none =>
      have sum : heard (none :: rest) = heard rest := Int.zero_add _
      rw [mix,ih (by omega) (by omega),sum]
      rfl
    | some v =>
      obtain ⟨least,most⟩ := waveBounded v.phase
      have sum : heard (some v :: rest) = wave v.phase + heard rest := List.sum_cons
      unfold LOUDEST at least most
      rw [mix,addHarmonicsIs v.phase (by omega) (by omega),Option.bind_eq_bind,Option.bind_some,ih (by omega) (by omega),sum,← Int.add_assoc]
      simp only [Organ.synthesize,List.map_cons,Option.map_some,UInt32.one_mul]
      rfl

end Frames

section Buffers
variable {voices : Voices}

/- A buffer with the same sample on both channels of every frame. -/
def paint (sample : Nat → Int) : List Int → List Int
  | _ :: _ :: out => sample 0 :: sample 0 :: paint (fun k => sample (k+1)) out
  | out => out

theorem paintLength (sample : Nat → Int) (out : List Int) : (paint sample out).length = out.length := by
  induction out using List.twoStepInduction generalizing sample with
  | nil => rfl
  | singleton => rfl
  | cons_cons x y out ih _ => simp only [paint,List.length_cons,ih]

theorem paintAt {sample : Nat → Int} {out : List Int} {k : Nat} (inside : k < out.length / 2) :
    (paint sample out)[2 * k]? = some (sample k) ∧ (paint sample out)[2 * k + 1]? = some (sample k) := by
  induction out using List.twoStepInduction generalizing sample k with
  | nil | singleton => simp at inside
  | cons_cons x y out ih _ =>
    cases k with
    | zero => exact ⟨rfl,rfl⟩
    | succ k =>
      have inside' : k < out.length / 2 := by
        rw [List.length_cons,List.length_cons] at inside
        omega
      exact ih inside'

/- Two buffers one after the other are filled as one is. -/
theorem paintAppend (sample : Nat → Int) {out : List Int} (more : List Int) (even : out.length % 2 = 0) :
    paint sample (out ++ more) = paint sample out ++ paint (fun k => sample (out.length / 2 + k)) more := by
  induction out using List.twoStepInduction generalizing sample with
  | nil => simp [paint]
  | singleton => cases even
  | cons_cons x y out ih _ =>
    rw [List.length_cons,List.length_cons] at even
    have shift (k : Nat) : (out.length + 1 + 1) / 2 + k = out.length / 2 + k + 1 := by omega
    simp only [List.cons_append,paint,ih _ (by omega : out.length % 2 = 0),List.length_cons,shift]

theorem synthesizeThen (voices : Voices) (a b : UInt32) : Organ.synthesize b (Organ.synthesize a voices) = Organ.synthesize (a + b) voices := by
  unfold Organ.synthesize
  rw [List.map_map]
  congr 1
  funext slot
  cases slot with
  | none => rfl
  | some v => simp only [Function.comp_apply,Option.map_some,UInt32.add_mul,UInt32.add_assoc]

/- Eight voices at their loudest are not clipped. -/
theorem sampleExact (slots : voices.length = maxVoices) : sampleOf (heard voices) = heard voices >>> (9 : Nat) := by
  obtain ⟨least,most⟩ := heardBounded voices
  rw [slots] at least most
  unfold LOUDEST maxVoices at least most
  have shift : heard voices >>> (9 : Nat) = heard voices / 512 := Int.shiftRight_eq_div_pow _ 9
  rw [sampleOf,shift]
  omega

/- A buffer is filled with what the voices add up to, frame after frame. -/
theorem synthesizeIs (slots : voices.length = maxVoices) (out : List Int) : synthesize voices out =
    some (Organ.synthesize (UInt32.ofNat (out.length / 2)) voices,
      paint (fun k => heard (Organ.synthesize (UInt32.ofNat k) voices) >>> (9 : Nat)) out) := by
  have same (voices : Voices) : Organ.synthesize 0 voices = voices := by
    unfold Organ.synthesize
    refine (List.map_congr_left fun slot _ => ?_).trans (List.map_id _)
    cases slot <;> simp
  induction out using List.twoStepInduction generalizing voices with
  | nil | singleton =>
    have none_ : UInt32.ofNat 0 = 0 := rfl
    simp only [synthesize,paint,List.length_nil,List.length_singleton,Nat.zero_div,Nat.reduceDiv,none_,same]
  | cons_cons x y out ih _ =>
    have fits : mix voices 0 = some (Organ.synthesize 1 voices,0 + heard voices) := by
      apply mixIs <;> rw [slots] <;> decide
    have slots' : (Organ.synthesize 1 voices).length = maxVoices := (List.length_map _).trans slots
    have frames : UInt32.ofNat ((x :: y :: out).length / 2) = 1 + UInt32.ofNat (out.length / 2) := by
      rw [List.length_cons,List.length_cons,show (out.length + 1 + 1) / 2 = 1 + out.length / 2 by omega,UInt32.ofNat_add]
      rfl
    have next (k : Nat) : UInt32.ofNat (k + 1) = 1 + UInt32.ofNat k := by
      rw [Nat.add_comm,UInt32.ofNat_add]
      rfl
    simp only [synthesize,fits,Option.bind_eq_bind,Option.bind_some,ih slots',Int.zero_add,sampleExact slots,frames,synthesizeThen,paint,next,
      same,show UInt32.ofNat 0 = 0 from rfl]

end Buffers

/- What sounds: the steps struck and not let go, and the frames since each was last struck. -/
structure Sounding where
  steps : Finset UInt32
  age : UInt32 → Nat

namespace Sounding

def silent : Sounding := ⟨∅,fun _ => 0⟩

/- A new step is left out where there is no room for it. -/
def strike (s : Sounding) (step : UInt32) : Sounding :=
  if step ∈ s.steps ∨ s.steps.card < maxVoices then ⟨insert step s.steps,Function.update s.age step 0⟩ else s

def letGo (s : Sounding) (step : UInt32) : Sounding := { s with steps := s.steps.erase step }

def later (s : Sounding) (frames : Nat) : Sounding := { s with age := fun step => s.age step + frames }

/- The sum of the waves, so many frames on. -/
def sample (s : Sounding) (k : Nat) : Int := (∑ step ∈ s.steps, wave (UInt32.ofNat (s.age step + k) * step)) >>> (9 : Nat)

/- What sounds after the requests, and what the buffers are filled with. -/
def after (s : Sounding) : List Request → Sounding × List (List Int)
  | [] => (s,[])
  | .noteOn freqHz :: rest => (s.strike (freqToStep freqHz)).after rest
  | .noteOff freqHz :: rest => (s.letGo (freqToStep freqHz)).after rest
  | .allNotesOff :: rest => Sounding.silent.after rest
  | .refill out :: rest =>
    let later := (s.later (out.length / 2)).after rest
    (later.1,paint s.sample out :: later.2)

end Sounding

section Refinement
variable {voices : Voices} {s : Sounding} {step : UInt32} {v w : Voice}

/- The voices are the steps that sound, each at the phase its age makes. -/
structure Sounds (voices : Voices) (s : Sounding) : Prop where
  tuned : Tuned voices
  steps : ∀ step, step ∈ s.steps ↔ step ∈ active voices
  phase : ∀ v, some v ∈ voices → v.phase = UInt32.ofNat (s.age v.step) * v.step

theorem activeMem : step ∈ active voices ↔ ∃ v, some v ∈ voices ∧ v.step = step := by
  unfold active
  rw [List.mem_filterMap]
  constructor
  · rintro ⟨slot,mem,same⟩
    obtain ⟨v,rfl,is_⟩ := Option.map_eq_some_iff.mp same
    exact ⟨v,mem,is_⟩
  · rintro ⟨v,mem,rfl⟩
    exact ⟨some v,mem,rfl⟩

/- No two voices have one step. -/
theorem voiceUnique (distinct : (active voices).Nodup) (v_ : some v ∈ voices) (w_ : some w ∈ voices) (same : v.step = w.step) : v = w := by
  induction voices with
  | nil => cases v_
  | cons slot rest ih =>
    rw [Organ.activeCons] at distinct
    obtain ⟨-,later,apart⟩ := List.nodup_append'.mp distinct
    rcases List.mem_cons.mp v_ with here | there <;> rcases List.mem_cons.mp w_ with here' | there'
    · exact Option.some.inj (here.trans here'.symm)
    · subst here
      exact absurd (activeMem.mpr ⟨w,there',same.symm⟩) (List.disjoint_left.mp apart (List.mem_singleton_self v.step))
    · subst here'
      exact absurd (activeMem.mpr ⟨v,there,same⟩) (List.disjoint_left.mp apart (List.mem_singleton_self w.step))
    · exact ih later there there'

theorem soundsCard (sounds : Sounds voices s) : s.steps.card = (active voices).length := by
  have same : s.steps = (active voices).toFinset := by
    ext step
    rw [List.mem_toFinset]
    exact sounds.steps step
  rw [same,List.toFinset_card_of_nodup sounds.tuned.distinct]

theorem soundsSilent : Sounds Organ.silent .silent where
  tuned := Organ.tunedSilent
  steps := fun step => by
    have none_ : active Organ.silent = [] := rfl
    rw [none_]
    exact ⟨fun mem => absurd mem (Finset.notMem_empty step),fun mem => by cases mem⟩
  phase := fun v mem => by
    unfold Organ.silent at mem
    cases List.eq_of_mem_replicate mem

theorem retriggerMem {voices' : Voices} (found : Organ.retrigger step voices = some voices') (mem : some v ∈ voices') :
    v = ⟨0,step⟩ ∨ some v ∈ voices := by
  induction voices generalizing voices' with
  | nil => cases found
  | cons slot rest ih =>
    cases slot with
    | none =>
      obtain ⟨more,later,rfl⟩ := Option.map_eq_some_iff.mp found
      cases mem with
      | tail _ mem => exact (ih later mem).imp id (.tail _)
    | some w =>
      rw [Organ.retrigger] at found
      split at found
      · rename_i same
        cases found
        cases mem with
        | head => exact .inl (by rw [← same])
        | tail _ mem => exact .inr (.tail _ mem)
      · obtain ⟨more,later,rfl⟩ := Option.map_eq_some_iff.mp found
        cases mem with
        | head => exact .inr (.head _)
        | tail _ mem => exact (ih later mem).imp id (.tail _)

theorem retriggerStruck {voices' : Voices} (found : Organ.retrigger step voices = some voices') : some ⟨0,step⟩ ∈ voices' := by
  induction voices generalizing voices' with
  | nil => cases found
  | cons slot rest ih =>
    cases slot with
    | none =>
      obtain ⟨more,later,rfl⟩ := Option.map_eq_some_iff.mp found
      exact .tail _ (ih later)
    | some w =>
      rw [Organ.retrigger] at found
      split at found
      · rename_i same
        cases found
        rw [← same]
        exact .head _
      · obtain ⟨more,later,rfl⟩ := Option.map_eq_some_iff.mp found
        exact .tail _ (ih later)

theorem takeSlotMem (mem : some v ∈ Organ.takeSlot step voices) : v = ⟨0,step⟩ ∨ some v ∈ voices := by
  induction voices with
  | nil => cases mem
  | cons slot rest ih =>
    cases slot with
    | none => cases mem with
      | head => exact .inl rfl
      | tail _ mem => exact .inr (.tail _ mem)
    | some w => cases mem with
      | head => exact .inr (.head _)
      | tail _ mem => exact (ih mem).imp id (.tail _)

/- Where every slot is taken nothing is struck. -/
theorem takeSlotFull (full : voices.length ≤ (active voices).length) : Organ.takeSlot step voices = voices := by
  induction voices with
  | nil => rfl
  | cons slot rest ih =>
    cases slot with
    | none =>
      have few : (active (none :: rest)).length ≤ rest.length := List.length_filterMap_le _ rest
      exact absurd (Nat.le_trans full few) (Nat.not_succ_le_self _)
    | some w => exact congrArg (some w :: ·) (ih (Nat.le_of_succ_le_succ full))

theorem soundsOn (sounds : Sounds voices s) (freqHz : UInt32) : Sounds (noteOn voices freqHz) (s.strike (freqToStep freqHz)) := by
  have card := soundsCard sounds
  by_cases room : freqToStep freqHz ∈ active voices ∨ (active voices).length < maxVoices
  · have struck : s.strike (freqToStep freqHz) = ⟨insert (freqToStep freqHz) s.steps,Function.update s.age (freqToStep freqHz) 0⟩ :=
      if_pos (by rwa [sounds.steps,card])
    obtain ⟨tuned,steps⟩ := Organ.noteOnTuned sounds.tuned room
    rw [struck]
    refine ⟨tuned,fun step => ?_,fun v mem => ?_⟩
    · rw [Finset.mem_insert,steps,sounds.steps]
    · have old : v = ⟨0,freqToStep freqHz⟩ ∨ (some v ∈ voices ∧ v.step ≠ freqToStep freqHz) := by
        by_cases same : v.step = freqToStep freqHz
        · -- the voice with the step that was struck is the one at phase 0
          refine .inl ?_
          have zero : some ⟨0,freqToStep freqHz⟩ ∈ noteOn voices freqHz := by
            unfold noteOn
            split
            · rename_i found
              exact retriggerStruck found
            · rename_i absent
              obtain ⟨w,mem,is_⟩ := activeMem.mp ((steps _).mpr (.inl rfl))
              unfold noteOn at mem
              rw [absent] at mem
              rcases takeSlotMem mem with rfl | before
              · exact mem
              · exact absurd (activeMem.mpr ⟨w,before,is_⟩) (Organ.retriggerNone absent)
          exact voiceUnique tuned.distinct mem zero same
        · refine (or_iff_right fun is_ => same (by rw [is_])).mpr ⟨?_,same⟩
          unfold noteOn at mem
          split at mem
          · rename_i found
            exact (retriggerMem found mem).resolve_left fun is_ => same (by rw [is_])
          · exact (takeSlotMem mem).resolve_left fun is_ => same (by rw [is_])
      rcases old with rfl | ⟨before,other⟩
      · simp
      · have age : Function.update s.age (freqToStep freqHz) 0 v.step = s.age v.step := Function.update_of_ne other _ _
        simp only [age]
        exact sounds.phase v before
  · have full : s.strike (freqToStep freqHz) = s := if_neg (by rwa [sounds.steps,card])
    obtain ⟨absent,many⟩ := not_or.mp room
    have same : noteOn voices freqHz = voices := by
      unfold noteOn
      cases found : Organ.retrigger (freqToStep freqHz) voices with
      | some voices' => exact absurd (Organ.retriggerActive found).2 absent
      | none =>
        refine takeSlotFull ?_
        rw [sounds.tuned.slots]
        exact Nat.le_of_not_lt many
    rw [full,same]
    exact sounds

theorem soundsOff (sounds : Sounds voices s) (freqHz : UInt32) : Sounds (noteOff voices freqHz) (s.letGo (freqToStep freqHz)) := by
  obtain ⟨tuned,steps⟩ := @Organ.noteOffTuned voices freqHz sounds.tuned
  refine ⟨tuned,fun step => ?_,fun v mem => ?_⟩
  · have erased : step ∈ (s.letGo (freqToStep freqHz)).steps ↔ step ≠ freqToStep freqHz ∧ step ∈ s.steps := Finset.mem_erase
    rw [erased,steps,sounds.steps,and_comm]
  · obtain ⟨slot,before,same⟩ := List.mem_map.mp mem
    split at same
    · cases same
    · subst same
      exact sounds.phase v before

theorem soundsLater (sounds : Sounds voices s) (frames : Nat) : Sounds (Organ.synthesize (UInt32.ofNat frames) voices) (s.later frames) := by
  refine ⟨Organ.synthesizeTuned sounds.tuned _,fun step => ?_,fun v mem => ?_⟩
  · rw [Organ.synthesizeActive]
    exact sounds.steps step
  · obtain ⟨slot,before,same⟩ := List.mem_map.mp mem
    obtain ⟨w,rfl,rfl⟩ := Option.map_eq_some_iff.mp same
    have added : UInt32.ofNat (s.age w.step + frames) * w.step = UInt32.ofNat (s.age w.step) * w.step + UInt32.ofNat frames * w.step := by
      rw [UInt32.ofNat_add,UInt32.add_mul]
    have phase := sounds.phase w before
    exact (congrArg (· + UInt32.ofNat frames * w.step) phase).trans added.symm

/- What the voices add up to is the sum over the steps. -/
theorem soundsHeard (sounds : Sounds voices s) : heard voices = ∑ step ∈ s.steps, wave (UInt32.ofNat (s.age step) * step) := by
  have steps : s.steps = (active voices).toFinset := by
    ext step
    rw [List.mem_toFinset]
    exact sounds.steps step
  have summed : heard voices = ((active voices).map (fun step => wave (UInt32.ofNat (s.age step) * step))).sum := by
    have phase := sounds.phase
    clear sounds steps
    induction voices with
    | nil => rfl
    | cons slot rest ih =>
      have rest_ := ih fun v mem => phase v (.tail _ mem)
      have sum : heard (slot :: rest) = (slot.map (fun v => wave v.phase)).getD 0 + heard rest := List.sum_cons
      rw [sum,rest_,Organ.activeCons,List.map_append,List.sum_append]
      cases slot with
      | none => rfl
      | some v =>
        have here := phase v (.head _)
        simp [here]
  rw [summed,steps,List.sum_toFinset _ sounds.tuned.distinct]

theorem soundsSample (sounds : Sounds voices s) (k : Nat) : heard (Organ.synthesize (UInt32.ofNat k) voices) >>> (9 : Nat) = s.sample k := by
  rw [soundsHeard (soundsLater sounds k)]
  rfl

/- Whatever is struck and let go between the buffers, they are filled with the sum of the waves of what sounds, each at
its age; nothing overflows, and nothing is clipped. -/
theorem performSounds (sounds : Sounds voices s) (requests : List Request) :
    ∃ voices', perform voices requests = some (voices',(s.after requests).2) ∧ Sounds voices' (s.after requests).1 := by
  induction requests generalizing voices s with
  | nil => exact ⟨voices,rfl,sounds⟩
  | cons request rest ih =>
    cases request with
    | noteOn freqHz => exact ih (soundsOn sounds freqHz)
    | noteOff freqHz => exact ih (soundsOff sounds freqHz)
    | allNotesOff => exact ih soundsSilent
    | refill out =>
      obtain ⟨voices',performed,later⟩ := ih (soundsLater sounds (out.length / 2))
      have filled : synthesize voices out = some (Organ.synthesize (UInt32.ofNat (out.length / 2)) voices,paint s.sample out) := by
        rw [synthesizeIs sounds.tuned.slots,funext (soundsSample sounds)]
      refine ⟨voices',?_,later⟩
      simp only [perform,filled,Option.bind_eq_bind,Option.bind_some,performed,Sounding.after]

/- A buffer goes on where the one before it ended. -/
theorem refillSeamless (s : Sounding) {out : List Int} (more : List Int) (even : out.length % 2 = 0) :
    (s.after [.refill (out ++ more)]).2.flatten = (s.after [.refill out,.refill more]).2.flatten := by
  have shifted : (s.later (out.length / 2)).sample = fun k => s.sample (out.length / 2 + k) := by
    funext k
    simp only [Sounding.sample,Sounding.later,Nat.add_assoc]
  simp only [Sounding.after,List.flatten_cons,List.flatten_nil,List.append_nil,paintAppend _ more even,shifted]

/- From silence on, whatever is asked. -/
theorem framesSeamless (requests : List Request) : ∃ voices, perform Organ.silent requests = some (voices,(Sounding.silent.after requests).2) ∧
    Sounds voices (Sounding.silent.after requests).1 := performSounds soundsSilent requests

end Refinement

end Officium.Synth

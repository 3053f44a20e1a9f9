import Mathlib.Data.List.Perm.Basic
import Mathlib.Data.List.Range

/-! Spans of time swept tick by tick: at each tick what begins with it, then the tick, then what ends with
it. A call is known by its kind alone, so nothing here depends on what the spans or the calls are. -/
namespace Sweeps

inductive Kind where
  | opens
  | tick
  | closes
  deriving DecidableEq

/- How spans are read as calls: each is opened and closed once, and time passes in between. -/
structure Sweep (α β : Type) where
  start : α → Nat
  finish : α → Nat
  opens : α → β
  tick : β
  closes : α → β
  kind : β → Kind
  kindOpens : ∀ a, kind (opens a) = .opens
  kindTick : kind tick = .tick
  kindCloses : ∀ a, kind (closes a) = .closes

variable {α β : Type}

section Clock

/- Each call with the ticks that went before it, from `k` on. -/
def timed (kind : β → Kind) : Nat → List β → List (Nat × β)
  | _, [] => []
  | k, c :: rest => (k,c) :: timed kind (if kind c = .tick then k + 1 else k) rest

variable {kind : β → Kind}

theorem timedAppend (k : Nat) (first rest : List β) :
    timed kind k (first ++ rest) = timed kind k first ++ timed kind (k + first.countP (kind · = .tick)) rest := by
  induction first generalizing k with
  | nil => rfl
  | cons c first ih =>
    rw [List.cons_append,timed,timed,ih,List.cons_append]
    by_cases passes : kind c = .tick
    · rw [if_pos passes,List.countP_cons_of_pos (by simpa using passes),Nat.add_assoc,Nat.add_comm 1]
    · rw [if_neg passes,List.countP_cons_of_neg (by simpa using passes)]

theorem timedStill {calls : List β} (still : ∀ c ∈ calls, kind c ≠ .tick) (k : Nat) :
    timed kind k calls = calls.map (fun c => (k,c)) ∧ calls.countP (kind · = .tick) = 0 := by
  induction calls with
  | nil => exact ⟨rfl,rfl⟩
  | cons c rest ih =>
    have here : kind c ≠ .tick := still c List.mem_cons_self
    obtain ⟨same,none_⟩ := ih (fun c mem => still c (List.mem_cons_of_mem _ mem))
    rw [timed,if_neg here,same,List.countP_cons_of_neg (by simpa using here)]
    exact ⟨rfl,none_⟩

end Clock

namespace Sweep
variable (s : Sweep α β) (spans : List α)

def opening (t : Nat) : List β := (spans.filter (fun a => s.start a == t)).map s.opens

def closing (t : Nat) : List β := (spans.filter (fun a => s.finish a == t)).map s.closes

def turn (t : Nat) : List β := s.opening spans t ++ s.tick :: s.closing spans (t + 1)

def run (n : Nat) : List β := (List.range n).flatMap (s.turn spans)

variable {spans}

theorem openingKind {t : Nat} {c : β} (mem : c ∈ s.opening spans t) : s.kind c = .opens := by
  obtain ⟨a,-,rfl⟩ := List.mem_map.mp mem
  exact s.kindOpens a

theorem closingKind {t : Nat} {c : β} (mem : c ∈ s.closing spans t) : s.kind c = .closes := by
  obtain ⟨a,-,rfl⟩ := List.mem_map.mp mem
  exact s.kindCloses a

theorem openingStill (t k : Nat) : timed s.kind k (s.opening spans t) = (s.opening spans t).map (fun c => (k,c)) ∧
    (s.opening spans t).countP (s.kind · = .tick) = 0 :=
  timedStill (fun c mem => by rw [s.openingKind mem]; decide) k

theorem closingStill (t k : Nat) : timed s.kind k (s.closing spans t) = (s.closing spans t).map (fun c => (k,c)) ∧
    (s.closing spans t).countP (s.kind · = .tick) = 0 :=
  timedStill (fun c mem => by rw [s.closingKind mem]; decide) k

/- The calls of turn `t` when `t` ticks went before it: the closing ones come one tick later. -/
def turnTimed (spans : List α) (t : Nat) : List (Nat × β) :=
  (s.opening spans t).map (fun c => (t,c)) ++ (t,s.tick) :: (s.closing spans (t + 1)).map (fun c => (t + 1,c))

theorem turnIs (t : Nat) : timed s.kind t (s.turn spans t) = s.turnTimed spans t ∧
    (s.turn spans t).countP (s.kind · = .tick) = 1 := by
  obtain ⟨opening_,none_⟩ := @openingStill _ _ s spans t t
  obtain ⟨closing_,none'⟩ := @closingStill _ _ s spans (t + 1) (t + 1)
  constructor
  · rw [turn,timedAppend,opening_,none_,Nat.add_zero,timed,if_pos s.kindTick,closing_,turnTimed]
  · rw [turn,List.countP_append,none_,List.countP_cons_of_pos (by simpa using s.kindTick),none']

theorem runSucc (n : Nat) : s.run spans (n + 1) = s.run spans n ++ s.turn spans n := by
  rw [run,List.range_succ,List.flatMap_append,List.flatMap_singleton,run]

/- Every turn takes one tick. -/
theorem runIs (n : Nat) : timed s.kind 0 (s.run spans n) = (List.range n).flatMap (s.turnTimed spans) ∧
    (s.run spans n).countP (s.kind · = .tick) = n := by
  induction n with
  | zero => exact ⟨rfl,rfl⟩
  | succ n ih =>
    obtain ⟨before,ticks⟩ := ih
    obtain ⟨now,one⟩ := @turnIs _ _ s spans n
    constructor
    · rw [runSucc,timedAppend,before,ticks,Nat.zero_add,now,List.range_succ,List.flatMap_append,List.flatMap_singleton]
    · rw [runSucc,List.countP_append,ticks,one]

section Buckets
variable {γ : Type} (place : α → Nat) (f : Nat → α → γ)

theorem bucketAlone (a : α) (n : Nat) : (List.range n).flatMap (fun t => if place a = t then [f t a] else []) =
    if place a < n then [f (place a) a] else [] := by
  induction n with
  | zero => rfl
  | succ n ih =>
    rw [List.range_succ,List.flatMap_append,ih,List.flatMap_singleton]
    rcases Nat.lt_trichotomy (place a) n with before | here | after
    · rw [if_pos before,if_neg (Nat.ne_of_lt before),if_pos (Nat.lt_succ_of_lt before)]
      rfl
    · rw [if_neg (by omega),if_pos here,if_pos (by omega),here]
      rfl
    · rw [if_neg (by omega),if_neg (by omega),if_neg (by omega)]
      rfl

/- Spans put in buckets by their places and taken out bucket by bucket are the same spans. -/
theorem bucketsPerm {spans : List α} {n : Nat} (within : ∀ a ∈ spans, place a < n) :
    ((List.range n).flatMap (fun t => (spans.filter (fun a => place a == t)).map (f t))).Perm (spans.map (fun a => f (place a) a)) := by
  induction spans with
  | nil => simp
  | cons a rest ih =>
    have later := ih (fun b mem => within b (List.mem_cons_of_mem _ mem))
    have parts (t : Nat) : ((a :: rest).filter (fun a => place a == t)).map (f t) =
        (if place a = t then [f t a] else []) ++ (rest.filter (fun a => place a == t)).map (f t) := by
      by_cases here : place a = t <;> simp [here]
    simp only [parts]
    refine (List.flatMap_append_perm _ _ _).symm.trans ?_
    rw [bucketAlone,if_pos (within a List.mem_cons_self),List.map_cons]
    exact later.cons _

end Buckets

section Results
variable {s} {n : Nat}

/- Every span is opened once, when its start has come. -/
theorem runOpens (within : ∀ a ∈ spans, s.start a < n) :
    ((timed s.kind 0 (s.run spans n)).filter (fun c => s.kind c.2 = .opens)).Perm (spans.map (fun a => (s.start a,s.opens a))) := by
  have one (t : Nat) : (s.turnTimed spans t).filter (fun c => s.kind c.2 = .opens) =
      (spans.filter (fun a => s.start a == t)).map (fun a => (t,s.opens a)) := by
    simp [turnTimed,opening,closing,List.filter_map,Function.comp_def,s.kindOpens,s.kindTick,s.kindCloses]
  rw [(s.runIs n).1,List.filter_flatMap]
  simp only [one]
  exact bucketsPerm s.start (fun t a => (t,s.opens a)) within

/- Every span is closed once, when its end has come. -/
theorem runCloses (within : ∀ a ∈ spans, 1 ≤ s.finish a ∧ s.finish a ≤ n) :
    ((timed s.kind 0 (s.run spans n)).filter (fun c => s.kind c.2 = .closes)).Perm (spans.map (fun a => (s.finish a,s.closes a))) := by
  have one (t : Nat) : (s.turnTimed spans t).filter (fun c => s.kind c.2 = .closes) =
      (spans.filter (fun a => s.finish a == t + 1)).map (fun a => (t + 1,s.closes a)) := by
    simp [turnTimed,opening,closing,List.filter_map,Function.comp_def,s.kindOpens,s.kindTick,s.kindCloses]
  have shift (t : Nat) : (spans.filter (fun a => s.finish a == t + 1)).map (fun a => (t + 1,s.closes a)) =
      (spans.filter (fun a => s.finish a - 1 == t)).map (fun a => (t + 1,s.closes a)) := by
    congr 1
    refine List.filter_congr fun a mem => ?_
    have some_ := (within a mem).1
    rw [Bool.eq_iff_iff,beq_iff_eq,beq_iff_eq]
    omega
  rw [(s.runIs n).1,List.filter_flatMap]
  simp only [one,shift]
  refine (bucketsPerm (fun a => s.finish a - 1) (fun t a => (t + 1,s.closes a)) ?_).trans (.of_eq ?_)
  · intro a mem
    have bounds := within a mem
    omega
  · refine List.map_congr_left fun a mem => ?_
    rw [Nat.sub_add_cancel (within a mem).1]

/- The ticks of a run are as many as its turns. -/
theorem runTicks : (s.run spans n).filter (fun c => s.kind c = .tick) = List.replicate n s.tick := by
  have one (t : Nat) : (s.turn spans t).filter (fun c => s.kind c = .tick) = [s.tick] := by
    simp [turn,opening,closing,List.filter_map,Function.comp_def,s.kindOpens,s.kindTick,s.kindCloses]
  induction n with
  | zero => rfl
  | succ n ih => rw [runSucc,List.filter_append,ih,one,List.replicate_succ']

theorem turnAt {t : Nat} {c : Nat × β} (mem : c ∈ s.turnTimed spans t) :
    (c.1 = t ∧ s.kind c.2 ≠ .closes) ∨ (c.1 = t + 1 ∧ s.kind c.2 = .closes) := by
  rcases List.mem_append.mp mem with before | after
  · obtain ⟨d,there,rfl⟩ := List.mem_map.mp before
    exact .inl ⟨rfl,by rw [s.openingKind there]; decide⟩
  · rcases List.mem_cons.mp after with rfl | after
    · exact .inl ⟨rfl,by rw [s.kindTick]; decide⟩
    · obtain ⟨d,there,rfl⟩ := List.mem_map.mp after
      exact .inr ⟨rfl,s.closingKind there⟩

/- Between two ticks what closes comes before what opens. -/
theorem runOrder : (timed s.kind 0 (s.run spans n)).Pairwise (fun c d => c.1 = d.1 → s.kind c.2 = .opens → s.kind d.2 ≠ .closes) := by
  rw [(s.runIs n).1,List.pairwise_flatMap]
  constructor
  · intro t _
    refine List.pairwise_of_forall_mem_list fun c c_ d d_ same opens_ closes_ => ?_
    rcases turnAt c_ with ⟨at_,-⟩ | ⟨-,kind_⟩
    · rcases turnAt d_ with ⟨-,kind_⟩ | ⟨at',-⟩
      · exact kind_ closes_
      · omega
    · rw [opens_] at kind_
      cases kind_
  · refine List.pairwise_lt_range.imp fun {t t'} before c c_ d d_ same opens_ closes_ => ?_
    rcases turnAt c_ with ⟨at_,-⟩ | ⟨-,kind_⟩
    · rcases turnAt d_ with ⟨at',-⟩ | ⟨at',-⟩ <;> omega
    · rw [opens_] at kind_
      cases kind_

end Results

end Sweep

end Sweeps

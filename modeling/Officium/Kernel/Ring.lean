import Mathlib.Algebra.Ring.Nat
import Officium.Library.Plays

/-! The ring of sound buffers: the card works through its 32 descriptors, the interrupt handler scans the ones
completed since its last pass into a mask of pages, and the synth task takes the mask and refills the pages.
The card goes on between any two operations; the handler runs to its end between two operations of the task. -/
namespace Officium.Ring

def BDL_ENTRIES : Nat := 32
def BUFFERS : Nat := 4

/- `PO_SR` bits: last valid buffer completed, buffer completed, FIFO error. -/
def SR_LVBCI : UInt16 := 4
def SR_BCIS : UInt16 := 8
def SR_FIFOE : UInt16 := 16
def SR_INT_BITS : UInt16 := SR_LVBCI ||| SR_BCIS ||| SR_FIFOE

section Card

/- The PCM-out channel: the descriptor being played, the last valid one, and whether the DMA halted behind it. -/
structure Card where
  civ : Nat
  lvi : Nat
  status : UInt16
  halted : Bool
  deriving DecidableEq

/- The current descriptor completes; behind the last valid one the DMA halts and stays where it is. -/
def Card.complete (card : Card) : Card :=
  if card.civ = card.lvi then { card with status := card.status ||| SR_LVBCI ||| SR_BCIS, halted := true }
  else { card with civ := (card.civ + 1) % BDL_ENTRIES, status := card.status ||| SR_BCIS }

/- Writing a one clears the bit. -/
def Card.clear (card : Card) (bits : UInt16) : Card := { card with status := card.status &&& ~~~bits }

/- A new last valid index sends a halted DMA on to the next descriptor. -/
def Card.writeLvi (card : Card) (lvi : Nat) : Card :=
  if card.halted then { card with lvi := lvi, civ := (card.civ + 1) % BDL_ENTRIES, halted := false }
  else { card with lvi := lvi }

end Card

/- The next operation of `handle_irq`, with its local variables. -/
inductive Handler where
  | idle
  | ack (status : UInt16)
  | readCiv
  | scan (civ next : Nat) (mask : UInt8)
  | store (civ next : Nat) (mask : UInt8)
  | merge (civ : Nat) (mask : UInt8)
  | wake (civ : Nat)
  | writeLvi (civ : Nat)
  deriving DecidableEq

/- The next operation of `run_synth`: the two swaps of `Refill::poll` with the registration between them, the
loop over the buffers of a mask, and the suspended task. -/
inductive Synth where
  | first
  | register
  | second
  | fill (mask : UInt8) (buf : Nat)
  | pending
  deriving DecidableEq

inductive Entry where
  | completed (descriptor : Nat)
  | scanned (descriptor : Nat)
  | delivered (mask : UInt8)
  deriving DecidableEq

/- `registered` says that `SYNTH_WAKER` holds the task's waker, `woken` that the task is in the ready queue. The
last two fields are history: how many descriptors had completed when CIV was last read, and what happened,
latest first. -/
structure System where
  card : Card
  nabm : UInt16
  nextDone : UInt8
  refillMask : UInt8
  registered : Bool
  woken : Bool
  handler : Handler
  synth : Synth
  seen : Nat
  log : List Entry
  deriving DecidableEq

inductive Event where
  | complete
  | error
  | interrupt
  | handler
  | synth
  deriving DecidableEq

def completions (log : List Entry) : List Nat :=
  (log.filterMap (fun e => match e with | .completed d => some d | _ => none)).reverse

def scans (log : List Entry) : List Nat :=
  (log.filterMap (fun e => match e with | .scanned d => some d | _ => none)).reverse

/- The entry of the handler: nothing is done for a card that did not interrupt. -/
def interrupt (s : System) : Except Unit System :=
  match s.handler with
  | .idle =>
    if s.nabm = 0 then .ok s
    else if s.card.status &&& SR_INT_BITS = 0 then .ok s
    else .ok { s with handler := .ack s.card.status }
  | _ => .error ()

def handlerStep (s : System) : Except Unit System :=
  match s.handler with
  | .idle => .error ()
  | .ack status => .ok { s with card := s.card.clear (status &&& SR_INT_BITS), handler := .readCiv }
  | .readCiv => .ok { s with handler := .scan (s.card.civ % BDL_ENTRIES) s.nextDone.toNat 0, seen := (completions s.log).length }
  | .scan civ next mask =>
    if next = civ then .ok { s with handler := .store civ next mask }
    else .ok { s with
      handler := .scan civ ((next + 1) % BDL_ENTRIES) (mask ||| 1 <<< UInt8.ofNat (next % BUFFERS)), log := .scanned next :: s.log }
  | .store civ next mask => .ok { s with nextDone := UInt8.ofNat next, handler := if mask = 0 then .writeLvi civ else .merge civ mask }
  | .merge civ mask => .ok { s with refillMask := s.refillMask ||| mask, handler := .wake civ }
  | .wake civ => .ok { s with woken := s.woken || s.registered, registered := false, handler := .writeLvi civ }
  | .writeLvi civ => .ok { s with card := s.card.writeLvi ((civ + BDL_ENTRIES - 1) % BDL_ENTRIES), handler := .idle }

/- `REFILL_MASK.swap(0)` and what is done where the mask is empty. -/
def swap (s : System) (empty : Synth) : System :=
  if s.refillMask = 0 then { s with synth := empty }
  else { s with refillMask := 0, synth := .fill s.refillMask 0, log := .delivered s.refillMask :: s.log }

/- The synthesis itself touches nothing of this. -/
def synthStep (s : System) : Except Unit System :=
  match s.handler with
  | .idle =>
    match s.synth with
    | .first => .ok (swap s .register)
    | .register => .ok { s with registered := true, synth := .second }
    | .second => .ok (swap s .pending)
    | .fill mask buf => .ok { s with synth := if buf < BUFFERS then .fill mask (buf + 1) else .first }
    | .pending => if s.woken then .ok { s with woken := false, synth := .first } else .error ()
  | _ => .error ()

def step (s : System) : Event → Except Unit System
  | .complete => if s.card.halted then .error () else .ok { s with card := s.card.complete, log := .completed s.card.civ :: s.log }
  | .error => .ok { s with card := { s.card with status := s.card.status ||| SR_FIFOE } }
  | .interrupt => interrupt s
  | .handler => handlerStep s
  | .synth => synthStep s

/- `init` has started the DMA, and the synth task has been spawned. -/
def start (nabm : UInt16) : System :=
  ⟨⟨0,BDL_ENTRIES - 1,0,false⟩,nabm,0,0,false,true,.idle,.pending,0,[]⟩

end Officium.Ring

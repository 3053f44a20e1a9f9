import Officium.Kernel.Usermode
import Officium.Kernel.UserPages

/-! The pages of ring 3 are mapped one after the other, and `MAPPED` is set when both are. A failure between the
two leaves the first. -/
namespace Officium.EnsureMapped
open Clients (serve)
open Frames PageTables UserPages
open Usermode (USER_CODE USER_STACK)

section Calls
variable {μ : Type} (tables : Mapper μ)

/- `map_user_page`, with the mapper and the allocator parked in `MEM` or not. -/
def mapUser (parked : Bool) (va : UInt64) (writable : Bool) (mapper : μ) : Drawing (Except String Unit × μ) :=
  if parked then mapUserPage tables va writable mapper else .done (.error "memory subsystem not initialized",mapper)

/- The flag is `MAPPED`. -/
def ensureMapped (parked mapped : Bool) (mapper : μ) : Drawing (Except String Unit × μ × Bool) :=
  if mapped then .done (.ok (),mapper,mapped)
  else do
    match ← mapUser tables parked USER_CODE true mapper with
    | (.error e,mapper) => return (.error e,mapper,mapped)
    | (.ok (),mapper) =>
      match ← mapUser tables parked USER_STACK true mapper with
      | (.error e,mapper) => return (.error e,mapper,mapped)
      | (.ok (),mapper) => return (.ok (),mapper,true)

def codePage : Page := ⟨0x40000000,by decide⟩

def stackPage : Page := ⟨0x40003000,by decide⟩

theorem codeThere : Page.containingAddress USER_CODE.toNat = .ok codePage := rfl

theorem stackThere : Page.containingAddress USER_STACK.toNat = .ok stackPage := rfl

variable {tables} {frames frames' : BootInfoFrameAllocator} {mapper mapper' : μ} {mapped' : Bool} {result : Except String Unit}

theorem ensureReady (h : (serve allocateFrame (ensureMapped tables true false mapper) frames).result = .ok ((result,mapper',mapped'),frames')) :
    (∃ e, result = .error e ∧ mapped' = false ∧
      (serve allocateFrame (mapUserPage tables USER_CODE true mapper) frames).result = .ok ((.error e,mapper'),frames')) ∨
    ∃ between left, (serve allocateFrame (mapUserPage tables USER_CODE true mapper) frames).result = .ok ((.ok (),between),left) ∧
      (serve allocateFrame (mapUserPage tables USER_STACK true between) left).result = .ok ((result,mapper'),frames') ∧
      mapped' = result.toBool := by
  rw [ensureMapped,if_neg Bool.false_ne_true] at h
  obtain ⟨⟨⟨code,between⟩,left⟩,first,h⟩ := Clients.resultBindOk.mp h
  cases code with
  | error e =>
    cases h
    exact .inl ⟨e,rfl,rfl,first⟩
  | ok _ =>
    obtain ⟨⟨⟨stack,last⟩,left'⟩,second,h⟩ := Clients.resultBindOk.mp h
    cases stack with
    | error e =>
      cases h
      exact .inr ⟨between,left,first,second,rfl⟩
    | ok _ =>
      cases h
      exact .inr ⟨between,left,first,second,rfl⟩

theorem ensureStack {between : μ} {left : BootInfoFrameAllocator}
    (code : (serve allocateFrame (mapUserPage tables USER_CODE true mapper) frames).result = .ok ((.ok (),between),left))
    (stack : (serve allocateFrame (mapUserPage tables USER_STACK true between) left).result = .ok ((result,mapper'),frames')) :
    (serve allocateFrame (ensureMapped tables true false mapper) frames).result = .ok ((result,mapper',result.toBool),frames') := by
  rw [ensureMapped,if_neg Bool.false_ne_true]
  refine Clients.resultBindOk.mpr ⟨_,code,Clients.resultBindOk.mpr ⟨_,stack,?_⟩⟩
  cases result <;> rfl

end Calls

section Users
variable {μ : Type} {tables : Mapper μ} {paging : Paging μ} {va : UInt64} {page : Page} {mapper mapper' : μ} {frames frames' : BootInfoFrameAllocator}

/- A page that could not be laid down changed no page. -/
theorem userFails (faithful : Faithful paging tables) (there : Page.containingAddress va.toNat = .ok page) {writable : Bool} {e : String}
    (h : (serve allocateFrame (mapUserPage tables va writable mapper) frames).result = .ok ((.error e,mapper'),frames')) (other : Page) :
    paging.translate mapper' other = paging.translate mapper other := by
  rcases userReturned there h with ⟨-,-,rfl⟩ | ⟨frame,mapped,-,same,mapping⟩
  · rfl
  · cases mapped with
    | ok _ => cases same
    | error e' =>
      have did := (faithful.withTableFlags _ _).mapped page frame mapper _ _ _ _ mapping
      by_cases here : other = page
      · exact here ▸ did.refuses nofun
      · exact did.others other here

/- What a page that was laid down cost, and what it left. -/
theorem userSpends (frugal : Frugal paging tables) (there : Page.containingAddress va.toNat = .ok page) {writable : Bool}
    (h : (serve allocateFrame (mapUserPage tables va writable mapper) frames).result = .ok ((.ok (),mapper'),frames')) :
    paging.translate mapper page = none ∧ Supplies (paging.missing mapper page + 1) frames ∧ frames' = past frames (paging.missing mapper page + 1) ∧
      paging.translate mapper' page ≠ none ∧ (∀ other, other ≠ page → paging.translate mapper' other = paging.translate mapper other) ∧
      ∀ other, Neighbours page other → paging.missing mapper' other = 0 := by
  obtain ⟨frame,k,-,free,supplies,mapped,mapping⟩ := userOk frugal.toFaithful there h
  obtain ⟨spent,whole⟩ := frugal.spends page frame _ _ mapper _ _ _ mapping
  refine ⟨free,supplies,?_,?_,mapped.others,whole⟩
  · rw [spent,pastPast,Nat.add_comm]
  · rw [mapped.installs rfl]
    exact Option.some_ne_none frame

/- A page that leads somewhere already and lacks no table is refused. -/
theorem userOccupied (frugal : Frugal paging tables) (there : Page.containingAddress va.toNat = .ok page) (writable : Bool)
    (whole : paging.missing mapper page = 0) (leads : paging.translate mapper page ≠ none) {frame : PhysFrame}
    (given : allocateFrame frames = .ok (some frame,frames')) :
    ∃ e after left, (serve allocateFrame (mapUserPage tables va writable mapper) frames).result = .ok ((.error e,after),left) := by
  obtain ⟨e,after,refused⟩ := frugal.occupied page frame ⟨true,writable,true⟩ ⟨true,true,true⟩ mapper frames' whole leads
  exact ⟨"map_to failed",after,frames',userMapped there given refused⟩

theorem userStarved (there : Page.containingAddress va.toNat = .ok page) (writable : Bool) (mapper : μ)
    (given : allocateFrame frames = .ok (none,frames')) :
    (serve allocateFrame (mapUserPage tables va writable mapper) frames).result = .ok ((.error "out of frames",mapper),frames') := by
  rw [mapUserPage,there]
  exact Clients.resultBindOk.mpr ⟨_,(Clients.resultDraw frames).trans given,rfl⟩

end Users

section Failures
variable {μ : Type} (tables : Mapper μ) (paging : Paging μ)

/- Both pages as before and the flag too, or both mapped and the flag set. -/
def Settled (before after : μ) (mapped mapped' : Bool) : Prop :=
  (paging.translate after codePage = paging.translate before codePage ∧ paging.translate after stackPage = paging.translate before stackPage ∧ mapped' = mapped) ∨
    (paging.translate after codePage ≠ none ∧ paging.translate after stackPage ≠ none ∧ mapped' = true)

/- A later call with frames enough succeeds unless a page was mapped before the call that failed. -/
def Retries (before after : μ) (mapped' : Bool) : Prop :=
  paging.translate before codePage = none → paging.translate before stackPage = none → ∀ later, Supplies (paging.missing after codePage + 2) later →
    ∃ mapper frames, (serve allocateFrame (ensureMapped tables true mapped' after) later).result = .ok ((.ok (),mapper,true),frames)

/- All or nothing, whenever `ensure_mapped` returns an error. -/
def AllOrNothing (m : Memory μ) (mapped : Bool) : Prop := ∀ e after mapped' frames,
  (serve allocateFrame (ensureMapped tables m.parked mapped m.mapper) m.frames).result = .ok ((.error e,after,mapped'),frames) →
    Settled paging m.mapper after mapped mapped' ∧ Retries tables paging m.mapper after mapped'

/- Where there are frames for the code page and the tables it lacks, there is one more, and the stack page is not mapped yet. -/
def RoomForStack (m : Memory μ) (mapped : Bool) : Prop := mapped = false → m.parked = true → paging.translate m.mapper codePage = none →
  Supplies (paging.missing m.mapper codePage + 1) m.frames →
    ∀ x after, allocateFrame (past m.frames (paging.missing m.mapper codePage + 1)) = .ok (x,after) →
      x ≠ none ∧ paging.translate m.mapper stackPage = none

variable {tables paging} {m : Memory μ} {mapped : Bool}

theorem stackNear : Neighbours codePage stackPage := by unfold Neighbours; decide

theorem stackOther : stackPage ≠ codePage := by decide

theorem readyRetries (frugal : Frugal paging tables) {before after : μ}
    (same : ∀ page, paging.translate after page = paging.translate before page) : Retries tables paging before after false := by
  intro code stack later supplies
  obtain ⟨first,second⟩ := (suppliesAdd (paging.missing after codePage + 1) 1).mp supplies
  obtain ⟨between,left,laid⟩ := userReturns frugal.toFaithful codeThere true ((same codePage).trans code) first
  obtain ⟨-,-,rfl,-,others,whole⟩ := userSpends frugal codeThere laid
  have free : paging.translate between stackPage = none := ((others stackPage stackOther).trans (same stackPage)).trans stack
  have one : Supplies (paging.missing between stackPage + 1) (past later (paging.missing after codePage + 1)) := by rwa [whole stackPage stackNear]
  obtain ⟨last,left',laid'⟩ := userReturns frugal.toFaithful stackThere true free one
  exact ⟨last,left',ensureStack laid laid'⟩

theorem allOrNothing (frugal : Frugal paging tables) (m : Memory μ) (mapped : Bool) :
    AllOrNothing tables paging m mapped ↔ RoomForStack paging m mapped := by
  constructor
  · rintro whole rfl parked code supplies x after given
    obtain ⟨between,left,laid⟩ := userReturns frugal.toFaithful codeThere true code supplies
    obtain ⟨-,-,rfl,leads,others,near⟩ := userSpends frugal codeThere laid
    -- An error for the stack page leaves the code page mapped with the flag unset.
    have torn {e : String} {last : μ} {left' : BootInfoFrameAllocator}
        (failed : (serve allocateFrame (mapUserPage tables USER_STACK true between) (past m.frames (paging.missing m.mapper codePage + 1))).result =
          .ok ((.error e,last),left')) : False := by
      have run := ensureStack laid failed
      rw [← parked] at run
      obtain ⟨⟨same,-⟩ | ⟨-,-,set_⟩,-⟩ := whole e last false left' run
      · exact leads ((userFails frugal.toFaithful stackThere failed codePage).symm.trans (same.trans code))
      · cases set_
    refine ⟨?_,?_⟩
    · rintro rfl
      exact torn (userStarved stackThere true between given)
    · by_contra stack
      have stack' : paging.translate between stackPage ≠ none := fun free => stack ((others stackPage stackOther).symm.trans free)
      cases x with
      | none => exact torn (userStarved stackThere true between given)
      | some frame =>
        obtain ⟨e,last,left',failed⟩ := userOccupied frugal stackThere true (near stackPage stackNear) stack' given
        exact torn failed
  · intro room e after mapped' frames failed
    cases mapped with
    | true => cases failed
    | false =>
      cases parked : m.parked with
      | false =>
        rw [parked] at failed
        cases failed
        exact ⟨.inl ⟨rfl,rfl,rfl⟩,readyRetries frugal fun _ => rfl⟩
      | true =>
        rw [parked] at failed
        rcases ensureReady failed with ⟨e',-,rfl,code⟩ | ⟨between,left,laid,stack,-⟩
        · have same := userFails frugal.toFaithful codeThere code
          exact ⟨.inl ⟨same codePage,same stackPage,rfl⟩,readyRetries frugal same⟩
        · obtain ⟨code,supplies,rfl,-,others,near⟩ := userSpends frugal codeThere laid
          have next := room rfl parked code supplies
          cases given : allocateFrame (past m.frames (paging.missing m.mapper codePage + 1)) with
          | error panic =>
            rcases userReturned stackThere stack with ⟨drawn,-⟩ | ⟨frame,mapped,drawn,-⟩
            all_goals cases given.symm.trans drawn
          | ok r =>
            obtain ⟨some_,free⟩ := next r.1 r.2 given
            obtain ⟨frame,drawn⟩ := Option.ne_none_iff_exists'.mp some_
            have one : Supplies (paging.missing between stackPage + 1) (past m.frames (paging.missing m.mapper codePage + 1)) := by
              rw [near stackPage stackNear]
              refine (suppliesSucc 0).mpr ⟨frame,?_,trivial⟩
              rw [given,← allocateNext given,← drawn]
            obtain ⟨last,left',laid'⟩ := userReturns frugal.toFaithful stackThere true ((others stackPage stackOther).trans free) one
            cases stack.symm.trans laid'

/- With the flag unset and the code page mapped every call is refused, whatever frames there are. -/
theorem leftRefused (faithful : Faithful paging tables) {mapper : μ} (leads : paging.translate mapper codePage ≠ none) (later : BootInfoFrameAllocator)
    (after : μ) (mapped' : Bool) (frames : BootInfoFrameAllocator) :
    (serve allocateFrame (ensureMapped tables true false mapper) later).result ≠ .ok ((.ok (),after,mapped'),frames) := by
  intro returned
  rcases ensureReady returned with ⟨e,same,-⟩ | ⟨between,left,laid,-⟩
  · cases same
  · obtain ⟨-,-,-,free,-⟩ := userOk faithful codeThere laid
    exact leads free

/- Memory with so many usable frames left. -/
def scant (n : UInt64) : Memory Levels := ⟨.init [⟨0x6000,0x6000 + n * 4096,.usable⟩],bootLevels,true⟩

/- Two frames are the code page and one of the two tables it lacks: the call fails, and nothing is mapped. -/
theorem allOrNothingTable :
    (∃ after left, (serve allocateFrame (ensureMapped levelMapper true false bootLevels) (scant 2).frames).result =
        .ok ((.error "map_to failed",after,false),left)) ∧
      AllOrNothing levelMapper levelPaging (scant 2) false := by
  refine ⟨⟨_,_,rfl⟩,(allOrNothing levelFrugal (scant 2) false).mpr ?_⟩
  rintro - - - supplies
  exact supplies.elim

/- Three frames are the code page and its tables: there is none for the stack, the code page stays, and no later call succeeds. -/
theorem codeLeft : Frugal levelPaging levelMapper ∧ ¬AllOrNothing levelMapper levelPaging (scant 3) false ∧
    ∃ left frames, (serve allocateFrame (ensureMapped levelMapper true false bootLevels) (scant 3).frames).result =
        .ok ((.error "out of frames",left,false),frames) ∧
      ∀ later after mapped' frames', (serve allocateFrame (ensureMapped levelMapper true false left) later).result ≠ .ok ((.ok (),after,mapped'),frames') := by
  refine ⟨levelFrugal,fun whole => ?_,_,_,rfl,leftRefused levelFrugal.toFaithful (by decide)⟩
  obtain ⟨settled,-⟩ := whole _ _ _ _ rfl
  rcases settled with ⟨same,-⟩ | ⟨-,-,set_⟩
  · exact absurd same (by decide)
  · cases set_

end Failures

end Officium.EnsureMapped

import CodeReading.Disruptor.Sequencer
import Mathlib.Tactic.Linarith

/-!
# Claimed slots are free

Every claim takes the sequences behind the ones claimed before, and `Claim` returns
once every gating sequence has come to within `N` of what it returns. The cached
minimum `last_consumer_sequence_` may go back when a slow `HasAvailableCapacity`
stores an old minimum; it stays a lower bound, since gating sequences only
increase. A scan of the gating sequences is such a bound for those it has read.

The cache starts at `kInitialCursorValue`, so it is a bound only if no gating
sequence starts below that. The claim counter must not pass the largest `int64_t`.
-/

namespace CodeReading.Disruptor

open Threads List Shared

theorem int64_eq (low : -2 ^ 63 ≤ value) (high : value < 2 ^ 63) : int64 value = value := by
  apply Int.bmod_eq_of_le
  · norm_num
    linarith
  · norm_num
    linarith

theorem int64_ge (value : Int) : -2 ^ 63 ≤ int64 value := by
  have bound := @Int.le_bmod value (2 ^ 64) (by decide)
  simpa [int64] using bound

/-- The batches follow each other from one sequence to another. -/
def Contiguous : Int → List Batch → Int → Prop
  | start, [], last => start = last
  | start, batch :: rest, last => batch.first = start ∧ Contiguous batch.sequence rest last

instance decidableContiguous : ∀ start batches last, Decidable (Contiguous start batches last)
  | start, [], last => inferInstanceAs (Decidable (start = last))
  | start, batch :: rest, last =>
      have := decidableContiguous batch.sequence rest last
      inferInstanceAs (Decidable (batch.first = start ∧ _))

variable {batches : List Batch} {last start : Int}

theorem contiguous_append (first : Contiguous start batches middle)
    (second : Contiguous middle more last) : Contiguous start (batches ++ more) last := by
  induction batches generalizing start with
  | nil =>
    obtain rfl : start = middle := first
    exact second
  | cons batch rest ih => exact ⟨first.1, ih first.2⟩

/-- Two batches share no sequence, and neither lies within the other. -/
def Batch.Disjoint (one two : Batch) : Prop :=
  one.sequence ≤ two.first ∨ two.sequence ≤ one.first

instance (one two : Batch) : Decidable (one.Disjoint two) := inferInstanceAs (Decidable (_ ∨ _))

theorem Batch.Disjoint.symm {one two : Batch} (disjoint : one.Disjoint two) : two.Disjoint one :=
  Or.symm disjoint

section

variable (contiguous : Contiguous start batches last)
include contiguous

theorem contiguous_le : start ≤ last := by
  induction batches generalizing start with
  | nil => exact le_of_eq contiguous
  | cons batch rest ih =>
    have later := ih contiguous.2
    have first := contiguous.1
    simp only [Batch.first] at first
    omega

theorem contiguous_first (mem : batch ∈ batches) : start ≤ batch.first := by
  induction batches generalizing start with
  | nil => cases mem
  | cons head rest ih =>
    have first := contiguous.1
    cases mem with
    | head => exact le_of_eq first.symm
    | tail _ later =>
      have further := ih contiguous.2 later
      simp only [Batch.first] at first further ⊢
      omega

theorem contiguous_disjoint : batches.Pairwise Batch.Disjoint := by
  induction batches generalizing start with
  | nil => exact .nil
  | cons batch rest ih =>
    refine .cons ?_ (ih contiguous.2)
    intro _ mem
    exact .inl (contiguous_first contiguous.2 mem)

end

section

variable {setup : Setup}

section

variable (setup : Setup)

/-- Gating sequences only increase, and the claim counter stays within `int64_t`. -/
def Advances (state : State) (event : Nat × Event) : Prop :=
  match event.2 with
  | .claim delta => state.shared.lastClaimedSequence + delta < 2 ^ 63
  | .setSequence sequence value =>
      sequence ∈ setup.gatingSequences → state.shared.sequences sequence ≤ value
  | _ => True

/-- A lower bound of the gating sequences. -/
def Below (shared : Shared) (bound : Int) : Prop :=
  ∀ sequence ∈ setup.gatingSequences, bound ≤ shared.sequences sequence

/-- The minimum of a scan is a lower bound of what the scan has read. -/
def Scanned (shared : Shared) (scan : Scan) : Prop :=
  ∀ sequence ∈ setup.gatingSequences,
    sequence ∈ scan.left ∨ scan.minimum ≤ shared.sequences sequence

/-- The entry of a thread in `Claim` among those that are claiming. -/
def Local.entry (thread : Nat) : Local → List (Nat × Batch)
  | .claiming (.claimed batch) => [(thread, batch)]
  | .claiming (.scanning batch _) => [(thread, batch)]
  | _ => []

/-- What a thread knows in the middle of `Claim` or `HasAvailableCapacity`. -/
def Knows (shared : Shared) : Local → Prop
  | .claiming (.claimed batch) => batch.sequence ≤ shared.lastClaimedSequence
  | .claiming (.scanning batch scan) =>
      batch.sequence ≤ shared.lastClaimedSequence ∧ Scanned setup shared scan
  | .checking (.scanning _ scan) => Scanned setup shared scan
  | .checking (.storing _ minSequence) => Below setup shared minSequence
  | _ => True

def entriesOf (shared : Shared) (thread : Nat) : List (Nat × Batch) :=
  shared.history.claiming.filter fun entry => entry.1 = thread

structure ClaimsHold (shared : Shared) : Prop where
  fits : shared.lastClaimedSequence < 2 ^ 63
  contiguous : Contiguous kInitialCursorValue shared.history.claims shared.lastClaimedSequence
  accounted : (shared.history.returned ++ shared.history.claiming.map Prod.snd).Perm
    shared.history.claims
  cached : Below setup shared shared.lastConsumerSequence
  free : ∀ batch ∈ shared.history.returned, Below setup shared (batch.sequence - setup.size)

structure ClaimsOwn (thread : Nat) (shared : Shared) (own : Local) : Prop where
  entry : entriesOf shared thread = own.entry thread
  knows : Knows setup shared own

def claimOutline : Outline Shared Local where
  common := ClaimsHold setup
  own := ClaimsOwn setup
  apart := fun _ _ => True

/-- What an action of one thread does to the others. -/
structure Rises (thread : Nat) (before after : Shared) : Prop where
  claimed : before.lastClaimedSequence ≤ after.lastClaimedSequence
  sequences : ∀ sequence ∈ setup.gatingSequences,
    before.sequences sequence ≤ after.sequences sequence
  others : ∀ other, other ≠ thread → entriesOf after other = entriesOf before other

end

variable {after before : Shared} {thread : Nat}

section

variable (rises : Rises setup thread before after)
include rises

theorem below_rises (below : Below setup before bound) : Below setup after bound :=
  fun sequence gating => (below sequence gating).trans (rises.sequences sequence gating)

theorem scanned_rises (scanned : Scanned setup before scan) : Scanned setup after scan := by
  intro sequence gating
  cases scanned sequence gating with
  | inl left => exact .inl left
  | inr low => exact .inr (low.trans (rises.sequences sequence gating))

theorem knows_rises (knows : Knows setup before own) : Knows setup after own := by
  match own with
  | .claiming (.claimed batch) => exact le_trans knows rises.claimed
  | .claiming (.scanning batch scan) =>
    exact ⟨knows.1.trans rises.claimed, scanned_rises rises knows.2⟩
  | .checking (.scanning _ scan) => exact scanned_rises rises knows
  | .checking (.storing _ minSequence) => exact below_rises rises knows
  | .checking (.compared _) | .idle | .publishing _ | .waiting _ _ => trivial

end

/-- An action that re-establishes everything the acting thread has to. -/
structure Keeps (setup : Setup) (thread : Nat) (before : Shared) (result : Shared × Local) :
    Prop where
  common : ClaimsHold setup result.1
  own : ClaimsOwn setup thread result.1 result.2
  rises : Rises setup thread before result.1

/-- Nothing of what claims depend on changes. -/
structure SameClaims (before after : Shared) : Prop where
  claimed : after.lastClaimedSequence = before.lastClaimedSequence := by rfl
  consumer : after.lastConsumerSequence = before.lastConsumerSequence := by rfl
  sequences : after.sequences = before.sequences := by rfl
  claims : after.history.claims = before.history.claims := by rfl
  claiming : after.history.claiming = before.history.claiming := by rfl
  returned : after.history.returned = before.history.returned := by rfl

variable {thread : Nat} {shared : Shared}

theorem keeps_same (holds : ClaimsHold setup shared) (same : SameClaims shared after)
    (entry : entriesOf shared thread = own.entry thread) (knows : Knows setup shared own) :
    Keeps setup thread shared (after, own) := by
  have entries : ∀ other, entriesOf after other = entriesOf shared other := by
    intro other
    simp [entriesOf, same.claiming]
  have rises : Rises setup thread shared after :=
    ⟨same.claimed.ge, fun sequence _ => (congrFun same.sequences sequence).ge,
      fun other _ => entries other⟩
  refine ⟨?_, ⟨(entries thread).trans entry, knows_rises rises knows⟩, rises⟩
  constructor
  · rw [same.claimed]
    exact holds.fits
  · rw [same.claims, same.claimed]
    exact holds.contiguous
  · rw [same.returned, same.claiming, same.claims]
    exact holds.accounted
  · rw [same.consumer]
    exact below_rises rises holds.cached
  · rw [same.returned]
    intro batch mem
    exact below_rises rises (holds.free batch mem)

/-- The bound a claimant waits for is at least `N` behind what it claimed, even if the
subtraction wraps around. -/
theorem wrapPoint_ge {sequence : Int} (fits : sequence < 2 ^ 63) :
    sequence - setup.size ≤ wrapPoint setup sequence := by
  by_cases low : -2 ^ 63 ≤ sequence - setup.size
  · rw [wrapPoint, int64_eq low (by omega)]
  · have least := int64_ge (sequence - setup.size)
    simp only [wrapPoint]
    omega

theorem scan_start : Scanned setup shared (.start setup.gatingSequences) :=
  fun _ gating => .inl gating

theorem scan_read {minimum : Int} {sequence : Nat}
    (scanned : Scanned setup shared ⟨sequence :: left, minimum⟩) :
    Scanned setup shared ⟨left, Scan.lower minimum (shared.sequences sequence)⟩ := by
  have lowers : Scan.lower minimum (shared.sequences sequence) ≤ minimum ∧
      Scan.lower minimum (shared.sequences sequence) ≤ shared.sequences sequence := by
    unfold Scan.lower
    split <;> constructor <;> omega
  intro other gating
  cases scanned other gating with
  | inl remains =>
    cases remains with
    | head => exact .inr lowers.2
    | tail _ later => exact .inl later
  | inr low => exact .inr (lowers.1.trans low)

theorem scan_done {minimum : Int} (scanned : Scanned setup shared ⟨[], minimum⟩) :
    Below setup shared minimum := by
  intro sequence gating
  cases scanned sequence gating with
  | inl remains => cases remains
  | inr low => exact low

section

variable (holds : ClaimsHold setup shared)
include holds

/-- `Claim` returns a batch once a bound of the gating sequences has reached its wrap point. -/
theorem returnClaim_keeps (entry : entriesOf shared thread = [(thread, batch)])
    (inside : batch.sequence ≤ shared.lastClaimedSequence) (below : Below setup shared bound)
    (reached : ¬ bound < wrapPoint setup batch.sequence) :
    Keeps setup thread shared (shared.returnClaim thread batch) := by
  have wrap := @wrapPoint_ge setup batch.sequence (inside.trans_lt holds.fits)
  have rises : Rises setup thread shared (shared.returnClaim thread batch).1 := by
    refine ⟨le_rfl, fun _ _ => le_rfl, ?_⟩
    intro other distinct
    simp only [entriesOf, returnClaim, filter_filter]
    apply filter_congr
    rintro ⟨owner, _⟩ _
    by_cases same : owner = other
    · simp [same, distinct]
    · simp [same]
  refine ⟨⟨holds.fits, holds.contiguous, ?_, below_rises rises holds.cached, ?_⟩,
    ⟨?_, trivial⟩, rises⟩
  · -- The entry of the thread moves from the claiming to the returned.
    refine List.Perm.trans ?_ holds.accounted
    have parted := filter_append_perm (fun entry => decide (entry.1 = thread))
      shared.history.claiming
    rw [show shared.history.claiming.filter (fun entry => decide (entry.1 = thread)) =
      [(thread, batch)] from entry] at parted
    have moved := (parted.map Prod.snd).append_left shared.history.returned
    simpa [returnClaim] using moved
  · intro other mem
    rcases mem_append.mp mem with earlier | isBatch
    · exact below_rises rises (holds.free other earlier)
    · obtain rfl : other = batch := mem_singleton.mp isBatch
      intro sequence gating
      have bounded := below sequence gating
      change other.sequence - setup.size ≤ shared.sequences sequence
      omega
  · simp only [entriesOf, returnClaim, filter_filter, Local.entry, filter_eq_nil_iff]
    rintro ⟨owner, _⟩ _
    simp

theorem claimStep_keeps (own : ClaimsOwn setup thread shared (.claiming at_)) :
    Keeps setup thread shared (claimStep setup thread shared at_) := by
  obtain ⟨entry, knows⟩ := own
  match at_ with
  | .claimed batch =>
    simp only [claimStep]
    split
    · exact keeps_same holds {} entry ⟨knows, scan_start⟩
    · rename_i reached
      exact returnClaim_keeps holds entry knows holds.cached reached
  | .scanning batch ⟨sequence :: left, minimum⟩ =>
    exact keeps_same holds {} entry ⟨knows.1, scan_read knows.2⟩
  | .scanning batch ⟨[], minimum⟩ =>
    simp only [claimStep]
    split
    · exact keeps_same holds {} entry ⟨knows.1, scan_start⟩
    · rename_i reached
      exact returnClaim_keeps holds entry knows.1 (scan_done knows.2) reached

theorem checkStep_keeps (own : ClaimsOwn setup thread shared (.checking at_)) :
    Keeps setup thread shared (checkStep setup shared at_) := by
  obtain ⟨entry, knows⟩ := own
  match at_ with
  | .compared wrapPoint =>
    simp only [checkStep]
    split
    · exact keeps_same holds {} entry scan_start
    · exact keeps_same holds {} entry trivial
  | .scanning wrapPoint ⟨sequence :: left, minimum⟩ =>
    exact keeps_same holds {} entry (scan_read knows)
  | .scanning wrapPoint ⟨[], minimum⟩ => exact keeps_same holds {} entry (scan_done knows)
  | .storing wrapPoint minSequence =>
    -- The stored minimum may be an old one: it is a bound all the same.
    exact ⟨{ holds with cached := knows }, ⟨entry, trivial⟩,
      ⟨le_rfl, fun _ _ => le_rfl, fun _ _ => rfl⟩⟩

end

/-- `Publish` and `WaitFor` leave alone what claims depend on. -/
theorem publishStep_same (taken : publishStep setup thread shared at_ = some result) :
    SameClaims shared result.1 ∧ result.2.entry thread = [] ∧ Knows setup shared result.2 := by
  cases at_ with
  | synchronizing batch =>
    simp only [publishStep] at taken
    split at taken <;> cases taken <;> exact ⟨{}, rfl, trivial⟩
  | advancing _ | notifying =>
    cases taken
    exact ⟨{}, rfl, trivial⟩
  | signalling =>
    simp only [publishStep] at taken
    split at taken
    · cases taken
      exact ⟨{}, rfl, trivial⟩
    · split at taken
      · cases taken
        exact ⟨{}, rfl, trivial⟩
      · cases taken

theorem afterCursor_same {available : Int} :
    SameClaims shared (shared.afterCursor setup call available).1 ∧
      (shared.afterCursor setup call available).2.entry thread = [] ∧
      Knows setup shared (shared.afterCursor setup call available).2 := by
  simp only [afterCursor]
  split <;> exact ⟨{}, rfl, trivial⟩

theorem waitStep_same (taken : waitStep setup thread shared call at_ = some result) :
    SameClaims shared result.1 ∧ result.2.entry thread = [] ∧ Knows setup shared result.2 := by
  match at_ with
  | .polling =>
    simp only [waitStep] at taken
    split at taken
    · split at taken <;> cases taken <;> exact ⟨{}, rfl, trivial⟩
    · cases taken
      exact ⟨{}, rfl, trivial⟩
  | .reading ⟨_ :: _, _⟩ | .gathering ⟨_ :: _, _⟩ | .parked =>
    cases taken
    exact ⟨{}, rfl, trivial⟩
  | .reading ⟨[], _⟩ | .gathering ⟨[], _⟩ | .pausing | .minding | .yielding | .locking =>
    simp only [waitStep] at taken
    split at taken <;> cases taken <;> exact ⟨{}, rfl, trivial⟩
  | .arriving =>
    simp only [waitStep] at taken
    split at taken
    · cases taken
      exact ⟨{}, rfl, trivial⟩
    · cases taken
      exact afterCursor_same
  | .comparing =>
    simp only [waitStep] at taken
    split at taken
    · cases taken
      exact ⟨{}, rfl, trivial⟩
    · cases taken
      obtain ⟨same, none, knows⟩ := @afterCursor_same setup thread
        (shared.unlock (setup.strategyOf call.barrier)) call shared.cursor
      refine ⟨{ same with }, none, ?_⟩
      exact knows
  | .relocking timedOut =>
    simp only [waitStep] at taken
    split at taken
    · split at taken <;> cases taken <;> exact ⟨{}, rfl, trivial⟩
    · cases taken

theorem timeOutStep_same (taken : timeOutStep setup thread shared call at_ = some result) :
    SameClaims shared result.1 ∧ result.2.entry thread = [] ∧ Knows setup shared result.2 := by
  cases at_ with
  | pausing =>
    simp only [timeOutStep] at taken
    split at taken <;> cases taken <;> exact ⟨{}, rfl, trivial⟩
  | parked =>
    cases taken
    exact ⟨{}, rfl, trivial⟩
  | _ => cases taken

theorem claim_keeps (holds : ClaimsHold setup shared) (none : entriesOf shared thread = [])
    {delta : Nat} (fits : shared.lastClaimedSequence + delta < 2 ^ 63) :
    Keeps setup thread shared (shared.claim thread delta) := by
  have start := contiguous_le holds.contiguous
  simp only [kInitialCursorValue] at start
  have exact : int64 (shared.lastClaimedSequence + delta) = shared.lastClaimedSequence + delta :=
    int64_eq (by omega) fits
  have others : ∀ other, entriesOf (shared.claim thread delta).1 other =
      if thread = other then
        (thread, ⟨shared.lastClaimedSequence + delta, delta⟩) :: entriesOf shared other
      else entriesOf shared other := by
    intro other
    simp [entriesOf, claim, exact, filter_cons]
  constructor
  · constructor
    · simpa only [claim, exact] using fits
    · simp only [claim, exact]
      apply contiguous_append holds.contiguous
      constructor
      · simp only [Batch.first]
        omega
      · rfl
    · simp only [claim]
      rw [map_cons]
      refine perm_middle.trans ?_
      exact (holds.accounted.cons _).trans (perm_append_singleton _ _).symm
    · exact holds.cached
    · exact holds.free
  · constructor
    · rw [others, if_pos rfl, none]
      simp [claim, exact, Local.entry]
    · exact le_rfl
  · constructor
    · simp only [claim, exact]
      omega
    · exact fun _ _ => le_rfl
    · intro other distinct
      rw [others, if_neg distinct.symm]

theorem startStep_keeps (holds : ClaimsHold setup shared)
    (own : ClaimsOwn setup thread shared .idle) (isShared : state.shared = shared)
    (allowed : Advances setup state (thread, event))
    (taken : startStep setup thread shared event = some result) :
    Keeps setup thread shared result := by
  have none : entriesOf shared thread = [] := own.entry
  cases event with
  | claim delta =>
    obtain ⟨_, isResult⟩ := Option.ite_none_right_eq_some.mp taken
    cases isResult
    apply claim_keeps holds none
    rw [← isShared]
    exact allowed
  | hasAvailableCapacity =>
    obtain ⟨_, isResult⟩ := Option.ite_none_right_eq_some.mp taken
    obtain rfl := Option.some.inj isResult
    exact keeps_same holds {} none trivial
  | publish sequence delta =>
    obtain ⟨_, isResult⟩ := Option.ite_none_right_eq_some.mp taken
    cases isResult
    exact keeps_same holds {} none trivial
  | waitFor _ | setAlerted _ _ =>
    cases taken
    exact keeps_same holds {} none trivial
  | setSequence sequence value =>
    cases taken
    subst isShared
    have rises : Rises setup thread state.shared
        { state.shared with
          sequences := Function.update state.shared.sequences sequence value } := by
      refine ⟨le_rfl, ?_, fun _ _ => rfl⟩
      intro other gating
      by_cases same : other = sequence
      · subst same
        simpa using allowed gating
      · simp [Function.update_of_ne same]
    exact ⟨⟨holds.fits, holds.contiguous, holds.accounted, below_rises rises holds.cached,
      fun batch mem => below_rises rises (holds.free batch mem)⟩, ⟨own.entry, trivial⟩, rises⟩
  | proceed | timeOut => cases taken

theorem act_keeps (holds : (claimOutline setup).Holds state)
    (allowed : Advances setup state (thread, event))
    (taken : act setup thread state.shared (state.locals thread) event = some result) :
    Keeps setup thread state.shared result := by
  have own := holds.own thread
  change ClaimsOwn setup thread state.shared (state.locals thread) at own
  generalize state.locals thread = before at own taken
  cases before with
  | idle => exact startStep_keeps holds.common own rfl allowed taken
  | claiming at_ =>
    cases event with
    | proceed =>
      cases taken
      exact claimStep_keeps holds.common own
    | _ => cases taken
  | checking at_ =>
    cases event with
    | proceed =>
      cases taken
      exact checkStep_keeps holds.common own
    | _ => cases taken
  | publishing at_ =>
    cases event with
    | proceed =>
      obtain ⟨same, none, knows⟩ := publishStep_same taken
      exact keeps_same holds.common same (own.entry.trans none.symm) knows
    | _ => cases taken
  | waiting call at_ =>
    cases event with
    | proceed =>
      obtain ⟨same, none, knows⟩ := waitStep_same taken
      exact keeps_same holds.common same (own.entry.trans none.symm) knows
    | timeOut =>
      obtain ⟨_, timed⟩ := Option.ite_none_right_eq_some.mp taken
      obtain ⟨same, none, knows⟩ := timeOutStep_same timed
      exact keeps_same holds.common same (own.entry.trans none.symm) knows
    | _ => cases taken

theorem claimOutline_sound : (claimOutline setup).Sound (act setup) (Advances setup) := by
  refine Outline.sound_of_moves (fun _ _ => trivial) ?_
  intro state _ _ shared own holds allowed taken
  have keeps := act_keeps holds allowed taken
  refine ⟨keeps.common, keeps.own, fun other distinct => ?_⟩
  have before : ClaimsOwn setup other state.shared (state.locals other) := holds.own other
  exact ⟨(keeps.rises.others other distinct).trans before.entry,
    knows_rises keeps.rises before.knows⟩

theorem claimOutline_start {sequences : Nat → Int}
    (start : ∀ sequence ∈ setup.gatingSequences, kInitialCursorValue ≤ sequences sequence) :
    (claimOutline setup).Holds (State.start sequences) where
  common := ⟨show (-1 : Int) < 2 ^ 63 by decide, rfl, .nil, start, fun _ mem => nomatch mem⟩
  own _ := ⟨rfl, trivial⟩
  apart _ _ _ := trivial

/-- The claimed batches follow each other without a gap; those `Claim` has returned are all
of them but those of the threads that are still in it, and every gating sequence is within
`N` of every returned one. -/
theorem claimed_slots_free (setup : Setup) (sequences : Nat → Int) (events : List (Nat × Event))
    (final : State)
    (start : ∀ sequence ∈ setup.gatingSequences, kInitialCursorValue ≤ sequences sequence)
    (guarded : Machine.Guarded (step setup) (Advances setup) (State.start sequences) events)
    (ran : Machine.run (step setup) (State.start sequences) events = some final) :
    Contiguous kInitialCursorValue final.shared.history.claims final.shared.lastClaimedSequence ∧
      (final.shared.history.returned ++ final.shared.history.claiming.map Prod.snd).Perm
        final.shared.history.claims ∧
      (∀ thread batch, (thread, batch) ∈ final.shared.history.claiming ↔
        (thread, batch) ∈ (final.locals thread).entry thread) ∧
      final.shared.history.returned.Pairwise Batch.Disjoint ∧
      ∀ batch ∈ final.shared.history.returned, ∀ sequence ∈ setup.gatingSequences,
        batch.sequence - setup.size ≤ final.shared.sequences sequence := by
  have holds := claimOutline_sound.run events _ _ (claimOutline_start start) guarded ran
  have common : ClaimsHold setup final.shared := holds.common
  refine ⟨common.contiguous, common.accounted, ?_, ?_, common.free⟩
  · intro thread batch
    have own : ClaimsOwn setup thread final.shared (final.locals thread) := holds.own thread
    rw [← own.entry, entriesOf, mem_filter]
    simp
  · have all := (List.Perm.pairwise_iff Batch.Disjoint.symm common.accounted).mpr
      (contiguous_disjoint common.contiguous)
    exact (pairwise_append.mp all).1

instance decidableAdvances (state : State) :
    ∀ event : Nat × Event, Decidable (Advances setup state event)
  | (_, event) => by
    induction event using Event.casesOn <;> dsimp only [Advances] <;> infer_instance

end

/-- A ring of the given size, claimed by any number of threads and gated by sequence 0. -/
def ring (size : Nat) : Setup :=
  ⟨size, .multiThreaded, .blocking, [0], fun _ => [], newBarrierStrategy⟩

/-- Two producers fill a ring of two; the second waits until the consumer has moved on. -/
def fillRing : List (Nat × Event) :=
  [(0, .claim 2), (0, .proceed), (1, .claim 1), (1, .proceed), (1, .proceed), (1, .proceed),
    (2, .hasAvailableCapacity), (2, .proceed), (2, .proceed), (3, .setSequence 0 0), (1, .proceed),
    (1, .proceed), (2, .proceed), (2, .proceed)]

theorem claimed_slots_free_ring :
    ((Machine.run (step (ring 2)) (State.start fun _ => -1) fillRing).any fun final =>
      final.shared.history.returned = [⟨1, 2⟩, ⟨2, 1⟩] ∧
        final.shared.lastConsumerSequence = -1) = true ∧
    ∀ final, Machine.run (step (ring 2)) (State.start fun _ => -1) fillRing = some final →
      ∀ batch ∈ final.shared.history.returned, ∀ sequence ∈ (ring 2).gatingSequences,
        batch.sequence - (ring 2).size ≤ final.shared.sequences sequence := by
  refine ⟨by decide, ?_⟩
  intro final ran
  exact (claimed_slots_free (ring 2) (fun _ => -1) fillRing final (fun _ _ => le_rfl)
    (by decide) ran).2.2.2.2

/-- A gating sequence that starts below the initial cursor is not noticed: the cached minimum
starts above it. -/
theorem claimed_slot_taken :
    Machine.Guarded (step (ring 8)) (Advances (ring 8)) (State.start fun _ => -100)
      [(0, .claim 1), (0, .proceed)] ∧
    ((Machine.run (step (ring 8)) (State.start fun _ => -100) [(0, .claim 1), (0, .proceed)]).any
      fun final => final.shared.history.returned = [⟨0, 1⟩] ∧
        final.shared.sequences 0 < (0 : Int) - (ring 8).size) = true := by
  decide

end CodeReading.Disruptor

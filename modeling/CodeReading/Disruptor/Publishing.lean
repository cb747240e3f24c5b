import CodeReading.Disruptor.Claiming

/-!
# The cursor follows the published batches

`SynchronizePublishing` lets a batch advance the cursor only when the cursor has
come to its first sequence. No batch that has not advanced it lies below the
cursor, so the cursor stands exactly there, and the add moves it to the end of the
batch. Hence every sequence up to the cursor was given to `Publish`, and so was
every sequence up to what `WaitFor` returns.

Batches of no sequences are allowed: they advance nothing. The claim counter must
not pass the largest `int64_t`.
-/

namespace CodeReading.Disruptor

open Threads List

/-- Every sequence number up to the value has been given to `Publish`. -/
def Published (shared : Shared) (value : Int) : Prop :=
  ∀ number, 0 ≤ number → number ≤ value → ∃ batch ∈ shared.history.passed, batch.Has number

/-- A sequence that some barrier depends on. -/
def Dependent (setup : Setup) (sequence : Nat) : Prop :=
  ∃ barrier, sequence ∈ setup.dependents barrier

/-- Every batch is given to `Publish` once, as it was claimed, and sequences that barriers
depend on are moved over published events only. -/
def Proper (setup : Setup) (state : State) (event : Nat × Event) : Prop :=
  match event.2 with
  | .publish sequence delta => ⟨sequence, delta⟩ ∈ state.shared.history.outstanding
  | .setSequence sequence value => Dependent setup sequence → Published state.shared value
  | _ => True

/-- The claim counter stays within `int64_t`. -/
def Fits (state : State) (event : Nat × Event) : Prop :=
  match event.2 with
  | .claim delta => state.shared.lastClaimedSequence + delta < 2 ^ 63
  | _ => True

/-- The batch a thread is claiming or publishing, until it has advanced the cursor. -/
def Local.batches : Local → List Batch
  | .claiming (.claimed batch) => [batch]
  | .claiming (.scanning batch _) => [batch]
  | .publishing (.synchronizing batch) => [batch]
  | .publishing (.advancing batch) => [batch]
  | _ => []

/-- A batch that has not advanced the cursor yet. -/
structure Live (cursor lastClaimed : Int) (batch : Batch) : Prop where
  first : kInitialCursorValue ≤ batch.first
  claimed : batch.sequence ≤ lastClaimed
  ahead : 0 < batch.delta → cursor ≤ batch.first

def Shared.Live (shared : Shared) (batch : Batch) : Prop :=
  Disruptor.Live shared.cursor shared.lastClaimedSequence batch

open Shared

section

variable (setup : Setup) (shared : Shared)

/-- What a barrier has gathered from its dependents is published. -/
structure Gathered (scan : Scan) : Prop where
  left : ∀ sequence ∈ scan.left, Dependent setup sequence
  minimum : scan.left ≠ [] ∨ Published shared scan.minimum

/-- What a thread knows in the middle of `Publish` or `WaitFor`. -/
def Stage : Local → Prop
  | .publishing (.synchronizing batch) => batch ∈ shared.history.passed
  | .publishing (.advancing batch) => batch ∈ shared.history.passed ∧ batch.first ≤ shared.cursor
  | .waiting _ (.reading scan) => Gathered setup shared scan
  | .waiting call (.gathering scan) =>
      setup.dependents call.barrier ≠ [] ∧ Gathered setup shared scan
  | .waiting call .yielding => setup.dependents call.barrier ≠ []
  | _ => True

structure PublishHolds : Prop where
  fits : shared.lastClaimedSequence < 2 ^ 63
  start : kInitialCursorValue ≤ shared.cursor
  behind : shared.cursor ≤ shared.lastClaimedSequence
  published : Published shared shared.cursor
  live : ∀ batch ∈ shared.history.outstanding, shared.Live batch
  disjoint : shared.history.outstanding.Pairwise Batch.Disjoint
  dependents : ∀ sequence, Dependent setup sequence → Published shared (shared.sequences sequence)
  results : ∀ result ∈ shared.history.results, Published shared result.2

structure PublishOwn (own : Local) : Prop where
  live : ∀ batch ∈ own.batches, shared.Live batch
  apart : ∀ batch ∈ own.batches, ∀ other ∈ shared.history.outstanding, batch.Disjoint other
  stage : Stage setup shared own

end

/-- No two threads are claiming or publishing the same sequences. -/
def Apart (one two : Local) : Prop :=
  ∀ batch ∈ one.batches, ∀ other ∈ two.batches, batch.Disjoint other

def publishOutline (setup : Setup) : Outline Shared Local where
  common := PublishHolds setup
  own := fun _ => PublishOwn setup
  apart := Apart

section

variable {setup : Setup} {shared : Shared}

theorem published_negative (negative : value < 0 := by decide) : Published shared value := by
  intro number low high
  omega

variable {after : Shared}

theorem published_mono (published : Published shared value) (below : other ≤ value)
    (grown : ∀ batch ∈ shared.history.passed, batch ∈ after.history.passed) :
    Published after other := by
  intro number low high
  obtain ⟨batch, passed, has⟩ := published number low (high.trans below)
  exact ⟨batch, grown batch passed, has⟩

/-- What an action of one thread does to the others. -/
structure Grows (before after : Shared) : Prop where
  passed : ∀ batch ∈ before.history.passed, batch ∈ after.history.passed
  cursor : before.cursor ≤ after.cursor

theorem gathered_grows (grows : Grows shared after)
    (gathered : Gathered setup shared scan) : Gathered setup after scan := by
  refine ⟨gathered.left, ?_⟩
  cases gathered.minimum with
  | inl more => exact .inl more
  | inr published => exact .inr (published_mono published le_rfl grows.passed)

variable {own : Local}

theorem stage_grows (stage : Stage setup shared own) (grows : Grows shared after) :
    Stage setup after own := by
  match own with
  | .publishing (.synchronizing batch) => exact grows.passed batch stage
  | .publishing (.advancing batch) => exact ⟨grows.passed batch stage.1, stage.2.trans grows.cursor⟩
  | .waiting _ (.reading scan) => exact gathered_grows grows stage
  | .waiting _ (.gathering scan) => exact ⟨stage.1, gathered_grows grows stage.2⟩
  | .waiting _ .yielding => exact stage
  | .idle | .claiming _ | .checking _ | .publishing .signalling | .publishing .notifying => trivial
  | .waiting _ .polling | .waiting _ .pausing | .waiting _ .arriving | .waiting _ .locking
  | .waiting _ .comparing | .waiting _ .minding | .waiting _ .parked | .waiting _ (.relocking _) =>
    trivial

/-- An action that re-establishes what the acting thread has to, disturbs no thread apart
from it, and does not move the cursor back. -/
structure Serves (setup : Setup) (before : Shared) (acting : Local) (result : Shared × Local) :
    Prop where
  common : PublishHolds setup result.1
  own : PublishOwn setup result.1 result.2
  others : ∀ other, PublishOwn setup before other → Apart acting other →
    PublishOwn setup result.1 other ∧ Apart result.2 other
  advances : before.cursor ≤ result.1.cursor

/-- Nothing of what publishing depends on changes; `WaitFor` may have returned something
published. -/
structure SamePublished (before after : Shared) : Prop where
  cursor : after.cursor = before.cursor := by rfl
  claimed : after.lastClaimedSequence = before.lastClaimedSequence := by rfl
  sequences : after.sequences = before.sequences := by rfl
  outstanding : after.history.outstanding = before.history.outstanding := by rfl
  passed : after.history.passed = before.history.passed := by rfl

section

variable (same : SamePublished shared after)
include same

theorem live_same (live : shared.Live batch) : after.Live batch :=
  ⟨live.first, same.claimed ▸ live.claimed, same.cursor ▸ live.ahead⟩

theorem published_same (published : Published shared value) : Published after value :=
  published_mono published le_rfl (fun _ passed => same.passed ▸ passed)

theorem own_same (own : PublishOwn setup shared other) : PublishOwn setup after other := by
  refine ⟨fun batch mem => live_same same (own.live batch mem), ?_,
    stage_grows own.stage ⟨fun _ passed => same.passed ▸ passed, same.cursor.ge⟩⟩
  rw [same.outstanding]
  exact own.apart

end

section

variable (holds : PublishHolds setup shared)
include holds

theorem serves_same (before : PublishOwn setup shared own)
    (results : ∀ result ∈ after.history.results, Published shared result.2)
    (same : SamePublished shared after := by exact {})
    (fewer : ∀ batch ∈ moved.batches, batch ∈ own.batches := by exact fun _ mem => mem)
    (stage : Stage setup shared moved := by trivial) : Serves setup shared own (after, moved) := by
  have movedOwn : PublishOwn setup shared moved :=
    ⟨fun batch mem => before.live batch (fewer batch mem),
      fun batch mem => before.apart batch (fewer batch mem), stage⟩
  refine ⟨?_, own_same same movedOwn, ?_, same.cursor.ge⟩
  · constructor
    · rw [same.claimed]
      exact holds.fits
    · rw [same.cursor]
      exact holds.start
    · rw [same.cursor, same.claimed]
      exact holds.behind
    · rw [same.cursor]
      exact published_same same holds.published
    · intro batch mem
      rw [same.outstanding] at mem
      exact live_same same (holds.live batch mem)
    · rw [same.outstanding]
      exact holds.disjoint
    · intro sequence dependent
      rw [same.sequences]
      exact published_same same (holds.dependents sequence dependent)
    · intro result mem
      exact published_same same (results result mem)
  · intro _ otherOwn apart
    exact ⟨own_same same otherOwn, fun batch mem => apart batch (fewer batch mem)⟩

theorem results_append (published : Published shared value) :
    ∀ result ∈ shared.history.results ++ [(call, value)], Published shared result.2 := by
  intro result mem
  rcases mem_append.mp mem with earlier | last
  · exact holds.results result earlier
  · obtain rfl : result = (call, value) := mem_singleton.mp last
    exact published

theorem returnClaim_serves (before : PublishOwn setup shared own) (isBatch : own.batches = [batch]) :
    Serves setup shared own (shared.returnClaim thread batch) := by
  have mem : batch ∈ own.batches := by
    rw [isBatch]
    exact mem_singleton.mpr rfl
  refine ⟨?_, ⟨?_, ?_, trivial⟩, ?_, le_rfl⟩
  · refine { holds with live := ?_, disjoint := ?_ }
    · intro other outstanding
      rcases mem_append.mp outstanding with earlier | last
      · exact holds.live other earlier
      · obtain rfl : other = batch := mem_singleton.mp last
        exact before.live other mem
    · refine pairwise_append.mpr ⟨holds.disjoint, pairwise_singleton _ _, ?_⟩
      intro other outstanding last isLast
      obtain rfl : last = batch := mem_singleton.mp isLast
      exact (before.apart last mem other outstanding).symm
  · intro other none
    cases none
  · intro other none
    cases none
  · intro other otherOwn apart
    refine ⟨⟨otherOwn.live, ?_, stage_grows otherOwn.stage ⟨fun _ passed => passed, le_rfl⟩⟩,
      fun _ none => (nomatch none)⟩
    intro theirs theirsMember outstanding isOutstanding
    rcases mem_append.mp isOutstanding with earlier | last
    · exact otherOwn.apart theirs theirsMember outstanding earlier
    · obtain rfl : outstanding = batch := mem_singleton.mp last
      exact (apart outstanding mem theirs theirsMember).symm

theorem claimStep_serves (own : PublishOwn setup shared (.claiming at_)) :
    Serves setup shared (.claiming at_) (claimStep setup thread shared at_) := by
  match at_ with
  | .claimed _ | .scanning _ ⟨[], _⟩ =>
    simp only [claimStep]
    split
    · exact serves_same holds own holds.results
    · exact returnClaim_serves holds own rfl
  | .scanning batch ⟨_ :: _, _⟩ => exact serves_same holds own holds.results

theorem checkStep_serves (own : PublishOwn setup shared (.checking at_)) :
    Serves setup shared (.checking at_) (checkStep setup shared at_) := by
  match at_ with
  | .compared _ =>
    simp only [checkStep]
    split <;> exact serves_same holds own holds.results
  | .scanning _ ⟨_ :: _, _⟩ | .scanning _ ⟨[], _⟩ | .storing _ _ =>
    exact serves_same holds own holds.results

/-- The add on the cursor. A batch of at least one sequence finds the cursor at its first
one, since no live batch lies below the cursor, and every other live batch lies behind it. -/
theorem advancing_serves (own : PublishOwn setup shared (.publishing (.advancing batch)))
    (taken : publishStep setup thread shared (.advancing batch) = some result) :
    Serves setup shared (.publishing (.advancing batch)) result := by
  have mine : batch ∈ (Local.publishing (.advancing batch)).batches := mem_singleton.mpr rfl
  obtain ⟨first, _, ahead⟩ := own.live batch mine
  obtain ⟨passed, turn⟩ := own.stage
  have fits := holds.fits
  have start := holds.start
  have behind := holds.behind
  simp only [kInitialCursorValue, Batch.first] at first turn ahead start
  -- The cursor moves to the end of the batch, or not at all.
  have ends : 0 < batch.delta → shared.cursor + batch.delta = batch.sequence := by
    intro some
    have := ahead some
    omega
  have bound : shared.cursor + batch.delta ≤ shared.lastClaimedSequence := by
    by_cases some : 0 < batch.delta
    · have := ends some
      omega
    · omega
  have exact : int64 (shared.cursor + batch.delta) = shared.cursor + batch.delta :=
    int64_eq (by omega) (by omega)
  have rest : ∀ other, shared.Live other → batch.Disjoint other →
      Live (shared.cursor + batch.delta) shared.lastClaimedSequence other := by
    intro other live apart
    refine { live with ahead := ?_ }
    intro some
    have theirs := live.ahead some
    by_cases mineSome : 0 < batch.delta
    · have := ends mineSome
      simp only [Batch.Disjoint, Batch.first] at apart theirs ⊢
      omega
    · simp only [Batch.first] at theirs ⊢
      omega
  simp only [publishStep, exact, Option.some.injEq] at taken
  subst taken
  have up : shared.cursor ≤ shared.cursor + batch.delta := by omega
  refine ⟨⟨fits, ?_, bound, ?_, ?_, holds.disjoint, holds.dependents, holds.results⟩,
    ⟨fun _ none => absurd none not_mem_nil, fun _ none => absurd none not_mem_nil, trivial⟩, ?_, up⟩
  · exact holds.start.trans up
  · -- The sequences the cursor passes over are those of the batch.
    intro number low high
    by_cases before : number ≤ shared.cursor
    · exact holds.published number low before
    · refine ⟨batch, passed, ?_⟩
      change number ≤ shared.cursor + batch.delta at high
      have := ends (by omega)
      simp only [Batch.Has, Batch.first]
      omega
  · intro other outstanding
    exact rest other (holds.live other outstanding) (own.apart batch mine other outstanding)
  · intro other otherOwn apart
    refine ⟨⟨?_, otherOwn.apart, stage_grows otherOwn.stage ⟨fun _ mem => mem, up⟩⟩,
      fun _ none => absurd none not_mem_nil⟩
    intro theirs mem
    exact rest theirs (otherOwn.live theirs mem) (apart batch mine theirs mem)

theorem publishStep_serves (own : PublishOwn setup shared (.publishing at_))
    (taken : publishStep setup thread shared at_ = some result) :
    Serves setup shared (.publishing at_) result := by
  cases at_ with
  | synchronizing batch =>
    obtain ⟨first, _, -⟩ := own.live batch (mem_singleton.mpr rfl)
    have fits := holds.fits
    simp only [kInitialCursorValue, Batch.first] at first
    have exact : int64 (batch.sequence - batch.delta) = batch.sequence - batch.delta :=
      int64_eq (by omega) (by omega)
    simp only [publishStep, exact] at taken
    split at taken
    · cases taken
      exact serves_same holds own holds.results {} (fun _ mem => mem) own.stage
    · rename_i reached
      cases taken
      exact serves_same holds own holds.results {} (fun _ mem => mem)
        ⟨own.stage, not_lt.mp reached⟩
  | advancing batch => exact advancing_serves holds own taken
  | signalling =>
    simp only [publishStep] at taken
    split at taken
    · cases taken
      exact serves_same holds own holds.results
    · split at taken
      · cases taken
        exact serves_same holds own holds.results
      · cases taken
  | notifying =>
    cases taken
    exact serves_same holds own holds.results

end

theorem gathered_start (some : setup.dependents barrier ≠ []) :
    Gathered setup shared (.start (setup.dependents barrier)) :=
  ⟨fun _ mem => ⟨barrier, mem⟩, .inl some⟩

theorem gathered_read {minimum : Int} {sequence : Nat} (holds : PublishHolds setup shared)
    (gathered : Gathered setup shared ⟨sequence :: left, minimum⟩) :
    Gathered setup shared ⟨left, Scan.lower minimum (shared.sequences sequence)⟩ := by
  have lowers : Scan.lower minimum (shared.sequences sequence) ≤ shared.sequences sequence := by
    unfold Scan.lower
    split <;> omega
  have dependent := gathered.left sequence (.head _)
  refine ⟨fun other mem => gathered.left other (.tail _ mem), .inr ?_⟩
  exact published_mono (holds.dependents sequence dependent) lowers (fun _ passed => passed)

theorem gathered_done {minimum : Int} (gathered : Gathered setup shared ⟨[], minimum⟩) :
    Published shared minimum := by
  cases gathered.minimum with
  | inl more => exact absurd rfl more
  | inr published => exact published

/-- What an action of `WaitFor` does: it changes nothing of what publishing depends on, and
whatever it returns is published. -/
structure Answers (setup : Setup) (before : Shared) (result : Shared × Local) : Prop where
  same : SamePublished before result.1
  results : ∀ answer ∈ result.1.history.results, Published before answer.2
  none : result.2.batches = []
  stage : Stage setup before result.2

/-- Nothing of what publishing depends on changes, and `WaitFor` returns nothing. -/
structure Quiet (before after : Shared) : Prop extends SamePublished before after where
  results : after.history.results = before.history.results := by rfl

section

variable (holds : PublishHolds setup shared)
include holds

theorem answers_wait (quiet : Quiet shared after := by exact {})
    (stage : Stage setup shared (.waiting call at_) := by trivial) :
    Answers setup shared (after, .waiting call at_) := by
  refine ⟨quiet.toSamePublished, ?_, rfl, stage⟩
  rw [quiet.results]
  exact holds.results

theorem answers_return (published : Published shared value)
    (quiet : Quiet shared after := by exact {}) :
    Answers setup shared (after.returnWait call value) := by
  refine ⟨{ quiet with }, ?_, rfl, trivial⟩
  simp only [returnWait, quiet.results]
  exact results_append holds published

theorem answers_cursor (quiet : Quiet shared after) :
    Answers setup shared (after.afterCursor setup call shared.cursor) := by
  simp only [afterCursor]
  split
  · exact answers_return holds holds.published quiet
  · rename_i some
    exact answers_wait holds quiet ⟨some, gathered_start some⟩

theorem waitStep_answers (stage : Stage setup shared (.waiting call at_))
    (taken : waitStep setup thread shared call at_ = some result) :
    Answers setup shared result := by
  match at_ with
  | .polling =>
    simp only [waitStep] at taken
    split at taken
    · split at taken
      · cases taken
        exact answers_wait holds
      · cases taken
        exact answers_return holds holds.published
    · rename_i some
      cases taken
      exact answers_wait holds {} (gathered_start some)
  | .reading ⟨_ :: _, _⟩ =>
    cases taken
    exact answers_wait holds {} (gathered_read holds stage)
  | .reading ⟨[], _⟩ =>
    simp only [waitStep] at taken
    split at taken
    · cases taken
      exact answers_wait holds
    · cases taken
      exact answers_return holds (gathered_done stage)
  | .pausing =>
    simp only [waitStep] at taken
    split at taken
    · cases taken
      exact answers_return holds published_negative
    · cases taken
      exact answers_wait holds
  | .arriving =>
    simp only [waitStep] at taken
    split at taken
    · cases taken
      exact answers_wait holds
    · cases taken
      exact answers_cursor holds {}
  | .locking =>
    simp only [waitStep] at taken
    split at taken
    · cases taken
      exact answers_wait holds
    · cases taken
  | .comparing =>
    simp only [waitStep] at taken
    split at taken
    · cases taken
      exact answers_wait holds
    · cases taken
      refine answers_cursor holds ?_
      exact {}
  | .minding =>
    simp only [waitStep] at taken
    split at taken
    · cases taken
      exact answers_return holds published_negative
    · cases taken
      exact answers_wait holds
  | .parked =>
    cases taken
    exact answers_wait holds
  | .relocking timedOut =>
    simp only [waitStep] at taken
    split at taken
    · split at taken
      · cases taken
        exact answers_return holds published_negative
      · cases taken
        exact answers_wait holds
    · cases taken
  | .gathering ⟨_ :: _, _⟩ =>
    cases taken
    exact answers_wait holds {} ⟨stage.1, gathered_read holds stage.2⟩
  | .gathering ⟨[], _⟩ =>
    simp only [waitStep] at taken
    split at taken
    · cases taken
      exact answers_wait holds {} stage.1
    · cases taken
      exact answers_return holds (gathered_done stage.2)
  | .yielding =>
    simp only [waitStep] at taken
    split at taken
    · cases taken
      exact answers_return holds published_negative
    · cases taken
      exact answers_wait holds {} ⟨stage, gathered_start stage⟩

theorem timeOutStep_answers (taken : timeOutStep setup thread shared call at_ = some result) :
    Answers setup shared result := by
  cases at_ with
  | pausing =>
    simp only [timeOutStep] at taken
    split at taken
    · cases taken
      exact answers_return holds published_negative
    · cases taken
      exact answers_return holds published_negative
  | parked =>
    cases taken
    exact answers_wait holds
  | _ => cases taken

theorem answers_serves (before : PublishOwn setup shared own)
    (answers : Answers setup shared result) : Serves setup shared own result := by
  refine serves_same holds before answers.results answers.same ?_ answers.stage
  rw [answers.none]
  exact fun _ none => (nomatch none)

/-- A claim takes sequences behind all live batches. -/
theorem claim_serves {delta : Nat} (fits : shared.lastClaimedSequence + delta < 2 ^ 63) :
    Serves setup shared .idle (shared.claim thread delta) := by
  have start := holds.start
  have behind := holds.behind
  simp only [kInitialCursorValue] at start
  have exact : int64 (shared.lastClaimedSequence + delta) = shared.lastClaimedSequence + delta :=
    int64_eq (by omega) fits
  have first : Batch.first ⟨shared.lastClaimedSequence + delta, delta⟩ =
      shared.lastClaimedSequence := by
    simp only [Batch.first]
    omega
  have keeps : ∀ other, shared.Live other →
      Live shared.cursor (shared.lastClaimedSequence + delta) other :=
    fun other live => ⟨live.first, live.claimed.trans (by omega), live.ahead⟩
  have behindAll : ∀ other, shared.Live other →
      Batch.Disjoint ⟨shared.lastClaimedSequence + delta, delta⟩ other := by
    intro other live
    right
    rw [first]
    exact live.claimed
  simp only [claim, exact]
  refine ⟨{ holds with fits := fits, behind := behind.trans (by simp), live := ?_ }, ⟨?_, ?_,
    trivial⟩, ?_, le_rfl⟩
  · intro other outstanding
    exact keeps other (holds.live other outstanding)
  · intro batch isBatch
    obtain rfl := mem_singleton.mp isBatch
    refine ⟨?_, le_rfl, fun _ => ?_⟩
    · rw [first]
      exact holds.start.trans behind
    · rw [first]
      exact behind
  · intro batch isBatch other outstanding
    obtain rfl := mem_singleton.mp isBatch
    exact behindAll other (holds.live other outstanding)
  · intro other otherOwn _
    refine ⟨⟨fun theirs mem => keeps theirs (otherOwn.live theirs mem), otherOwn.apart,
      stage_grows otherOwn.stage ⟨fun _ passed => passed, le_rfl⟩⟩, ?_⟩
    intro batch isBatch theirs mem
    obtain rfl := mem_singleton.mp isBatch
    exact behindAll theirs (otherOwn.live theirs mem)

end

/-- A batch goes from the outstanding ones to the thread that publishes it. -/
theorem publish_serves (multi : setup.claimStrategy = .multiThreaded)
    (holds : PublishHolds setup shared) (outstanding : batch ∈ shared.history.outstanding) :
    Serves setup shared .idle (shared.publish setup batch) := by
  have parted := (List.Perm.pairwise_iff Batch.Disjoint.symm
    (perm_cons_erase outstanding)).mp holds.disjoint
  have fewer : ∀ other ∈ shared.history.outstanding.erase batch,
      other ∈ shared.history.outstanding := fun _ mem => mem_of_mem_erase mem
  have grown : ∀ other ∈ shared.history.passed, other ∈ shared.history.passed ++ [batch] :=
    fun _ mem => mem_append_left _ mem
  simp only [publish, multi, if_true]
  refine ⟨⟨holds.fits, holds.start, holds.behind, ?_, ?_, (pairwise_cons.mp parted).2, ?_,
    ?_⟩, ⟨?_, ?_, mem_append_right _ (mem_singleton.mpr rfl)⟩, ?_, le_rfl⟩
  · exact published_mono holds.published le_rfl grown
  · intro other mem
    exact holds.live other (fewer other mem)
  · intro sequence dependent
    exact published_mono (holds.dependents sequence dependent) le_rfl grown
  · intro result mem
    exact published_mono (holds.results result mem) le_rfl grown
  · intro other isBatch
    obtain rfl := mem_singleton.mp isBatch
    exact holds.live other outstanding
  · intro other isBatch
    obtain rfl := mem_singleton.mp isBatch
    exact (pairwise_cons.mp parted).1
  · intro other otherOwn _
    refine ⟨⟨otherOwn.live, fun theirs mem remaining isRemaining =>
      otherOwn.apart theirs mem remaining (fewer remaining isRemaining),
      stage_grows otherOwn.stage ⟨grown, le_rfl⟩⟩, ?_⟩
    intro mine isMine theirs mem
    obtain rfl := mem_singleton.mp isMine
    exact (otherOwn.apart theirs mem mine outstanding).symm

variable {state : State}

/-- Runs in which batches and dependents are used as they are meant to be, within
`int64_t`. -/
def Orderly (setup : Setup) (state : State) (event : Nat × Event) : Prop :=
  Proper setup state event ∧ Fits state event

theorem publishOutline_start {sequences : Nat → Int}
    (start : ∀ sequence, Dependent setup sequence → sequences sequence < 0) :
    (publishOutline setup).Holds (State.start sequences) where
  common := ⟨show (-1 : Int) < 2 ^ 63 by decide, le_rfl, le_rfl,
    published_negative (show (-1 : Int) < 0 by decide), fun _ none => (nomatch none), .nil,
    fun sequence dependent => published_negative (start sequence dependent),
    fun _ none => (nomatch none)⟩
  own _ := ⟨fun _ none => (nomatch none), fun _ none => (nomatch none), trivial⟩
  apart _ _ _ _ none := nomatch none

section

variable (multi : setup.claimStrategy = .multiThreaded)
include multi

theorem startStep_serves (holds : PublishHolds setup state.shared)
    (own : PublishOwn setup state.shared .idle)
    (proper : Proper setup state (thread, event)) (fits : Fits state (thread, event))
    (taken : startStep setup thread state.shared event = some result) :
    Serves setup state.shared .idle result := by
  cases event with
  | claim delta =>
    obtain ⟨_, isResult⟩ := Option.ite_none_right_eq_some.mp taken
    cases isResult
    exact claim_serves holds fits
  | hasAvailableCapacity =>
    obtain ⟨_, isResult⟩ := Option.ite_none_right_eq_some.mp taken
    cases isResult
    exact serves_same holds own holds.results
  | publish sequence delta =>
    obtain ⟨_, isResult⟩ := Option.ite_none_right_eq_some.mp taken
    cases isResult
    exact publish_serves multi holds proper
  | waitFor call =>
    cases taken
    refine serves_same holds own holds.results {} (fun _ none => (nomatch none)) ?_
    split <;> trivial
  | setSequence sequence value =>
    cases taken
    refine ⟨{ holds with dependents := ?_ }, ⟨own.live, own.apart, trivial⟩, ?_, le_rfl⟩
    · intro other dependent
      by_cases same : other = sequence
      · subst same
        simp only [Function.update_self]
        exact proper dependent
      · simp only [Function.update_of_ne same]
        exact holds.dependents other dependent
    · intro other otherOwn apart
      exact ⟨{ otherOwn with stage := stage_grows otherOwn.stage ⟨fun _ passed => passed,
        le_rfl⟩ }, apart⟩
  | setAlerted barrier alert =>
    cases taken
    exact serves_same holds own holds.results
  | proceed | timeOut => cases taken

theorem act_serves (holds : (publishOutline setup).Holds state)
    (proper : Proper setup state (thread, event)) (fits : Fits state (thread, event))
    (taken : act setup thread state.shared (state.locals thread) event = some result) :
    Serves setup state.shared (state.locals thread) result := by
  have own := holds.own thread
  change PublishOwn setup state.shared (state.locals thread) at own
  generalize state.locals thread = before at own taken ⊢
  cases before with
  | idle => exact startStep_serves multi holds.common own proper fits taken
  | claiming at_ =>
    cases event with
    | proceed =>
      cases taken
      exact claimStep_serves holds.common own
    | _ => cases taken
  | checking at_ =>
    cases event with
    | proceed =>
      cases taken
      exact checkStep_serves holds.common own
    | _ => cases taken
  | publishing at_ =>
    cases event with
    | proceed => exact publishStep_serves holds.common own taken
    | _ => cases taken
  | waiting call at_ =>
    cases event with
    | proceed =>
      exact answers_serves holds.common own (waitStep_answers holds.common own.stage taken)
    | timeOut =>
      obtain ⟨_, timed⟩ := Option.ite_none_right_eq_some.mp taken
      exact answers_serves holds.common own (timeOutStep_answers holds.common timed)
    | _ => cases taken

theorem publishOutline_sound : (publishOutline setup).Sound (act setup) (Orderly setup) where
  symm _ _ apart batch mem other otherMember := (apart other otherMember batch mem).symm
  moves state thread event shared own holds allowed taken := by
    have serves := act_serves multi holds allowed.1 allowed.2 taken
    exact ⟨serves.common, serves.own⟩
  spares state thread event shared own other holds allowed taken distinct := by
    have serves := act_serves multi holds allowed.1 allowed.2 taken
    exact serves.others _ (holds.own other) (holds.apart thread other distinct.symm)

theorem step_advances {next : State}
    (holds : (publishOutline setup).Holds state) (allowed : Orderly setup state event)
    (taken : step setup state event = some next) : state.shared.cursor ≤ next.shared.cursor :=
  (act_serves multi holds allowed.1 allowed.2 (Threads.step_some _ taken).1).advances

end

end

/-- Along every run the cursor only increases, every sequence up to it was given to `Publish`,
and so was every sequence up to whatever a call of `WaitFor` has returned. -/
theorem cursor_published (setup : Setup) (multi : setup.claimStrategy = .multiThreaded)
    (sequences : Nat → Int) (events more : List (Nat × Event)) (middle final : State)
    (start : ∀ sequence, Dependent setup sequence → sequences sequence < 0)
    (guarded : Machine.Guarded (step setup) (Orderly setup) (State.start sequences)
      (events ++ more))
    (ran : Machine.run (step setup) (State.start sequences) events = some middle)
    (further : Machine.run (step setup) middle more = some final) :
    middle.shared.cursor ≤ final.shared.cursor ∧
      Published final.shared final.shared.cursor ∧
      ∀ result ∈ final.shared.history.results, Published final.shared result.2 := by
  obtain ⟨before, after⟩ := Machine.guarded_append (step setup) ran guarded
  have sound := publishOutline_sound multi
  have holds := sound.run events _ _ (publishOutline_start start) before ran
  have both := Machine.guarded_invariant (step setup) (Orderly setup)
    (fun state => (publishOutline setup).Holds state ∧ middle.shared.cursor ≤ state.shared.cursor)
    (fun state event _ allowed taken kept => ⟨sound.step allowed taken kept.1,
      kept.2.trans (step_advances multi kept.1 allowed taken)⟩) ⟨holds, le_rfl⟩ after further
  have common : PublishHolds setup final.shared := both.1.common
  exact ⟨both.2, common.published, common.results⟩

instance decidablePublished (shared : Shared) (value : Int) : Decidable (Published shared value) :=
  decidable_of_iff
    ((List.range (value + 1).toNat).all (fun number =>
      shared.history.passed.any fun batch => batch.Has (number : Int)) = true) <| by
    simp only [List.all_eq_true, List.any_eq_true, decide_eq_true_eq, List.mem_range]
    constructor
    · intro all number low high
      obtain ⟨natural, rfl⟩ := Int.eq_ofNat_of_zero_le low
      exact all natural (by omega)
    · intro all number inside
      exact all number (Int.natCast_nonneg number) (by omega)

section

variable (state : State) (event : Nat × Event)

/-- As `Proper`, with every consumer's sequence taken for a dependent. -/
def Careful : Prop :=
  match event.2 with
  | .publish sequence delta => ⟨sequence, delta⟩ ∈ state.shared.history.outstanding
  | .setSequence _ value => Published state.shared value
  | _ => True

instance : Decidable (Careful state event) := by
  unfold Careful
  split <;> infer_instance

instance : Decidable (Fits state event) := by
  unfold Fits
  split <;> infer_instance

end

theorem careful_proper (careful : Careful state event) : Proper setup state event := by
  unfold Careful at careful
  unfold Proper
  split at careful <;> simp_all

/-- A ring of eight with a barrier behind the consumer that moves sequence 0. -/
def chain : Setup :=
  ⟨8, .multiThreaded, .blocking, [0], fun barrier => if barrier = 1 then [0] else [],
    newBarrierStrategy⟩

/-- Two batches are published in the wrong order, and a consumer waits behind another one. -/
def publishTwice : List (Nat × Event) :=
  [(0, .claim 2), (0, .proceed), (1, .claim 1), (1, .proceed), (1, .publish 2 1), (1, .proceed),
    (2, .waitFor ⟨1, 0, false⟩), (0, .publish 1 2), (0, .proceed), (0, .proceed)]

def readBehind : List (Nat × Event) :=
  [(1, .proceed), (1, .proceed), (2, .proceed), (3, .setSequence 0 1), (2, .proceed), (2, .proceed)]

theorem cursor_published_chain :
    ((Machine.run (step chain) (State.start fun _ => -1) publishTwice).any fun middle =>
      (Machine.run (step chain) middle readBehind).any fun final =>
        middle.shared.cursor = 1 ∧ final.shared.cursor = 2 ∧
          final.shared.history.results = [(⟨1, 0, false⟩, 1)]) = true ∧
    ∀ middle final, Machine.run (step chain) (State.start fun _ => -1) publishTwice = some middle →
      Machine.run (step chain) middle readBehind = some final →
      Published final.shared final.shared.cursor := by
  refine ⟨by decide, ?_⟩
  intro middle final ran further
  have guarded : Machine.Guarded (step chain) (fun state event => Careful state event ∧
      Fits state event) (State.start fun _ => -1) (publishTwice ++ readBehind) := by
    decide
  exact (cursor_published chain rfl (fun _ => -1) publishTwice readBehind middle final
    (fun _ _ => by decide)
    (Machine.guarded_mono _ (fun _ _ both => ⟨careful_proper both.1, both.2⟩) guarded)
    ran further).2.1

def ungated : Setup := ⟨8, .multiThreaded, .spinning, [], fun _ => [], newBarrierStrategy⟩

def claimAll : List (Nat × Event) :=
  [(0, .claim (2 ^ 63 - 1)), (0, .proceed), (0, .proceed),
    (0, .publish (2 ^ 63 - 2) (2 ^ 63 - 1)), (0, .proceed), (0, .proceed), (0, .proceed)]

def claimTwoMore : List (Nat × Event) :=
  [(0, .claim 2), (0, .proceed), (0, .proceed), (0, .publish (-2 ^ 63) 2), (0, .proceed),
    (0, .proceed)]

/-- When the claim counter passes the largest `int64_t`, the cursor goes back. -/
theorem cursor_goes_back :
    Machine.Guarded (step ungated) Careful (State.start fun _ => -1) (claimAll ++ claimTwoMore) ∧
    ((Machine.run (step ungated) (State.start fun _ => -1) claimAll).any fun middle =>
      (Machine.run (step ungated) middle claimTwoMore).any fun final =>
        final.shared.cursor < middle.shared.cursor) = true := by
  decide

end CodeReading.Disruptor

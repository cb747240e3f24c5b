import CodeReading.Leveldb.CompactionInputs
import CodeReading.Leveldb.VersionReads
import Mathlib.Algebra.Order.Field.Rat

/-!
# Which compaction is due

A level is due for a compaction when its score is at least one, a file when reads have passed it
too often. Nothing checks the level of such a file: that it is not the last follows from the order
in which a read visits files and from charging the first of two. Scores are rational numbers here.
-/

namespace CodeReading.Leveldb

open List Option

variable {Key : Type} [LinearOrder Key]

def kL0CompactionTrigger : Nat := 4

def maxBytesForLevel (level : Nat) : Nat := 10 * 1048576 * 10 ^ (level - 1)

abbrev Visit (Key : Type) [LinearOrder Key] := Nat × FileMetaData Key

section

variable (version : Version Key)

/-- The score of a level in `Finalize`. -/
def Version.score (level : Nat) : ℚ :=
  if level = 0 then (version.files level).length / kL0CompactionTrigger
  else totalFileSize (version.files level) / maxBytesForLevel level

/-- `Finalize`: `compaction_level_` and `compaction_score_`. -/
def Version.finalize : Int × ℚ :=
  (range (kNumLevels - 1)).foldl (fun best level =>
    if best.2 < version.score level then (level, version.score level) else best) (-1, -1)

/-- The files that `ForEachOverlapping` visits, with their levels. -/
def Version.visits (userKey : Key) (internalKey : InternalKey Key) : List (Visit Key) :=
  (levelZeroCandidates (version.files 0) userKey).map (0, ·) ++
    (range' 1 (kNumLevels - 1)).filterMap fun level =>
      (levelCandidate (version.files level) userKey internalKey).map (level, ·)

end

/-- The file that `Get` charges. The search goes on while the tables do not have the key. -/
def getCharge (missing : FileMetaData Key → Bool) (lastFileRead seekFile : Option (Visit Key)) :
    List (Visit Key) → Option (Visit Key)
  | [] => seekFile
  | visit :: rest =>
      if missing visit.2 then getCharge missing (some visit) (seekFile.or lastFileRead) rest
      else seekFile.or lastFileRead

/-- The first file that `RecordReadSample` sees, and how many it sees. -/
def sampleMatches (first : Option (Visit Key)) (found : Nat) :
    List (Visit Key) → Option (Visit Key) × Nat
  | [] => (first, found)
  | visit :: rest =>
      let first := if found + 1 = 1 then some visit else first
      if found + 1 < 2 then sampleMatches first (found + 1) rest else (first, found + 1)

/-- `allowed_seeks` of the files, `file_to_compact_` and `file_to_compact_level_`. -/
structure Seeks (Key : Type) [LinearOrder Key] where
  allowedSeeks : Nat → Int
  fileToCompact : Option (Visit Key) := none

def Seeks.updateStats (seeks : Seeks Key) : Option (Visit Key) → Seeks Key
  | none => seeks
  | some visit =>
      let allowed := seeks.allowedSeeks visit.2.number - 1
      ⟨Function.update seeks.allowedSeeks visit.2.number allowed,
        if allowed ≤ 0 ∧ seeks.fileToCompact = none then some visit else seeks.fileToCompact⟩

/-- The calls of `Get`, with the tables that do not have the key, and of `RecordReadSample`, with
the key if it can be parsed. -/
inductive ReadCall (Key : Type) [LinearOrder Key] where
  | get (userKey : Key) (sequence : Nat) (missing : FileMetaData Key → Bool)
  | sample (key : Option (InternalKey Key))

variable {version : Version Key} {visit : Visit Key}

def ReadCall.charge (version : Version Key) : ReadCall Key → Option (Visit Key)
  | .get userKey snapshot missing =>
      getCharge missing none none (version.visits userKey (lookupKey userKey snapshot))
  | .sample key => key.bind fun key =>
      let (first, found) := sampleMatches none 0 (version.visits key.userKey key)
      if 2 ≤ found then first else none

def Seeks.afterReads (version : Version Key) (seeks : Seeks Key) (calls : List (ReadCall Key)) :
    Seeks Key :=
  calls.foldl (fun seeks call => seeks.updateStats (call.charge version)) seeks

/-- What makes `PickCompaction` start. -/
def Seeks.trigger (version : Version Key) (seeks : Seeks Key) : Option (Trigger Key) :=
  if 1 ≤ version.finalize.2 then some (.size version.finalize.1.toNat)
  else seeks.fileToCompact.map fun visit => .seek visit.1 visit.2

theorem visits_mem (mem : visit ∈ version.visits userKey internalKey) :
    visit.1 < kNumLevels ∧ visit.2 ∈ version.files visit.1 := by
  cases mem_append.mp mem with
  | inl zero =>
    obtain ⟨file, inside, rfl⟩ := mem_map.mp zero
    exact ⟨Nat.zero_lt_succ 6, ((candidates_mem _ _ _).mp inside).1⟩
  | inr deeper =>
    obtain ⟨_, inside, found⟩ := mem_filterMap.mp deeper
    obtain ⟨file, candidate, rfl⟩ := map_eq_some_iff.mp found
    have bound := (mem_range'_1.mp inside).2
    exact ⟨bound, mem_of_getElem? (filter_eq_some_iff.mp candidate).1⟩

/-- Only level 0 is visited more than once, and the levels are visited in their order. -/
theorem visits_ordered (version : Version Key) (userKey : Key) (internalKey : InternalKey Key) :
    (version.visits userKey internalKey).Pairwise fun left right =>
      left.1 = 0 ∨ left.1 < right.1 := by
  have zero : ∀ visit ∈ (levelZeroCandidates (version.files 0) userKey).map (Prod.mk 0),
      visit.1 = 0 := by simp
  refine pairwise_append.mpr ⟨pairwise_of_forall_mem_list ?_, pairwise_filterMap.mpr ?_, ?_⟩
  · intro left mem _ _
    exact Or.inl (zero left mem)
  · refine (pairwise_lt_range' 1 Nat.one_pos).imp ?_
    intro _ _ less left first right second
    obtain ⟨_, _, rfl⟩ := map_eq_some_iff.mp first
    obtain ⟨_, _, rfl⟩ := map_eq_some_iff.mp second
    exact Or.inr less
  · intro left mem _ _
    exact Or.inl (zero left mem)

/-- The file can be compacted into the level below its own. -/
def Compactable (version : Version Key) (visit : Visit Key) : Prop :=
  visit.1 + 1 < kNumLevels ∧ visit.2 ∈ version.files visit.1

theorem first_compactable (seen : version.visits userKey internalKey = visit :: second :: rest) :
    Compactable version visit := by
  have ordered := visits_ordered version userKey internalKey
  rw [seen] at ordered
  have first := visits_mem (seen ▸ mem_cons_self)
  have next := visits_mem (seen ▸ mem_cons_of_mem visit mem_cons_self)
  refine ⟨?_, first.2⟩
  rcases rel_of_pairwise_cons ordered mem_cons_self with zero | less
  · rw [zero]
    decide
  · omega

theorem getCharge_charged (missing : FileMetaData Key → Bool) (lastFileRead : Option (Visit Key))
    (visits : List (Visit Key)) :
    getCharge missing lastFileRead (some visit) visits = some visit := by
  induction visits generalizing lastFileRead with
  | nil => rfl
  | cons next _ ih =>
    rw [getCharge]
    split
    · exact ih (some next)
    · rfl

/-- Both callbacks charge the first of at least two files. -/
theorem charge_compactable {call : ReadCall Key} (charged : call.charge version = some visit) :
    Compactable version visit := by
  cases call with
  | get userKey sequence missing =>
    rw [ReadCall.charge] at charged
    match seen : version.visits userKey (lookupKey userKey sequence) with
    | [] => simp [seen, getCharge] at charged
    | [_] => simp [seen, getCharge] at charged
    | first :: second :: rest =>
      obtain ⟨-, rfl⟩ : missing first.2 = true ∧ first = visit := by
        simpa [seen, getCharge, getCharge_charged] using charged
      exact first_compactable seen
  | sample key =>
    obtain ⟨key, _, charged⟩ := bind_eq_some_iff.mp charged
    match seen : version.visits key.userKey key with
    | [] => simp [seen, sampleMatches] at charged
    | [_] => simp [seen, sampleMatches] at charged
    | first :: second :: rest =>
      obtain rfl : first = visit := by simpa [seen, sampleMatches] using charged
      exact first_compactable seen

theorem afterReads_compactable (version : Version Key) (seeks : Seeks Key)
    (calls : List (ReadCall Key))
    (start : ∀ visit, seeks.fileToCompact = some visit → Compactable version visit) :
    ∀ visit, (seeks.afterReads version calls).fileToCompact = some visit →
      Compactable version visit := by
  refine foldlRecOn (motive := fun seeks : Seeks Key => ∀ visit,
    seeks.fileToCompact = some visit → Compactable version visit) calls _ start ?_
  intro seeks known call _ visit chosen
  match charged : call.charge version with
  | none => exact known visit (by simpa [charged, Seeks.updateStats] using chosen)
  | some next =>
    rw [charged, Seeks.updateStats] at chosen
    simp only at chosen
    split at chosen
    · cases chosen
      exact charge_compactable charged
    · exact known visit chosen

theorem score_nonempty (due : 1 ≤ version.score level) : version.files level ≠ [] := by
  intro empty
  rw [Version.score, empty] at due
  split at due
  · rw [length_nil, Nat.cast_zero, zero_div] at due
    exact absurd due (by decide)
  · rw [totalFileSize, map_nil, sum_nil, Nat.cast_zero, zero_div] at due
    exact absurd due (by decide)

/-- A level that is due has files and is not the last. -/
theorem finalize_level (version : Version Key) : version.finalize.1 < kNumLevels - 1 ∧
    (1 ≤ version.finalize.2 → 0 ≤ version.finalize.1 ∧
      version.files version.finalize.1.toNat ≠ []) := by
  refine foldlRecOn (motive := fun best : Int × ℚ => best.1 < kNumLevels - 1 ∧
    (1 ≤ best.2 → 0 ≤ best.1 ∧ version.files best.1.toNat ≠ [])) _ _ ?_ ?_
  · exact ⟨by decide, fun due => absurd due (by decide)⟩
  · intro best known level inside
    split
    · have bound := mem_range.mp inside
      refine ⟨?_, fun due => ⟨Int.natCast_nonneg level, score_nonempty due⟩⟩
      simp only [kNumLevels] at bound ⊢
      omega
    · exact known

/-- What `PickCompaction` takes for granted of the level it starts with. -/
def Trigger.Ready (version : Version Key) : Trigger Key → Prop
  | .size level => level + 1 < kNumLevels ∧ version.files level ≠ []
  | .seek level file => level + 1 < kNumLevels ∧ file ∈ version.files level

theorem trigger_ready {seeks : Seeks Key}
    (charged : ∀ visit, seeks.fileToCompact = some visit → Compactable version visit)
    (starts : seeks.trigger version = some trigger) : trigger.Ready version := by
  rw [Seeks.trigger] at starts
  split at starts
  · next due =>
    obtain ⟨_, known⟩ := finalize_level version
    obtain ⟨_, nonempty⟩ := known due
    cases starts
    exact ⟨by omega, nonempty⟩
  · obtain ⟨visit, chosen, rfl⟩ := map_eq_some_iff.mp starts
    exact charged visit chosen

theorem pickCompaction_nonempty
    (found : pickCompaction options version compactPointer trigger = some compaction) :
    compaction.inputs0 ≠ [] := by
  obtain ⟨_, _, _, _, setup⟩ := pickCompaction_file found
  obtain ⟨_, _, _, _, _, ranged, _, outcome⟩ := setupOtherInputs_cases setup
  intro empty
  rcases outcome with ⟨first, _⟩ | ⟨_, _, grown, _⟩
  · rw [← first, empty] at ranged
    cases ranged
  · rw [empty] at grown
    cases grown

/-- Whatever was read of a version, the levels that may be compacted have a level below them, and
the compaction that `PickCompaction` then returns has inputs. -/
theorem compaction_level_in_range (options : Options) (version : Version Key)
    (compactPointer : Nat → Option (InternalKey Key)) (allowedSeeks : Nat → Int)
    (calls : List (ReadCall Key)) :
    let seeks := Seeks.afterReads version ⟨allowedSeeks, none⟩ calls
    (∀ visit, seeks.fileToCompact = some visit → visit.1 < kNumLevels - 1) ∧
    version.finalize.1 < kNumLevels - 1 ∧ (1 ≤ version.finalize.2 → 0 ≤ version.finalize.1) ∧
    ∀ trigger, seeks.trigger version = some trigger → trigger.Ready version ∧
      ∀ compaction, pickCompaction options version compactPointer trigger = some compaction →
        compaction.level + 1 < kNumLevels ∧ compaction.inputs0 ≠ [] := by
  have charged := afterReads_compactable version ⟨allowedSeeks, none⟩ calls (by simp)
  obtain ⟨bound, known⟩ := finalize_level version
  refine ⟨?_, bound, fun due => (known due).1, ?_⟩
  · intro visit chosen
    exact Nat.lt_sub_of_add_lt (charged visit chosen).1
  · intro trigger starts
    refine ⟨trigger_ready charged starts, ?_⟩
    intro compaction found
    exact ⟨(pickCompaction_drawn found).deepest, pickCompaction_nonempty found⟩

end CodeReading.Leveldb

import CodeReading.Leveldb.LogRoundTrip

/-!
# A log cut off at an arbitrary byte

However many sessions wrote a log, its bytes are the layout of the fragments of
all its records. A cut through a layout leaves some whole fragments and a piece,
possibly empty, of the trailer and fragment behind them. The reader returns the
records that the whole fragments complete, which are the records the file already
held when it was that long, and takes the piece for the end of the input.
-/

namespace CodeReading.Leveldb.Log

open List Nat

section

variable (leftInside : left ≤ kBlockSize) (rightInside : right ≤ kBlockSize)
  (same : left % kBlockSize = right % kBlockSize)
include leftInside rightInside same

/-- The fragments of a record depend on the offset only modulo the block size. -/
theorem fragments_congr (record : Bytes) :
    fragments left true record = fragments right true record := by
  obtain ⟨slots, _⟩ := slot_congr leftInside rightInside same
  have rooms : avail left = avail right := by rw [avail, avail, slots]
  rw [fragments, rooms, ← fragments.eq_def]

theorem recordFragments_congr (records : List Bytes) :
    recordFragments left records = recordFragments right records := by
  obtain ⟨slots, _⟩ := slot_congr leftInside rightInside same
  cases records with
  | nil => rfl
  | cons record rest =>
    have first := fragments_congr leftInside rightInside same record
    rw [recordFragments, recordFragments, first]
    -- A record has at least one fragment, and behind it the offsets are equal.
    cases cut : fragments right true record with
    | nil => exact absurd cut (fragments_ne_nil)
    | cons fragment others => rw [finish, finish, slots]

end

theorem recordFragments_append (offset : Nat) (left right : List Bytes) :
    recordFragments offset (left ++ right) = recordFragments offset left ++
      recordFragments (finish offset (recordFragments offset left)) right := by
  induction left generalizing offset with
  | nil => rfl
  | cons record rest ih => simp [recordFragments, ih, finish_append]

/-- One session appends the layout of its records from the file's own length. -/
theorem appendSession_layout (contents : Bytes) (records : List Bytes) (offset : Nat)
    (inside : offset ≤ kBlockSize) (same : contents.length % kBlockSize = offset % kBlockSize) :
    appendSession contents records =
      contents ++ layout offset (recordFragments offset records) := by
  have start : contents.length % kBlockSize ≤ kBlockSize := Nat.le_of_lt (Nat.mod_lt _ (by decide))
  have congruent : contents.length % kBlockSize % kBlockSize = offset % kBlockSize := by
    rw [mod_mod, same]
  rw [appendSession, addRecords_reliable _ records ⟨rfl, start, rfl⟩]
  simp only [Writer.reopen, WritableFile.holding]
  rw [recordFragments_congr start inside congruent records,
    (layout_congr start inside congruent _).1]

/-- Sessions leave no trace: the log is the layout of all records together. -/
theorem writeSessions_layout (sessions : List (List Bytes)) (old : List Bytes) :
    writeSessions (layout 0 (recordFragments 0 old)) sessions =
      layout 0 (recordFragments 0 (old ++ sessions.flatten)) := by
  induction sessions generalizing old with
  | nil => simp [writeSessions]
  | cons records rest ih =>
    have fits := recordFragments_fit 0 old
    have length := layout_length (zero_le _) fits
    rw [Nat.zero_add] at length
    have next : appendSession (layout 0 (recordFragments 0 old)) records =
        layout 0 (recordFragments 0 (old ++ records)) := by
      rw [appendSession_layout _ _ _ (finish_le (zero_le _) fits) length,
        recordFragments_append, layout_append]
    have tail := ih (old ++ records)
    rw [writeSessions, foldl_cons, next, ← writeSessions, tail, flatten_cons, append_assoc]

theorem log_layout (sessions : List (List Bytes)) :
    writeSessions [] sessions = layout 0 (recordFragments 0 sessions.flatten) :=
  writeSessions_layout sessions []

section

variable {sessions : List (List Bytes)} {done later : List Fragment} {fragment : Fragment}
  (split : recordFragments 0 sessions.flatten = done ++ fragment :: later)
include split

theorem log_around : writeSessions [] sessions = layout 0 done ++ trailer (finish 0 done) ++
    (fragment.bytes ++ layout (slot (finish 0 done) + fragment.size) later) := by
  rw [log_layout, split, layout_append, layout]
  simp

theorem fragment_placed : Fits 0 done ∧ slot (finish 0 done) + fragment.size ≤ kBlockSize ∧
    Fits (slot (finish 0 done) + fragment.size) later ∧ fragment.type ≠ .zeroType := by
  have fits := recordFragments_fit 0 sessions.flatten
  have real := recordFragments_real 0 sessions.flatten
  rw [split] at fits real
  rw [fits_append] at fits
  exact ⟨fits.1, fits.2.1, fits.2.2, real fragment (by simp)⟩

/-- It starts at the offset of its slot. -/
theorem start_mod :
    ((layout 0 done).length + (trailer (finish 0 done)).length) % kBlockSize =
      slot (finish 0 done) := by
  have fits := (fragment_placed split).1
  have length := layout_length (zero_le _) fits
  have room := slot_room (finish 0 done)
  have next := trailer_slot (finish 0 done) (finish_le (zero_le _) fits)
  rw [Nat.zero_add] at length
  rw [add_mod, length, ← add_mod, next, mod_eq_of_lt]
  simp only [kHeaderSize] at room
  omega

end

/-- The first `n` bytes of a layout: the fragments `done` are whole, and `count`
bytes of what stands behind them are left. -/
structure Cut (offset n : Nat) (done later : List Fragment) (count : Nat) : Prop where
  length : n = (layout offset done).length + count
  inside : ∀ fragment rest, later = fragment :: rest →
    count < (trailer (finish offset done)).length + fragment.size

theorem cut_exists (offset n : Nat) (fragments : List Fragment) :
    ∃ done later count, fragments = done ++ later ∧ Cut offset n done later count := by
  induction fragments generalizing offset n with
  | nil => exact ⟨[], [], n, rfl, by simp [layout], by simp⟩
  | cons fragment rest ih =>
    by_cases short : n < (trailer offset).length + fragment.size
    · refine ⟨[], fragment :: rest, n, rfl, by simp [layout], ?_⟩
      rintro _ _ ⟨rfl, rfl⟩
      exact short
    · obtain ⟨done, later, count, split, cut⟩ := ih
        (slot offset + fragment.size) (n - ((trailer offset).length + fragment.size))
      refine ⟨fragment :: done, later, count, by rw [split]; rfl, ?_, cut.inside⟩
      have length := cut.length
      simp only [layout, length_append, fragment_bytes_length]
      omega

variable {count : Nat} {done later : List Fragment}

theorem cut_take (cut : Cut offset n done later count) :
    (layout offset (done ++ later)).take n =
      layout offset done ++ (layout (finish offset done) later).take count := by
  rw [layout_append, cut.length, take_length_add_append]

/-- The records that the file already held when it had at most `n` bytes. -/
def contained : Bytes → List Bytes → Nat → List Bytes
  | _, [], _ => []
  | log, record :: rest, n =>
      let longer := appendSession log [record]
      (if longer.length ≤ n then [record] else []) ++ contained longer rest n

theorem contained_beyond {log : Bytes} (beyond : n < log.length) :
    contained log records n = [] := by
  induction records generalizing log with
  | nil => rfl
  | cons record rest ih =>
    have longer : log.length ≤ (appendSession log [record]).length := by
      rw [appendSession_layout log [record] _ (Nat.le_of_lt (Nat.mod_lt _ (by decide)))
        (mod_mod _ _).symm, length_append]
      exact le_add_right _ _
    rw [contained, if_neg (by omega), ih (by omega)]
    rfl

/-- A split of fragments behind or strictly before the end of the first ones. -/
theorem split_cases (split : first ++ rest = done ++ later) :
    (∃ others, done = first ++ others ∧ rest = others ++ later) ∨
      ∃ fragment lost, first = done ++ fragment :: lost ∧ later = fragment :: (lost ++ rest) := by
  rcases append_eq_append_iff.mp split with ⟨others, whole, tail⟩ | ⟨lost, whole, tail⟩
  · exact .inl ⟨others, whole, tail⟩
  · cases lost with
    | nil => exact .inl ⟨[], by simpa using whole.symm, by simpa using tail.symm⟩
    | cons fragment lost => exact .inr ⟨fragment, lost, whole, tail⟩

/-- The records contained in a cut log are those its whole fragments complete.
The induction is on the records; a cut inside the fragments of one of them leaves
out that record and all later ones. -/
theorem contained_cut (records : List Bytes) (log : Bytes) (offset n : Nat)
    (done later : List Fragment) (count : Nat) (inside : offset ≤ kBlockSize)
    (same : log.length % kBlockSize = offset % kBlockSize)
    (split : recordFragments offset records = done ++ later) (cut : Cut offset n done later count) :
    contained log records (log.length + n) = (assemble none done).1 := by
  induction records generalizing log offset n done with
  | nil =>
    have none : done = [] := (append_eq_nil_iff.mp split.symm).1
    rw [none]
    rfl
  | cons record rest ih =>
    have longer : appendSession log [record] =
        log ++ layout offset (fragments offset true record) := by
      rw [appendSession_layout log [record] offset inside same]
      simp [recordFragments]
    have fits := fragments_fit offset true record
    rw [contained]
    rcases split_cases split with ⟨others, rfl, tail⟩ | ⟨_, _, whole, tail⟩
    · have length := cut.length
      rw [layout_append, length_append] at length
      have finished := layout_length inside fits
      have later := ih (appendSession log [record]) _
        (n - (layout offset (fragments offset true record)).length) others
        (finish_le inside fits)
        (by rw [longer, length_append, add_mod, same, ← add_mod, finished]) tail
        ⟨by omega, by simpa only [finish_append] using cut.inside⟩
      have total : (appendSession log [record]).length +
          (n - (layout offset (fragments offset true record)).length) = log.length + n := by
        rw [longer, length_append]
        omega
      rw [total] at later
      rw [later, assemble_append, assemble_fragments, if_pos (by omega)]
    · have short := cut.inside _ _ tail
      have beyond : log.length + n < (appendSession log [record]).length := by
        rw [longer, whole, length_append, layout_append, length_append, cut.length, layout]
        simp only [length_append, fragment_bytes_length]
        omega
      rw [if_neg (by omega), contained_beyond beyond, assemble_unfinished none (by simp) whole]
      rfl

/-- A piece of a trailer and a fragment, with nothing behind it, ends the input. -/
theorem cut_ends
    (positioned : Positioned reader offset ((layout offset later).take count))
    (fits : Fits offset later)
    (inside : ∀ fragment rest, later = fragment :: rest → count < (trailer offset).length +
      fragment.size) : EndsQuietly reader := by
  cases later with
  | nil =>
    rw [layout, take_nil] at positioned
    exact ends_short positioned (by decide) (zero_le _)
  | cons fragment rest =>
    have short := inside fragment rest rfl
    have piece : (layout offset (fragment :: rest)).take count =
        (trailer offset ++ fragment.bytes).take count := by
      rw [layout, take_append_of_le_length]
      simp only [length_append, fragment_bytes_length]
      omega
    rw [piece] at positioned
    rcases Nat.lt_or_ge (trailer offset).length count with torn | inTrailer
    · obtain ⟨extra, rfl⟩ := Nat.exists_eq_add_of_lt torn
      have split : (trailer offset ++ fragment.bytes).take ((trailer offset).length + extra + 1) =
          trailer offset ++ fragment.bytes.take (extra + 1) := by
        rw [Nat.add_assoc, take_length_add_append]
      rw [split] at positioned
      obtain ⟨next, sameRead, atSlot, kept⟩ := read_slot positioned
      have ends : EndsQuietly next := by
        have pieceLength : (fragment.bytes.take (extra + 1)).length ≤ extra + 1 :=
          length_take_le _ _
        rcases Nat.lt_or_ge (extra + 1) kHeaderSize with headless | headed
        · have room := slot_room offset
          exact ends_short atSlot (by omega) (by omega)
        · exact ends_torn atSlot fits.1 headed (by omega)
      obtain ⟨final, read, exhausted, drops⟩ := ends
      exact ⟨final, sameRead.trans read, exhausted, drops.trans kept⟩
    · rw [take_append_of_le_length inTrailer] at positioned
      have length : ((trailer offset).take count).length ≤ (trailer offset).length :=
        length_take_le' _ _
      have low : (trailer offset).length < kHeaderSize ∧
          (trailer offset).length ≤ kBlockSize - offset := by
        unfold trailer
        split
        · simpa using by assumption
        · simp [kHeaderSize]
      exact ends_short positioned (by omega) (by omega)

/-- A cut log, with its whole fragments and what the reader makes of them. The
bytes behind the cut, if any, are left open. -/
theorem cut_drain (split : recordFragments 0 sessions.flatten = done ++ later)
    (cut : Cut 0 n done later count) (added : Bytes) :
    let tail := (layout (finish 0 done) later).take count
    let reader := Reader.create ((writeSessions [] sessions).take n ++ added) true 0
    ∃ next assembly, Positioned next (finish 0 done) (tail ++ added) ∧
      assembly.pending = (assemble none done).2 ∧
      reader.readAll = (contained [] sessions.flatten n ++ (next.drain assembly).1,
        (next.drain assembly).2) ∧
      next.drops = [] := by
  intro tail reader
  have records := contained_cut sessions.flatten [] 0 n done later count (zero_le _) rfl split
    cut
  rw [length_nil, Nat.zero_add] at records
  have fits := recordFragments_fit 0 sessions.flatten
  have real := recordFragments_real 0 sessions.flatten
  obtain ⟨_, proper⟩ := assemble_recordFragments 0 sessions.flatten
  rw [split] at fits real proper
  obtain ⟨_, atBlock, sameDrain, drops⟩ :=
    create_drain ((writeSessions [] sessions).take n ++ added)
  have body : (writeSessions [] sessions).take n ++ added = layout 0 done ++ (tail ++ added) := by
    rw [log_layout, split, cut_take cut, append_assoc]
  rw [body] at atBlock
  obtain ⟨next, assembly, positioned, pending, drained, quiet⟩ := drain_layout
    .start atBlock (fits_append.mp fits).1
    (fun fragment mem => real fragment (mem_append_left _ mem))
  refine ⟨next, assembly, positioned, pending, ?_, ?_⟩
  · rw [sameDrain, drained, records]
    rfl
  · rw [quiet (proper_append.mp proper).1, drops]

/-- Reading a truncated log: exactly the contained records, and no report. -/
theorem truncated_readAll (sessions : List (List Bytes)) (n : Nat) :
    let reader := Reader.create ((writeSessions [] sessions).take n) true 0
    reader.readAll.1 = contained [] sessions.flatten n ∧ reader.readAll.2.drops = [] := by
  intro reader
  obtain ⟨_, _, _, split, cut⟩ := cut_exists 0 n (recordFragments 0 sessions.flatten)
  obtain ⟨_, assembly, positioned, _, drained, quiet⟩ := cut_drain split cut []
  rw [append_nil] at positioned drained
  have fits := recordFragments_fit 0 sessions.flatten
  rw [split, fits_append] at fits
  obtain ⟨_, ended, _, drops⟩ := drain_end assembly
    (cut_ends positioned fits.2 cut.inside)
  constructor
  · rw [drained, ended, append_nil]
  · rw [drained, ended, drops, quiet]

end CodeReading.Leveldb.Log

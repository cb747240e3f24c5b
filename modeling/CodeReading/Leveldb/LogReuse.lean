import CodeReading.Leveldb.LogDamage
import CodeReading.Leveldb.LogFailures

/-!
# Writing on behind a cut

`RecoverLogFile` and `ReuseManifest` reopen a file at its length and append to it;
what a crash left at its end is not removed. Behind whole fragments, and inside a
trailer, the new records are read back. Inside a physical record they are parsed
together with its remains, and whether they survive depends on where the block
ends. `Spoils` is the exact condition on the cut.
-/

namespace CodeReading.Leveldb.Log

open List Nat

/-- New records reset what an earlier one left unfinished. -/
theorem assemble_newRecords (pending : Option Bytes) (offset : Nat) (record : Bytes)
    (rest : List Bytes) :
    (assemble pending (recordFragments offset (record :: rest))).1 = record :: rest := by
  rw [recordFragments, assemble_append, assemble_fragments, (assemble_recordFragments _ rest).1]
  rfl

theorem drain_newRecords (assembly : Assembly)
    (positioned : Positioned reader start (layout start (recordFragments offset (record :: rest))))
    (fits : Fits start (recordFragments offset (record :: rest))) :
    (reader.drain assembly).1 = record :: rest := by
  rw [← append_nil (layout start _)] at positioned
  obtain ⟨_, assembly', atEnd, _, drained, _⟩ := drain_layout assembly
    positioned fits (recordFragments_real offset _)
  obtain ⟨_, ended, _⟩ := drain_end assembly'
    (ends_short atEnd (by decide) (zero_le _))
  rw [drained, ended, assemble_newRecords, append_nil]

/-- Inside a trailer the writer completes the trailer, so that the new records
stand where they would stand behind the whole fragments. -/
theorem resume_trailer (offset count : Nat) (added : List Fragment) (inside : offset ≤ kBlockSize)
    (within : count ≤ (trailer offset).length) (some : added ≠ []) :
    (trailer offset).take count ++ layout ((offset + count) % kBlockSize) added =
        layout offset added ∧
      (Fits ((offset + count) % kBlockSize) added → Fits offset added) := by
  obtain ⟨fragment, rest, rfl⟩ := exists_cons_of_ne_nil some
  by_cases low : kBlockSize - offset < kHeaderSize
  · have length : (trailer offset).length = kBlockSize - offset := by simp [trailer, low]
    have slotZero : slot offset = 0 := if_pos low
    rw [length] at within
    rcases Nat.lt_or_ge (offset + count) kBlockSize with short | full
    · have stillLow : kBlockSize - (offset + count) < kHeaderSize := by omega
      rw [Nat.mod_eq_of_lt short]
      simp only [layout, Fits, slot, trailer, low, stillLow, if_true, take_replicate]
      rw [Nat.min_eq_left within, ← append_assoc, ← append_assoc, ← replicate_add]
      have total : count + (kBlockSize - (offset + count)) = kBlockSize - offset := by omega
      rw [total]
      exact ⟨rfl, id⟩
    · have exactly : count = kBlockSize - offset := by omega
      have whole : offset + count = kBlockSize := by omega
      have slotStart : slot 0 = 0 := by decide
      have noTrailer : trailer 0 = [] := by decide
      rw [whole, mod_self, exactly, ← length, take_length]
      simp only [layout, Fits, slotZero, slotStart, noTrailer, nil_append, append_assoc, true_and]
      exact id
  · have none : trailer offset = [] := if_neg low
    rw [none] at within ⊢
    have zero : count = 0 := by simpa using within
    rw [zero, Nat.add_zero, take_nil, nil_append]
    obtain ⟨same, fits, _⟩ := layout_congr (Nat.le_of_lt (Nat.mod_lt _ (by decide)))
      inside (Nat.mod_mod _ _) (fragment :: rest)
    exact ⟨same, fits.mp⟩

/-- Reopen a truncated log at its length, add records, and read the result. -/
def reuse (sessions : List (List Bytes)) (n : Nat) (more : List Bytes) : List Bytes :=
  (Reader.create (appendSession ((writeSessions [] sessions).take n) more) true 0).readAll.1

variable {done later : List Fragment} {n : Nat} {sessions : List (List Bytes)}

theorem reuse_none (sessions : List (List Bytes)) (n : Nat) :
    reuse sessions n [] = contained [] sessions.flatten n :=
  (truncated_readAll sessions n).1

section

variable {count : Nat} (split : recordFragments 0 sessions.flatten = done ++ later)
  (cut : Cut 0 n done later count)
include split cut

theorem cut_length : ((writeSessions [] sessions).take n).length =
      (layout 0 done).length + ((layout (finish 0 done) later).take count).length := by
  rw [log_layout, split, cut_take cut, length_append]

/-- Behind whole fragments, or inside a trailer, reuse is safe. -/
theorem reuse_clean (clean : later = [] ∨ count ≤ (trailer (finish 0 done)).length)
    (more : List Bytes) : reuse sessions n more = contained [] sessions.flatten n ++ more := by
  cases more with
  | nil => rw [reuse_none, append_nil]
  | cons record rest =>
    have fits := recordFragments_fit 0 sessions.flatten
    rw [split, fits_append] at fits
    have finished := finish_le (zero_le _) fits.1
    -- Either way the tail is an initial part of the trailer that is due.
    obtain ⟨part, within, tail⟩ : ∃ part ≤ (trailer (finish 0 done)).length,
        (layout (finish 0 done) later).take count = (trailer (finish 0 done)).take part := by
      cases later with
      | nil => exact ⟨0, zero_le _, by simp [layout]⟩
      | cons fragment others =>
        have short : count ≤ (trailer (finish 0 done)).length := by simpa using clean
        refine ⟨count, short, ?_⟩
        rw [layout, append_assoc, take_append_of_le_length short]
    have length : ((writeSessions [] sessions).take n).length % kBlockSize =
        (finish 0 done + part) % kBlockSize := by
      have body := layout_length (zero_le _) fits.1
      rw [Nat.zero_add] at body
      rw [cut_length split cut, tail, length_take,
        Nat.min_eq_left within, Nat.add_mod, body, ← Nat.add_mod]
    have inside : (finish 0 done + part) % kBlockSize ≤ kBlockSize :=
      Nat.le_of_lt (Nat.mod_lt _ (by decide))
    have added := appendSession_layout ((writeSessions [] sessions).take n) (record :: rest) _
      inside (by rw [length, mod_mod])
    generalize start : (finish 0 done + part) % kBlockSize = reopened at *
    obtain ⟨_, assembly, positioned, _, drained, _⟩ := cut_drain split cut
      (layout reopened (recordFragments reopened (record :: rest)))
    obtain ⟨resumed, resumedFits⟩ := resume_trailer (finish 0 done) part
      (recordFragments reopened (record :: rest)) finished within
      (by simp [recordFragments, fragments_ne_nil])
    rw [start] at resumed resumedFits
    rw [tail, resumed] at positioned
    rw [reuse, added, drained, drain_newRecords assembly positioned
      (resumedFits (recordFragments_fit _ _))]

end

section

variable {count : Nat} (split : recordFragments 0 sessions.flatten = done ++ fragment :: later)
  (cut : Cut 0 n done (fragment :: later) ((trailer (finish 0 done)).length + count))
include split cut

/-- A torn physical record: the reader stands in front of its remains and of what
was appended to them. -/
theorem reuse_torn (more : List Bytes) :
    let start := slot (finish 0 done)
    n % kBlockSize = start + count ∧
    ∃ next assembly, Positioned next start (fragment.bytes.take count ++
        layout (start + count) (recordFragments (start + count) more)) ∧
      assembly.pending = (assemble none done).2 ∧
      reuse sessions n more = contained [] sessions.flatten n ++ (next.drain assembly).1 := by
  intro start
  have short := cut.inside fragment later rfl
  have fragmentFits : start + fragment.size ≤ kBlockSize := (fragment_placed split).2.1
  have tail : (layout (finish 0 done) (fragment :: later)).take
      ((trailer (finish 0 done)).length + count) =
      trailer (finish 0 done) ++ fragment.bytes.take count := by
    rw [layout, append_assoc, take_length_add_append,
      take_append_of_le_length (by rw [fragment_bytes_length]; omega)]
  have position : n % kBlockSize = start + count := by
    rw [cut.length, ← Nat.add_assoc, Nat.add_mod, start_mod split, Nat.add_mod_mod]
    exact mod_eq_of_lt (by omega)
  have length : ((writeSessions [] sessions).take n).length = n := by
    rw [cut_length split cut, tail, length_append, length_take, fragment_bytes_length, cut.length]
    omega
  have added := appendSession_layout ((writeSessions [] sessions).take n) more (start + count)
    (by omega) (by rw [length, position, mod_eq_of_lt (by omega)])
  obtain ⟨next, assembly, positioned, pending, drained, _⟩ := cut_drain split cut
    (layout (start + count) (recordFragments (start + count) more))
  rw [tail, append_assoc] at positioned
  obtain ⟨atSlot, sameRead, slotPositioned, _⟩ := read_slot positioned
  refine ⟨position, atSlot, assembly, slotPositioned, pending, ?_⟩
  rw [reuse, added, drained, drain_congr assembly sameRead]

/-- In the block of the torn record a new empty record is lost. -/
theorem reuse_sameBlock (started : 0 < count) (room : kHeaderSize ≤ kBlockSize - n % kBlockSize) :
    reuse sessions n [[]] ≠ contained [] sessions.flatten n ++ [[]] := by
  obtain ⟨_, fragmentFits, _, real⟩ := fragment_placed split
  have short := cut.inside fragment later rfl
  obtain ⟨position, _, assembly, positioned, _, result⟩ := reuse_torn split cut [[]]
  rw [position] at room
  have none : trailer (slot (finish 0 done) + count) = [] := if_neg (by omega)
  have added : layout (slot (finish 0 done) + count)
      (recordFragments (slot (finish 0 done) + count) [[]]) = header .fullType [] := by
    simp [recordFragments, fragments_empty, layout, none, Fragment.bytes]
  rw [added] at positioned
  have lost := drain_sameBlock assembly positioned fragmentFits
    real started (by omega) (by omega)
  rw [result]
  intro same
  exact lost (append_cancel_left same)

/-- When the torn record ends up in a filled block, the new records are read back,
behind the torn record if zero bytes completed it. -/
theorem reuse_filledBlock (low : kBlockSize - n % kBlockSize < kHeaderSize) (record : Bytes)
    (rest : List Bytes) : reuse sessions n (record :: rest) = contained [] sessions.flatten n ++
      ((if Completes fragment count then
          (absorb (assemble none done).2 ⟨fragment.type, completed fragment count⟩).1
        else none).toList ++ record :: rest) := by
  obtain ⟨_, fragmentFits, _, real⟩ := fragment_placed split
  have short := cut.inside fragment later rfl
  obtain ⟨position, next, assembly, positioned, pending, result⟩ :=
    reuse_torn split cut (record :: rest)
  rw [position] at low
  generalize start : slot (finish 0 done) + count = reopened at *
  obtain ⟨resumed, _⟩ := resume_trailer reopened (trailer reopened).length
    (recordFragments reopened (record :: rest)) (by omega) (Nat.le_refl _)
    (by simp [recordFragments, fragments_ne_nil])
  have filler : trailer reopened = replicate (kBlockSize - reopened) 0 := if_pos low
  have whole : (reopened + (trailer reopened).length) % kBlockSize = 0 := by
    rw [filler, length_replicate, Nat.add_sub_cancel' (by omega), Nat.mod_self]
  rw [whole, take_length, filler] at resumed
  rw [← resumed, ← append_assoc] at positioned
  subst start
  obtain ⟨_, assembly', atBlock, drained⟩ := drain_filledBlock next _ assembly fragment count _
    positioned fragmentFits real (by omega) low
  have newFits : Fits 0 (recordFragments (slot (finish 0 done) + count) (record :: rest)) := by
    have original := recordFragments_fit (slot (finish 0 done) + count) (record :: rest)
    have slotZero : slot (slot (finish 0 done) + count) = slot 0 := (if_pos low).trans (by decide)
    obtain ⟨_, _, is⟩ := exists_cons_of_ne_nil (show recordFragments
      (slot (finish 0 done) + count) (record :: rest) ≠ [] by
        simp [recordFragments, fragments_ne_nil])
    rw [is] at original ⊢
    simpa only [Fits, slotZero] using original
  rw [result, drained, pending, drain_newRecords assembly' atBlock newFits]

end

/-- The cut falls inside a physical record, and either a new record goes into the
same block, or zero bytes complete a record that ends there to its checksum. -/
def Spoils (fragments : List Fragment) (n : Nat) : Prop :=
  ∃ done fragment later, fragments = done ++ fragment :: later ∧
    let start := (layout 0 done).length + (trailer (finish 0 done)).length
    start < n ∧ n < start + fragment.size ∧
      (kHeaderSize ≤ kBlockSize - n % kBlockSize ∨
        (fragment.type = .fullType ∨ fragment.type = .lastType) ∧
          Completes fragment (n - start))

/-- A spoiled cut loses the next record or brings back the torn one. -/
theorem reuse_spoiled (spoils : Spoils (recordFragments 0 sessions.flatten) n) :
    reuse sessions n [[]] ≠ contained [] sessions.flatten n ++ [[]] := by
  obtain ⟨done, fragment, later, split, started, _, condition⟩ := spoils
  obtain ⟨count, rfl⟩ := Nat.exists_eq_add_of_lt started
  let before := (layout 0 done).length + (trailer (finish 0 done)).length
  have cut : Cut 0 (before + count + 1) done (fragment :: later)
      ((trailer (finish 0 done)).length + (count + 1)) := by
    refine ⟨by omega, ?_⟩
    rintro _ _ ⟨rfl, rfl⟩
    omega
  rcases condition with room | ⟨kind, completes⟩
  · exact reuse_sameBlock split cut (by omega) room
  · rcases Nat.lt_or_ge (kBlockSize - (before + count + 1) % kBlockSize) kHeaderSize with low | room
    · have torn : before + count + 1 - before = count + 1 := by omega
      rw [torn] at completes
      rw [reuse_filledBlock split cut low [] [], if_pos completes]
      -- The log continues properly, so a last fragment has a record to complete.
      obtain ⟨_, proper⟩ := assemble_recordFragments 0 sessions.flatten
      rw [split, proper_append] at proper
      have continued := proper.2.1
      intro same
      have lengths := congrArg length same
      rcases kind with kind | kind
      · simp [before, absorb, kind] at lengths
      · rw [kind] at continued
        obtain ⟨_, pending⟩ := Option.ne_none_iff_exists'.mp continued
        simp [before, absorb, kind, pending] at lengths
    · exact reuse_sameBlock split cut (by omega) room

theorem reuse_unspoiled (unspoiled : ¬ Spoils (recordFragments 0 sessions.flatten) n)
    (more : List Bytes) : reuse sessions n more = contained [] sessions.flatten n ++ more := by
  obtain ⟨done, later, count, split, cut⟩ := cut_exists 0 n (recordFragments 0 sessions.flatten)
  by_cases clean : later = [] ∨ count ≤ (trailer (finish 0 done)).length
  · exact reuse_clean split cut clean more
  · obtain ⟨some, torn⟩ := not_or.mp clean
    obtain ⟨fragment, others, rfl⟩ := exists_cons_of_ne_nil some
    obtain ⟨extra, rfl⟩ := Nat.exists_eq_add_of_lt (Nat.lt_of_not_le torn)
    have length := cut.length
    have short := cut.inside fragment others rfl
    have harmless : ¬ (kHeaderSize ≤ kBlockSize - n % kBlockSize ∨
        (fragment.type = .fullType ∨ fragment.type = .lastType) ∧
          Completes fragment (extra + 1)) := by
      intro _
      refine unspoiled ⟨done, fragment, others, split, by omega, by omega, ?_⟩
      have inside : n - ((layout 0 done).length + (trailer (finish 0 done)).length) =
          extra + 1 := by omega
      rwa [inside]
    obtain ⟨_, unread⟩ := not_or.mp harmless
    cases more with
    | nil => rw [reuse_none, append_nil]
    | cons record rest =>
      have real := (fragment_placed split).2.2.2
      rw [Nat.add_assoc] at cut
      rw [reuse_filledBlock split cut
        (by omega) record rest]
      congr 1
      split
      next completes =>
        cases kind : fragment.type with
        | zeroType => exact absurd kind real
        | fullType => exact absurd ⟨.inl kind, completes⟩ unread
        | lastType => exact absurd ⟨.inr kind, completes⟩ unread
        | firstType => rfl
        | middleType => cases (assemble none done).2 <;> rfl
      next => rfl

/-- A truncated log always reads as the records it contains, without a report.
Reusing it works for all further records exactly when the cut does not spoil it. -/
theorem truncated_reuse (sessions : List (List Bytes)) (n : Nat) :
    (Reader.create ((writeSessions [] sessions).take n) true 0).readAll.1 =
        contained [] sessions.flatten n ∧
      (Reader.create ((writeSessions [] sessions).take n) true 0).readAll.2.drops = [] ∧
      ((∀ more, reuse sessions n more = contained [] sessions.flatten n ++ more) ↔
        ¬ Spoils (recordFragments 0 sessions.flatten) n) := by
  obtain ⟨records, quiet⟩ := truncated_readAll sessions n
  refine ⟨records, quiet, ?_, ?_⟩
  · intro reusable spoils
    exact reuse_spoiled spoils (reusable [[]])
  · exact reuse_unspoiled

/-- Three bytes of the only record are left; the record added behind them is lost. -/
theorem truncated_reuse_loses : contained [] [[]] 3 = [] ∧ reuse [[[]]] 3 [[]] = [] := by
  have written (contents : Bytes) (short : contents.length = 0 ∨ contents.length = 3) :
      appendSession contents [[]] = contents ++ header .fullType [] := by
    rw [appendSession_layout contents [[]] contents.length
      (by rcases short with is | is <;> rw [is] <;> decide) rfl]
    have none : trailer contents.length = [] := by rcases short with is | is <;> rw [is] <;> rfl
    simp [recordFragments, fragments_empty, layout, none, Fragment.bytes]
  have log : writeSessions [] [[[]]] = header .fullType [] := written [] (.inl rfl)
  constructor
  · rw [contained, written [] (.inl rfl)]
    rfl
  · rw [reuse, log, written _ (.inr rfl)]
    exact torn_header_hides

end CodeReading.Leveldb.Log

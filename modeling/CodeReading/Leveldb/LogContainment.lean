import CodeReading.Leveldb.LogDamage

/-!
# Damage in the middle of a log

A physical record that the reader rejects takes the record it is a part of with it, and no other.
`placed` lists the records of a log with the positions at which their fragments start, and
`survive` is `assemble` over a layout of which some fragments are lost. The reader returns the
records of which no fragment is lost: when the rest of a block was overwritten, and when the type
of a physical record is one that no record has.
-/

namespace CodeReading.Leveldb.Log

open List RecordType Nat

/-- Where the fragments start that are laid out from a position of the file, which is at an offset
of its block. -/
def starts : Nat → Nat → List Fragment → List Nat
  | _, _, [] => []
  | position, offset, fragment :: rest =>
      let start := position + (trailer offset).length
      start :: starts (start + fragment.size) (slot offset + fragment.size) rest

/-- The records of a log and where their fragments start. -/
def placed : Nat → Nat → List Bytes → List (Bytes × List Nat)
  | _, _, [] => []
  | position, offset, record :: rest =>
      let parts := fragments offset true record
      (record, starts position offset parts) ::
        placed (position + (layout offset parts).length) (finish offset parts) rest

/-- The records that fragments form when those that are not kept are lost, and with each the record
under construction. -/
def survive (kept : Nat → Bool) :
    Nat → Nat → Option Bytes → List Fragment → List Bytes × Option Bytes
  | _, _, pending, [] => ([], pending)
  | position, offset, pending, fragment :: rest =>
      let start := position + (trailer offset).length
      let answer := if kept start then absorb pending fragment else (none, none)
      let later := survive kept (start + fragment.size) (slot offset + fragment.size) answer.2 rest
      (answer.1.toList ++ later.1, later.2)

variable {kept : Nat → Bool}

theorem layout_cons_length (fragment : Fragment) (rest : List Fragment) :
    (layout offset (fragment :: rest)).length = (trailer offset).length + fragment.size +
      (layout (slot offset + fragment.size) rest).length := by
  simp [layout, Nat.add_assoc]

theorem starts_within {fragments : List Fragment} (mem : start ∈ starts position offset fragments) :
    position ≤ start ∧ start < position + (layout offset fragments).length := by
  induction fragments generalizing position offset with
  | nil => exact absurd mem not_mem_nil
  | cons fragment rest ih =>
    have size := fragment_size_pos fragment
    rw [layout_cons_length]
    simp only [kHeaderSize] at size
    rcases mem_cons.mp mem with rfl | later
    · omega
    · have := ih later
      omega

theorem survive_append (left right : List Fragment) :
    survive kept position offset pending (left ++ right) =
      let first := survive kept position offset pending left
      let later := survive kept (position + (layout offset left).length) (finish offset left) first.2
        right
      (first.1 ++ later.1, later.2) := by
  induction left generalizing position offset pending with
  | nil => rfl
  | cons fragment rest ih =>
    rw [cons_append, survive, survive, ih, layout_cons_length, finish]
    simp [Nat.add_assoc]

theorem survive_assemble {fragments : List Fragment}
    (all : ∀ start ∈ starts position offset fragments, kept start = true) :
    survive kept position offset pending fragments = assemble pending fragments := by
  induction fragments generalizing position offset pending with
  | nil => rfl
  | cons fragment rest ih =>
    rw [survive, assemble, all _ (.head _)]
    simp only [if_true]
    rw [ih fun start mem => all start (.tail _ mem)]

theorem survive_lost {fragments : List Fragment} (some : fragments ≠ [] ∨ pending = none)
    (all : ∀ start ∈ starts position offset fragments, kept start = false) :
    survive kept position offset pending fragments = ([], none) := by
  induction fragments generalizing position offset pending with
  | nil => simpa [survive] using some
  | cons fragment rest ih =>
    rw [survive, all _ (.head _)]
    simp only [Bool.false_eq_true, if_false]
    rw [ih (.inr rfl) fun start mem => all start (.tail _ mem)]
    rfl

/-- The fragments that continue a record complete it if none of them is lost. -/
theorem survive_continued (left : Bytes) :
    survive kept position offset pending (fragments offset false left) =
      ((if (starts position offset (fragments offset false left)).all kept then
        pending.map (· ++ left) else none).toList, none) := by
  generalize flag : false = first
  fun_induction fragments offset first left generalizing position pending with
  | case1 offset first left enough =>
    subst flag
    cases isKept : kept (position + (trailer offset).length) <;> cases pending <;>
      simp [survive, starts, absorb, fragmentType, isKept]
  | case2 offset first left exceeds ih =>
    subst flag
    simp only [survive, starts, fragment_fills _ exceeds, ih rfl, all_cons]
    cases isKept : kept (position + (trailer offset).length) <;> cases pending <;>
      simp [absorb, fragmentType]

/-- A record is read if none of its fragments is lost, and leaves nothing behind. -/
theorem survive_fragments (record : Bytes) :
    survive kept position offset none (fragments offset true record) =
      (if (starts position offset (fragments offset true record)).all kept then [record] else [],
        none) := by
  rw [fragments]
  split
  · cases isKept : kept (position + (trailer offset).length) <;>
      simp [survive, starts, absorb, fragmentType, isKept]
  · next exceeds =>
    simp only [survive, starts, fragment_fills _ exceeds, survive_continued, all_cons]
    cases isKept : kept (position + (trailer offset).length) <;> simp [absorb, fragmentType]
    split <;> rfl

/-- The records of a log of which no fragment is lost. -/
def intact (kept : Nat → Bool) (records : List Bytes) : List Bytes :=
  ((placed 0 0 records).filter fun record => record.2.all kept).map Prod.fst

theorem survive_records (records : List Bytes) :
    survive kept position offset none (recordFragments offset records) =
      (((placed position offset records).filter fun record => record.2.all kept).map Prod.fst,
        none) := by
  induction records generalizing position offset with
  | nil => rfl
  | cons record rest ih =>
    rw [recordFragments, survive_append, survive_fragments, placed]
    simp only [ih, filter_cons]
    split <;> simp_all

/-- Reading goes on to the end of a part of a log, and reports nothing. -/
theorem readAll_before (records : List Bytes) (done later : List Fragment) (hurt : Bytes)
    (split : recordFragments 0 records = done ++ later) :
    ∃ reader assembly, Positioned reader (slot (finish 0 done)) hurt ∧ reader.drops = [] ∧
      assembly.pending = (assemble none done).2 ∧
      (Reader.create (layout 0 done ++ (trailer (finish 0 done) ++ hurt)) true 0).readAll =
        ((assemble none done).1 ++ (reader.drain assembly).1, (reader.drain assembly).2) := by
  have real := recordFragments_real 0 records
  have fits := recordFragments_fit 0 records
  have proper := (assemble_recordFragments 0 records).2
  rw [split] at real fits proper
  obtain ⟨_, atBlock, sameDrain, unreported⟩ :=
    create_drain (layout 0 done ++ (trailer (finish 0 done) ++ hurt))
  obtain ⟨_, between, atTrailer, pending, drained, quiet⟩ := drain_layout .start atBlock
    (fits_append.mp fits).1 fun fragment mem => real fragment (mem_append_left _ mem)
  obtain ⟨here, sameRead, atSlot, same⟩ := read_slot atTrailer
  refine ⟨here, between, atSlot, ?_, pending, ?_⟩
  · rw [same, quiet (proper_append.mp proper).1, unreported]
  · rw [← drain_congr between sameRead]
    exact sameDrain.trans drained

/-- Reading goes round a part of a log: some consecutive fragments were replaced by bytes that the
reader passes over, and with them the record under construction. -/
theorem readAll_around (kept : Nat → Bool) (records : List Bytes) (done lost later : List Fragment)
    (hurt : Bytes) (behind : Nat) (Reported : Reader → Prop)
    (split : recordFragments 0 records = done ++ (lost ++ later)) (some : lost ≠ [])
    (fits : Fits behind later)
    (passed : ∀ reader assembly, Positioned reader (slot (finish 0 done)) hurt →
      reader.drops = [] → assembly.pending = (assemble none done).2 →
      ∃ next assembly', Positioned next behind (layout behind later) ∧ assembly'.pending = none ∧
        Reported (next.drain assembly').2 ∧ reader.drain assembly = next.drain assembly')
    (before : ∀ start ∈ starts 0 0 done, kept start = true)
    (inside : ∀ start ∈ starts (layout 0 done).length (finish 0 done) lost, kept start = false)
    (after : ∀ start ∈ starts ((layout 0 done).length + (layout (finish 0 done) lost).length)
      (finish (finish 0 done) lost) later, kept start = true) :
    let outcome :=
      (Reader.create (layout 0 done ++ (trailer (finish 0 done) ++ hurt)) true 0).readAll
    outcome.1 = intact kept records ∧ Reported outcome.2 := by
  intro outcome
  have real := recordFragments_real 0 records
  rw [split] at real
  obtain ⟨here, between, atSlot, unreported, pending, whole⟩ :=
    readAll_before records done (lost ++ later) hurt split
  obtain ⟨next, assembly, positioned, nothing, reported, passed⟩ :=
    passed here between atSlot unreported pending
  rw [passed] at whole
  rw [← append_nil (layout behind later)] at positioned
  obtain ⟨_, unfinished, atEnd, _, rest, _⟩ := drain_layout assembly positioned fits
    fun fragment mem => real fragment (mem_append_right _ (mem_append_right _ mem))
  obtain ⟨_, ended, _⟩ := drain_end unfinished (ends_short atEnd (by decide) (zero_le _))
  refine ⟨?_, by rwa [show outcome = _ from whole]⟩
  have survivors : survive kept 0 0 none (recordFragments 0 records) = _ := survive_records records
  simp only [split, survive_append, Nat.zero_add, survive_assemble before,
    survive_lost (.inl some) inside, survive_assemble after, nil_append] at survivors
  rw [show outcome = _ from whole, rest, ended, nothing, intact, append_nil]
  exact congrArg Prod.fst survivors

variable {sessions : List (List Bytes)} {done rest : List Fragment} {fragment : Fragment}

/-! ## The rest of a block overwritten -/

/-- The header at the beginning of the bytes fails verification: its length exceeds them, it is
that of a preallocated region, or its checksum is wrong. -/
def Rejected (bytes : Bytes) : Prop :=
  bytes.length < kHeaderSize + headerLength bytes ∨
    (signExtend (bytes.getD 6 0) = RecordType.zeroType.code ∧ headerLength bytes = 0) ∨
    Crc32c.value ((bytes.drop 6).take (1 + headerLength bytes)) ≠
      Crc32c.unmask (decodeFixed32 bytes)

theorem facing_rejected (facing : Facing reader offset piece stream)
    (full : piece.length = kBlockSize - offset) (rejected : Rejected piece) :
    ∃ drops, reader.readPhysicalRecord =
      (kBadRecord, [], { reader with buffer := [], drops := drops }) := by
  have unread : reader.eof = false := by
    rw [facing.positioned.eof]
    simp [full]
  rcases facing_read facing with ⟨_, drops, read⟩ | ⟨_, drops, read⟩ | ⟨_, checked, real, _⟩
  · exact ⟨drops, by simpa [unread] using read⟩
  · exact ⟨drops, read⟩
  · rcases rejected with short | zero | mismatch
    · omega
    · exact absurd zero real
    · exact absurd checked mismatch

/-- Behind a block boundary a layout goes on as one of its own. -/
theorem layout_dropBlock {fragments : List Fragment} (fits : Fits offset fragments)
    (inside : offset ≤ kBlockSize) :
    ∃ lost later, fragments = lost ++ later ∧ Fits 0 later ∧
      (layout offset fragments).drop (kBlockSize - offset) = layout 0 later ∧
      (layout offset lost).length ≤ kBlockSize - offset ∧
      ∀ position, starts (position + (layout offset lost).length) (finish offset lost) later =
        starts (position + (kBlockSize - offset)) 0 later := by
  obtain ⟨lost, later, count, rfl, cut⟩ := cut_exists offset (kBlockSize - offset) fragments
  rw [fits_append] at fits
  refine ⟨lost, later, rfl, ?_⟩
  have length := cut.length
  rw [layout_append, length, drop_length_add_append]
  cases later with
  | nil => exact ⟨trivial, drop_nil, le_add_right _ _, fun _ => rfl⟩
  | cons fragment rest =>
    -- A fragment does not reach over the boundary, so only a trailer is left of the block.
    have closes : slot (finish offset lost) = 0 ∧ (trailer (finish offset lost)).length = count := by
      have within := cut.inside fragment rest rfl
      have here := fits.2.1
      have aligned := layout_length inside fits.1
      have finished := finish_le inside fits.1
      by_cases low : kBlockSize - finish offset lost < kHeaderSize
      · simp only [slot, trailer, if_pos low, length_replicate, true_and] at *
        simp only [kBlockSize, kHeaderSize] at *
        omega
      · simp only [slot, trailer, if_neg low, length_nil] at *
        simp only [kBlockSize, kHeaderSize] at *
        omega
    have atStart : slot 0 = 0 ∧ trailer 0 = [] := ⟨rfl, rfl⟩
    refine ⟨?_, ?_, le_add_right _ _, fun position => ?_⟩
    · simpa only [Fits, closes, atStart] using fits.2
    · rw [layout, layout, append_assoc, ← closes.2, drop_left, closes.1, atStart.1, atStart.2]
      rfl
    · simp [starts, closes, atStart, Nat.add_assoc]

/-- When the bytes from the start of a physical record to the end of its block are replaced by
others whose header fails verification, the records without a fragment there are returned. -/
theorem damagedBlock_contained (damage : Bytes)
    (split : recordFragments 0 sessions.flatten = done ++ fragment :: rest) :
    let log := writeSessions [] sessions
    let start := (layout 0 done ++ trailer (finish 0 done)).length
    let blockEnd := (start / kBlockSize + 1) * kBlockSize
    damage.length = blockEnd - start → Rejected damage →
    (Reader.create (log.take start ++ damage ++ log.drop blockEnd) true 0).readAll.1 =
      intact (fun position => position < start || blockEnd ≤ position) sessions.flatten := by
  intro log start blockEnd length rejected
  obtain ⟨_, fitsHere, fitsRest, _⟩ := fragment_placed split
  have room := slot_room (finish 0 done)
  have begins : start = (layout 0 done).length + (trailer (finish 0 done)).length := length_append
  have ends : blockEnd = start + (kBlockSize - slot (finish 0 done)) := by
    have atSlot := start_mod split
    have division := div_add_mod start kBlockSize
    rw [← begins] at atSlot
    rw [show blockEnd = (start / kBlockSize + 1) * kBlockSize from rfl, Nat.add_mul, Nat.one_mul,
      Nat.mul_comm]
    omega
  have body : log = _ := log_around split
  obtain ⟨lost, later, rfl, fitsLater, dropped, _, same⟩ := layout_dropBlock fitsRest fitsHere
  have hurt : log.take start ++ damage ++ log.drop blockEnd =
      layout 0 done ++ (trailer (finish 0 done) ++ (damage ++ layout 0 later)) := by
    rw [body, take_left, ends, drop_append, drop_eq_nil_of_le (by omega), ← dropped, drop_append,
      drop_eq_nil_of_le (by rw [fragment_bytes_length]; omega), fragment_bytes_length]
    simp [start, Nat.sub_sub]
  rw [hurt]
  refine (readAll_around _ sessions.flatten done (fragment :: lost) later _ 0 (fun _ => True) split
    (cons_ne_nil _ _) fitsLater ?_ ?_ ?_ ?_).1
  · intro reader assembly positioned _ _
    have full : damage.length = kBlockSize - slot (finish 0 done) := by omega
    have facing : Facing reader (slot (finish 0 done)) damage (layout 0 later) :=
      ⟨positioned, by omega, .inl full⟩
    obtain ⟨_, read⟩ := facing_rejected facing full rejected
    obtain ⟨drops', last, assembly', nothing, drained⟩ :=
      drain_discard assembly read positioned.synced (.inl rfl)
    obtain ⟨next, atBlock, same⟩ := facing.drain_nextBlock full [] (by decide) drops' last assembly'
    exact ⟨next, assembly', atBlock, nothing, trivial, drained.trans same⟩
  · intro position mem
    have within := starts_within mem
    simp only [Bool.or_eq_true, decide_eq_true_eq]
    omega
  · intro position mem
    have above := (starts_within mem).2
    rw [layout_cons_length] at above
    have below : start ≤ position := by
      rcases mem_cons.mp mem with rfl | later
      · omega
      · have := (starts_within later).1
        omega
    simp only [Bool.or_eq_false_iff, decide_eq_false_iff_not]
    omega
  · intro position mem
    have moved := same (start + fragment.size)
    rw [begins] at moved
    rw [layout_cons_length, finish, ← Nat.add_assoc, ← Nat.add_assoc, moved, ← begins] at mem
    have within := (starts_within mem).1
    simp only [Bool.or_eq_true, decide_eq_true_eq]
    omega

/-- The first block of a record of two, overwritten with zeros. -/
theorem damagedBlock_contained_zeros :
    let record := replicate kBlockSize 7
    let log := writeSessions [] [[record]]
    (Reader.create (log.take 0 ++ replicate kBlockSize 0 ++ log.drop kBlockSize) true
      0).readAll.1 = intact (fun position => position < 0 || kBlockSize ≤ position) [record] := by
  intro record log
  have exceeds : ¬ record.length ≤ avail 0 := by
    rw [length_replicate]
    decide
  have split : recordFragments 0 [[record]].flatten =
      [] ++ ⟨.firstType, record.take (avail 0)⟩ ::
        (fragments kBlockSize false (record.drop (avail 0)) ++ []) := by
    rw [flatten_singleton, recordFragments, fragments, if_neg exceeds]
    rfl
  have rejected : Rejected (replicate kBlockSize 0) :=
    .inr (.inl (by simp only [headerLength, zeros_getD]; decide))
  exact damagedBlock_contained _ split length_replicate rejected

/-! ## A physical record of an unknown type -/

/-- A type that is neither one of the format nor one of the reader's own codes is reported, and
takes the record under construction with it. -/
theorem drain_unknown {reader next : Reader} (assembly : Assembly) {code : Nat}
    (read : reader.readPhysicalRecord = (code, payload, next)) (synced : next.resyncing = false)
    (fromStart : next.initialOffset = 0) (unknown : kBadRecord < code) :
    ∃ bytes assembly', assembly'.pending = none ∧
      reader.drain assembly = ({ next with drops := next.drops ++
        [(bytes, .corruption ("unknown record type " ++ toString code))] } : Reader).drain
          assembly' := by
  have other : code ≠ fullType.code ∧ code ≠ firstType.code ∧
      code ≠ middleType.code ∧ code ≠ lastType.code ∧ code ≠ kEof ∧
      code ≠ kBadRecord := by
    simp only [kBadRecord, kEof, kMaxRecordType, RecordType.code] at *
    omega
  refine ⟨payload.length + if assembly.inFragmentedRecord then assembly.scratch.length else 0,
    { assembly with scratch := [], inFragmentedRecord := false }, rfl, ?_⟩
  rw [drain_turn, turn_read assembly read synced]
  simp [Reader.dispatch, other, reportCorruption_fromStart fromStart]

/-- The code of a bad record is reported only inside of a record. -/
theorem drain_bad {reader next : Reader} (assembly : Assembly)
    (read : reader.readPhysicalRecord = (kBadRecord, payload, next))
    (synced : next.resyncing = false) (fromStart : next.initialOffset = 0) :
    ∃ drops assembly', assembly'.pending = none ∧
      reader.drain assembly = ({ next with drops := drops } : Reader).drain assembly' ∧
      (assembly.pending = none → drops = next.drops) ∧
      (assembly.pending ≠ none → drops ≠ []) := by
  have turn : reader.turn assembly = _ := turn_read assembly read synced
  cases inside : assembly.inFragmentedRecord with
  | false =>
    refine ⟨next.drops, assembly, by simp [Assembly.pending, inside], ?_, fun _ => rfl,
      by simp [Assembly.pending, inside]⟩
    rw [drain_turn, turn]
    simp [Reader.dispatch, kBadRecord, kEof, kMaxRecordType, code, inside]
  | true =>
    refine ⟨next.drops ++ [(assembly.scratch.length, .corruption "error in middle of record")],
      { assembly with scratch := [], inFragmentedRecord := false }, rfl, ?_,
      by simp [Assembly.pending, inside], by simp⟩
    rw [drain_turn, turn]
    simp [Reader.dispatch, kBadRecord, kEof, kMaxRecordType, code, inside,
      reportCorruption_fromStart fromStart]

/-- A fragment that continues no record is reported. -/
theorem drain_orphan {reader : Reader} (assembly : Assembly)
    (positioned : Positioned reader offset (layout offset (fragment :: rest)))
    (fits : slot offset + fragment.size ≤ kBlockSize) (nothing : assembly.pending = none)
    (orphan : fragment.type = .middleType ∨ fragment.type = .lastType) :
    (reader.drain assembly).2.drops ≠ [] := by
  rw [layout, append_assoc] at positioned
  obtain ⟨_, sameRead, atSlot, _⟩ := read_slot positioned
  obtain ⟨next, read, behind, _⟩ := read_fragment atSlot fits (by grind)
  have outside : assembly.inFragmentedRecord = false := by simpa [Assembly.pending] using nothing
  have turn : reader.turn assembly = _ := turn_read assembly (sameRead.trans read) behind.synced
  obtain ⟨drop, again⟩ : ∃ drop, next.dispatch assembly fragment.type.code fragment.payload =
      (.again assembly, { next with drops := next.drops ++ [drop] }) := by
    rcases orphan with isType | isType <;> rw [isType] <;>
      simp [Reader.dispatch, code, outside, reportCorruption_fromStart behind.fromStart]
  rw [drain_turn, turn, again]
  exact ne_nil_of_mem (drain_drops _ _ (mem_append_right _ (.head _)))

/-- Records begin where none is under construction and go on where one is. -/
def Strict : Option Bytes → List Fragment → Prop
  | pending, [] => pending = none
  | pending, fragment :: rest =>
      (pending = none ↔ fragment.type = .fullType ∨ fragment.type = .firstType) ∧
        Strict (absorb pending fragment).2 rest

theorem strict_continued (left : Bytes) (strict : Strict none later) :
    Strict (some scratch) (fragments offset false left ++ later) := by
  generalize flag : false = first
  fun_induction fragments offset first left generalizing scratch with
  | case1 => simpa [Strict, absorb, fragmentType, ← flag] using strict
  | case2 offset first left exceeds inductionHypothesis =>
    simpa [Strict, absorb, fragmentType, ← flag] using inductionHypothesis rfl

theorem strict_records (records : List Bytes) : Strict none (recordFragments offset records) := by
  induction records generalizing offset with
  | nil => rfl
  | cons record records inductionHypothesis =>
    rw [recordFragments, fragments]
    split
    · simpa [Strict, absorb, fragmentType] using inductionHypothesis
    · simpa [Strict, absorb, fragmentType] using strict_continued _ inductionHypothesis

theorem strict_append (strict : Strict pending (left ++ right)) :
    Strict (assemble pending left).2 right := by
  induction left generalizing pending with
  | nil => exact strict
  | cons fragment left inductionHypothesis => exact inductionHypothesis strict.2

/-- Around a whole record the fragments continue each other. -/
theorem whole_alone (split : recordFragments 0 records = done ++ fragment :: rest)
    (isFull : fragment.type = .fullType) : (assemble none done).2 = none ∧ Proper none rest := by
  have strict : Strict none (recordFragments 0 records) := strict_records records
  have proper := (assemble_recordFragments 0 records).2
  rw [split] at strict proper
  refine ⟨(strict_append strict).1.mpr (.inl isFull), ?_⟩
  simpa [absorb, isFull] using (proper_append.mp proper).2.2

/-- A record that a fragment begins goes on. -/
theorem begun_continued (split : recordFragments 0 records = done ++ fragment :: rest)
    (partial_ : fragment.type ≠ .fullType) (nothing : (assemble none done).2 = none) :
    ∃ next later, rest = next :: later ∧ (next.type = .middleType ∨ next.type = .lastType) := by
  have strict : Strict none (recordFragments 0 records) := strict_records records
  have real := recordFragments_real 0 records
  rw [split] at strict real
  obtain ⟨begins, later⟩ := strict_append strict
  have isFirst := (begins.mp nothing).resolve_left partial_
  cases rest with
  | nil => simp [Strict, absorb, isFirst] at later
  | cons next rest =>
    have goesOn := later.1
    have real := real next (by simp)
    refine ⟨next, rest, rfl, ?_⟩
    cases kind : next.type <;> simp_all [absorb]

/-- A log in which one physical record has another type, with the checksum for it. -/
def retyped (byte : UInt8) (done : List Fragment) (fragment : Fragment) (rest : List Fragment) :
    Bytes :=
  layout 0 done ++ (trailer (finish 0 done) ++ (stamped byte fragment.payload ++
    fragment.payload ++ layout (slot (finish 0 done) + fragment.size) rest))

section

variable (split : recordFragments 0 sessions.flatten = done ++ fragment :: rest)
include split

/-- Reading goes round such a physical record. -/
theorem retyped_around (byte : UInt8) (Reported : Reader → Prop)
    (unknown : signExtend byte ≠ zeroType.code)
    (passed : ∀ (reader next : Reader) (assembly : Assembly),
      reader.readPhysicalRecord = (signExtend byte, fragment.payload, next) →
      Positioned next (slot (finish 0 done) + fragment.size)
        (layout (slot (finish 0 done) + fragment.size) rest) →
      next.drops = [] → assembly.pending = (assemble none done).2 →
      ∃ drops assembly', assembly'.pending = none ∧
        reader.drain assembly = ({ next with drops := drops } : Reader).drain assembly' ∧
        Reported (({ next with drops := drops } : Reader).drain assembly').2) :
    let start := (layout 0 done ++ trailer (finish 0 done)).length
    let outcome := (Reader.create (retyped byte done fragment rest) true 0).readAll
    outcome.1 = intact (fun position => position != start) sessions.flatten ∧
      Reported outcome.2 := by
  intro start outcome
  obtain ⟨_, fitsHere, fitsRest, _⟩ := fragment_placed split
  have begins : start = (layout 0 done).length + (trailer (finish 0 done)).length := length_append
  have apart {position : Nat} (distinct : position ≠ start) : (position != start) = true :=
    bne_iff_ne.mpr distinct
  refine readAll_around (· != start) sessions.flatten done [fragment] rest _
    (slot (finish 0 done) + fragment.size) Reported split (cons_ne_nil _ _) fitsRest ?_
    (fun position mem => apart (by have := starts_within mem; omega))
    (fun position mem => by simp_all [starts])
    (fun position mem => apart (by
      have := starts_within mem
      have := fragment_size_pos fragment
      simp only [layout_cons_length, kHeaderSize] at *
      omega))
  intro reader assembly positioned unreported pending
  obtain ⟨next, read, behind, same⟩ :=
    read_stamped positioned fitsHere fun zero => unknown zero.1
  obtain ⟨drops, assembly', nothing, drained, reported⟩ :=
    passed reader next assembly read behind (same.trans unreported) pending
  exact ⟨_, assembly', behind.noted drops next.lastRecordOffset, nothing, reported, drained⟩

/-- The code of the end ends the log there. -/
theorem retyped_end :
    (Reader.create (retyped 5 done fragment rest) true 0).readAll.2.drops = [] := by
  obtain ⟨_, fitsHere, _⟩ := fragment_placed split
  obtain ⟨_, assembly, positioned, unreported, _, whole⟩ :=
    readAll_before sessions.flatten done (fragment :: rest) (stamped 5 fragment.payload ++
      fragment.payload ++ layout (slot (finish 0 done) + fragment.size) rest) split
  obtain ⟨_, read, behind, same⟩ := read_stamped positioned fitsHere fun zero =>
    absurd zero.1 (by decide)
  rw [retyped, whole, drain_stop assembly read behind.synced]
  exact same.trans unreported

/-- The code of a bad record is passed over in silence in place of a whole record. -/
theorem retyped_bad :
    let start := (layout 0 done ++ trailer (finish 0 done)).length
    let outcome := (Reader.create (retyped 6 done fragment rest) true 0).readAll
    outcome.1 = intact (fun position => position != start) sessions.flatten ∧
      (outcome.2.drops ≠ [] ↔ fragment.type ≠ .fullType) := by
  obtain ⟨_, _, fitsRest, _⟩ := fragment_placed split
  have real := recordFragments_real 0 sessions.flatten
  rw [split] at real
  refine retyped_around split 6 (fun final => final.drops ≠ [] ↔ fragment.type ≠ .fullType)
    (by decide) fun reader next assembly read behind unreported pending => ?_
  obtain ⟨drops, assembly', nothing, drained, outside, inside⟩ :=
    drain_bad assembly read behind.synced behind.fromStart
  refine ⟨drops, assembly', nothing, drained, ?_⟩
  have behind := behind.noted drops next.lastRecordOffset
  by_cases isFull : fragment.type = .fullType
  · obtain ⟨before, alone⟩ := whole_alone split isFull
    rw [← append_nil (layout _ rest)] at behind
    obtain ⟨_, unfinished, atEnd, _, rest, quiet⟩ := drain_layout assembly' behind fitsRest
      fun other mem => real other (by simp [mem])
    obtain ⟨_, ended, _, same⟩ := drain_end unfinished (ends_short atEnd (by decide) (zero_le _))
    refine iff_of_false (not_not.mpr ?_) (not_not.mpr isFull)
    rw [rest, ended, same, quiet (nothing ▸ alone)]
    exact (outside (pending.trans before)).trans unreported
  · refine iff_of_true ?_ isFull
    by_cases before : (assemble none done).2 = none
    · obtain ⟨other, later, rfl, orphan⟩ := begun_continued split isFull before
      exact drain_orphan assembly' behind fitsRest.1 nothing orphan
    · obtain ⟨drop, reported⟩ := exists_mem_of_ne_nil drops (inside (pending ▸ before))
      exact ne_nil_of_mem (drain_drops _ _ reported)

end

/-- When the type of a physical record is replaced by one that no record has, and its checksum with
it, a corruption is reported and the records without this fragment are returned, unless the new type
is the code by which the reader tells itself of the end, or of a bad record and it was whole. -/
theorem unknownType_reported (byte : UInt8)
    (split : recordFragments 0 sessions.flatten = done ++ fragment :: rest)
    (unknown : kMaxRecordType < byte.toNat) :
    let log := writeSessions [] sessions
    let start := (layout 0 done ++ trailer (finish 0 done)).length
    let outcome := (Reader.create (log.take start ++ stamped byte fragment.payload ++
      log.drop (start + kHeaderSize)) true 0).readAll
    (outcome.1 = intact (fun position => position != start) sessions.flatten ∧
        outcome.2.drops ≠ [] ↔
      byte.toNat ≠ kEof ∧ (byte.toNat ≠ kBadRecord ∨ fragment.type ≠ .fullType)) ∧
    (byte.toNat ≠ kEof → byte.toNat ≠ kBadRecord →
      ∃ bytes, (bytes, .corruption ("unknown record type " ++ toString (signExtend byte))) ∈
        outcome.2.drops) := by
  intro log start outcome
  have hurt : log.take start ++ stamped byte fragment.payload ++ log.drop (start + kHeaderSize) =
      retyped byte done fragment rest := by
    rw [show log = _ from log_around split, take_left, drop_length_add_append,
      Fragment.bytes, append_assoc (header _ _), ← header_length fragment.type
      fragment.payload, drop_left]
    simp [retyped]
  rw [show outcome = _ from congrArg (fun log => (Reader.create log true 0).readAll) hurt]
  by_cases eof : byte.toNat = kEof
  · obtain rfl : byte = 5 := UInt8.toNat_inj.mp eof
    exact ⟨iff_of_false (fun reported => reported.2 (retyped_end split)) fun other => other.1 eof,
      fun other => absurd eof other⟩
  by_cases bad : byte.toNat = kBadRecord
  · obtain rfl : byte = 6 := UInt8.toNat_inj.mp bad
    have passed := retyped_bad split
    refine ⟨?_, fun _ other => absurd bad other⟩
    rw [and_iff_right passed.1, passed.2]
    simp [bad, kEof, kBadRecord]
  · have beyond : kBadRecord < signExtend byte := by
      simp only [signExtend, kBadRecord, kEof, kMaxRecordType] at *
      split <;> omega
    obtain ⟨records, bytes, reported⟩ := retyped_around split byte (fun final => ∃ bytes, (bytes,
      .corruption ("unknown record type " ++ toString (signExtend byte))) ∈ final.drops)
      (by rintro zero; rw [zero] at beyond; exact absurd beyond (by decide))
      fun reader next assembly read behind _ _ => by
        obtain ⟨bytes, assembly', nothing, drained⟩ :=
          drain_unknown assembly read behind.synced behind.fromStart beyond
        exact ⟨_, assembly', nothing, drained,
          bytes, drain_drops _ _ (mem_append_right _ (.head _))⟩
    exact ⟨iff_of_true ⟨records, ne_nil_of_mem reported⟩ ⟨eof, .inl bad⟩, fun _ _ =>
      ⟨bytes, reported⟩⟩

theorem pair_fragments : recordFragments 0 [[[1], [2]]].flatten =
    [] ++ ⟨.fullType, [1]⟩ :: recordFragments 8 [[2]] := by
  rw [flatten_singleton, recordFragments, fragments, if_pos (by decide)]
  rfl

theorem unknownType_reported_seven :
    let log := writeSessions [] [[[1], [2]]]
    let outcome := (Reader.create (log.take 0 ++ stamped 7 [1] ++ log.drop (0 + kHeaderSize)) true
      0).readAll
    outcome.1 = intact (fun position => position != 0) [[1], [2]] ∧
      ∃ bytes, (bytes, .corruption ("unknown record type " ++ toString 7)) ∈ outcome.2.drops :=
  have reported := unknownType_reported 7 pair_fragments (by decide)
  ⟨(reported.1.mpr ⟨by decide, .inl (by decide)⟩).1, reported.2 (by decide) (by decide)⟩

/-- A type byte that reads as the end of the file ends the log without a report. -/
theorem unknownType_silent :
    let log := writeSessions [] [[[1], [2]]]
    let outcome := (Reader.create (stamped 5 [1] ++ log.drop kHeaderSize) true 0).readAll
    outcome.1 = [] ∧ outcome.2.drops = [] := by
  intro log outcome
  obtain ⟨_, atBlock, sameDrain, quiet⟩ := create_drain (stamped 5 [1] ++ log.drop kHeaderSize)
  rw [show log = _ from log_around pair_fragments] at atBlock
  obtain ⟨_, read, behind, kept⟩ := read_stamped atBlock (by decide) (by decide)
  rw [show outcome = _ from sameDrain, drain_stop .start read behind.synced]
  exact ⟨rfl, kept.trans quiet⟩

end CodeReading.Leveldb.Log

import CodeReading.NetLink.Deserializer

/-!
# Rebuilding a tree

A deserializer that reads the bytes of a tree is always somewhere in that tree: its stack
is a path from the root, whose containers hold the children before the path, and either
the next child is to begin or the element at the end of the path is begun. Each turn of
the loop moves on by the bytes it reads, and the last one hands the tree over.
-/

namespace CodeReading.NetLink.Deserializer

open Element List Nat

/-- On this path the deserializer waits for an element, and what follows it is known. The
containers hold what was before the path; what is in their other slots will be replaced. -/
inductive Awaits (root : Element) : List Frame → Element → Bytes → Prop
  | root : Awaits root [] root []
  | child {below : List Frame} {kind : ContainerKind} {header : Bytes} {elements : List Element}
      {after : Bytes} (under : Awaits root below (container kind header elements) after)
      {index : Nat} {child : Element} (found : elements[index]? = some child)
      {filled : List Element} (size : filled.length = elements.length)
      (ready : filled.take index = elements.take index) :
      Awaits root (⟨container kind header filled, index⟩ :: below) child
        (bytesAll (elements.drop (index + 1)) ++ after)

/-- Where the deserializer stands in the tree, with the bytes that are missing. -/
inductive Reading (root : Element) : List Frame → Bytes → Prop
  | ready {stack : List Frame} {child : Element} {after : Bytes}
      (awaits : Awaits root stack child after) : Reading root stack (child.bytes ++ after)
  | amid {below : List Frame} {child part : Element} {after : Bytes} {place : Nat}
      (awaits : Awaits root below child after) (begun : Begun child place part)
      (started : 0 < place) (inside : place < child.own.length) :
      Reading root (⟨part, child.startSerialize + place⟩ :: below)
        (child.own.drop place ++ (bytesAll child.children ++ after))

section

variable {root child : Element} {after : Bytes}

theorem Awaits.portable (whole : root.Portable) (awaits : Awaits root stack child after) :
    child.Portable := by
  induction awaits with
  | root => exact whole
  | child under found size ready ih => exact ih.child (mem_of_getElem? found)

theorem Awaits.height (awaits : Awaits root stack child after) :
    child.height + stack.length ≤ root.height := by
  induction awaits with
  | root => exact Nat.le_refl _
  | @child below kind header elements after under index child found filled size ready
      ih =>
    have smaller : child.height < (container kind header elements).height :=
      child_height (mem_of_getElem? found)
    rw [length_cons]
    omega

theorem Awaits.low (whole : root.Portable) (awaits : Awaits root stack child after) :
    stack.length < 2 ^ 32 := by
  have bound := awaits.height
  have limit := whole.height
  have positive := height_pos child
  omega

end

/-- Where the deserializer goes when the element it waits for is done. -/
inductive Settled (root : Element) (after : Bytes) : Option Element × List Frame → Prop
  | done (last : after = []) : Settled root after (some root, [])
  | goes {stack : List Frame} {child : Element} {later : Bytes} (some : stack ≠ [])
      (awaits : Awaits root stack child later) (bytes : after = child.bytes ++ later) :
      Settled root after (none, stack)

variable {child : Element} {elements filled : List Element}

theorem take_succ_set (size : filled.length = elements.length)
    (found : elements[index]? = some child) (ready : filled.take index = elements.take index) :
    (filled.set index child).take (index + 1) = elements.take (index + 1) := by
  obtain ⟨inside, rfl⟩ := List.getElem?_eq_some_iff.mp found
  rw [take_succ_eq_append_getElem inside,
    take_succ_eq_append_getElem (by rw [length_set]; omega), getElem_set_self,
    take_set_of_le (Nat.le_refl _), ready]

theorem put_container (kind : ContainerKind) (header : Bytes) (elements : List Element)
    (index : Nat) (child : Element) :
    put ⟨container kind header elements, index⟩ child =
      ⟨container kind header (elements.set index child), index⟩ := rfl

variable {below : List Frame}

/-- After its current child a container goes on with the next, or is complete. -/
theorem Awaits.step {root : Element}
    {after : Bytes} (under : Awaits root below (container kind header elements) after)
    (found : elements[index]? = some child) (size : filled.length = elements.length)
    (ready : filled.take index = elements.take index) :
    (hasNext ⟨container kind header (filled.set index child), index⟩ = true ∧
        Settled root (bytesAll (elements.drop (index + 1)) ++ after)
          (none, ⟨container kind header (filled.set index child), (index : Int) + 1⟩ :: below)) ∨
      (hasNext ⟨container kind header (filled.set index child), index⟩ = false ∧
        filled.set index child = elements ∧ elements.drop (index + 1) = []) := by
  have filled_next := take_succ_set size found ready
  have size_next : (filled.set index child).length = elements.length := by
    rw [length_set, size]
  have inside : index < elements.length := (List.getElem?_eq_some_iff.mp found).1
  by_cases next : index + 1 < elements.length
  · refine .inl ⟨?_, .goes (cons_ne_nil _ _)
      (.child under (getElem?_eq_getElem next) size_next filled_next) ?_⟩
    · simp only [hasNext, getElementsVector, size_next, decide_eq_true_eq]
      omega
    · rw [drop_eq_getElem_cons next, bytesAll, append_assoc]
  · have last : index + 1 = elements.length := by omega
    refine .inr ⟨?_, ?_, drop_eq_nil_of_le (by omega)⟩
    · simp only [hasNext, getElementsVector, size_next, decide_eq_false_iff_not]
      omega
    · rwa [last, take_length, take_of_length_le (by omega)] at filled_next

/-- The done element is put in its parent, and the parents that are done with it leave the
stack. -/
theorem popDone_settled {after : Bytes} (awaits : Awaits root (top :: below) child after) :
    Settled root after (popDone 0 (put top child) below) := by
  induction below generalizing top child after with
  | nil =>
    cases awaits with
    | @child _ kind header elements _ under index _ found filled size ready =>
      cases under with
      | root =>
        rw [put_container, popDone]
        obtain ⟨next, goes⟩ | ⟨last, complete, nothing⟩ := Awaits.step .root found size ready
        · rw [if_pos next]
          exact goes
        · rw [last, if_neg Bool.false_ne_true, complete, nothing]
          exact .done rfl
  | cons parent below ih =>
    cases awaits with
    | @child _ kind header elements outer under index _ found filled size ready =>
      rw [put_container, popDone]
      obtain ⟨next, goes⟩ | ⟨last, complete, nothing⟩ := under.step found size ready
      · rw [if_pos next]
        exact goes
      · rw [last, if_neg Bool.false_ne_true, complete, nothing]
        exact ih under

section

variable {root child part : Element} {stack below : List Frame} {after : Bytes}

theorem elementDone_eq (low : below.length < 2 ^ 32) (read : Bytes) : elementDone top below read =
      ⟨(popDone 0 top below).2, read, (popDone 0 top below).1, true⟩ := by
  rw [elementDone, Nat.mod_eq_of_lt low, Nat.sub_self]

variable {kind : ContainerKind}

theorem vectorSize_eq (pairs : FewPairs (container kind header elements)) :
    kind.vectorSize (kind.length header) = kind.members (kind.length header) := by
  cases kind with
  | array => rfl
  | map =>
    have few : ContainerKind.map.length header < 2 ^ 31 := pairs
    exact mod_eq_of_lt (by omega)

theorem members_pos {length : Nat} : 0 < kind.members length ↔ 0 < length := by
  cases kind with
  | array => exact Iff.rfl
  | map => exact Nat.mul_pos_iff_of_pos_right Nat.two_pos

/-- An element whose own bytes are read is done, or gets a vector and waits for its first
child. -/
theorem own_read (portable : child.Portable) (begun : Begun child child.own.length part) :
    part = child ∧ child.children = [] ∧ part.containerDeserialized = none ∨
      ∃ made, part.containerDeserialized = some made ∧
        ∀ {root below after}, Awaits root below child after →
          Reading root (⟨made, child.startSerialize + child.own.length⟩ :: below)
            (bytesAll child.children ++ after) := by
  cases portable.fits.here with
  | primitive type selected =>
    cases begun
    exact .inl ⟨rfl, rfl, rfl⟩
  | number buffer selected length starts =>
    cases begun
    refine .inl ⟨?_, rfl, rfl⟩
    rw [own, take_length]
  | data kind header buffer selected headerLength starts length empty =>
    cases begun with
    | data _ _ _ part _ content present absent =>
      refine .inl ⟨?_, rfl, rfl⟩
      have size : (data kind header buffer).own.length =
          header.length + (buffer.getD []).length := length_append
      rw [size] at content present ⊢
      rw [Nat.add_sub_cancel_left, take_length] at content
      rw [take_of_length_le (le_add_right _ _)]
      congr 1
      cases buffer with
      | none => exact absent rfl
      | some bytes =>
        have some : 0 < bytes.length := by
          rw [Nat.pos_iff_ne_zero]
          intro none
          cases empty.mpr (length.symm.trans none)
        cases part with
        | none => exact absurd rfl (present (Nat.lt_add_of_pos_right some))
        | some bytes => exact congrArg Option.some content
  | container kind header elements selected headerLength starts length =>
    cases begun
    rw [own, take_length]
    cases elements with
    | nil =>
      have empty : ¬0 < kind.length header := by
        rw [← members_pos, ← length]
        exact Nat.lt_irrefl 0
      exact .inl ⟨rfl, rfl, if_neg empty⟩
    | cons first rest =>
      have some : 0 < kind.length header := by
        rw [← members_pos, ← length]
        exact succ_pos _
      refine .inr ⟨_, if_pos some, fun {root below after} awaits => ?_⟩
      rw [vectorSize_eq portable.pairs.here, ← length, startSerialize, getHeaderLength,
        ← headerLength, Int.add_left_neg]
      have starts : Awaits root
          (⟨container kind header (replicate (first :: rest).length null), (0 : Nat)⟩ :: below)
          first (bytesAll rest ++ after) := .child awaits rfl length_replicate rfl
      have reading := Reading.ready starts
      rwa [← append_assoc] at reading

/-- A child on top of the stack is done. -/
theorem Awaits.popDone_settled (awaits : Awaits root below child after)
    (childless : child.children = []) (pos : Nat) :
    Settled root after (popDone 0 ⟨child, pos⟩ below) := by
  have last : hasNext ⟨child, pos⟩ = false := by
    rw [children] at childless
    rw [hasNext]
    cases vector : child.getElementsVector with
    | none => rfl
    | some elements =>
      obtain rfl : elements = [] := by
        rw [vector] at childless
        exact childless
      exact decide_eq_false (by dsimp only [length_nil]; omega)
  cases below with
  | nil =>
    cases awaits with
    | root =>
      rw [popDone, last, if_neg Bool.false_ne_true]
      exact .done rfl
  | cons parent below =>
    rw [popDone, last, if_neg Bool.false_ne_true]
    exact Deserializer.popDone_settled awaits

/-- What is in the slot of an unfinished child does not matter. -/
theorem Awaits.put (awaits : Awaits root (top :: below) child after) (anything : Element) :
    Awaits root (put top anything :: below) child after := by
  cases awaits with
  | @child _ kind header elements _ under index _ found filled size ready =>
    rw [put_container]
    refine .child under found (by rw [length_set, size]) ?_
    rw [take_set_of_le (Nat.le_refl _), ready]

theorem Awaits.hasSlot (awaits : Awaits root (top :: below) child after) : hasSlot top = true := by
  cases awaits with
  | @child _ kind header elements _ under index _ found filled size ready =>
    have inside : index < elements.length := (List.getElem?_eq_some_iff.mp found).1
    exact decide_eq_true ⟨Int.natCast_nonneg index, by dsimp only; omega⟩

/-- The first byte of an element selects its class. -/
theorem begun_first (fits : child.Fits) :
    ∃ part, (select true (firstByte child.own)).startDeserialize (firstByte child.own) =
        (part, child.startSerialize + (1 : Nat)) ∧ Begun child 1 part := by
  cases fits with
  | primitive type selected =>
    refine ⟨primitive type, ?_, .primitive type⟩
    rw [own, firstByte, headD_cons, selected]
    rfl
  | number buffer selected length starts =>
    obtain ⟨first, rest, rfl⟩ := exists_cons_of_length_pos starts
    refine ⟨number [first], ?_, .number (first :: rest) 1⟩
    rw [own, selected]
    rfl
  | data kind header buffer selected headerLength starts length empty =>
    obtain ⟨first, rest, rfl⟩ := exists_cons_of_length_pos starts
    refine ⟨data kind [first] none, ?_, ?_⟩
    · have same : firstByte (data kind (first :: rest) buffer).own = firstByte (first :: rest) := rfl
      rw [same, selected]
      refine Prod.ext rfl ?_
      simp only [startDeserialize, startSerialize, getHeaderLength]
      omega
    · refine .data kind (first :: rest) buffer none 1 ?_ (fun beyond => ?_) (fun _ => rfl)
      · rw [length_cons, Nat.sub_eq_zero_of_le (Nat.le_add_left 1 _)]
        rfl
      · rw [length_cons] at beyond
        omega
  | container kind header elements selected headerLength starts length =>
    obtain ⟨first, rest, rfl⟩ := exists_cons_of_length_pos starts
    refine ⟨container kind [first] [], ?_, .container kind (first :: rest) elements 1⟩
    rw [own, selected]
    refine Prod.ext rfl ?_
    simp only [startDeserialize, startSerialize, getHeaderLength]
    omega

/-- What a turn keeps: it takes the beginning of what was missing from the input, and then
goes on in the tree or hands it over. -/
structure Turn.Reads (turn : Turn) (root : Element) (missing input : Bytes) : Prop where
  taken : turn.read <+: input
  moved : (turn.done = none ∧
      ∃ left, missing = turn.read ++ left ∧ Reading root turn.stack left) ∨
    (turn.done = some root ∧ turn.stack = [] ∧ missing = turn.read)

theorem Settled.reads {read : Bytes} (settled : Settled root after result) (taken : read <+: input)
    (bytes : missing = read ++ after) :
    Turn.Reads ⟨result.2, read, result.1, true⟩ root missing input := by
  cases settled with
  | done last =>
    refine ⟨taken, .inr ⟨rfl, rfl, ?_⟩⟩
    rw [bytes, last, append_nil]
  | goes some awaits following => exact ⟨taken, .inl ⟨rfl, _, bytes, following ▸ .ready awaits⟩⟩

theorem nextElement_reads (whole : root.Portable) (awaits : Awaits root stack child after)
    (stream : input ++ coming = child.bytes ++ after ++ more)
    (arrived : Nat) :
    ∃ turn, nextElement true stack input arrived = some turn ∧
      turn.Reads root (child.bytes ++ after) input ∧
      (0 < arrived → input ≠ [] → turn.read ≠ []) := by
  rw [nextElement]
  have portable := awaits.portable whole
  have fits := portable.fits.here
  cases available : input.take arrived with
  | nil =>
    refine ⟨_, rfl, ⟨List.nil_prefix, .inl ⟨rfl, _, rfl, .ready awaits⟩⟩, fun some here => ?_⟩
    obtain none | empty := take_eq_nil_iff.mp available
    · exact absurd none (Nat.ne_of_gt some)
    · exact absurd empty here
  | cons nextByte others =>
    obtain ⟨part, begins, begun⟩ := begun_first fits
    obtain ⟨first, _, own_eq⟩ := exists_cons_of_length_pos fits.own_pos
    have starts : [nextByte] <+: input := by
      have taken := take_prefix arrived input
      rw [available] at taken
      exact (prefix_append [nextByte] others).trans taken
    obtain rfl : nextByte = first := by
      obtain ⟨_, rfl⟩ := starts
      rw [bytes_eq, own_eq] at stream
      exact (cons.inj stream).1
    have bytes : child.bytes ++ after =
        [nextByte] ++ (child.own.drop 1 ++ (bytesAll child.children ++ after)) := by
      rw [bytes_eq, own_eq, append_assoc]
      rfl
    have head : firstByte child.own = nextByte := by rw [own_eq]; rfl
    rw [head] at begins
    have inside := fits.begun_inside begun Nat.one_pos fits.own_pos
    simp only [begins]
    by_cases long : 1 < child.own.length
    · -- more of its own bytes are to come
      rw [if_pos (inside.mpr long)]
      cases stack with
      | nil =>
        exact ⟨_, rfl, ⟨starts, .inl ⟨rfl, _, bytes, .amid awaits begun Nat.one_pos long⟩⟩,
          fun _ _ => cons_ne_nil _ _⟩
      | cons top below =>
        simp only [awaits.hasSlot, if_true]
        exact ⟨_, rfl, ⟨starts, .inl ⟨rfl, _, bytes, .amid (awaits.put part) begun Nat.one_pos long⟩⟩,
          fun _ _ => cons_ne_nil _ _⟩
    · have one : child.own.length = 1 := Nat.le_antisymm (Nat.le_of_not_lt long) fits.own_pos
      rw [if_neg (mt inside.mp long)]
      rw [drop_eq_nil_of_le (Nat.le_of_eq one), nil_append] at bytes
      rw [← one] at begun ⊢
      obtain ⟨rfl, childless, none⟩ | ⟨made, vector, reading⟩ := own_read portable begun
      · rw [none]
        rw [childless, bytesAll, nil_append] at bytes
        cases stack with
        | nil =>
          cases awaits with
          | root =>
            exact ⟨_, rfl, ⟨starts, .inr ⟨rfl, rfl, by rw [bytes, append_nil]⟩⟩,
              fun _ _ => cons_ne_nil _ _⟩
        | cons top below =>
          simp only [awaits.hasSlot, if_true]
          refine ⟨_, rfl, ?_, fun _ _ => ?_⟩
          · rw [elementDone_eq (lt_of_succ_lt (awaits.low whole))]
            exact (Deserializer.popDone_settled awaits).reads starts bytes
          · rw [elementDone_eq (lt_of_succ_lt (awaits.low whole))]
            exact cons_ne_nil _ _
      · rw [vector]
        cases stack with
        | nil =>
          exact ⟨_, rfl, ⟨starts, .inl ⟨rfl, _, bytes, reading awaits⟩⟩,
            fun _ _ => cons_ne_nil _ _⟩
        | cons top below =>
          simp only [awaits.hasSlot, if_true]
          exact ⟨_, rfl, ⟨starts, .inl ⟨rfl, _, bytes, reading (awaits.put made)⟩⟩,
            fun _ _ => cons_ne_nil _ _⟩

/-- One turn, wherever the deserializer stands in the tree. -/
theorem turn_reads (whole : root.Portable) (reading : Reading root stack missing)
    {coming more : Bytes} (stream : input ++ coming = missing ++ more) (bytesLeft : Nat)
    (arrived : Nat × Nat) :
    ∃ next, turn true stack input bytesLeft arrived = some next ∧ next.Reads root missing input ∧
      (0 < bytesLeft → 0 < arrived.1 → 0 < arrived.2 → input ≠ [] → next.read ≠ []) := by
  cases reading with
  | ready awaits =>
    obtain ⟨next, taken, reads, moves⟩ := nextElement_reads whole awaits stream arrived.1
    refine ⟨next, ?_, reads, fun _ first _ => moves first⟩
    cases awaits with
    | root => exact taken
    | @child _ kind header elements _ under index _ found filled size ready =>
      have started : ¬(index : Int) < ((container kind header filled).getEndPos : Nat) :=
        Int.not_lt.mpr (Int.natCast_nonneg index)
      rw [turn, if_neg started]
      exact taken
  | @amid below child part after place awaits begun started inside =>
    have portable := awaits.portable whole
    have fits := portable.fits.here
    rw [append_assoc] at stream
    obtain ⟨count, next, within, enough, read, continued, moves⟩ :=
      fits.deserialize_own begun started inside stream bytesLeft arrived
    have size : (input.take count).length = count := by
      rw [length_take, Nat.min_eq_left enough]
    have same : input.take count = (child.own.drop place).take count :=
      take_of_arrived stream enough (by rw [length_drop]; omega)
    have bytes : child.own.drop place ++ (bytesAll child.children ++ after) =
        input.take count ++ (child.own.drop (place + count) ++ (bytesAll child.children ++ after)) := by
      rw [same, ← append_assoc (take _ _), ← drop_drop, take_append_drop]
    have ended := fits.begun_inside continued (by omega) within
    rw [turn]
    simp only [if_pos ((fits.begun_inside begun started (Nat.le_of_lt inside)).mpr inside), read]
    by_cases nothing : input.take count = []
    · obtain rfl : count = 0 := by rw [← size, nothing, length_nil]
      rw [if_pos nothing]
      refine ⟨_, rfl, ⟨List.nil_prefix, .inl ⟨rfl, _, rfl, .amid awaits continued started inside⟩⟩, ?_⟩
      intro some first second here
      exact absurd (moves some first second (length_pos_iff.mpr here)) (Nat.lt_irrefl 0)
    rw [if_neg nothing]
    by_cases more_own : place + count < child.own.length
    · rw [if_pos (ended.mpr more_own)]
      exact ⟨_, rfl, ⟨List.take_prefix count input, .inl ⟨rfl, _, bytes,
        .amid awaits continued (by omega) more_own⟩⟩, fun _ _ _ _ => nothing⟩
    rw [if_neg (mt ended.mp more_own)]
    obtain last : place + count = child.own.length := Nat.le_antisymm within (by omega)
    rw [last] at continued ⊢
    rw [last, drop_length, nil_append] at bytes
    obtain ⟨rfl, childless, none⟩ | ⟨_, vector, reading⟩ := own_read portable continued
    · rw [none, elementDone_eq (awaits.low whole)]
      have following : bytesAll next.children ++ after = after := by
        rw [childless, bytesAll, nil_append]
      have end_eq : next.startSerialize + (next.own.length : Int) = (next.getEndPos : Nat) := by
        rw [fits.own_length, startSerialize]
        omega
      refine ⟨_, rfl, ?_, fun _ _ _ _ => nothing⟩
      rw [end_eq]
      exact (awaits.popDone_settled childless _).reads (List.take_prefix count input)
        (bytes.trans (congrArg _ following))
    · rw [vector]
      exact ⟨_, rfl, ⟨List.take_prefix count input, .inl ⟨rfl, _, bytes, reading awaits⟩⟩,
        fun _ _ _ _ => nothing⟩

end

end CodeReading.NetLink.Deserializer

import CodeReading.Brpc.H2Stream

/-!
# Header blocks that are cut between representations

A block is a sequence of representations. A whole representation is decoded in the same way
whatever follows it, so a block acts on the coder and on the header of the message as its
representations do one after another. Where the block is cut between two of them does not
matter.
-/

namespace CodeReading.Brpc

open List HPacker Nat

section

/-- What is read stays the same when more bytes follow. -/
def Parsed.followedBy {Value : Type} (more : Bytes) : Parsed Value → Parsed Value
  | .parsed consumed value rest => .parsed consumed value (rest ++ more)
  | .incomplete rest => .incomplete (rest ++ more)
  | .malformed => .malformed

variable {source rest : Bytes}

section

variable (read : decodeRest source number shift inBytes = .parsed consumed value rest)
include read

theorem decodeRest_append (more : Bytes) :
    decodeRest (source ++ more) number shift inBytes = .parsed consumed value (rest ++ more) := by
  induction source generalizing number shift inBytes with
  | nil => cases read
  | cons byte source ih =>
    rw [decodeRest] at read
    rw [cons_append, decodeRest]
    split at read
    · rename_i continues
      rw [if_pos continues]
      exact ih read
    · rename_i ends
      rw [if_neg ends]
      split at read
      · cases read
      · rename_i small
        rw [if_neg small]
        cases read
        rfl

theorem decodeRest_shorter : rest.length < source.length := by
  induction source generalizing number shift inBytes with
  | nil => cases read
  | cons byte source ih =>
    rw [decodeRest] at read
    rw [length_cons]
    split at read
    · exact lt_succ_of_lt (ih read)
    · split at read
      · cases read
      · cases read
        exact lt_succ_self _

end

section

variable (read : decodeInteger source prefixSize = .parsed consumed value rest)
include read

theorem decodeInteger_append (more : Bytes) :
    decodeInteger (source ++ more) prefixSize = .parsed consumed value (rest ++ more) := by
  cases source with
  | nil => cases read
  | cons first source =>
    rw [decodeInteger] at read
    rw [cons_append, decodeInteger]
    split at read
    · rename_i small
      rw [if_pos small]
      cases read
      rfl
    · rename_i large
      rw [if_neg large]
      exact decodeRest_append read more

theorem decodeInteger_shorter : rest.length < source.length := by
  cases source with
  | nil => cases read
  | cons first source =>
    rw [decodeInteger] at read
    rw [length_cons]
    split at read
    · cases read
      exact lt_succ_self _
    · exact lt_succ_of_lt (decodeRest_shorter read)

end

theorem decodeString_append (more : Bytes)
    (read : decodeString source = .parsed consumed text rest) :
    decodeString (source ++ more) = .parsed consumed text (rest ++ more) := by
  cases source with
  | nil => cases read
  | cons first source =>
    rw [decodeString] at read
    rw [cons_append, decodeString]
    cases isLength : decodeInteger (first :: source) 7 with
    | incomplete _ | malformed => simp only [isLength] at read; cases read
    | parsed inBytes length after =>
      have longer := decodeInteger_append isLength more
      rw [cons_append] at longer
      simp only [isLength] at read
      simp only [longer]
      split at read
      · cases read
      · rename_i enough
        have fits : length ≤ after.length := not_lt.mp enough
        have stillEnough : ¬ length > (after ++ more).length := by
          rw [length_append]
          omega
        rw [if_neg stillEnough, take_append_of_le_length fits, drop_append_of_le_length fits]
        split at read
        · rename_i plain
          rw [if_pos plain]
          cases read
          rfl
        · rename_i coded
          rw [if_neg coded]
          cases decoded : huffmanDecode (after.take length) with
          | none => rw [decoded] at read; cases read
          | some out =>
            rw [decoded] at read
            cases read
            rfl

end

section

/-- What follows a value that is read. -/
def Parsed.after {Value : Type} : Parsed Value → Option Bytes
  | .parsed _ _ rest => some rest
  | .incomplete _ | .malformed => none

def skipLiteral (source : Bytes) (prefixSize : Nat) : Option Bytes :=
  match decodeInteger source prefixSize with
  | .parsed _ index rest =>
      (if index ≠ 0 then some rest else (decodeString rest).after).bind fun rest =>
        (decodeString rest).after
  | .incomplete _ | .malformed => none

/-- What follows the representation at the beginning of some bytes. -/
def skipRepresentation : Bytes → Option Bytes
  | [] => none
  | first :: tail =>
      match representation first with
      | .indexed => (decodeInteger (first :: tail) 7).after
      | .incremental => skipLiteral (first :: tail) 6
      | .sizeUpdate => (decodeInteger (first :: tail) 5).after
      | .literal => skipLiteral (first :: tail) 4

/-- The bytes are one representation. -/
def Whole (bytes : Bytes) : Prop := skipRepresentation bytes = some []

instance (bytes : Bytes) : Decidable (Whole bytes) := inferInstanceAs (Decidable (_ = _))

theorem after_some {Value : Type} {parsed : Parsed Value} {rest : Bytes}
    (isRest : parsed.after = some rest) : ∃ consumed value, parsed = .parsed consumed value rest := by
  cases parsed with
  | parsed consumed value after =>
    cases isRest
    exact ⟨consumed, value, rfl⟩
  | incomplete _ | malformed => cases isRest

/-- A whole literal is decoded, or refused because its name is not in a table. -/
theorem decodeWithKnownPrefix_append (packer : HPacker) (more : Bytes)
    (whole : skipLiteral source prefixSize = some rest) :
    packer.decodeWithKnownPrefix (source ++ more) prefixSize =
        (packer.decodeWithKnownPrefix source prefixSize).followedBy more ∧
      (packer.decodeWithKnownPrefix source prefixSize = .malformed ∨
        ∃ consumed header,
          packer.decodeWithKnownPrefix source prefixSize = .parsed consumed header rest) := by
  rw [skipLiteral] at whole
  rw [decodeWithKnownPrefix, decodeWithKnownPrefix]
  cases isIndex : decodeInteger source prefixSize with
  | incomplete _ | malformed => rw [isIndex] at whole; cases whole
  | parsed indexBytes index afterIndex =>
    rw [decodeInteger_append isIndex more]
    simp only [isIndex] at whole ⊢
    rw [decodeName, decodeName]
    by_cases named : index ≠ 0
    · rw [if_pos named, Option.bind_some] at whole
      obtain ⟨valueBytes, value, isValue⟩ := after_some whole
      rw [if_pos named, if_pos named]
      cases packer.headerAt index with
      | none => exact ⟨rfl, .inl rfl⟩
      | some header =>
        simp only [isValue, decodeString_append more isValue]
        exact ⟨rfl, .inr ⟨_, _, rfl⟩⟩
    · rw [if_neg named] at whole
      obtain ⟨_, isAfter, isRest⟩ := Option.bind_eq_some_iff.mp whole
      obtain ⟨_, _, isName⟩ := after_some isAfter
      obtain ⟨valueBytes, value, isValue⟩ := after_some isRest
      rw [if_neg named, if_neg named]
      simp only [isName, decodeString_append more isName, isValue, decodeString_append more isValue]
      exact ⟨rfl, .inr ⟨_, _, rfl⟩⟩

end

section

/-- What a representation does: nothing more, since a `CHECK` fails or it is refused; a header
is decoded; or the table gets another size. -/
inductive Effect where
  | fault (fault : Fault)
  | header (packer : HPacker) (pair : Header)
  | resized (packer : HPacker)

/-- The effect of a representation with one. -/
def parsedEffect : Option (HPacker × Parsed Header) → Effect
  | none => .fault .check
  | some (packer, .parsed _ pair _) => .header packer pair
  | some (_, .incomplete _) | some (_, .malformed) => .fault .protocolError

def effect (packer : HPacker) (source : Bytes) : Effect :=
  match source with
  | [] => .fault .protocolError
  | first :: _ =>
      match representation first with
      | .indexed => parsedEffect (some (packer, packer.decodeIndexed source))
      | .incremental => parsedEffect (packer.addDecoded (packer.decodeWithKnownPrefix source 6))
      | .literal => parsedEffect (some (packer, packer.decodeWithKnownPrefix source 4))
      | .sizeUpdate =>
          match decodeInteger source 5 with
          | .incomplete _ | .malformed => .fault .protocolError
          | .parsed _ maxSize _ =>
              if maxSize > defaultHeaderTableSize then .fault .protocolError
              else
                match packer.decodeTable.resetMaxSize maxSize with
                | none => .fault .check
                | some decodeTable => .resized { packer with decodeTable := decodeTable }

/-- The effect of a representation on the header of a message. -/
def absorb (state : HPacker × HttpHeader) (source : Bytes) : Except Fault (HPacker × HttpHeader) :=
  match effect state.1 source with
  | .fault fault => .error fault
  | .resized packer => .ok (packer, state.2)
  | .header packer pair =>
      match state.2.set pair with
      | none => .error .protocolError
      | some header => .ok (packer, header)

def absorbAll (state : HPacker × HttpHeader) : List Bytes → Except Fault (HPacker × HttpHeader)
  | [] => .ok state
  | source :: rest => (absorb state source).bind fun next => absorbAll next rest

variable {packer : HPacker} {source : Bytes}

/-- How `Decode` goes on after a whole representation. -/
def Effect.goesOn (more : Bytes) (turns : Nat) : Effect → Option (HPacker × Parsed Header) → Prop
  | .fault .check, result => result = none
  | .fault .protocolError, result => ∃ packer, result = some (packer, .malformed)
  | .header packer pair, result => ∃ consumed, result = some (packer, .parsed consumed pair more)
  | .resized packer, result => result = packer.decodeTurns turns more

theorem decodeTurns_whole (packer : HPacker) (whole : Whole source) (more : Bytes) (turns : Nat) :
    (effect packer source).goesOn more turns (packer.decodeTurns (turns + 1) (source ++ more)) := by
  cases source with
  | nil => cases whole
  | cons first tail =>
    rw [Whole, skipRepresentation] at whole
    rw [effect, cons_append, decodeTurns, ← cons_append]
    generalize representation first = kind at whole ⊢
    cases kind with
    | indexed =>
      obtain ⟨consumed, index, isIndex⟩ := after_some whole
      have longer := decodeInteger_append isIndex more
      simp only [decodeIndexed, isIndex, longer]
      cases packer.headerAt index with
      | none => exact ⟨packer, rfl⟩
      | some header => exact ⟨consumed, rfl⟩
    | literal =>
      obtain ⟨longer, outcome⟩ := decodeWithKnownPrefix_append packer more whole
      simp only [longer]
      cases outcome with
      | inl refused =>
        rw [refused]
        exact ⟨packer, rfl⟩
      | inr decoded =>
        obtain ⟨consumed, header, isHeader⟩ := decoded
        rw [isHeader]
        exact ⟨consumed, rfl⟩
    | incremental =>
      obtain ⟨longer, outcome⟩ := decodeWithKnownPrefix_append packer more whole
      simp only [longer]
      cases outcome with
      | inl refused =>
        rw [refused]
        exact ⟨packer, rfl⟩
      | inr decoded =>
        obtain ⟨consumed, header, isHeader⟩ := decoded
        simp only [isHeader, Parsed.followedBy, addDecoded]
        cases packer.decodeTable.addHeader header with
        | none => rfl
        | some decodeTable => exact ⟨consumed, rfl⟩
    | sizeUpdate =>
      obtain ⟨consumed, maxSize, isSize⟩ := after_some whole
      have longer := decodeInteger_append isSize more
      simp only [isSize, longer]
      by_cases refused : maxSize > defaultHeaderTableSize
      · rw [if_pos refused, if_pos refused]
        exact ⟨packer, rfl⟩
      · rw [if_neg refused, if_neg refused]
        cases packer.decodeTable.resetMaxSize maxSize with
        | none | some _ => rfl

/-- More turns than there are bytes make no difference. -/
theorem decodeTurns_enough (enough : source.length < turns) (also : source.length < others) :
    packer.decodeTurns turns source = packer.decodeTurns others source := by
  induction turns generalizing packer source others with
  | zero => exact absurd enough (not_lt_zero _)
  | succ turns ih =>
    cases others with
    | zero => exact absurd also (not_lt_zero _)
    | succ others =>
      cases source with
      | nil => rfl
      | cons first tail =>
        rw [decodeTurns, decodeTurns]
        cases representation first with
        | indexed | literal | incremental => rfl
        | sizeUpdate =>
          simp only
          cases isSize : decodeInteger (first :: tail) 5 with
          | incomplete _ | malformed => rfl
          | parsed consumed maxSize rest =>
            have shorter := decodeInteger_shorter isSize
            simp only
            split
            · rfl
            · congr 1
              funext decodeTable
              exact ih (by omega) (by omega)

end

section

variable {packer : HPacker} {source : Bytes}

theorem whole_length (whole : Whole source) : 0 < source.length := by
  cases source with
  | nil => cases whole
  | cons first tail => exact succ_pos _

/-- One representation at the beginning of what `ConsumeHeaders` reads. -/
theorem consumeTurns_whole (whole : Whole source) (more : Bytes) (turns : Nat) :
    consumeTurns (turns + 1) packer header (source ++ more) =
      match effect packer source with
      | .fault fault => .error fault
      | .resized packer => consumeTurns (turns + 1) packer header more
      | .header packer pair =>
          match header.set pair with
          | none => .error .protocolError
          | some header => consumeTurns turns packer header more := by
  have positive := whole_length whole
  have longer : more.length < (source ++ more).length := by
    rw [length_append]
    omega
  have some : ¬(source ++ more).isEmpty = true := by
    rw [isEmpty_iff_length_eq_zero]
    omega
  have goesOn := decodeTurns_whole packer whole more (source ++ more).length
  rw [consumeTurns, if_neg some, decode]
  cases isEffect : effect packer source with
  | fault fault =>
    rw [isEffect] at goesOn
    cases fault with
    | check => rw [show _ = none from goesOn]
    | protocolError =>
      obtain ⟨_, isResult⟩ := goesOn
      rw [isResult]
  | header next pair =>
    rw [isEffect] at goesOn
    obtain ⟨_, isResult⟩ := goesOn
    cases isSet : header.set pair <;> simp only [isResult, isSet]
  | resized next =>
    rw [isEffect] at goesOn
    have again : next.decodeTurns (source ++ more).length more = next.decode more :=
      decodeTurns_enough longer (lt_succ_self _)
    rw [show _ = next.decode more from Eq.trans goesOn again]
    cases more with
    | nil | cons _ _ => rfl

/-- `ConsumeHeaders` absorbs whole representations one after another. -/
theorem consumeTurns_flatten (whole : ∀ source ∈ sources, Whole source)
    (enough : sources.flatten.length < turns) : consumeTurns turns packer header sources.flatten =
      (absorbAll (packer, header) sources).map fun state => (state.1, state.2, []) := by
  induction sources generalizing packer header turns with
  | nil =>
    cases turns with
    | zero | succ _ => rfl
  | cons source sources ih =>
    have wholeSource := whole source (.head _)
    have wholeRest : ∀ source ∈ sources, Whole source := fun other mem => whole other (.tail _ mem)
    have positive := whole_length wholeSource
    rw [flatten_cons, length_append] at enough
    cases turns with
    | zero => exact absurd enough (not_lt_zero _)
    | succ turns =>
      rw [flatten_cons, consumeTurns_whole wholeSource, absorbAll, absorb]
      cases effect packer source with
      | fault fault => rfl
      | resized next => exact ih wholeRest (by omega)
      | header next pair =>
        simp only
        cases header.set pair with
        | none => rfl
        | some header => exact ih wholeRest (by omega)

theorem consumeHeaders_flatten (whole : ∀ source ∈ sources, Whole source) :
    consumeHeaders packer header sources.flatten =
      (absorbAll (packer, header) sources).map fun state => (state.1, state.2, []) :=
  consumeTurns_flatten whole (Nat.lt_succ_self _)

theorem absorbAll_append (state : HPacker × HttpHeader) (sources others : List Bytes) :
    absorbAll state (sources ++ others) =
      (absorbAll state sources).bind fun next => absorbAll next others := by
  induction sources generalizing state with
  | nil => rfl
  | cons source sources ih =>
    rw [cons_append, absorbAll, absorbAll]
    cases absorb state source with
    | error fault => rfl
    | ok next => exact ih next

namespace H2StreamContext

/-- The coder, the fields of the header, and whether the stream has ended. -/
def view (received : HPacker × H2StreamContext × Bool) : HPacker × HttpHeader × Bool :=
  (received.1, received.2.1.header, received.2.2)

variable {stream : H2StreamContext} {rest : List (List Bytes)}

theorem continueBlock_absorbs (kept : stream.remainingHeaderFragment = [])
    (whole : ∀ source ∈ payload ++ rest.flatten, Whole source) :
    (continueBlock packer stream payload.flatten (rest.map flatten)).map view =
      (absorbAll (packer, stream.header) (payload ++ rest.flatten)).map fun state =>
        (state.1, state.2, stream.streamEnded) := by
  induction rest generalizing packer stream payload with
  | nil =>
    rw [flatten_nil, append_nil] at whole ⊢
    rw [map_nil, continueBlock, onContinuation, kept, nil_append, consumeHeaders_flatten whole]
    cases absorbAll (packer, stream.header) payload with
    | error _ | ok _ => rfl
  | cons next rest ih =>
    rw [flatten_cons] at whole ⊢
    obtain ⟨wholePayload, wholeRest⟩ := forall_mem_append.mp whole
    rw [map_cons, continueBlock, onContinuation, kept, nil_append,
      consumeHeaders_flatten wholePayload, absorbAll_append]
    cases absorbAll (packer, stream.header) payload with
    | error fault => rfl
    | ok state =>
      simp only [Except.map, Except.bind, Bool.false_eq_true, if_false]
      exact ih (drop_length) wholeRest

theorem receiveBlock_absorbs (packer : HPacker) (endStream : Bool)
    (kept : stream.remainingHeaderFragment = []) (running : stream.streamEnded = false)
    (whole : ∀ source ∈ fragment ++ rest.flatten, Whole source) :
    (receiveBlock packer stream endStream fragment.flatten (rest.map flatten)).map view =
      (absorbAll (packer, stream.header) (fragment ++ rest.flatten)).map fun state =>
        (state.1, state.2, endStream) := by
  cases rest with
  | nil =>
    rw [flatten_nil, append_nil] at whole ⊢
    rw [map_nil, receiveBlock, onHeaders, consumeHeaders_flatten whole]
    cases absorbAll (packer, stream.header) fragment with
    | error _ | ok _ => rfl
  | cons next rest =>
    rw [flatten_cons] at whole ⊢
    obtain ⟨wholeFragment, wholeRest⟩ := forall_mem_append.mp whole
    rw [map_cons, receiveBlock, onHeaders, consumeHeaders_flatten wholeFragment, absorbAll_append]
    cases absorbAll (packer, stream.header) fragment with
    | error fault => rfl
    | ok state =>
      simp only [Except.map, Except.bind, Bool.false_eq_true, if_false, running, kept,
        Bool.false_or, append_nil]
      exact continueBlock_absorbs rfl wholeRest

/-- A block that is cut between representations is received as in one frame. -/
theorem receiveBlock_cut (packer : HPacker) (stream : H2StreamContext)
    (kept : stream.remainingHeaderFragment = []) (running : stream.streamEnded = false)
    (endStream : Bool) (fragment : List Bytes) (rest : List (List Bytes))
    (whole : ∀ source ∈ fragment ++ rest.flatten, Whole source) :
    (receiveBlock packer stream endStream fragment.flatten (rest.map List.flatten)).map view =
      (receiveBlock packer stream endStream (fragment ++ rest.flatten).flatten []).map view := by
  have single := receiveBlock_absorbs packer endStream
    kept running (by rwa [flatten_nil, append_nil])
  rw [flatten_nil, append_nil, map_nil] at single
  rw [single]
  exact receiveBlock_absorbs packer endStream kept running whole

/-- A block of an update of the size, an indexed header and a literal, in three frames. -/
theorem receiveBlock_cut_three :
    ∃ packer, HPacker.init 4096 = some packer ∧
      (receiveBlock packer {} true ([[0x3f, 0x82, 0x01]].flatten)
          ([[[0x82]], [[0x40, 1, 97, 1, 98]]].map List.flatten)).map view =
        (receiveBlock packer {} true [0x3f, 0x82, 0x01, 0x82, 0x40, 1, 97, 1, 98] []).map view := by
  obtain ⟨packer, isPacker⟩ := init_default
  exact ⟨packer, isPacker, receiveBlock_cut packer {} rfl rfl true [[0x3f, 0x82, 0x01]]
    [[[0x82]], [[0x40, 1, 97, 1, 98]]] (by decide)⟩

/-- The fields of a header that was received. -/
def receivedHeader (received : Received) : Option HttpHeader :=
  received.toOption.map fun received => received.2.1.header

/-- A literal that is cut is refused. An update of the size that is cut is forgotten: what is
left of it is taken for the beginning of other headers. -/
theorem receiveBlock_cut_inside :
    ∃ packer, HPacker.init 4096 = some packer ∧
      receivedHeader (receiveBlock packer {} false [0, 1, 97, 1, 98] []) =
        some { headers := [([97], [98])] } ∧
      receiveBlock packer {} false [0, 1, 97] [[1, 98]] = .error .protocolError ∧
      receivedHeader (receiveBlock packer {} false
          (0x3f :: 0 :: 0 :: 1 :: 97 :: 16 :: 1 :: 98 :: 13 :: replicate 13 99) []) =
        some { headers := [([97], 1 :: 98 :: 13 :: replicate 13 99)] } ∧
      receivedHeader (receiveBlock packer {} false [0x3f]
          [0 :: 0 :: 1 :: 97 :: 16 :: 1 :: 98 :: 13 :: replicate 13 99]) =
        some { headers := [([], [97]), ([98], replicate 13 99)] } := by
  obtain ⟨packer, isPacker⟩ := init_default
  refine ⟨packer, isPacker, ?_⟩
  have received : (init 4096).all fun packer => decide (
      receivedHeader (receiveBlock packer {} false [0, 1, 97, 1, 98] []) =
        some { headers := [([97], [98])] } ∧
      receivedHeader (receiveBlock packer {} false
          (0x3f :: 0 :: 0 :: 1 :: 97 :: 16 :: 1 :: 98 :: 13 :: replicate 13 99) []) =
        some { headers := [([97], 1 :: 98 :: 13 :: replicate 13 99)] } ∧
      receivedHeader (receiveBlock packer {} false [0x3f]
          [0 :: 0 :: 1 :: 97 :: 16 :: 1 :: 98 :: 13 :: replicate 13 99]) =
        some { headers := [([], [97]), ([98], replicate 13 99)] }) := by decide
  rw [isPacker, Option.all_some, decide_eq_true_eq] at received
  exact ⟨received.1, rfl, received.2⟩

end H2StreamContext

end

end CodeReading.Brpc

import CodeReading.Brpc.H2Context
import CodeReading.Machine

/-!
# GOAWAY

A GOAWAY frame names the last stream that the server handles. A client takes the streams
above it out and inserts no others. The quick path for 0 leaves it with a map that was never
initialized. All this rests on two things: a frame has no debug data, since the last eight
bytes of its payload are taken for its fields, and no later frame names a greater stream.
-/

namespace CodeReading.Brpc

open List Int

inductive DoorEvent where
  | goAway (head : H2FrameHead) (it : Bytes)
  | insert (stream : H2Stream)
  | remove (streamId : Nat)

/-- A context, and whether its map of streams is initialized. -/
structure Door where
  ctx : H2Context
  initialized : Bool := true

namespace Door

/-- An insertion into a map that is not initialized is undefined. -/
def step (outside : Outside) (door : Door) : DoorEvent → Option Door
  | .goAway head it =>
      (door.ctx.onGoAway it head).map fun handled =>
        ⟨handled.1, door.initialized && handled.1.goawayStreamId != 0⟩
  | .insert stream =>
      let inserted := door.ctx.tryToInsertStream stream
      if inserted.2 = 1 then some door
      else if door.initialized then some ⟨inserted.1, true⟩
      else none
  | .remove streamId =>
      some ⟨(door.ctx.removeStreamAndDeferWU outside streamId).1, door.initialized⟩

/-- A frame without debug data that does not name a greater stream than the last one. -/
def Orderly (door : Door) : DoorEvent → Prop
  | .goAway head it => head = ⟨8, 7, 0, 0⟩ ∧
      ∃ lastStreamId rest, loadUint32 it = some (lastStreamId, rest) ∧ (loadUint32 rest).isSome ∧
        lastStreamId < 2 ^ 31 ∧
        (0 ≤ door.ctx.goawayStreamId → (lastStreamId : Int) ≤ door.ctx.goawayStreamId)
  | .insert stream => 0 < stream.streamId
  | .remove _ => True

/-- The streams above the given one are gone, and the map is not touched any more if it was
given away. -/
structure Closed (last : Nat) (door : Door) : Prop where
  client : door.ctx.clientSide = true
  limit : 0 ≤ door.ctx.goawayStreamId ∧ door.ctx.goawayStreamId ≤ last
  streams : ∀ element ∈ door.ctx.pendingStreams, element.1 ≤ last
  ready : door.initialized = false → door.ctx.goawayStreamId = 0

variable {outside : Outside} {door : Door} {last : Nat}

theorem goAway_closed (client : door.ctx.clientSide = true)
    (ready : door.initialized = false → door.ctx.goawayStreamId = 0)
    (loaded : loadUint32 it = some (lastStreamId, rest)) (coded : (loadUint32 rest).isSome)
    (small : lastStreamId < 2 ^ 31)
    (lower : 0 ≤ door.ctx.goawayStreamId → (lastStreamId : Int) ≤ door.ctx.goawayStreamId) :
    ∃ next, step outside door (.goAway ⟨8, 7, 0, 0⟩ it) = some next ∧ Closed lastStreamId next ∧
      next.ctx.pendingStreams = door.ctx.pendingStreams.filter fun element =>
        !decide ((lastStreamId : Int) = 0 ∨ (element.1 : Int) > lastStreamId) := by
  obtain ⟨code, isCode⟩ := Option.isSome_iff_exists.mp coded
  have same : toInt lastStreamId = lastStreamId := bmod_eq_of_le (by omega) (by omega)
  refine ⟨⟨({ door.ctx with logOff := true }.removeGoAwayStreams lastStreamId).1,
    door.initialized && (lastStreamId : Int) != 0⟩, ?_, ⟨client, ?_, ?_, ?_⟩, rfl⟩
  · simp [step, H2Context.onGoAway, loaded, isCode, client, same]
    rfl
  · exact ⟨natCast_nonneg _, le_refl _⟩
  · intro element mem
    have kept := (mem_filter.mp mem).2
    simp at kept
    omega
  · intro given
    cases Bool.and_eq_false_iff.mp given with
    | inl before =>
      have zero := ready before
      have lowered := lower (le_of_eq zero.symm)
      exact le_antisymm (zero ▸ lowered) (natCast_nonneg _)
    | inr zero => exact bne_eq_false_iff_eq.mp zero

theorem removed_kept (outside : Outside) (ctx : H2Context) (streamId : Nat) :
    let removed := (ctx.removeStreamAndDeferWU outside streamId).1
    removed.clientSide = ctx.clientSide ∧ removed.goawayStreamId = ctx.goawayStreamId ∧
      removed.pendingStreams ⊆ ctx.pendingStreams := by
  unfold H2Context.removeStreamAndDeferWU
  split
  · exact ⟨rfl, rfl, List.Subset.refl _⟩
  · unfold H2Context.deferWindowUpdate
    dsimp only
    split
    · exact ⟨rfl, rfl, eraseP_subset⟩
    split
    · split <;> exact ⟨rfl, rfl, eraseP_subset⟩
    · exact ⟨rfl, rfl, eraseP_subset⟩

theorem step_closed (orderly : Orderly door event) (closed : Closed last door) :
    ∃ next, step outside door event = some next ∧ Closed last next := by
  obtain ⟨client, limit, streams, ready⟩ := closed
  cases event with
  | goAway head it =>
    obtain ⟨rfl, _, _, loaded, coded, small, lower⟩ := orderly
    have below := le_trans (lower limit.1) limit.2
    obtain ⟨next, taken, closed, -⟩ := goAway_closed client ready loaded coded small lower
    refine ⟨next, taken, closed.client, ⟨closed.limit.1, le_trans closed.limit.2 below⟩, ?_,
      closed.ready⟩
    intro element mem
    exact Nat.le_trans (closed.streams element mem) (ofNat_le.mp below)
  | insert stream =>
    have positive : 0 < stream.streamId := orderly
    rw [step, H2Context.tryToInsertStream]
    by_cases above : (stream.streamId : Int) > door.ctx.goawayStreamId
    · simp only [above, limit.1, and_self, if_true]
      exact ⟨door, rfl, client, limit, streams, ready⟩
    · -- a map that was given away belongs to the limit 0
      have initialized : door.initialized = true := by
        rw [← Bool.not_eq_false]
        intro given
        have zero := ready given
        omega
      simp only [above, and_false, if_false, initialized]
      split
      · exact ⟨⟨door.ctx, true⟩, rfl, client, limit, streams, nofun⟩
      · refine ⟨⟨{ door.ctx with
          pendingStreams := door.ctx.pendingStreams ++ [(stream.streamId, stream)] }, true⟩, rfl,
          client, limit, ?_, nofun⟩
        intro element mem
        cases mem_append.mp mem with
        | inl before => exact streams element before
        | inr new =>
          obtain rfl := mem_singleton.mp new
          dsimp only
          omega
  | remove streamId =>
    obtain ⟨sameSide, sameLimit, fewer⟩ := removed_kept outside door.ctx streamId
    refine ⟨_, rfl, sameSide.trans client, sameLimit ▸ limit, ?_, ?_⟩
    · intro element mem
      exact streams element (fewer mem)
    · intro given
      exact sameLimit.trans (ready given)

/-- A frame without debug data takes out exactly the streams above the last one. As long as no
later frame names a greater one, no stream above it is inserted, and every insertion finds the map
initialized. -/
theorem goAway_closes (outside : Outside) {door : Door} {head : H2FrameHead} {it rest : Bytes}
    {lastStreamId : Nat} {events : List DoorEvent} (client : door.ctx.clientSide = true)
    (ready : door.initialized = false → door.ctx.goawayStreamId = 0)
    (positive : ∀ element ∈ door.ctx.pendingStreams, 0 < element.1)
    (starts : loadUint32 it = some (lastStreamId, rest))
    (orderly : Machine.Guarded (step outside) Orderly door (.goAway head it :: events)) :
    ∃ next final, step outside door (.goAway head it) = some next ∧
      next.ctx.pendingStreams =
        door.ctx.pendingStreams.filter (fun element => element.1 ≤ lastStreamId) ∧
      Machine.run (step outside) next events = some final ∧
      ∀ element ∈ final.ctx.pendingStreams, element.1 ≤ lastStreamId := by
  obtain ⟨⟨rfl, _, _, loaded, coded, small, lower⟩, later⟩ := orderly
  obtain ⟨rfl, rfl⟩ := Prod.mk.inj (Option.some.inj (starts.symm.trans loaded))
  obtain ⟨next, taken, closed, kept⟩ := goAway_closed client ready loaded coded small lower
  obtain ⟨final, ran, shut⟩ := Machine.guarded_runs _ _ (Closed lastStreamId)
    (fun _ _ allowed closed => step_closed allowed closed) closed (later next taken)
  refine ⟨next, final, taken, kept.trans ?_, ran, shut.streams⟩
  refine filter_congr fun element mem => ?_
  have above := positive element mem
  rw [← decide_not, decide_eq_decide]
  omega

/-- A client with two streams. -/
def twoStreams (packer : HPacker) : Door where
  ctx := {
    clientSide := true
    connState := .ready
    hpacker := packer
    pendingStreams := [1, 5].map fun streamId =>
      (streamId, { streamId := streamId, remoteWindowLeft := 65535 }) }

theorem goAway_closes_one :
    let outside : Outside := ⟨fun _ _ => true, fun _ _ => true⟩
    let frame : DoorEvent := .goAway ⟨8, 7, 0, 0⟩ (saveUint32 1 ++ saveUint32 0)
    ∃ packer, HPacker.init 4096 = some packer ∧
      ∃ next final, step outside (twoStreams packer) frame = some next ∧
        next.ctx.pendingStreams = (twoStreams packer).ctx.pendingStreams.filter (·.1 ≤ 1) ∧
        Machine.run (step outside) next [.insert { streamId := 7, remoteWindowLeft := 0 }] =
          some final ∧ ∀ element ∈ final.ctx.pendingStreams, element.1 ≤ 1 := by
  obtain ⟨packer, isPacker⟩ := HPacker.init_default
  refine ⟨packer, isPacker, goAway_closes _ rfl nofun (by simp [twoStreams]) rfl ?_⟩
  exact ⟨⟨rfl, 1, _, rfl, rfl, by decide, nofun⟩, fun _ _ => ⟨Nat.succ_pos 6, fun _ _ => trivial⟩⟩

/-- The stream that is named in front of debug data is not the one that is read. -/
theorem goAway_misreads :
    let it := saveUint32 1 ++ saveUint32 0 ++ saveUint32 5 ++ saveUint32 0
    (loadUint32 it).map Prod.fst = some 1 ∧ ∃ packer, HPacker.init 4096 = some packer ∧
      ((step ⟨fun _ _ => true, fun _ _ => true⟩ (twoStreams packer)
        (.goAway ⟨16, 7, 0, 0⟩ it)).map fun next => next.ctx.pendingStreams.map Prod.fst) =
          some [1, 5] := by
  obtain ⟨packer, isPacker⟩ := HPacker.init_default
  exact ⟨rfl, packer, isPacker, rfl⟩

end Door

end CodeReading.Brpc

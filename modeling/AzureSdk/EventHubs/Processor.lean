/-
# EventHubs.Processor — one partition client for each owned partition

The processor's table has a weak reference to the client of each partition it processes.  A
round of `dispatch` asks the load balancer what is owned, revokes the clients of what is not,
and adds a client for what has none; the application takes the clients from a queue, and drops
or closes them at any time.

A round takes an entry of the table for a client, whether or not the client is still alive, and
`close` removes the entry of the partition, whichever client it is of.  Where the application
does neither of these at a wrong moment (`State.Safe`), every round that succeeds leaves a live
client for each owned partition and none for any other (`dispatch_registers`).
-/
import AzureSdk.Theory.HashMap
import AzureSdk.Theory.Run

namespace AzureSdk.EventHubs

open Theory List

/-- A `PartitionClient`; the serial number tells clients of one partition apart. -/
structure PartitionClient where
  partitionId : String
  serial : Nat
  deriving DecidableEq, Repr

/-- The client of a weak reference may be gone. -/
abbrev ProcessorConsumersMap := HashMap String PartitionClient

namespace ProcessorConsumersMap

variable (consumers : ProcessorConsumersMap)

/-- `add_partition_client`, with whether the client was added. -/
def addPartitionClient (client : PartitionClient) : Bool × ProcessorConsumersMap :=
  if consumers.contains client.partitionId then (false, consumers)
  else (true, consumers.insert client.partitionId client)

def removePartitionClient (partitionId : String) : ProcessorConsumersMap :=
  consumers.erase partitionId

def getActivePartitionIds : List String := consumers.keys

/-- `revoke_partition_clients`, with the clients that are still there. -/
def revokePartitionClients (upgrade : PartitionClient → Bool) :
    List String → ProcessorConsumersMap → List PartitionClient × ProcessorConsumersMap
  | [], consumers => ([], consumers)
  | id :: ids, consumers =>
    let rest := revokePartitionClients upgrade ids (consumers.erase id)
    (((consumers[id]?).filter upgrade).toList ++ rest.1, rest.2)

end ProcessorConsumersMap

open ProcessorConsumersMap (revokePartitionClients)

namespace Processor

/-- Where the processor is: asleep, or in `dispatch` at one of its awaits or before the next
partition it adds.  A failed round ends `run`. -/
inductive Phase
  | sleeping
  | balancing
  | revoking (owned : List String) (toClose : List PartitionClient)
  | reading (owned : List String)
  | adding (owned remaining : List String)
  | opening (owned : List String) (client : PartitionClient) (remaining : List String)
  | sending (owned : List String) (client : PartitionClient) (remaining : List String)
  | stopped
  deriving DecidableEq, Repr

/-- The clients `dispatch` itself refers to. -/
def Phase.holds : Phase → List PartitionClient
  | .revoking _ toClose => toClose
  | .opening _ client _ | .sending _ client _ => [client]
  | _ => []

/-- No round is under way. -/
def Phase.between : Phase → Bool
  | .sleeping | .stopped => true
  | _ => false

/-- The round is past adding the partition. -/
def Phase.past (id : String) : Phase → Bool
  | .adding _ remaining | .opening _ _ remaining | .sending _ _ remaining => !remaining.contains id
  | _ => false

/-- What may happen; the last six are the application's. -/
inductive Event
  | begin
  | balanceFailed
  | balanced (owned : List String)
  | closeRequested
  | revoked
  | checkpointsFailed
  | checkpointsRead
  | add
  | openFailed
  | opened
  | sent
  | done (owned : List String)
  | nextPartitionClient
  | clone (client : PartitionClient)
  | drop (client : PartitionClient)
  | close (client : PartitionClient)
  | closeFailed (client : PartitionClient)
  | closed (client : PartitionClient)
  deriving DecidableEq, Repr

/-- The processor with its table and queue, and the clients the application refers to, how
often, and those it is closing. -/
structure State where
  consumers : ProcessorConsumersMap := ∅
  created : Nat := 0
  queue : List PartitionClient := []
  held : PartitionClient → Nat := fun _ => 0
  closing : List PartitionClient := []
  phase : Phase := .sleeping

namespace State

variable (s : State)

variable (client : PartitionClient)

/-- Somebody refers to the client: a weak reference to it can be upgraded. -/
def live : Bool :=
  decide (0 < s.held client) || s.queue.contains client || s.phase.holds.contains client

/-- The application has the only reference, so that it can take the client to close it. -/
def sole : Bool :=
  decide (s.held client = 1) && !s.queue.contains client && !s.phase.holds.contains client

def hold (count : Nat) : State :=
  { s with held := fun c => if c = client then count else s.held c }

/-- The table has the client for its partition. -/
def registered : Bool :=
  decide (s.consumers[client.partitionId]? = some client)

/-- One step.  A client is dropped when nothing refers to it any more, which nobody notices. -/
def step : Event → Option State
  | .begin =>
    match s.phase with
    | .sleeping => some { s with phase := .balancing }
    | _ => none
  | .balanceFailed =>
    match s.phase with
    | .balancing => some { s with phase := .stopped }
    | _ => none
  | .balanced owned =>
    match s.phase with
    | .balancing =>
      let stolen := s.consumers.getActivePartitionIds.filter fun id => !owned.contains id
      let revoked := revokePartitionClients s.live stolen s.consumers
      some { s with consumers := revoked.2, phase := .revoking owned revoked.1 }
    | _ => none
  | .closeRequested =>
    match s.phase with
    | .revoking owned (_ :: toClose) => some { s with phase := .revoking owned toClose }
    | _ => none
  | .revoked =>
    match s.phase with
    | .revoking owned [] => some { s with phase := .reading owned }
    | _ => none
  | .checkpointsFailed =>
    match s.phase with
    | .reading _ => some { s with phase := .stopped }
    | _ => none
  | .checkpointsRead =>
    match s.phase with
    | .reading owned => some { s with phase := .adding owned owned }
    | _ => none
  | .add =>
    match s.phase with
    | .adding owned (id :: remaining) =>
      let client : PartitionClient := ⟨id, s.created⟩
      match s.consumers.addPartitionClient client with
      | (false, _) => some { s with created := s.created + 1, phase := .adding owned remaining }
      | (true, consumers) =>
        some { s with
          consumers, created := s.created + 1, phase := .opening owned client remaining }
    | _ => none
  | .openFailed =>
    match s.phase with
    | .opening _ client _ =>
      some { s with
        consumers := s.consumers.removePartitionClient client.partitionId, phase := .stopped }
    | _ => none
  | .opened =>
    match s.phase with
    | .opening owned client remaining => some { s with phase := .sending owned client remaining }
    | _ => none
  | .sent =>
    match s.phase with
    | .sending owned client remaining =>
      some { s with queue := s.queue ++ [client], phase := .adding owned remaining }
    | _ => none
  | .done owned =>
    match s.phase with
    | .adding owned' [] => if owned' = owned then some { s with phase := .sleeping } else none
    | _ => none
  | .nextPartitionClient =>
    match s.queue with
    | client :: queue => some ({ s with queue }.hold client (s.held client + 1))
    | [] => none
  | .clone client =>
    if 0 < s.held client then some (s.hold client (s.held client + 1)) else none
  | .drop client =>
    if 0 < s.held client then some (s.hold client (s.held client - 1)) else none
  | .close client =>
    if s.sole client then
      some { s.hold client 0 with closing := s.closing ++ [client] }
    else none
  | .closeFailed client =>
    if client ∈ s.closing then some { s with closing := s.closing.erase client } else none
  | .closed client =>
    if client ∈ s.closing then
      some { s with
        consumers := s.consumers.removePartitionClient client.partitionId
        closing := s.closing.erase client }
    else none

/-- The table has one live client for each of the partitions, and none for any other. -/
def Registers (owned : List String) : Prop :=
  ∀ id, (id ∈ owned → ∃ client, s.consumers[id]? = some client ∧ client.partitionId = id ∧
      s.live client = true) ∧
    (id ∉ owned → s.consumers[id]? = none)

/-- The moments that do no harm: the last reference to a registered client is not dropped, a
registered client is closed between rounds only and its receiver does close, no round begins
before the table is rid of it, and no client removes the entry of a partition that a round has
already added. -/
def Safe : Event → Prop
  | .begin => ∀ client ∈ s.closing, s.registered client = false
  | .drop client => s.registered client = true → s.sole client = false
  | .close client => s.registered client = true → s.phase.between = true
  | .closeFailed client => s.registered client = false
  | .closed client => s.phase.past client.partitionId = true → s.consumers[client.partitionId]? = none
  | _ => True

end State

/-! ## The invariant -/

/-- The table has no other partition than the owned ones, and of these all but the remaining. -/
structure Added (consumers : ProcessorConsumersMap) (owned remaining : List String) : Prop where
  inside : ∀ id : String, consumers[id]? ≠ none → id ∈ owned
  rest : ∀ id ∈ remaining, id ∈ owned
  added : ∀ id ∈ owned, id ∈ remaining ∨ consumers[id]? ≠ none

/-- What a round has done to the table so far. -/
def Phase.Fits (consumers : ProcessorConsumersMap) : Phase → Prop
  | .revoking owned toClose =>
    Added consumers owned owned ∧
      ∀ (id : String) (client : PartitionClient), consumers[id]? = some client → client ∉ toClose
  | .reading owned => Added consumers owned owned
  | .adding owned remaining | .opening owned _ remaining | .sending owned _ remaining =>
    Added consumers owned remaining
  | _ => True

/-- Every entry is of a client of its partition, which is alive or, between rounds, being
closed. -/
structure Inv (s : State) : Prop where
  own : ∀ {id : String} {client : PartitionClient}, s.consumers[id]? = some client →
    client.partitionId = id
  alive : ∀ {id : String} {client : PartitionClient}, s.consumers[id]? = some client →
    s.live client = true ∨ s.phase.between = true ∧ client ∈ s.closing
  round : s.phase.Fits s.consumers

section Lemmas

variable {s s' : State} {consumers : ProcessorConsumersMap} {client : PartitionClient}

variable {id : String} {owned remaining : List String}

theorem erase_some {id' : String} (h : (consumers.erase id)[id']? = some client) :
    id ≠ id' ∧ consumers[id']? = some client := by
  rw [HashMap.getElem?_erase] at h
  split at h
  · cases h
  · exact ⟨‹_›, h⟩

theorem erase_ne_none {id' : String} (h : (consumers.erase id)[id']? ≠ none) :
    id ≠ id' ∧ consumers[id']? ≠ none := by
  obtain ⟨client, some⟩ := Option.ne_none_iff_exists'.mp h
  obtain ⟨other, before⟩ := erase_some some
  exact ⟨other, by simp [before]⟩

/-- Removing an entry does no harm unless the round is past it. -/
theorem Added.erase (added : Added consumers owned remaining)
    (safe : id ∉ remaining → consumers[id]? = none) :
    Added (consumers.erase id) owned remaining := by
  refine ⟨fun id' h => added.inside id' (erase_ne_none h).2, added.rest, fun id' mem => ?_⟩
  rcases added.added id' mem with later | there
  · exact .inl later
  · by_cases same : id = id'
    · subst same
      by_cases later : id ∈ remaining
      · exact .inl later
      · exact absurd (safe later) there
    · rw [HashMap.getElem?_erase, if_neg same]
      exact .inr there

/-- While all owned partitions are still to be added, any entry may be removed. -/
theorem Added.erase_early (added : Added consumers owned owned) (id : String) :
    Added (consumers.erase id) owned owned :=
  ⟨fun id' h => added.inside id' (erase_ne_none h).2, added.rest, fun _ mem => .inl mem⟩

theorem Phase.Fits.erase {phase : Phase} (fits : phase.Fits consumers)
    (safe : phase.past id = true → consumers[id]? = none) : phase.Fits (consumers.erase id) := by
  cases phase with
  | sleeping | balancing | stopped => trivial
  | revoking owned toClose =>
    exact ⟨fits.1.erase_early id, fun id' client h => fits.2 id' client (erase_some h).2⟩
  | reading owned => exact Added.erase_early fits id
  | adding owned remaining | opening owned client remaining | sending owned client remaining =>
    exact Added.erase fits fun h => safe (by simpa [past] using h)

theorem revoke_spec (upgrade : PartitionClient → Bool) (ids : List String)
    (consumers : ProcessorConsumersMap) :
    (∀ id, (revokePartitionClients upgrade ids consumers).2[id]? =
      if id ∈ ids then none else consumers[id]?) ∧
    ∀ client ∈ (revokePartitionClients upgrade ids consumers).1,
      ∃ id ∈ ids, consumers[id]? = some client := by
  induction ids generalizing consumers with
  | nil => simp [revokePartitionClients]
  | cons id ids ih =>
    obtain ⟨table, clients⟩ := ih (consumers.erase id)
    constructor
    · intro id'
      rw [revokePartitionClients, table, HashMap.getElem?_erase]
      by_cases same : id = id'
      · simp [same]
      · simp [same, Ne.symm same]
    · intro client mem
      rcases mem_append.mp mem with mem | mem
      · have found := (Option.filter_eq_some_iff.mp (Option.mem_toList.mp mem)).1
        exact ⟨id, .head _, found⟩
      · obtain ⟨id', inside, found⟩ := clients client mem
        exact ⟨id', .tail _ inside, (erase_some found).2⟩

theorem live_iff : s.live client = true ↔
    0 < s.held client ∨ client ∈ s.queue ∨ client ∈ s.phase.holds := by
  simp [State.live, or_assoc]

theorem sole_iff : s.sole client = true ↔
    s.held client = 1 ∧ client ∉ s.queue ∧ client ∉ s.phase.holds := by
  simp [State.sole, and_assoc]

variable (inv : Inv s)

include inv

theorem Inv.registered (there : s.consumers[id]? = some client) : s.registered client = true := by
  rw [State.registered, inv.own there, there]
  exact decide_eq_true rfl

theorem Inv.live (during : s.phase.between = false) (there : s.consumers[id]? = some client) :
    0 < s.held client ∨ client ∈ s.queue ∨ client ∈ s.phase.holds := by
  rcases inv.alive there with live | ⟨between, _⟩
  · exact live_iff.mp live
  · rw [during] at between
    cases between

/-! ## The processor's steps -/

theorem Inv.goesOn (during : s.phase.between = false) (phase : Phase)
    (keeps : ∀ (id : String) client, s.consumers[id]? = some client → client ∈ s.phase.holds →
      client ∈ phase.holds)
    (fits : phase.Fits s.consumers) (created : Nat) : Inv { s with created, phase } where
  own := inv.own
  alive {id client} there := .inl <| live_iff.mpr <| by
    rcases inv.live during there with held | queued | holds
    · exact .inl held
    · exact .inr (.inl queued)
    · exact .inr (.inr (keeps id client there holds))
  round := fits

theorem Inv.begin (sleeping : s.phase = .sleeping)
    (safe : ∀ client ∈ s.closing, s.registered client = false) :
    Inv { s with phase := .balancing } where
  own := inv.own
  alive {id client} there := by
    rcases inv.alive there with live | ⟨_, closing⟩
    · rw [live_iff, sleeping] at live
      exact .inl (live_iff.mpr live)
    · exact absurd (inv.registered there) (by simp [safe client closing])
  round := trivial

theorem Inv.balanced (balancing : s.phase = .balancing) (owned : List String) :
    Inv { s with
      consumers := (revokePartitionClients s.live
        (s.consumers.getActivePartitionIds.filter fun id => !owned.contains id) s.consumers).2
      phase := .revoking owned (revokePartitionClients s.live
        (s.consumers.getActivePartitionIds.filter fun id => !owned.contains id) s.consumers).1 } := by
  obtain ⟨table, clients⟩ := revoke_spec s.live
    (s.consumers.getActivePartitionIds.filter fun id => !owned.contains id) s.consumers
  generalize revokePartitionClients s.live _ s.consumers = revoked at table clients
  have active : ∀ id, id ∈ s.consumers.getActivePartitionIds ↔ s.consumers[id]? ≠ none := by
    intro id
    rw [ProcessorConsumersMap.getActivePartitionIds, Std.ExtTreeMap.mem_keys,
      Std.ExtTreeMap.mem_iff_isSome_getElem?, Option.isSome_iff_ne_none]
  simp only [mem_filter, active, contains_eq_mem, Bool.not_eq_true', decide_eq_false_iff_not]
    at table clients
  -- what is left was there, and is owned
  have left : ∀ {id : String} {client : PartitionClient}, revoked.2[id]? = some client →
      s.consumers[id]? = some client ∧ id ∈ owned := by
    intro id client h
    rw [table] at h
    split at h
    · cases h
    · next kept =>
      refine ⟨h, ?_⟩
      by_contra other
      exact kept ⟨by simp [h], other⟩
  refine ⟨fun h => inv.own (left h).1, fun {id client} h => ?_,
    ⟨?_, fun _ mem => mem, fun _ mem => .inl mem⟩, ?_⟩
  · rcases inv.live (by rw [balancing]; rfl) (left h).1 with held | queued | holds
    · exact .inl (live_iff.mpr (.inl held))
    · exact .inl (live_iff.mpr (.inr (.inl queued)))
    · rw [balancing] at holds
      cases holds
  · intro id some
    obtain ⟨client, h⟩ := Option.ne_none_iff_exists'.mp some
    exact (left h).2
  · intro id client h mem
    obtain ⟨id', ⟨_, other⟩, found⟩ := clients client mem
    rw [← inv.own found, inv.own (left h).1] at other
    exact other (left h).2

theorem Inv.opening (adding : s.phase = .adding owned (id :: remaining)) :
    Inv { s with
      consumers := s.consumers.insert id ⟨id, s.created⟩
      created := s.created + 1
      phase := .opening owned ⟨id, s.created⟩ remaining } := by
  have added : Added s.consumers owned (id :: remaining) := by
    have := inv.round
    rwa [adding] at this
  refine ⟨fun {id' client} h => ?_, fun {id' client} h => .inl (live_iff.mpr ?_), ?_⟩
  · rw [HashMap.getElem?_insert] at h
    split at h
    · next same =>
      cases h
      exact same
    · exact inv.own h
  · rw [HashMap.getElem?_insert] at h
    split at h
    · cases h
      exact .inr (.inr (mem_singleton.mpr rfl))
    · rcases inv.live (by rw [adding]; rfl) h with held | queued | holds
      · exact .inl held
      · exact .inr (.inl queued)
      · rw [adding] at holds
        cases holds
  · refine ⟨fun id' h => ?_, fun id' h => added.rest id' (.tail _ h), fun id' h => ?_⟩
    · by_cases same : id = id'
      · rw [← same]
        exact added.rest id (.head _)
      · rw [HashMap.getElem?_insert, if_neg same] at h
        exact added.inside id' h
    · by_cases same : id = id'
      · exact .inr (by simp [same])
      · rw [HashMap.getElem?_insert, if_neg same]
        rcases added.added id' h with later | there
        · exact .inl ((mem_cons.mp later).resolve_left (Ne.symm same))
        · exact .inr there

theorem Inv.sent (sending : s.phase = .sending owned client remaining) :
    Inv { s with queue := s.queue ++ [client], phase := .adding owned remaining } where
  own := inv.own
  alive {id other} there := .inl <| live_iff.mpr <| by
    rcases inv.live (by rw [sending]; rfl) there with held | queued | holds
    · exact .inl held
    · exact .inr (.inl (mem_append_left _ queued))
    · rw [sending] at holds
      exact .inr (.inl (mem_append_right _ holds))
  round := by
    have := inv.round
    rwa [sending] at this

theorem Inv.closeRequested {first : PartitionClient}
    {toClose : List PartitionClient} (phase : s.phase = .revoking owned (first :: toClose)) :
    Inv { s with phase := .revoking owned toClose } := by
  have fits := inv.round
  rw [phase] at fits
  refine inv.goesOn (by rw [phase]; rfl) (.revoking owned toClose) ?_
    ⟨fits.1, fun id client there mem => ?_⟩ s.created
  · intro id client there mem
    rw [phase] at mem
    exact absurd mem (fits.2 id client there)
  · exact fits.2 id client there (.tail _ mem)

theorem Inv.skip
    (phase : s.phase = .adding owned (id :: remaining)) (there : s.consumers.contains id = true) :
    Inv { s with created := s.created + 1, phase := .adding owned remaining } := by
  have fits := inv.round
  rw [phase] at fits
  refine inv.goesOn (by rw [phase]; rfl) (.adding owned remaining) (by simp [phase, Phase.holds])
    ⟨fits.inside, fun id' mem => fits.rest id' (.tail _ mem), fun id' mem => ?_⟩ _
  rw [Std.ExtTreeMap.contains_eq_isSome_getElem?, Option.isSome_iff_ne_none] at there
  rcases fits.added id' mem with later | added
  · rcases mem_cons.mp later with rfl | later
    · exact .inr there
    · exact .inl later
  · exact .inr added

/-- The entry is removed again where the receiver does not open; `run` ends then. -/
theorem Inv.openFailed (phase : s.phase = .opening owned client remaining) :
    Inv { s with
      consumers := s.consumers.removePartitionClient client.partitionId, phase := .stopped } where
  own h := inv.own (erase_some h).2
  alive {id other} h := .inl <| live_iff.mpr <| by
    obtain ⟨different, there⟩ := erase_some h
    rcases inv.live (by rw [phase]; rfl) there with held | queued | holds
    · exact .inl held
    · exact .inr (.inl queued)
    · rw [phase] at holds
      rw [← inv.own there, mem_singleton.mp holds] at different
      exact absurd rfl different
  round := trivial

/-! ## The application's steps -/

/-- The application changes what it refers to, with the table and the round as they are. -/
theorem Inv.elsewhere (consumers : s'.consumers = s.consumers) (phase : s'.phase = s.phase)
    (alive : ∀ client, s.registered client = true →
      s.live client = true ∨ s.phase.between = true ∧ client ∈ s.closing →
      s'.live client = true ∨ s.phase.between = true ∧ client ∈ s'.closing) : Inv s' := by
  refine ⟨?_, ?_, ?_⟩
  · rw [consumers]
    exact inv.own
  · rw [consumers, phase]
    exact fun {id client} there => alive client (inv.registered there) (inv.alive there)
  · rw [consumers, phase]
    exact inv.round

omit inv in
theorem live_hold (s : State) (client : PartitionClient) (count : Nat) {other : PartitionClient} :
    (s.hold client count).live other = true ↔
    (if other = client then 0 < count else 0 < s.held other) ∨ other ∈ s.queue ∨
      other ∈ s.phase.holds := by
  rw [live_iff]
  show 0 < (if other = client then count else s.held other) ∨ _ ↔ _
  split <;> rfl

theorem Inv.nextPartitionClient {queue : List PartitionClient}
    (queued : s.queue = client :: queue) :
    Inv ({ s with queue }.hold client (s.held client + 1)) := by
  refine inv.elsewhere rfl rfl fun other _ alive => alive.imp_left fun live => ?_
  rw [live_iff, queued, mem_cons] at live
  rw [live_hold]
  by_cases same : other = client
  · exact .inl (by simp [same])
  · rw [if_neg same]
    exact live.imp_right (Or.imp_left fun mem => mem.resolve_left same)

/-- The application has the client once more or less often, and not for the last time where it is
registered. -/
theorem Inv.hold {count : Nat} (held : 0 < s.held client)
    (safe : s.registered client = true → s.sole client = true → 0 < count)
    (last : 1 < s.held client → 0 < count) : Inv (s.hold client count) := by
  refine inv.elsewhere rfl rfl fun other registered alive => alive.imp_left fun live => ?_
  rw [live_iff] at live
  rw [live_hold]
  by_cases same : other = client
  · subst same
    rw [if_pos rfl]
    by_cases queued : other ∈ s.queue
    · exact .inr (.inl queued)
    · by_cases holds : other ∈ s.phase.holds
      · exact .inr (.inr holds)
      · rcases Nat.lt_or_ge 1 (s.held other) with more | one
        · exact .inl (last more)
        · exact .inl (safe registered (sole_iff.mpr ⟨by omega, queued, holds⟩))
  · rwa [if_neg same]

theorem Inv.close (safe : s.registered client = true → s.phase.between = true) :
    Inv { s.hold client 0 with closing := s.closing ++ [client] } := by
  refine inv.elsewhere rfl rfl fun other registered alive => ?_
  by_cases same : other = client
  · subst same
    exact .inr ⟨safe registered, mem_append_right _ (mem_singleton.mpr rfl)⟩
  · refine alive.imp (fun live => ?_) fun ⟨between, mem⟩ => ⟨between, mem_append_left _ mem⟩
    refine (live_hold s client 0).mpr ?_
    rw [if_neg same]
    exact live_iff.mp live

theorem Inv.closeFailed (safe : s.registered client = false) :
    Inv { s with closing := s.closing.erase client } := by
  refine inv.elsewhere rfl rfl fun other registered alive => alive.imp_right fun ⟨between, mem⟩ => ?_
  refine ⟨between, (mem_erase_of_ne ?_).mpr mem⟩
  rintro rfl
  rw [safe] at registered
  cases registered

theorem Inv.closed
    (safe : s.phase.past client.partitionId = true → s.consumers[client.partitionId]? = none) :
    Inv { s with
      consumers := s.consumers.removePartitionClient client.partitionId
      closing := s.closing.erase client } where
  own h := inv.own (erase_some h).2
  alive {id other} h := by
    obtain ⟨different, there⟩ := erase_some h
    refine (inv.alive there).imp_right fun ⟨between, mem⟩ => ⟨between, (mem_erase_of_ne ?_).mpr mem⟩
    rintro rfl
    exact different (inv.own there)
  round := inv.round.erase safe

/-- **One step.**  A step at a safe moment keeps the invariant. -/
theorem inv_step {e : Event} (safe : s.Safe e) (step : s.step e = some s') : Inv s' := by
  have fits := inv.round
  -- an event that does not fit the phase is refused
  cases e <;> simp only [State.step] at step
  case begin =>
    split at step <;> cases step
    next phase => exact inv.begin phase safe
  case balanceFailed =>
    split at step <;> cases step
    next phase =>
      exact inv.goesOn (by rw [phase]; rfl) .stopped (by simp [phase, Phase.holds]) trivial s.created
  case balanced owned =>
    split at step <;> cases step
    next phase => exact inv.balanced phase owned
  case closeRequested =>
    split at step <;> cases step
    next phase => exact inv.closeRequested phase
  case revoked =>
    split at step <;> cases step
    next owned phase =>
      rw [phase] at fits
      exact inv.goesOn (by rw [phase]; rfl) (.reading owned) (by simp [phase, Phase.holds]) fits.1
        s.created
  case checkpointsFailed =>
    split at step <;> cases step
    next phase =>
      exact inv.goesOn (by rw [phase]; rfl) .stopped (by simp [phase, Phase.holds]) trivial s.created
  case checkpointsRead =>
    split at step <;> cases step
    next owned phase =>
      rw [phase] at fits
      exact inv.goesOn (by rw [phase]; rfl) (.adding owned owned) (by simp [phase, Phase.holds]) fits
        s.created
  case add =>
    simp only [ProcessorConsumersMap.addPartitionClient] at step
    split at step
    · next owned id remaining phase =>
      by_cases there : s.consumers.contains id = true
      · rw [if_pos there] at step
        cases step
        exact inv.skip phase there
      · rw [if_neg there] at step
        cases step
        exact inv.opening phase
    · cases step
  case openFailed =>
    split at step <;> cases step
    next phase => exact inv.openFailed phase
  case opened =>
    split at step <;> cases step
    next owned client remaining phase =>
      rw [phase] at fits
      exact inv.goesOn (by rw [phase]; rfl) (.sending owned client remaining)
        (by simp [phase, Phase.holds]) fits s.created
  case sent =>
    split at step <;> cases step
    next phase => exact inv.sent phase
  case done owned =>
    split at step
    · next phase =>
      split at step <;> cases step
      exact inv.goesOn (by rw [phase]; rfl) .sleeping (by simp [phase, Phase.holds]) trivial
        s.created
    · cases step
  case nextPartitionClient =>
    split at step <;> cases step
    next queued => exact inv.nextPartitionClient queued
  case clone client =>
    split at step <;> cases step
    next held => exact inv.hold held (fun _ _ => by omega) fun _ => by omega
  case drop client =>
    split at step <;> cases step
    next held =>
      refine inv.hold held (fun registered sole => ?_) fun more => by omega
      rw [safe registered] at sole
      cases sole
  case close client =>
    split at step <;> cases step
    exact inv.close safe
  case closeFailed client =>
    split at step <;> cases step
    exact inv.closeFailed safe
  case closed client =>
    split at step <;> cases step
    exact inv.closed safe

end Lemmas

/-! ## Runs -/

def SafeStep (s : State) (e : Event) (s' : State) : Prop := s.Safe e ∧ s.step e = some s'

theorem inv_start : Inv {} where
  own h := by simp at h
  alive h := by simp at h
  round := trivial

theorem Inv.registers {s s' : State} {owned : List String} (inv : Inv s)
    (done : s.step (.done owned) = some s') : s'.Registers owned := by
  simp only [State.step] at done
  split at done
  · next owned' phase =>
    split at done
    · next same =>
      subst same
      cases done
      have fits := inv.round
      rw [phase] at fits
      intro id
      constructor
      · intro mem
        rcases fits.added id mem with later | there
        · cases later
        · obtain ⟨client, there⟩ := Option.ne_none_iff_exists'.mp there
          refine ⟨client, there, inv.own there, live_iff.mpr ?_⟩
          have live := inv.live (by rw [phase]; rfl) there
          rwa [phase] at live
      · intro other
        by_contra there
        exact other (fits.inside id there)
    · cases done
  · cases done

/-- **Where the application keeps to safe moments, every round that succeeds leaves one live client
for each partition it has reported as owned, and none for any other.** -/
theorem dispatch_registers {events : List Event} {s s' : State} {owned : List String}
    (run : Run SafeStep {} events s) (last : SafeStep s (.done owned) s') : s'.Registers owned := by
  have inv : Inv s := run.invariant (P := Inv) (fun inv step => inv_step inv step.1 step.2) inv_start
  exact inv.registers last.2

/-- A round that finds partition `0` owned and without a client. -/
def firstRound : List Event :=
  [.begin, .balanced ["0"], .revoked, .checkpointsRead, .add, .opened, .sent]

/-- Two partitions are found; then the client of one is closed, and the other partition is lost. -/
def secondRound : List Event :=
  [.begin, .balanced ["0", "1"], .revoked, .checkpointsRead, .add, .opened, .sent, .add, .opened, .sent,
    .done ["0", "1"], .nextPartitionClient, .nextPartitionClient, .close ⟨"1", 1⟩, .closed ⟨"1", 1⟩,
    .begin, .balanced ["1"], .closeRequested, .revoked, .checkpointsRead, .add, .opened, .sent]

/-- The closed client has a successor, and the lost partition none. -/
theorem dispatch_registers_second :
    ∃ s s' : State, Run SafeStep {} secondRound s ∧ SafeStep s (.done ["1"]) s' ∧ s'.Registers ["1"] := by
  have run : Run SafeStep {} secondRound _ :=
    .cons ⟨by simp [State.Safe], rfl⟩ <| .cons ⟨trivial, rfl⟩ <| .cons ⟨trivial, rfl⟩ <|
      .cons ⟨trivial, rfl⟩ <| .cons ⟨trivial, rfl⟩ <| .cons ⟨trivial, rfl⟩ <| .cons ⟨trivial, rfl⟩ <|
      .cons ⟨trivial, rfl⟩ <| .cons ⟨trivial, rfl⟩ <| .cons ⟨trivial, rfl⟩ <| .cons ⟨trivial, rfl⟩ <|
      .cons ⟨trivial, rfl⟩ <| .cons ⟨trivial, rfl⟩ <| .cons ⟨fun _ => rfl, rfl⟩ <| .cons ⟨nofun, rfl⟩ <|
      .cons ⟨nofun, rfl⟩ <| .cons ⟨trivial, rfl⟩ <| .cons ⟨trivial, rfl⟩ <| .cons ⟨trivial, rfl⟩ <|
      .cons ⟨trivial, rfl⟩ <| .cons ⟨trivial, rfl⟩ <| .cons ⟨trivial, rfl⟩ <| .cons ⟨trivial, rfl⟩ (.nil _)
  exact ⟨_, _, run, ⟨trivial, rfl⟩, dispatch_registers run ⟨trivial, rfl⟩⟩

/-- The application takes the client and drops it; the next round passes over the partition. -/
theorem dropped_client_stays :
    ∃ s s' : State, Run (fun s e s' => s.step e = some s') {}
        (firstRound ++ [.done ["0"], .nextPartitionClient, .drop ⟨"0", 0⟩, .begin,
          .balanced ["0"], .revoked, .checkpointsRead, .add]) s ∧
      s.step (.done ["0"]) = some s' ∧ ¬ s'.Registers ["0"] := by
  refine ⟨_, _, Run.of_foldlM rfl, rfl, fun registers => ?_⟩
  obtain ⟨client, there, _, live⟩ := (registers "0").1 (mem_singleton.mpr rfl)
  cases there
  cases live

end Processor

end AzureSdk.EventHubs

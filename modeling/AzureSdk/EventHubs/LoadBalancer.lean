/-
# EventHubs.LoadBalancer — which partitions a processor claims

A processor looks at the ownership records, works out its share from the owners it sees,
and claims what it already owns and some more: partitions nobody owns, or partitions of
owners above the share.  `loadBalance` gives the records it claims.

What the source leaves open stands in `Choices`: the clock, the iteration order of the
owners, and the random numbers.  `loadBalance_picked` says what is claimed whatever they are.
-/
import AzureSdk.EventHubs.Ownership
import AzureSdk.Theory.HashMap
import AzureSdk.Theory.Shares

namespace AzureSdk.EventHubs

open Theory List

inductive ProcessorStrategy
  | balanced
  | greedy
  deriving DecidableEq, Repr

/-- `LoadBalancer`, without its store and its random numbers. -/
structure LoadBalancer where
  processorStrategy : ProcessorStrategy
  duration : Int
  consumerClientDetails : ConsumerClientDetails
  deriving DecidableEq, Repr

structure LoadBalancerInfo where
  currentOwnership : List Ownership
  unownedOrExpired : List Ownership
  claimMorePartitions : Bool
  aboveMax : List Ownership
  maxAllowed : Nat

/-- What a call is free to choose: the time at which it looks at a record, the order of the
owners, a random index, and two shuffles. -/
structure Choices where
  now : Ownership → Int
  owners : IterationOrder (String × List Ownership)
  randomRange : Nat → Nat
  inRange : ∀ len, 0 < len → randomRange len < len
  shuffleUnowned : IterationOrder Ownership
  shuffleAbove : IterationOrder Ownership

namespace LoadBalancer

variable (self : LoadBalancer)

def clientId : String := self.consumerClientDetails.clientId

/-- The record has not been renewed in time. -/
def expired (now : Int) (ownership : Ownership) : Bool :=
  ownership.lastModifiedTime.any fun time => decide (time + self.duration < now)

/-- The loop over the records: those nobody owns, and those of each owner. -/
def groupOwnership (now : Ownership → Int)
    (groups : List Ownership × HashMap String (List Ownership)) (ownership : Ownership) :
    List Ownership × HashMap String (List Ownership) :=
  if self.expired (now ownership) ownership then (groups.1 ++ [ownership], groups.2)
  else
    match ownership.ownerId with
    | none => (groups.1 ++ [ownership], groups.2)
    | some ownerId =>
      (groups.1, groups.2.insert ownerId ((groups.2[ownerId]?).getD [] ++ [ownership]))

/-- The record of a partition that has none yet. -/
def newOwnership (partitionId : String) : Ownership :=
  { fullyQualifiedNamespace := self.consumerClientDetails.fullyQualifiedNamespace
    eventHubName := self.consumerClientDetails.eventhubName
    consumerGroup := self.consumerClientDetails.consumerGroup
    partitionId
    ownerId := some self.clientId
    etag := none
    lastModifiedTime := none }

/-- `get_available_partitions`, of the records the store lists. -/
def getAvailablePartitions (choices : Choices) (partitionIds : List String)
    (ownerships : List Ownership) : LoadBalancerInfo :=
  let groups := ownerships.foldl (self.groupOwnership choices.now) ([], {(self.clientId, [])})
  let groupedByOwner := groups.2
  let missing := partitionIds.filter fun id => !(ownerships.map (·.partitionId)).contains id
  let unownedOrExpired := groups.1 ++ missing.map self.newOwnership
  let current := (groupedByOwner[self.clientId]?).getD []
  let minimumRequired := partitionIds.length / groupedByOwner.size
  let allowExtraPartition := decide (0 < partitionIds.length % groupedByOwner.size)
  let maximumAllowed :=
    if allowExtraPartition && decide (minimumRequired ≤ current.length) then minimumRequired + 1
    else minimumRequired
  let aboveMaximum := (choices.owners.arrange groupedByOwner.toList).flatMap fun group =>
    if group.1 = self.clientId then []
    else if maximumAllowed < group.2.length then group.2 else []
  let claimMorePartitions :=
    if maximumAllowed ≤ current.length then false
    else if allowExtraPartition && current.length == maximumAllowed - 1 then
      !unownedOrExpired.isEmpty || !aboveMaximum.isEmpty
    else true
  { currentOwnership := current
    unownedOrExpired
    claimMorePartitions
    aboveMax := aboveMaximum
    maxAllowed := maximumAllowed }

def getRandomOwnerships (shuffle : IterationOrder Ownership) (ownerships : List Ownership)
    (count : Nat) : List Ownership :=
  (shuffle.arrange ownerships).take (min count ownerships.length)

def resetOwnership (ownership : Ownership) : Ownership := { ownership with ownerId := some self.clientId }

def balancedLoadBalancer (choices : Choices) (info : LoadBalancerInfo) : Option Ownership :=
  if !info.unownedOrExpired.isEmpty then
    (info.unownedOrExpired[choices.randomRange info.unownedOrExpired.length]?).map self.resetOwnership
  else if !info.aboveMax.isEmpty then
    (info.aboveMax[choices.randomRange info.aboveMax.length]?).map self.resetOwnership
  else none

def greedyLoadBalancer (choices : Choices) (info : LoadBalancerInfo) : List Ownership :=
  let ours := info.currentOwnership ++
    getRandomOwnerships choices.shuffleUnowned info.unownedOrExpired
      (info.maxAllowed - info.currentOwnership.length)
  let ours :=
    if ours.length < info.maxAllowed then
      ours ++ getRandomOwnerships choices.shuffleAbove info.aboveMax (info.maxAllowed - ours.length)
    else ours
  ours.map self.resetOwnership

def loadBalance (choices : Choices) (partitionIds : List String) (ownerships : List Ownership) :
    List Ownership :=
  let info := self.getAvailablePartitions choices partitionIds ownerships
  if info.claimMorePartitions then
    match self.processorStrategy with
    | .balanced => info.currentOwnership ++ (self.balancedLoadBalancer choices info).toList
    | .greedy => self.greedyLoadBalancer choices info
  else info.currentOwnership

end LoadBalancer

/-! ## What a call sees -/

def ownedBy (ownerships : List Ownership) (ownerId : String) : List Ownership :=
  ownerships.filter fun o => o.ownerId == some ownerId

variable {l : List Ownership} {o : Ownership}

theorem mem_ownedBy {q : String} : o ∈ ownedBy l q ↔ o ∈ l ∧ o.ownerId = some q := by
  rw [ownedBy, mem_filter, beq_iff_eq]

def unowned (ownerships : List Ownership) : List Ownership :=
  ownerships.filter fun o => o.ownerId == none

theorem mem_unowned : o ∈ unowned l ↔ o ∈ l ∧ o.ownerId = none := by
  rw [unowned, mem_filter, beq_iff_eq]

/-- The records a call chooses from. -/
def LoadBalancerInfo.seen (info : LoadBalancerInfo) : List Ownership :=
  info.currentOwnership ++ (info.unownedOrExpired ++ info.aboveMax)

namespace LoadBalancer

variable {self : LoadBalancer} {choices : Choices} {partitionIds : List String}
variable {ownerships : List Ownership}

/-- The records that have been renewed in time. -/
def fresh (self : LoadBalancer) (now : Ownership → Int) (ownerships : List Ownership) :
    List Ownership :=
  ownerships.filter fun o => !self.expired (now o) o

/-- The records that may be claimed by anyone. -/
def unownedOrExpired (self : LoadBalancer) (now : Ownership → Int) (ownerships : List Ownership) :
    List Ownership :=
  ownerships.filter fun o => self.expired (now o) o || o.ownerId == none

variable {now : Ownership → Int} {o : Ownership}

theorem mem_fresh :
    o ∈ self.fresh now ownerships ↔ o ∈ ownerships ∧ self.expired (now o) o = false := by
  rw [fresh, mem_filter, Bool.not_eq_true']

theorem mem_unownedOrExpired : o ∈ self.unownedOrExpired now ownerships ↔
      o ∈ ownerships ∧ (self.expired (now o) o = true ∨ o.ownerId = none) := by
  rw [unownedOrExpired, mem_filter, Bool.or_eq_true, beq_iff_eq]

theorem fresh_eq (current : ∀ o ∈ ownerships, self.expired (now o) o = false) :
    self.fresh now ownerships = ownerships :=
  filter_eq_self.mpr fun o mem => by rw [current o mem]; rfl

theorem unownedOrExpired_eq (current : ∀ o ∈ ownerships, self.expired (now o) o = false) :
    self.unownedOrExpired now ownerships = unowned ownerships :=
  filter_congr fun o mem => by rw [current o mem]; rfl

theorem groupOwnership_free {free : List Ownership} {groups : HashMap String (List Ownership)}
    (open_ : (self.expired (now o) o || o.ownerId == none) = true) :
    self.groupOwnership now (free, groups) o = (free ++ [o], groups) := by
  unfold groupOwnership
  split
  · rfl
  · simp_all

theorem foldl_groupOwnership (free : List Ownership) (groups : HashMap String (List Ownership)) :
    (ownerships.foldl (self.groupOwnership now) (free, groups)).1 =
        free ++ self.unownedOrExpired now ownerships ∧
      ∀ q, (ownerships.foldl (self.groupOwnership now) (free, groups)).2[q]? =
        if ownedBy (self.fresh now ownerships) q = [] then groups[q]?
        else some ((groups[q]?).getD [] ++ ownedBy (self.fresh now ownerships) q) := by
  induction ownerships generalizing free groups with
  | nil => simp [unownedOrExpired, fresh, ownedBy]
  | cons o ownerships ih =>
    rw [foldl_cons]
    cases open_ : self.expired (now o) o || o.ownerId == none with
    | true =>
      obtain ⟨first, second⟩ := ih (free ++ [o]) groups
      have taken : self.unownedOrExpired now (o :: ownerships) =
          o :: self.unownedOrExpired now ownerships := filter_cons_of_pos open_
      rw [groupOwnership_free open_, first, taken, append_assoc]
      refine ⟨rfl, fun q => ?_⟩
      have skip : ownedBy (self.fresh now (o :: ownerships)) q =
          ownedBy (self.fresh now ownerships) q := by
        simp only [ownedBy, fresh, filter_filter]
        exact filter_cons_of_neg (by grind)
      rw [second, skip]
    | false =>
      obtain ⟨late, owned⟩ := Bool.or_eq_false_iff.mp open_
      obtain ⟨ownerId, owner⟩ := Option.ne_none_iff_exists'.mp (ne_of_beq_false owned)
      have step : self.groupOwnership now (free, groups) o =
          (free, groups.insert ownerId ((groups[ownerId]?).getD [] ++ [o])) := by
        simp [groupOwnership, late, owner]
      have kept : self.fresh now (o :: ownerships) = o :: self.fresh now ownerships :=
        filter_cons_of_pos (by simp [late])
      obtain ⟨first, second⟩ := ih free (groups.insert ownerId ((groups[ownerId]?).getD [] ++ [o]))
      rw [step, first, kept]
      refine ⟨by simp [unownedOrExpired, late, owner], fun q => ?_⟩
      rw [second, HashMap.getElem?_insert]
      generalize self.fresh now ownerships = rest
      by_cases same : ownerId = q
      · have more : ownedBy (o :: rest) q = o :: ownedBy rest q :=
          filter_cons_of_pos (by simp [owner, same])
        rw [more, if_pos same, if_neg (cons_ne_nil _ _), same]
        split
        · rename_i none
          rw [none]
        · simp
      · have skip : ownedBy (o :: rest) q = ownedBy rest q :=
          filter_cons_of_neg (by simp [owner, same])
        rw [if_neg same, skip]

def groups (self : LoadBalancer) (choices : Choices) (ownerships : List Ownership) :
    List Ownership × HashMap String (List Ownership) :=
  ownerships.foldl (self.groupOwnership choices.now) ([], {(self.clientId, [])})

theorem groups_unownedOrExpired :
    (self.groups choices ownerships).1 = self.unownedOrExpired choices.now ownerships :=
  (foldl_groupOwnership [] {(self.clientId, [])}).1

/-- There is a group for every owner, and one for the processor itself. -/
theorem groups_owner (q : String) : (self.groups choices ownerships).2[q]? =
    if q = self.clientId ∨ ownedBy (self.fresh choices.now ownerships) q ≠ [] then
      some (ownedBy (self.fresh choices.now ownerships) q)
    else none := by
  have start : ({(self.clientId, [])} : HashMap String (List Ownership))[q]? =
      if self.clientId = q then some [] else none := by
    rw [Std.ExtTreeMap.singleton_eq_insert, HashMap.getElem?_insert]
    simp
  rw [groups, (foldl_groupOwnership [] {(self.clientId, [])}).2, start]
  by_cases none : ownedBy (self.fresh choices.now ownerships) q = []
  · by_cases same : self.clientId = q
    · simp [none, same]
    · simp [none, same, Ne.symm same]
  · by_cases same : self.clientId = q
    · simp [none, same]
    · simp [none, same]

theorem size_groups (current : ∀ o ∈ ownerships, self.expired (choices.now o) o = false)
    {owners : Finset String}
    (mem : ∀ q, q ∈ owners ↔ q = self.clientId ∨ ownedBy ownerships q ≠ []) :
    (self.groups choices ownerships).2.size = owners.card := by
  have keys : (self.groups choices ownerships).2.keys.toFinset = owners := by
    ext q
    rw [mem_toFinset, mem, Std.ExtTreeMap.mem_keys, Std.ExtTreeMap.mem_iff_isSome_getElem?,
      groups_owner, fresh_eq current]
    by_cases sees : q = self.clientId ∨ ownedBy ownerships q ≠ []
    · rw [if_pos sees]
      exact iff_of_true rfl sees
    · rw [if_neg sees]
      exact iff_of_false Bool.false_ne_true sees
  rw [← keys, toFinset_card_of_nodup Std.ExtTreeMap.nodup_keys, Std.ExtTreeMap.length_keys]

structure Informed (balancer : LoadBalancer) (partitionIds : List String) (ownerships : List Ownership)
    (visible : Nat) (info : LoadBalancerInfo) : Prop where
  current : info.currentOwnership = ownedBy ownerships balancer.clientId
  unowned : info.unownedOrExpired = unowned ownerships ++
    (partitionIds.filter fun id => !(ownerships.map (·.partitionId)).contains id).map balancer.newOwnership
  most : info.maxAllowed =
    Shares.quota visible partitionIds.length (ownedBy ownerships balancer.clientId).length
  above : ∀ o, o ∈ info.aboveMax ↔ ∃ q, q ≠ balancer.clientId ∧ o ∈ ownedBy ownerships q ∧
    info.maxAllowed < (ownedBy ownerships q).length
  enough : info.claimMorePartitions = false → info.maxAllowed ≤ info.currentOwnership.length ∨
    info.unownedOrExpired = [] ∧ info.aboveMax = []

variable {owners : IterationOrder (String × List Ownership)}

theorem group_eq {group : String × List Ownership}
    (mem : group ∈ owners.arrange (self.groups choices ownerships).2.toList) :
    group.2 = ownedBy (self.fresh choices.now ownerships) group.1 := by
  have found := HashMap.mem_toList.mp ((owners.perm _).mem_iff.mp mem)
  rw [groups_owner] at found
  split at found
  · exact (Option.some.inj found).symm
  · cases found

theorem mem_above {most : Nat} :
    o ∈ (owners.arrange (self.groups choices ownerships).2.toList).flatMap (fun group =>
        if group.1 = self.clientId then []
        else if most < group.2.length then group.2 else []) ↔
      ∃ q, q ≠ self.clientId ∧ o ∈ ownedBy (self.fresh choices.now ownerships) q ∧
        most < (ownedBy (self.fresh choices.now ownerships) q).length := by
  rw [mem_flatMap]
  constructor
  · rintro ⟨group, mem, found⟩
    rw [group_eq mem] at found
    split at found
    · cases found
    · rename_i other
      split at found
      · rename_i high
        exact ⟨group.1, other, found, high⟩
      · cases found
  · rintro ⟨q, other, found, high⟩
    have some : ownedBy (self.fresh choices.now ownerships) q ≠ [] := ne_nil_of_mem found
    refine ⟨(q, ownedBy (self.fresh choices.now ownerships) q), ?_, ?_⟩
    · rw [(owners.perm _).mem_iff, HashMap.mem_toList, groups_owner, if_pos (.inr some)]
    · rw [if_neg other, if_pos high]
      exact found

section Finds

variable {info : LoadBalancerInfo}
  (finds : self.getAvailablePartitions choices partitionIds ownerships = info)

include finds

theorem maxAllowed_eq : info.maxAllowed = Shares.quota (self.groups choices ownerships).2.size
    partitionIds.length info.currentOwnership.length := by
  subst finds
  simp only [getAvailablePartitions, groups, Shares.quota, Bool.and_eq_true, decide_eq_true_eq]
  split <;> rfl

theorem claimMore_eq : info.claimMorePartitions =
    if info.maxAllowed ≤ info.currentOwnership.length then false
    else if decide (0 < partitionIds.length % (self.groups choices ownerships).2.size) &&
        info.currentOwnership.length == info.maxAllowed - 1 then
      !info.unownedOrExpired.isEmpty || !info.aboveMax.isEmpty
    else true := by
  subst finds
  rfl

theorem claimMore_room (more : info.claimMorePartitions = true) :
    info.currentOwnership.length < info.maxAllowed := by
  rw [claimMore_eq finds] at more
  split at more
  · cases more
  · exact Nat.lt_of_not_le ‹_›

theorem currentOwnership_eq :
    info.currentOwnership = ownedBy (self.fresh choices.now ownerships) self.clientId := by
  subst finds
  change ((self.groups choices ownerships).2[self.clientId]?).getD [] = _
  rw [groups_owner, if_pos (.inl rfl)]
  rfl

theorem mem_aboveMax : o ∈ info.aboveMax ↔
    ∃ q, q ≠ self.clientId ∧ o ∈ ownedBy (self.fresh choices.now ownerships) q ∧
      info.maxAllowed < (ownedBy (self.fresh choices.now ownerships) q).length := by
  subst finds
  exact mem_above

theorem getAvailablePartitions_informed
    (current : ∀ o ∈ ownerships, self.expired (choices.now o) o = false) :
    Informed self partitionIds ownerships (self.groups choices ownerships).2.size info := by
  have own := currentOwnership_eq finds
  have above := fun o => @mem_aboveMax _ _ _ _ o _ finds
  rw [fresh_eq current] at own above
  refine ⟨own, ?_, by rw [maxAllowed_eq finds, own], above, fun stop => ?_⟩
  · subst finds
    show (self.groups choices ownerships).1 ++ _ = _
    rw [groups_unownedOrExpired, unownedOrExpired_eq current]
  · rw [claimMore_eq finds] at stop
    split at stop
    · exact .inl ‹_›
    · split at stop
      · simp only [Bool.or_eq_false_iff, Bool.not_eq_false', List.isEmpty_iff] at stop
        exact .inr stop
      · cases stop

end Finds

/-! ## What a call claims -/

/-- What is claimed beyond what is owned already. -/
structure Extra (info : LoadBalancerInfo) (claims extra : List Ownership) : Prop where
  ids : claims.map (·.partitionId) =
    info.currentOwnership.map (·.partitionId) ++ extra.map (·.partitionId)
  source : ∀ o ∈ extra, o ∈ info.unownedOrExpired ∨ o ∈ info.aboveMax
  within : extra ≠ [] → info.currentOwnership.length + extra.length ≤ info.maxAllowed
  stops : extra = [] → info.claimMorePartitions = false ∨
    info.unownedOrExpired = [] ∧ info.aboveMax = []

/-- The records behind the claims: some that the call has seen, each at most once, with the
processor as their owner. -/
structure Picked (balancer : LoadBalancer) (info : LoadBalancerInfo) (claims extra : List Ownership) :
    Prop where
  claims : claims = (info.currentOwnership ++ extra).map balancer.resetOwnership
  sub : extra.Subperm (info.unownedOrExpired ++ info.aboveMax)
  within : extra ≠ [] → info.currentOwnership.length + extra.length ≤ info.maxAllowed
  stops : extra = [] → info.claimMorePartitions = false ∨
    info.unownedOrExpired = [] ∧ info.aboveMax = []

theorem Picked.toExtra {info : LoadBalancerInfo} {claims extra : List Ownership}
    (picked : self.Picked info claims extra) : Extra info claims extra where
  ids := by
    rw [picked.claims, map_map, map_append]
    rfl
  source o mem := mem_append.mp (picked.sub.subset mem)
  within := picked.within
  stops := picked.stops

theorem random_some (choices : Choices) {l : List Ownership} (some : l ≠ []) :
    ∃ o ∈ l, l[choices.randomRange l.length]? = .some o := by
  have inside := choices.inRange l.length (length_pos_of_ne_nil some)
  exact ⟨l[choices.randomRange l.length], getElem_mem inside, List.getElem?_eq_getElem inside⟩

/-- The balanced strategy takes one record, if there is one to take. -/
theorem balanced_cases (info : LoadBalancerInfo) :
    (info.unownedOrExpired = [] ∧ info.aboveMax = [] ∧
      self.balancedLoadBalancer choices info = none) ∨
    ∃ o, (o ∈ info.unownedOrExpired ∨ o ∈ info.aboveMax) ∧
      self.balancedLoadBalancer choices info = some (self.resetOwnership o) := by
  unfold balancedLoadBalancer
  by_cases open_ : info.unownedOrExpired = []
  · by_cases above : info.aboveMax = []
    · exact .inl ⟨open_, above, by simp [open_, above]⟩
    · obtain ⟨o, mem, found⟩ := random_some choices above
      exact .inr ⟨o, .inr mem, by simp [open_, above, found]⟩
  · obtain ⟨o, mem, found⟩ := random_some choices open_
    exact .inr ⟨o, .inl mem, by simp [open_, found]⟩

section Choosing

variable {info : LoadBalancerInfo} (room : info.currentOwnership.length < info.maxAllowed)

include room

theorem balanced_picked
    (own : info.currentOwnership.map self.resetOwnership = info.currentOwnership) :
    ∃ extra, self.Picked info
      (info.currentOwnership ++ (self.balancedLoadBalancer choices info).toList) extra := by
  rcases balanced_cases info with ⟨open_, above, claim⟩ | ⟨o, mem, claim⟩ <;> rw [claim]
  · exact ⟨[], by simp [own], nil_subperm, fun h => absurd rfl h, fun _ => .inr ⟨open_, above⟩⟩
  · refine ⟨[o], ?_, singleton_subperm_iff.mpr (mem_append.mpr mem), fun _ => room, nofun⟩
    rw [map_append, own]
    rfl

omit room in
theorem getRandomOwnerships_spec (shuffle : IterationOrder Ownership) (l : List Ownership)
    (count : Nat) : (getRandomOwnerships shuffle l count).length = min count l.length ∧
      (getRandomOwnerships shuffle l count).Subperm l := by
  refine ⟨?_, (take_sublist _ _).subperm.trans (shuffle.perm l).subperm⟩
  rw [getRandomOwnerships, length_take, (shuffle.perm l).length_eq]
  omega

theorem greedy_picked : ∃ extra, self.Picked info (self.greedyLoadBalancer choices info) extra := by
  obtain ⟨first, free⟩ := getRandomOwnerships_spec choices.shuffleUnowned info.unownedOrExpired
    (info.maxAllowed - info.currentOwnership.length)
  unfold greedyLoadBalancer
  generalize getRandomOwnerships choices.shuffleUnowned info.unownedOrExpired
    (info.maxAllowed - info.currentOwnership.length) = open_ at first free
  dsimp only
  split
  · obtain ⟨second, stolen⟩ := getRandomOwnerships_spec choices.shuffleAbove info.aboveMax
      (info.maxAllowed - (info.currentOwnership ++ open_).length)
    generalize getRandomOwnerships choices.shuffleAbove info.aboveMax
      (info.maxAllowed - (info.currentOwnership ++ open_).length) = above at second stolen
    rw [length_append] at second
    refine ⟨open_ ++ above, by rw [append_assoc], free.append stolen, fun _ => ?_,
      fun none => .inr ?_⟩
    · rw [length_append]
      omega
    · obtain ⟨noOpen, noAbove⟩ := append_eq_nil_iff.mp none
      rw [noOpen, length_nil] at first second
      rw [noAbove, length_nil] at second
      exact ⟨eq_nil_of_length_eq_zero (by omega), eq_nil_of_length_eq_zero (by omega)⟩
  · rename_i full
    rw [length_append] at full
    refine ⟨open_, rfl, free.trans (sublist_append_left _ _).subperm, fun _ => by omega,
      fun none => ?_⟩
    rw [none, length_nil] at full
    omega

end Choosing

theorem loadBalance_picked : ∃ extra,
    self.Picked (self.getAvailablePartitions choices partitionIds ownerships)
      (self.loadBalance choices partitionIds ownerships) extra := by
  unfold loadBalance
  generalize finds : self.getAvailablePartitions choices partitionIds ownerships = info
  have own : info.currentOwnership.map self.resetOwnership = info.currentOwnership := by
    refine (map_congr_left fun o mem => ?_).trans (map_id' _)
    rw [currentOwnership_eq finds] at mem
    rw [resetOwnership, ← (mem_ownedBy.mp mem).2]
  dsimp only
  cases more : info.claimMorePartitions with
  | false => exact ⟨[], by simp [own], nil_subperm, fun h => absurd rfl h, fun _ => .inl more⟩
  | true =>
    cases self.processorStrategy with
    | balanced => exact balanced_picked (claimMore_room finds more) own
    | greedy => exact greedy_picked (claimMore_room finds more)

/-! ### No partition is seen twice -/

section Seen

theorem others_nodup {owners : IterationOrder (String × List Ownership)} {most : Nat}
    (distinct : ownerships.Nodup) :
    ((owners.arrange (self.groups choices ownerships).2.toList).flatMap fun group =>
      if group.1 = self.clientId then []
      else if most < group.2.length then group.2 else []).Nodup := by
  have each : ∀ group ∈ owners.arrange (self.groups choices ownerships).2.toList,
      (if group.1 = self.clientId then []
        else if most < group.2.length then group.2 else []).Sublist
        (ownedBy (self.fresh choices.now ownerships) group.1) := by
    intro group mem
    rw [← group_eq mem]
    split
    · exact nil_sublist _
    · split
      · exact List.Sublist.refl _
      · exact nil_sublist _
  have apart : (owners.arrange (self.groups choices ownerships).2.toList).Pairwise
      fun g g' => g.1 ≠ g'.1 :=
    ((owners.perm _).pairwise_iff fun h => h.symm).mpr (HashMap.distinct_toList _)
  rw [nodup_flatMap]
  refine ⟨fun group mem => ?_, apart.imp_of_mem fun mem mem' other o here there => ?_⟩
  · exact ((distinct.filter _).filter _).sublist (each group mem)
  · have first := (mem_ownedBy.mp ((each _ mem).subset here)).2
    have second := (mem_ownedBy.mp ((each _ mem').subset there)).2
    rw [first] at second
    exact other (Option.some.inj second)

/-- The partitions that have no record. -/
def missing (partitionIds : List String) (ownerships : List Ownership) : List String :=
  partitionIds.filter fun id => !(ownerships.map (·.partitionId)).contains id

/-- What is seen are records of three kinds and new ones, each at most once. -/
theorem seen_subperm (distinct : ownerships.Nodup) :
    (self.getAvailablePartitions choices partitionIds ownerships).seen.Subperm
      (ownerships ++ (missing partitionIds ownerships).map self.newOwnership) := by
  generalize finds : self.getAvailablePartitions choices partitionIds ownerships = info
  have current := currentOwnership_eq finds
  have free : info.unownedOrExpired = self.unownedOrExpired choices.now ownerships ++
      (missing partitionIds ownerships).map self.newOwnership := by
    rw [← groups_unownedOrExpired, ← finds]
    rfl
  have inCurrent : ∀ o ∈ info.currentOwnership,
      o ∈ self.fresh choices.now ownerships ∧ o.ownerId = some self.clientId := by
    intro o mem
    rw [current] at mem
    exact mem_ownedBy.mp mem
  have inAbove : ∀ o ∈ info.aboveMax, o ∈ self.fresh choices.now ownerships ∧
      ∃ q, q ≠ self.clientId ∧ o.ownerId = some q := by
    intro o mem
    obtain ⟨q, other, owned, _⟩ := (mem_aboveMax finds).mp mem
    exact ⟨(mem_ownedBy.mp owned).1, q, other, (mem_ownedBy.mp owned).2⟩
  -- a fresh record with an owner is not free, and has only the one owner
  have notFree : ∀ o ∈ self.fresh choices.now ownerships, ∀ q, o.ownerId = some q →
      o ∉ self.unownedOrExpired choices.now ownerships := by
    intro o renewed q owner free
    rcases (mem_unownedOrExpired.mp free).2 with late | nobody
    · rw [(mem_fresh.mp renewed).2] at late
      cases late
    · rw [owner] at nobody
      cases nobody
  have records : (info.currentOwnership ++
      (self.unownedOrExpired choices.now ownerships ++ info.aboveMax)).Subperm ownerships := by
    refine subperm_of_subset (nodup_append'.mpr ⟨?_, nodup_append'.mpr ⟨distinct.filter _, ?_, ?_⟩,
      ?_⟩) (append_subset.mpr ⟨?_, append_subset.mpr ⟨?_, ?_⟩⟩)
    · rw [current]
      exact (distinct.filter _).filter _
    · rw [← finds]
      exact others_nodup distinct
    · intro o free above
      obtain ⟨renewed, q, _, owner⟩ := inAbove o above
      exact notFree o renewed q owner free
    · intro o own rest
      obtain ⟨renewed, owner⟩ := inCurrent o own
      rcases mem_append.mp rest with free | above
      · exact notFree o renewed _ owner free
      · obtain ⟨_, q, other, owner'⟩ := inAbove o above
        rw [owner] at owner'
        exact other (Option.some.inj owner').symm
    · exact fun o mem => (mem_fresh.mp (inCurrent o mem).1).1
    · exact fun o mem => (mem_unownedOrExpired.mp mem).1
    · exact fun o mem => (mem_fresh.mp (inAbove o mem).1).1
  refine List.Subperm.trans (Perm.subperm ?_) (records.append (.refl _))
  change (info.currentOwnership ++ (info.unownedOrExpired ++ info.aboveMax)).Perm _
  rw [free, append_assoc, append_assoc, append_assoc]
  exact (perm_append_comm.append_left _).append_left _

theorem seen_ids_nodup (distinct : (ownerships.map (·.partitionId)).Nodup)
    (ids : partitionIds.Nodup) :
    ((ownerships ++ (missing partitionIds ownerships).map self.newOwnership).map
      (·.partitionId)).Nodup := by
  rw [map_append, map_map]
  refine nodup_append'.mpr ⟨distinct, ?_, ?_⟩
  · exact (map_id' _).symm ▸ ids.filter _
  · intro id here there
    obtain ⟨new, lacking, rfl⟩ := mem_map.mp there
    have absent := (mem_filter.mp lacking).2
    simp only [Bool.not_eq_true', contains_eq_mem, decide_eq_false_iff_not] at absent
    exact absent here

end Seen

end LoadBalancer

end AzureSdk.EventHubs

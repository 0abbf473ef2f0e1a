/-
# EventHubs.CheckpointStore — claiming ownership in the in-memory store

A claim carries the ETag its processor has listed, and the store accepts it while its record
still has that ETag.  A first claim gives the record an ETag; a later one keeps the ETag of
the caller.  A call makes its claims in order and stops at the first one the store refuses.

So of several calls built from one listing, those that share a partition are in each other's
way (`claims_exclusive_iff`): where the partition had a record both are accepted, and where it
had none the second call stops there and reports none of its claims.  What a load balancer
claims is built from its listing (`loadBalance_builtFrom`).
-/
import AzureSdk.EventHubs.LoadBalancer
import AzureSdk.Theory.Except

namespace AzureSdk.EventHubs

open Core Theory List

namespace Ownership

/-- The name of the record, where it has one. -/
def key (o : Ownership) : String :=
  o.fullyQualifiedNamespace ++ "/" ++ o.eventHubName ++ "/" ++ o.consumerGroup ++ "/ownership/" ++
    o.partitionId

/-- No part of the name is empty. -/
structure Named (o : Ownership) : Prop where
  fullyQualifiedNamespace : o.fullyQualifiedNamespace ≠ ""
  eventHubName : o.eventHubName ≠ ""
  consumerGroup : o.consumerGroup ≠ ""
  partitionId : o.partitionId ≠ ""

theorem checkNonEmptyParameter_ok {field value : String} (h : value ≠ "") :
    checkNonEmptyParameter field value = .ok () := if_neg h

theorem getOwnershipName_named {o : Ownership} (named : o.Named) :
    getOwnershipName o.fullyQualifiedNamespace o.eventHubName o.consumerGroup o.partitionId =
      .ok o.key := by
  simp only [getOwnershipName, getOwnershipPrefixName,
    checkNonEmptyParameter_ok named.fullyQualifiedNamespace,
    checkNonEmptyParameter_ok named.eventHubName, checkNonEmptyParameter_ok named.consumerGroup,
    checkNonEmptyParameter_ok named.partitionId]
  rfl

end Ownership

/-- What the store makes up for a new record. -/
structure Stamp where
  uuid : String
  now : Int
  deriving DecidableEq, Repr

def Stamp.newOwnership (stamp : Stamp) (ownership : Ownership) : Ownership :=
  { ownership with etag := some stamp.uuid, lastModifiedTime := some stamp.now }

/-- The ownerships of an `InMemoryCheckpointStore`. -/
abbrev Ownerships := HashMap String Ownership

namespace Ownerships

def updateOwnership (store : Ownerships) (stamp : Stamp) (ownership : Ownership) :
    Result Ownership × Ownerships :=
  let named : Result String := do
    checkNonEmptyParameter "ownership.fully_qualified_namespace" ownership.fullyQualifiedNamespace
    checkNonEmptyParameter "ownership.event_hub_name" ownership.eventHubName
    checkNonEmptyParameter "ownership.consumer_group" ownership.consumerGroup
    checkNonEmptyParameter "ownership.partition_id" ownership.partitionId
    Ownership.getOwnershipName ownership.fullyQualifiedNamespace ownership.eventHubName
      ownership.consumerGroup ownership.partitionId
  match named with
  | .error e => (.error e, store)
  | .ok key =>
    match store[key]? with
    | some actual =>
      if ownership.etag ≠ actual.etag then
        (.error ⟨.other, "ETag mismatch for partition " ++ key⟩, store)
      else (.ok ownership, store.insert key ownership)
    | none =>
      (.ok (stamp.newOwnership ownership), store.insert key (stamp.newOwnership ownership))

/-- `claim_ownership`; `stamps` are what the store makes up for one record after the other. -/
def claimOwnership (store : Ownerships) (stamps : Nat → Stamp) :
    List Ownership → Result (List Ownership) × Ownerships
  | [] => (.ok [], store)
  | ownership :: ownerships =>
    match store.updateOwnership (stamps 0) ownership with
    | (.error e, store) => (.error e, store)
    | (.ok ownership, store) =>
      match claimOwnership store (fun n => stamps (n + 1)) ownerships with
      | (.error e, store) => (.error e, store)
      | (.ok claimed, store) =>
        (.ok (if ownership.etag.isSome then ownership :: claimed else claimed), store)

def listOwnerships (store : Ownerships) (order : IterationOrder (String × Ownership))
    (fullyQualifiedNamespace eventHubName consumerGroup : String) : Result (List Ownership) := do
  let start ← Ownership.getOwnershipPrefixName fullyQualifiedNamespace eventHubName consumerGroup
  let found := (order.arrange store.toList).filter fun p => start.toList.isPrefixOf p.1.toList
  .ok ((found.map (·.2)).mergeSort fun a b => decide (a.partitionId ≤ b.partitionId))

/-! ## What a store keeps -/

/-- Every record is kept under its name and has an ETag. -/
structure Kept (store : Ownerships) : Prop where
  keyed : ∀ {key : String} {o : Ownership}, store[key]? = some o → o.Named ∧ o.key = key
  tagged : ∀ {key : String} {o : Ownership}, store[key]? = some o → o.etag.isSome = true

/-- The store accepts the claim: nobody has a record, or the claim has its ETag. -/
def Open (store : Ownerships) (o : Ownership) : Prop :=
  ∀ actual, store[o.key]? = some actual → o.etag = actual.etag

variable {store : Ownerships} {stamp : Stamp} {o : Ownership}

theorem kept_empty : Kept ∅ where
  keyed h := by simp at h
  tagged h := by simp at h

theorem updateOwnership_named (named : o.Named) :
    store.updateOwnership stamp o =
      match store[o.key]? with
      | some actual =>
        if o.etag ≠ actual.etag then
          (.error ⟨.other, "ETag mismatch for partition " ++ o.key⟩, store)
        else (.ok o, store.insert o.key o)
      | none =>
        (.ok (stamp.newOwnership o), store.insert o.key (stamp.newOwnership o)) := by
  simp only [updateOwnership, Ownership.checkNonEmptyParameter_ok named.fullyQualifiedNamespace,
    Ownership.checkNonEmptyParameter_ok named.eventHubName,
    Ownership.checkNonEmptyParameter_ok named.consumerGroup,
    Ownership.checkNonEmptyParameter_ok named.partitionId, Ownership.getOwnershipName_named named]
  rfl

/-- What the record of an accepted claim has in common with the claim. -/
structure Grants (store : Ownerships) (o granted : Ownership) : Prop where
  named : granted.Named
  key : granted.key = o.key
  tagged : granted.etag.isSome = true
  etag : ∀ actual, store[o.key]? = some actual → granted.etag = actual.etag

/-- **One claim.**  It is accepted exactly if it is open. -/
theorem updateOwnership_cases (kept : store.Kept) (named : o.Named) (stamp : Stamp) :
    (store.Open o ∧ ∃ granted, store.Grants o granted ∧
      store.updateOwnership stamp o = (.ok granted, store.insert o.key granted)) ∨
    (¬ store.Open o ∧ ∃ e, store.updateOwnership stamp o = (.error e, store)) := by
  rw [updateOwnership_named named]
  cases found : store[o.key]? with
  | none =>
    refine .inl ⟨fun actual h => ?_, stamp.newOwnership o,
      ⟨?_, rfl, rfl, fun actual h => ?_⟩, rfl⟩
    · rw [found] at h
      cases h
    · exact ⟨named.1, named.2, named.3, named.4⟩
    · rw [found] at h
      cases h
  | some actual =>
    by_cases same : o.etag = actual.etag
    · refine .inl ⟨fun r h => ?_, o, ⟨named, rfl, ?_, fun r h => ?_⟩, by simp [same]⟩
      · rw [found] at h
        cases h
        exact same
      · rw [same]
        exact kept.tagged found
      · rw [found] at h
        cases h
        exact same
    · exact .inr ⟨fun isOpen => same (isOpen actual found), _, if_pos same⟩

/-! ## One call -/

/-- What a call leaves of the store: the records of other partitions, and all ETags. -/
structure Follows (store : Ownerships) (claims : List Ownership) (after : Ownerships) : Prop where
  kept : after.Kept
  frame : ∀ key ∉ claims.map (·.key), after[key]? = store[key]?
  tags : ∀ (key : String) (actual : Ownership), store[key]? = some actual →
    ∃ r, after[key]? = some r ∧ r.etag = actual.etag

variable {granted : Ownership} {after : Ownerships}

theorem Grants.kept (grants : store.Grants o granted) (kept : store.Kept) :
    Kept (store.insert o.key granted) where
  keyed {key r} h := by
    rw [HashMap.getElem?_insert] at h
    split at h
    · next same =>
      cases h
      exact ⟨grants.named, grants.key.trans same⟩
    · exact kept.keyed h
  tagged {key r} h := by
    rw [HashMap.getElem?_insert] at h
    split at h
    · cases h
      exact grants.tagged
    · exact kept.tagged h

theorem Grants.follows (grants : store.Grants o granted)
    (kept : store.Kept) : store.Follows [o] (store.insert o.key granted) where
  kept := grants.kept kept
  frame key other := by
    rw [HashMap.getElem?_insert, if_neg]
    intro same
    exact other (by simp [same])
  tags key actual h := by
    rw [HashMap.getElem?_insert]
    split
    · next same =>
      subst same
      exact ⟨granted, rfl, grants.etag actual h⟩
    · exact ⟨actual, h, rfl⟩

theorem Follows.refl (kept : store.Kept) (claims : List Ownership) : store.Follows claims store where
  kept := kept
  frame _ _ := rfl
  tags _ actual h := ⟨actual, h, rfl⟩

theorem Follows.trans {claims claims' : List Ownership} {middle : Ownerships}
    (left : store.Follows claims middle) (right : middle.Follows claims' after) :
    store.Follows (claims ++ claims') after where
  kept := right.kept
  frame key other := by
    rw [map_append, mem_append, not_or] at other
    rw [right.frame key other.2, left.frame key other.1]
  tags key actual h := by
    obtain ⟨r, there, tag⟩ := left.tags key actual h
    obtain ⟨r', there', tag'⟩ := right.tags key r there
    exact ⟨r', there', tag'.trans tag⟩

theorem claimOwnership_cons {claims : List Ownership} {stamps : Nat → Stamp}
    (step : store.updateOwnership (stamps 0) o = (.ok granted, after))
    (tag : granted.etag.isSome = true) :
    store.claimOwnership stamps (o :: claims) =
      ((after.claimOwnership (fun n => stamps (n + 1)) claims).1.map (granted :: ·),
        (after.claimOwnership (fun n => stamps (n + 1)) claims).2) := by
  rw [claimOwnership, step]
  dsimp only
  obtain ⟨result, last⟩ := after.claimOwnership (fun n => stamps (n + 1)) claims
  cases result with
  | error e => rfl
  | ok claimed =>
    dsimp only
    rw [if_pos tag]
    rfl

theorem Open.of_frame (same : after[o.key]? = store[o.key]?) : after.Open o ↔ store.Open o := by
  rw [Open, Open, same]

theorem claimOwnership_follows {claims : List Ownership} (kept : store.Kept)
    (named : ∀ o ∈ claims, o.Named) (stamps : Nat → Stamp) :
    store.Follows claims (store.claimOwnership stamps claims).2 := by
  induction claims generalizing store stamps with
  | nil => exact .refl kept []
  | cons o claims ih =>
    have later := fun o' h => named o' (.tail _ h)
    rcases updateOwnership_cases kept (named o (.head _)) (stamps 0) with
      ⟨_, granted, grants, step⟩ | ⟨_, e, step⟩
    · have rest := ih (grants.kept kept) later fun n => stamps (n + 1)
      have both := (grants.follows kept).trans rest
      rw [claimOwnership_cons step grants.tagged]
      exact both
    · rw [claimOwnership, step]
      exact .refl kept _

/-- **One call.**  It succeeds exactly if all its claims are open, and then has them all. -/
theorem claimOwnership_cases {claims : List Ownership} (kept : store.Kept)
    (named : ∀ o ∈ claims, o.Named) (distinct : (claims.map (·.key)).Nodup) (stamps : Nat → Stamp) :
    ((∀ o ∈ claims, store.Open o) ∧ ∃ granted,
      (store.claimOwnership stamps claims).1 = .ok granted ∧
      granted.map (·.key) = claims.map (·.key) ∧
      ∀ g ∈ granted, (store.claimOwnership stamps claims).2[g.key]? = some g) ∨
    ((∃ o ∈ claims, ¬ store.Open o) ∧ ∃ e, (store.claimOwnership stamps claims).1 = .error e) := by
  induction claims generalizing store stamps with
  | nil => exact .inl ⟨by simp, [], rfl, rfl, by simp⟩
  | cons o claims ih =>
    have later := fun o' h => named o' (.tail _ h)
    obtain ⟨fresh, distinct⟩ := nodup_cons.mp distinct
    rcases updateOwnership_cases kept (named o (.head _)) (stamps 0) with
      ⟨first, granted, grants, step⟩ | ⟨closed, e, step⟩
    · -- the other claims are open after the first one exactly if they were before
      have same : ∀ o' ∈ claims, Open (store.insert o.key granted) o' ↔ store.Open o' := by
        intro o' mem
        refine Open.of_frame ((grants.follows kept).frame _ fun h => fresh ?_)
        rw [← mem_singleton.mp h]
        exact mem_map_of_mem mem
      have follows := claimOwnership_follows (grants.kept kept) later fun n => stamps (n + 1)
      rw [claimOwnership_cons step grants.tagged]
      rcases ih (grants.kept kept) later distinct fun n => stamps (n + 1) with
        ⟨all, others, ok, keys, there⟩ | ⟨⟨o', mem, closed⟩, e, error⟩
      · rw [ok]
        refine .inl ⟨?_, granted :: others, rfl, by simp [keys, grants.key],
          forall_mem_cons.mpr ⟨?_, there⟩⟩
        · exact forall_mem_cons.mpr ⟨first, fun o' mem => (same o' mem).mp (all o' mem)⟩
        · rw [grants.key, follows.frame _ fresh, HashMap.getElem?_insert, if_pos rfl]
      · rw [error]
        exact .inr ⟨⟨o', .tail _ mem, fun h => closed ((same o' mem).mpr h)⟩, e, rfl⟩
    · refine .inr ⟨⟨o, .head _, closed⟩, e, ?_⟩
      rw [claimOwnership, step]

/-! ## Calls built from one listing -/

/-- A call of `claim_ownership`, with the processor that makes it and what the store makes up. -/
structure Call where
  clientId : String
  claims : List Ownership
  stamps : Nat → Stamp

def Call.Claims (call : Call) (key : String) : Prop := key ∈ call.claims.map (·.key)

/-- The store after the calls, one after the other. -/
def afterCalls (store : Ownerships) (calls : List Call) : Ownerships :=
  calls.foldl (fun store call => (store.claimOwnership call.stamps call.claims).2) store

/-- The store when the call of the index is made. -/
def before (store : Ownerships) (calls : List Call) (n : Nat) : Ownerships :=
  store.afterCalls (calls.take n)

/-- A call of a processor that has listed the ownerships: each claim is a listed record with
the processor as its owner, or a new record of a partition that has none, and no partition is
claimed twice. -/
structure BuiltFrom (fullyQualifiedNamespace eventHubName consumerGroup : String)
    (listing : List Ownership) (call : Call) : Prop where
  claims : ∀ o ∈ call.claims,
    (∃ listed ∈ listing, o = { listed with ownerId := some call.clientId }) ∨
    (∃ partitionId, partitionId ≠ "" ∧
      o = ⟨fullyQualifiedNamespace, eventHubName, consumerGroup, partitionId, some call.clientId,
        none, none⟩ ∧ ∀ listed ∈ listing, listed.key ≠ o.key)
  distinct : (call.claims.map (·.key)).Nodup

/-- The claim has what the store had: the ETag of its record, or none. -/
structure Built (store : Ownerships) (o : Ownership) : Prop where
  named : o.Named
  etag : o.etag = (store[o.key]?).bind (·.etag)

section Listing

variable {fullyQualifiedNamespace eventHubName consumerGroup : String}
variable {order : IterationOrder (String × Ownership)} {listing : List Ownership}

theorem checkNonEmptyParameter_of_ok {field value : String}
    (h : checkNonEmptyParameter field value = .ok ()) : value ≠ "" := by
  intro empty
  rw [checkNonEmptyParameter, if_pos empty] at h
  cases h

theorem mem_listOwnerships
    (listed : store.listOwnerships order fullyQualifiedNamespace eventHubName consumerGroup =
      .ok listing) :
    (fullyQualifiedNamespace ≠ "" ∧ eventHubName ≠ "" ∧ consumerGroup ≠ "") ∧
    ∀ o, o ∈ listing ↔ ∃ key : String, store[key]? = some o ∧
      (fullyQualifiedNamespace ++ "/" ++ eventHubName ++ "/" ++ consumerGroup ++
        "/ownership/").toList <+: key.toList := by
  obtain ⟨start, named, listed⟩ := bind_ok listed
  obtain ⟨_, first, named⟩ := bind_ok named
  obtain ⟨_, second, named⟩ := bind_ok named
  obtain ⟨_, third, named⟩ := bind_ok named
  cases named
  cases listed
  refine ⟨⟨checkNonEmptyParameter_of_ok first, checkNonEmptyParameter_of_ok second,
    checkNonEmptyParameter_of_ok third⟩, fun o => ?_⟩
  simp only [mem_mergeSort, mem_map, mem_filter, isPrefixOf_iff_prefix,
    (order.perm _).mem_iff, Prod.exists, HashMap.mem_toList]
  constructor
  · rintro ⟨key, _, ⟨there, inside⟩, rfl⟩
    exact ⟨key, there, inside⟩
  · rintro ⟨key, there, inside⟩
    exact ⟨key, o, ⟨there, inside⟩, rfl⟩

theorem BuiltFrom.built (kept : store.Kept)
    (listed : store.listOwnerships order fullyQualifiedNamespace eventHubName consumerGroup =
      .ok listing) {call : Call}
    (from_ : BuiltFrom fullyQualifiedNamespace eventHubName consumerGroup listing call) :
    ∀ o ∈ call.claims, store.Built o := by
  obtain ⟨⟨first, second, third⟩, mem⟩ := mem_listOwnerships listed
  intro o claim
  rcases from_.claims o claim with ⟨r, isListed, rfl⟩ | ⟨partitionId, some, rfl, new⟩
  · obtain ⟨key, there, _⟩ := (mem r).mp isListed
    obtain ⟨named, rfl⟩ := kept.keyed there
    refine ⟨⟨named.1, named.2, named.3, named.4⟩, ?_⟩
    show r.etag = (store[r.key]?).bind (·.etag)
    rw [there]
    rfl
  · refine ⟨⟨first, second, third, some⟩, ?_⟩
    cases there : store[(⟨fullyQualifiedNamespace, eventHubName, consumerGroup, partitionId,
        Option.some call.clientId, none, none⟩ : Ownership).key]? with
    | none => rfl
    | some r =>
      -- a record of that name would have been listed
      refine absurd (kept.keyed there).2 (new r ((mem r).mpr ⟨_, there, ?_⟩))
      simp only [Ownership.key, String.toList_append]
      exact prefix_append _ _

end Listing

/-! ## One call after the other -/

variable {calls : List Call}

theorem before_succ {n : Nat} {call : Call} (h : calls[n]? = some call) :
    store.before calls (n + 1) =
      ((store.before calls n).claimOwnership call.stamps call.claims).2 := by
  rw [before, before, take_add_one, h]
  simp [afterCalls]

theorem before_past (store : Ownerships) {n : Nat} (h : calls[n]? = none) :
    store.before calls (n + 1) = store.before calls n := by
  rw [before, before, take_add_one, h]
  simp

/-- Earlier calls have claimed the key. -/
def ClaimedBefore (calls : List Call) (n : Nat) (key : String) : Prop :=
  ∃ m < n, ∃ call, calls[m]? = some call ∧ call.Claims key

/-- What the store still has of its start. -/
structure Reached (store : Ownerships) (calls : List Call) (n : Nat) : Prop where
  kept : (store.before calls n).Kept
  tags : ∀ (key : String) (actual : Ownership), store[key]? = some actual →
    ∃ r, (store.before calls n)[key]? = some r ∧ r.etag = actual.etag
  fresh : ∀ key : String, store[key]? = none → (store.before calls n)[key]? ≠ none →
    ClaimedBefore calls n key

/-- Calls that claim what the store has, each partition once. -/
structure Prepared (store : Ownerships) (calls : List Call) : Prop where
  kept : store.Kept
  built : ∀ call ∈ calls, ∀ o ∈ call.claims, store.Built o
  distinct : ∀ call ∈ calls, (call.claims.map (·.key)).Nodup

variable {listing : List Ownership}

theorem prepared_of_built (kept : store.Kept) {order : IterationOrder (String × Ownership)}
    {fullyQualifiedNamespace eventHubName consumerGroup : String}
    (listed : store.listOwnerships order fullyQualifiedNamespace eventHubName consumerGroup =
      .ok listing) (built : ∀ call ∈ calls,
      BuiltFrom fullyQualifiedNamespace eventHubName consumerGroup listing call) :
    store.Prepared calls where
  kept := kept
  built call mem := (built call mem).built kept listed
  distinct call mem := (built call mem).distinct

/-! ### The calls of load balancers -/

section Balancing

variable {self : LoadBalancer} {choices : Choices} {partitionIds : List String}
  {listing : List Ownership}

/-- The record is of the hub and consumer group that the balancer is for. -/
structure OfDetails (details : ConsumerClientDetails) (o : Ownership) : Prop where
  fullyQualifiedNamespace : o.fullyQualifiedNamespace = details.fullyQualifiedNamespace
  eventHubName : o.eventHubName = details.eventhubName
  consumerGroup : o.consumerGroup = details.consumerGroup

theorem OfDetails.key_inj {details : ConsumerClientDetails} {o o' : Ownership}
    (of : OfDetails details o) (of' : OfDetails details o') (same : o.key = o'.key) :
    o.partitionId = o'.partitionId := by
  unfold Ownership.key at same
  rw [of.fullyQualifiedNamespace, of.eventHubName, of.consumerGroup, of'.fullyQualifiedNamespace,
    of'.eventHubName, of'.consumerGroup] at same
  exact (String.append_right_inj _).mp same

/-- **What `load_balance` claims is built from the listing**, whatever it chooses: of records of
the balancer's own hub and group, one for each partition; and a new record is of a known partition. -/
theorem loadBalance_builtFrom (of : ∀ o ∈ listing, OfDetails self.consumerClientDetails o)
    (distinct : (listing.map (·.partitionId)).Nodup) (ids : partitionIds.Nodup)
    (named : "" ∉ partitionIds) (stamps : Nat → Stamp) :
    BuiltFrom self.consumerClientDetails.fullyQualifiedNamespace
      self.consumerClientDetails.eventhubName self.consumerClientDetails.consumerGroup listing
      ⟨self.clientId, self.loadBalance choices partitionIds listing, stamps⟩ ∧
    ∀ o ∈ self.loadBalance choices partitionIds listing,
      (∀ listed ∈ listing, listed.key ≠ o.key) → o.partitionId ∈ partitionIds := by
  obtain ⟨extra, claims, among, -⟩ :=
    @LoadBalancer.loadBalance_picked self choices partitionIds listing
  have sub := ((List.Subperm.refl _).append among).trans
    (LoadBalancer.seen_subperm (List.Nodup.of_map _ distinct))
  rw [claims]
  generalize LoadBalancerInfo.currentOwnership _ ++ extra = picked at sub
  have seen : ∀ o ∈ picked, o ∈ listing ∨
      ∃ id ∈ LoadBalancer.missing partitionIds listing, self.newOwnership id = o :=
    fun o mem => (mem_append.mp (sub.subset mem)).imp_right mem_map.mp
  have ours : ∀ o ∈ picked, OfDetails self.consumerClientDetails o := by
    intro o mem
    rcases seen o mem with listed | ⟨id, _, rfl⟩
    · exact of o listed
    · exact ⟨rfl, rfl, rfl⟩
  refine ⟨⟨?_, ?_⟩, ?_⟩
  · intro claim claimed
    obtain ⟨o, mem, rfl⟩ := mem_map.mp claimed
    rcases seen o mem with listed | ⟨id, lacking, rfl⟩
    · exact .inl ⟨o, listed, rfl⟩
    · obtain ⟨known, absent⟩ := mem_filter.mp lacking
      simp only [Bool.not_eq_true', contains_eq_mem, decide_eq_false_iff_not] at absent
      refine .inr ⟨id, fun empty => named (empty ▸ known), rfl, fun o' listed same => absent ?_⟩
      have its : o'.partitionId = id := (of o' listed).key_inj ⟨rfl, rfl, rfl⟩ same
      exact its ▸ mem_map_of_mem listed
  · obtain ⟨some, same, inner⟩ := sub
    have once : (picked.map (·.partitionId)).Nodup :=
      (same.map _).nodup_iff.mp
        ((LoadBalancer.seen_ids_nodup distinct ids).sublist (inner.map _))
    rw [map_map]
    refine (List.Nodup.of_map _ once).map_on fun o mem o' mem' same => ?_
    exact inj_on_of_nodup_map once mem mem' ((ours o mem).key_inj (ours o' mem') same)
  · intro claim claimed new
    obtain ⟨o, mem, rfl⟩ := mem_map.mp claimed
    rcases seen o mem with listed | ⟨id, lacking, rfl⟩
    · exact absurd rfl (new o listed)
    · exact (mem_filter.mp lacking).1

/-- Of two partitions another processor owns one. -/
theorem loadBalance_builtFrom_half :
    let listing : List Ownership := [⟨"ns", "hub", "group", "0", some "b", some "1", none⟩]
    BuiltFrom "ns" "hub" "group" listing ⟨"a",
      LoadBalancer.loadBalance ⟨.greedy, 0, "ns", "hub", "group", "a"⟩
        ⟨fun _ => 0, .asListed _, fun _ => 0, fun _ h => h, .asListed _, .asListed _⟩ ["0", "1"] listing,
      fun _ => ⟨"1", 0⟩⟩ :=
  (@loadBalance_builtFrom ⟨.greedy, 0, "ns", "hub", "group", "a"⟩ _ _ _
    (forall_mem_singleton.mpr ⟨rfl, rfl, rfl⟩) (by decide) (by decide) (by decide) _).1

end Balancing

section Calls

variable {calls : List Call} {n : Nat}

theorem ClaimedBefore.succ {key : String} (h : ClaimedBefore calls n key) :
    ClaimedBefore calls (n + 1) key := by
  obtain ⟨m, lt, rest⟩ := h
  exact ⟨m, by omega, rest⟩

variable {call : Call} (prepared : store.Prepared calls)

include prepared

theorem Prepared.follows (kept : (store.before calls n).Kept) (there : calls[n]? = some call) :
    (store.before calls n).Follows call.claims (store.before calls (n + 1)) := by
  have mem := mem_of_getElem? there
  rw [before_succ there]
  exact claimOwnership_follows kept (fun o h => (prepared.built call mem o h).named) call.stamps

theorem Prepared.reached (n : Nat) : store.Reached calls n := by
  induction n with
  | zero => exact ⟨prepared.kept, fun key actual h => ⟨actual, h, rfl⟩, fun key h some => absurd h some⟩
  | succ n ih =>
    cases there : calls[n]? with
    | none =>
      have same := before_past store there
      refine ⟨same ▸ ih.kept, same ▸ ih.tags, fun key missing some => ?_⟩
      exact (ih.fresh key missing (same ▸ some)).succ
    | some call =>
      have follows := prepared.follows ih.kept there
      refine ⟨follows.kept, fun key actual h => ?_, fun key missing some => ?_⟩
      · obtain ⟨r, h', tag⟩ := ih.tags key actual h
        obtain ⟨r', h'', tag'⟩ := follows.tags key r h'
        exact ⟨r', h'', tag'.trans tag⟩
      · by_cases own : call.Claims key
        · exact ⟨n, by omega, call, there, own⟩
        · rw [follows.frame key own] at some
          exact (ih.fresh key missing some).succ

/-- A claim is open while its partition has the record it was listed with, or none. -/
theorem Prepared.open_iff (there : calls[n]? = some call) (mem : o ∈ call.claims) :
    (store.before calls n).Open o ↔
      store[o.key]? ≠ none ∨ (store.before calls n)[o.key]? = none := by
  have reached := prepared.reached n
  have built := prepared.built call (mem_of_getElem? there) o mem
  cases first : store[o.key]? with
  | some actual =>
    obtain ⟨r, there, tag⟩ := reached.tags _ actual first
    refine iff_of_true (fun r' h => ?_) (.inl (by simp))
    rw [there] at h
    cases h
    rw [built.etag, first, tag]
    rfl
  | none =>
    have untagged : o.etag = none := by rw [built.etag, first]; rfl
    constructor
    · intro isOpen
      cases there : (store.before calls n)[o.key]? with
      | none => exact .inr rfl
      | some r =>
        have tag := reached.kept.tagged there
        rw [← isOpen r there, untagged] at tag
        cases tag
    · rintro (some | none) r h
      · exact absurd rfl some
      · rw [none] at h
        cases h

end Calls

/-! ## Exclusive claims -/

/-- The call of the index reports a record of the key, and the store has it. -/
def Succeeds (store : Ownerships) (calls : List Call) (n : Nat) (key : String) : Prop :=
  ∃ call granted, calls[n]? = some call ∧
    ((store.before calls n).claimOwnership call.stamps call.claims).1 = .ok granted ∧
    ∃ g ∈ granted, g.key = key ∧ (store.before calls (n + 1))[key]? = some g

/-- Claiming is a compare-and-swap: no partition is claimed by two calls, and a claim that would
succeed alone succeeds with the other claims of its call. -/
structure Exclusive (store : Ownerships) (calls : List Call) : Prop where
  once : ∀ m n key, m ≠ n → store.Succeeds calls m key → ¬ store.Succeeds calls n key
  apart : ∀ n call, calls[n]? = some call → ∀ o ∈ call.claims,
    ((store.before calls n).claimOwnership call.stamps [o]).1.isOk = true →
      store.Succeeds calls n o.key

/-- A call that claims what an earlier one has claimed claims only such partitions, and none that
had a record. -/
def Spread (store : Ownerships) (calls : List Call) : Prop :=
  ∀ n call, calls[n]? = some call → (∃ o ∈ call.claims, ClaimedBefore calls n o.key) →
    ∀ o ∈ call.claims, store[o.key]? = none ∧ ClaimedBefore calls n o.key

section Exclusive

variable {calls : List Call} {n : Nat} {call : Call}

variable (prepared : store.Prepared calls)

include prepared

theorem Prepared.alone_iff (there : calls[n]? = some call) (mem : o ∈ call.claims)
    {stamps : Nat → Stamp} :
    ((store.before calls n).claimOwnership stamps [o]).1.isOk = true ↔
      (store.before calls n).Open o := by
  have each : ∀ o' ∈ [o], o'.Named := by
    simpa using (prepared.built call (mem_of_getElem? there) o mem).named
  rcases claimOwnership_cases (prepared.reached n).kept each (by simp) stamps with
    ⟨all, granted, ok, _⟩ | ⟨⟨o', mem, closed⟩, e, error⟩
  · rw [ok]
    exact iff_of_true rfl (all o (by simp))
  · rw [error]
    cases mem_singleton.mp mem
    exact iff_of_false (by simp [Except.isOk, Except.toBool]) closed

/-- A call as `claimOwnership_cases` has it, after the calls before it. -/
theorem Prepared.call_cases (there : calls[n]? = some call) :
    ((∀ o ∈ call.claims, (store.before calls n).Open o) ∧
      ∀ key, store.Succeeds calls n key ↔ call.Claims key) ∨
    ((∃ o ∈ call.claims, ¬ (store.before calls n).Open o) ∧
      ∀ key, ¬ store.Succeeds calls n key) := by
  have mem := mem_of_getElem? there
  rcases claimOwnership_cases (prepared.reached n).kept
    (fun o h => (prepared.built call mem o h).named) (prepared.distinct call mem) call.stamps with
    ⟨all, granted, ok, keys, has⟩ | ⟨closed, e, error⟩
  · refine .inl ⟨all, fun key => ?_⟩
    constructor
    · rintro ⟨call', granted', there', ok', g, mem, rfl, _⟩
      rw [there] at there'
      cases there'
      rw [ok] at ok'
      cases ok'
      rw [Call.Claims, ← keys]
      exact mem_map_of_mem mem
    · intro claims
      rw [Call.Claims, ← keys] at claims
      obtain ⟨g, mem, rfl⟩ := mem_map.mp claims
      refine ⟨call, granted, there, ok, g, mem, rfl, ?_⟩
      rw [before_succ there]
      exact has g mem
  · refine .inr ⟨closed, fun key => ?_⟩
    rintro ⟨call', granted', there', ok', _⟩
    rw [there] at there'
    cases there'
    rw [error] at ok'
    cases ok'

theorem Succeeds.claims {key : String} (succeeds : store.Succeeds calls n key) :
    ∃ call, calls[n]? = some call ∧ call.Claims key ∧
      ∀ o ∈ call.claims, (store.before calls n).Open o := by
  obtain ⟨call, _, there, _⟩ := id succeeds
  rcases prepared.call_cases there with ⟨all, each⟩ | ⟨_, none⟩
  · exact ⟨call, there, (each key).mp succeeds, all⟩
  · exact absurd succeeds (none key)

theorem Prepared.stays {key : String}
    (some : (store.before calls n)[key]? ≠ none) : (store.before calls (n + 1))[key]? ≠ none := by
  cases there : calls[n]? with
  | none => rwa [before_past store there]
  | some call =>
    obtain ⟨r, h⟩ := Option.ne_none_iff_exists'.mp some
    obtain ⟨r', h', _⟩ := (prepared.follows (prepared.reached n).kept there).tags key r h
    simp [h']

/-- Of no call before the index are some claims open and some not. -/
def Uniform (store : Ownerships) (calls : List Call) (n : Nat) : Prop :=
  ∀ m < n, ∀ call, calls[m]? = some call →
    (∀ o ∈ call.claims, (store.before calls m).Open o) ∨
    ∀ o ∈ call.claims, ¬ (store.before calls m).Open o

theorem Prepared.claimed_there (uniform : store.Uniform calls n)
    {key : String} (claimed : ClaimedBefore calls n key) : (store.before calls n)[key]? ≠ none := by
  induction n with
  | zero =>
    obtain ⟨m, lt, _⟩ := claimed
    omega
  | succ n ih =>
    obtain ⟨m, lt, call, there, claims⟩ := claimed
    rcases Nat.lt_succ_iff_lt_or_eq.mp lt with lt | rfl
    · exact prepared.stays (ih (fun m lt => uniform m (by omega)) ⟨m, lt, call, there, claims⟩)
    · rcases prepared.call_cases there with ⟨_, each⟩ | ⟨⟨o, mem, closed⟩, _⟩
      · obtain ⟨_, _, _, _, g, _, _, has⟩ := (each key).mpr claims
        simp [has]
      · obtain ⟨o', mem', rfl⟩ := mem_map.mp claims
        rcases uniform m lt call there with all | nothing
        · exact absurd (all o mem) closed
        · refine prepared.stays fun none => nothing o' mem' fun r h => ?_
          rw [none] at h
          cases h

/-- A claim without a record at the start is closed once its partition has been claimed. -/
theorem Prepared.closed (uniform : store.Uniform calls n)
    (there : calls[n]? = some call) (mem : o ∈ call.claims) (absent : store[o.key]? = none)
    (claimed : ClaimedBefore calls n o.key) : ¬ (store.before calls n).Open o := by
  rw [prepared.open_iff there mem, not_or, not_not]
  exact ⟨absent, prepared.claimed_there uniform claimed⟩

theorem Exclusive.uniform (exclusive : store.Exclusive calls)
    (n : Nat) : store.Uniform calls n := by
  intro m _ call there
  rcases prepared.call_cases there with ⟨all, _⟩ | ⟨_, none⟩
  · exact .inl all
  · refine .inr fun o mem isOpen => none o.key (exclusive.apart m call there o mem ?_)
    exact (prepared.alone_iff there mem).mpr isOpen

theorem Spread.uniform (spread : store.Spread calls) (n : Nat) : store.Uniform calls n := by
  induction n with
  | zero => exact fun m lt => absurd lt (Nat.not_lt_zero m)
  | succ n ih =>
    intro m lt call there
    have earlier : store.Uniform calls m := fun k less => ih k (by omega)
    by_cases shared : ∃ o ∈ call.claims, ClaimedBefore calls m o.key
    · refine .inr fun o mem => ?_
      obtain ⟨absent, claimed⟩ := spread m call there shared o mem
      exact prepared.closed earlier there mem absent claimed
    · refine .inl fun o mem => ?_
      rw [prepared.open_iff there mem, or_iff_not_imp_left, not_not]
      intro absent
      by_contra some
      exact shared ⟨o, mem, (prepared.reached m).fresh o.key absent some⟩

theorem Spread.once (spread : store.Spread calls) {m : Nat}
    {key : String} (lt : m < n) (first : store.Succeeds calls m key) :
    ¬ store.Succeeds calls n key := by
  intro second
  obtain ⟨call, there, claims, _⟩ := first.claims prepared
  obtain ⟨call', there', claims', all⟩ := second.claims prepared
  obtain ⟨o, mem, rfl⟩ := mem_map.mp claims'
  have claimed : ClaimedBefore calls n o.key := ⟨m, lt, call, there, claims⟩
  obtain ⟨absent, _⟩ := spread n call' there' ⟨o, mem, claimed⟩ o mem
  exact prepared.closed (spread.uniform prepared n) there' mem absent claimed (all o mem)

theorem exclusive_of_spread (spread : store.Spread calls) : store.Exclusive calls where
  once m n key ne first second := by
    rcases Nat.lt_or_gt_of_ne ne with lt | gt
    · exact spread.once prepared lt first second
    · exact spread.once prepared gt second first
  apart n call there o mem alone := by
    rw [prepared.alone_iff there mem] at alone
    rcases prepared.call_cases there with ⟨_, each⟩ | ⟨⟨o', mem', closed⟩, _⟩
    · exact (each o.key).mpr (mem_map_of_mem mem)
    · rcases spread.uniform prepared (n + 1) n (by omega) call there with all | nothing
      · exact absurd (all o' mem') closed
      · exact absurd alone (nothing o mem)

theorem spread_of_exclusive (exclusive : store.Exclusive calls) : store.Spread calls := by
  rintro n call there ⟨o, mem, claimed⟩
  have uniform := exclusive.uniform prepared (n + 1)
  have absent : store[o.key]? = none := by
    by_contra some
    -- otherwise both calls succeed
    have succeeds : ∀ {k : Nat} {c : Call} {p : Ownership}, calls[k]? = Option.some c →
        p ∈ c.claims → p.key = o.key → store.Succeeds calls k o.key := by
      intro k c p at_ inside same
      rw [← same]
      refine exclusive.apart k c at_ p inside ?_
      rw [prepared.alone_iff at_ inside, prepared.open_iff at_ inside, same]
      exact .inl some
    obtain ⟨m, lt, call', there', claims'⟩ := claimed
    obtain ⟨o', mem', same⟩ := mem_map.mp claims'
    exact exclusive.once m n o.key (by omega) (succeeds there' mem' same) (succeeds there mem rfl)
  have closed := prepared.closed (fun m lt => uniform m (by omega)) there mem absent claimed
  rcases uniform n (by omega) call there with all | nothing
  · exact absurd (all o mem) closed
  · intro p inside
    have shut := nothing p inside
    rw [prepared.open_iff there inside, not_or, not_not] at shut
    exact ⟨shut.1, (prepared.reached n).fresh p.key shut.1 shut.2⟩

end Exclusive

/-- **Of calls built from one listing, claiming is a compare-and-swap exactly if a call that
claims what an earlier one has claimed claims only such partitions, and none that had a record.** -/
theorem claims_exclusive_iff (store : Ownerships) (kept : store.Kept)
    (order : IterationOrder (String × Ownership))
    (fullyQualifiedNamespace eventHubName consumerGroup : String) (listing : List Ownership)
    (listed : store.listOwnerships order fullyQualifiedNamespace eventHubName consumerGroup =
      .ok listing)
    (calls : List Call) (built : ∀ call ∈ calls,
      BuiltFrom fullyQualifiedNamespace eventHubName consumerGroup listing call) :
    store.Exclusive calls ↔ store.Spread calls := by
  have prepared := prepared_of_built kept listed built
  exact ⟨spread_of_exclusive prepared, exclusive_of_spread prepared⟩

/-! ## Renewals and first claims -/

def claimOf (partitionId clientId : String) (etag : Option String) : Ownership :=
  ⟨"ns", "hub", "group", partitionId, some clientId, etag, none⟩

def callOf (partitionId clientId : String) (etag : Option String) : Call :=
  ⟨clientId, [claimOf partitionId clientId etag], fun _ => ⟨clientId, 0⟩⟩

/-- The store after a first claim of partition `0`. -/
def claimedStore : Ownerships := {((claimOf "0" "a" (some "1")).key, claimOf "0" "a" (some "1"))}

theorem kept_claimedStore : claimedStore.Kept := by
  have named : (claimOf "0" "a" (some "1")).Named := by constructor <;> exact by decide
  have grants : Grants ∅ (claimOf "0" "a" none) (claimOf "0" "a" (some "1")) :=
    ⟨named, rfl, rfl, fun actual h => by simp at h⟩
  exact grants.kept kept_empty

theorem listed_claimedStore : claimedStore.listOwnerships (.asListed _) "ns" "hub" "group" =
    .ok [claimOf "0" "a" (some "1")] :=
  congrArg Except.ok (mergeSort_singleton (claimOf "0" "a" (some "1")))

theorem builtFrom_renewal (clientId : String) :
    BuiltFrom "ns" "hub" "group" [claimOf "0" "a" (some "1")] (callOf "0" clientId (some "1")) :=
  ⟨fun _ mem => .inl ⟨_, .head _, mem_singleton.mp mem⟩, nodup_singleton _⟩

theorem builtFrom_first (clientId : String) :
    BuiltFrom "ns" "hub" "group" [claimOf "0" "a" (some "1")] (callOf "1" clientId none) := by
  refine ⟨fun o mem => .inr ⟨"1", by decide, mem_singleton.mp mem, ?_⟩, nodup_singleton _⟩
  rw [mem_singleton.mp mem]
  have apart : (claimOf "0" "a" none).key ≠ (claimOf "1" "a" none).key := by decide
  exact forall_mem_singleton.mpr apart

/-- A renewal, and two first claims of another partition. -/
def threeCalls : List Call := [callOf "0" "a" (some "1"), callOf "1" "b" none, callOf "1" "c" none]

theorem spread_threeCalls : claimedStore.Spread threeCalls := by
  rintro n call there ⟨o', mem', m, lt, call', there', claims⟩ o mem
  match n, m, lt with
  | 1, 0, _ =>
    -- the renewal is of another partition
    cases there
    cases there'
    cases mem_singleton.mp mem'
    exact absurd (mem_singleton.mp claims) (by decide)
  | 2, _, _ =>
    cases there
    cases mem_singleton.mp mem
    exact ⟨rfl, 1, by omega, _, rfl, mem_singleton.mpr rfl⟩
  | n + 3, _, _ => cases there

theorem claims_exclusive_iff_three :
    claimedStore.Spread threeCalls ∧ claimedStore.Exclusive threeCalls := by
  refine ⟨spread_threeCalls, (claims_exclusive_iff claimedStore kept_claimedStore (.asListed _) "ns"
    "hub" "group" _ listed_claimedStore threeCalls ?_).mpr spread_threeCalls⟩
  exact forall_mem_cons.mpr ⟨builtFrom_renewal "a",
    forall_mem_cons.mpr ⟨builtFrom_first "b", forall_mem_singleton.mpr (builtFrom_first "c")⟩⟩

/-- Two processors have listed the record and claim it. -/
def twoCalls : List Call := [callOf "0" "a" (some "1"), callOf "0" "b" (some "1")]

/-- Both succeed. -/
theorem renewal_and_steal_succeed :
    claimedStore.Kept ∧
    claimedStore.listOwnerships (.asListed _) "ns" "hub" "group" = .ok [claimOf "0" "a" (some "1")] ∧
    (∀ call ∈ twoCalls, BuiltFrom "ns" "hub" "group" [claimOf "0" "a" (some "1")] call) ∧
    (twoCalls.map (·.clientId)).Nodup ∧ ¬ claimedStore.Exclusive twoCalls := by
  have built : ∀ call ∈ twoCalls, BuiltFrom "ns" "hub" "group" [claimOf "0" "a" (some "1")] call :=
    forall_mem_cons.mpr ⟨builtFrom_renewal "a", forall_mem_singleton.mpr (builtFrom_renewal "b")⟩
  refine ⟨kept_claimedStore, listed_claimedStore, built, by decide, fun exclusive => ?_⟩
  have spread := spread_of_exclusive (prepared_of_built kept_claimedStore listed_claimedStore built)
    exclusive
  obtain ⟨absent, _⟩ := spread 1 _ rfl ⟨claimOf "0" "b" (some "1"), .head _, 0, by omega, _, rfl, .head _⟩
    _ (.head _)
  cases absent

end Ownerships

end AzureSdk.EventHubs

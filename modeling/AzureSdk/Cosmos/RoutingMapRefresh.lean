/-
# Cosmos.RoutingMapRefresh — refreshing the routing map of a container

A refresh pages through the change feed of the partition key ranges until the service
answers 304, merges what it got into the previous map, and falls back to a full
listing when the merge does not work out.  Nothing is assumed of the pages: they may
fail, repeat ranges, name parents nobody knows, overlap or leave gaps.

`Partition` is what a routing map is for: every key has exactly one owner.  A list that
passes the contiguity check has it (`partition_of_follow`), so a map that was just
built has it, and a refresh keeps it (`refresh_keeps_partition`).
-/
import AzureSdk.Cosmos.RoutingMap

namespace AzureSdk.Cosmos

open Theory List PartitionKeyRange

/-- One page of the change feed. -/
structure PkRangeFetchResult where
  ranges : List PartitionKeyRange
  continuation : Option String
  notModified : Bool
  deriving DecidableEq, Repr

namespace ContainerRoutingMap

/-! ## The refresh -/

/-- What the fetch loop ends with. -/
inductive Fetched
  | failed
  | listed (allRanges : HashMap String PartitionKeyRange) (continuation : Option String)

/-- The fetch loop: a response is `none` where the fetch failed.  The loop has no cap of its
own; it is still waiting where the responses run out. -/
def fetchLoop (allRanges : HashMap String PartitionKeyRange) (continuation : Option String) :
    List (Option PkRangeFetchResult) → Option (Fetched × List (Option PkRangeFetchResult))
  | [] => none
  | none :: responses => some (.failed, responses)
  | some result :: responses =>
    let continuation := result.continuation.or continuation
    if result.notModified then some (.listed allRanges continuation, responses)
    else fetchLoop (HashMap.insertAll allRanges (result.ranges.map fun r => (r.id, r)))
      continuation responses

/-- `fetch_and_build_routing_map` without a previous map. -/
def fetchAndBuildFull (order : IterationOrder PartitionKeyRange)
    (responses : List (Option PkRangeFetchResult)) :
    Option (ContainerRoutingMap × List (Option PkRangeFetchResult)) :=
  match fetchLoop ∅ none responses with
  | none => none
  | some (.failed, responses) => some (empty, responses)
  | some (.listed allRanges continuation, responses) =>
    match tryCreate (order.arrange (HashMap.intoValues allRanges)) none continuation with
    | .ok (some map) => some (map, responses)
    | .ok none => some (empty, responses)
    | .error _ => some (empty, responses)

/-- The order in which each of the three hash maps of a refresh yields its values. -/
structure RefreshOrders where
  listed : IterationOrder PartitionKeyRange
  merged : IterationOrder PartitionKeyRange
  relisted : IterationOrder PartitionKeyRange

/-- A full listing in place of a merge; the previous map stays where it comes back empty. -/
def fallBack (orders : RefreshOrders) (prev : ContainerRoutingMap)
    (responses : List (Option PkRangeFetchResult)) :
    Option (ContainerRoutingMap × List (Option PkRangeFetchResult)) :=
  match fetchAndBuildFull orders.relisted responses with
  | none => none
  | some (refreshed, responses) =>
    some (if refreshed.orderedRanges.isEmpty then prev else refreshed, responses)

/-- `fetch_and_build_routing_map` with a previous map. -/
def fetchAndBuildRoutingMap (orders : RefreshOrders) (prev : ContainerRoutingMap)
    (responses : List (Option PkRangeFetchResult)) :
    Option (ContainerRoutingMap × List (Option PkRangeFetchResult)) :=
  match fetchLoop ∅ prev.changeFeedNextIfNoneMatch responses with
  | none => none
  | some (.failed, responses) => some (prev, responses)
  | some (.listed allRanges continuation, responses) =>
    if allRanges.isEmpty then
      some ({ prev with changeFeedNextIfNoneMatch := continuation }, responses)
    else
      match prev.tryCombine orders.merged
          (orders.listed.arrange (HashMap.intoValues allRanges)) continuation with
      | .ok (some map) => some (map, responses)
      | .ok none => fallBack orders prev responses
      | .error _ => fallBack orders prev responses

/-! ## Exactly one owner -/

def owns (e : EffectivePartitionKey) (r : PartitionKeyRange) : Bool :=
  decide (r.minInclusive ≤ e ∧ e < r.maxExclusive)

/-- A complete partition of the EPK space: every key of it has exactly one owner. -/
def Partition (m : ContainerRoutingMap) : Prop :=
  ∀ e : EffectivePartitionKey, e < .MAX → ∃ r, m.orderedRanges.filter (owns e) = [r]

variable {m : ContainerRoutingMap} {ranges : List PartitionKeyRange} {next : Option String}
  {responses rest : List (Option PkRangeFetchResult)}

theorem Partition.nonempty (h : Partition m) : m.orderedRanges ≠ [] := by
  intro none_
  obtain ⟨r, owner⟩ := h .MIN (by decide)
  rw [none_] at owner
  cases owner

variable {lo : EffectivePartitionKey} {etag : Option String} {orders : RefreshOrders}
  {prev : ContainerRoutingMap}

theorem starts_of_follow {hi : EffectivePartitionKey} (follow : Follow lo ranges hi)
    (sorted : ranges.Pairwise startsBefore) : ∀ r ∈ ranges, lo ≤ r.minInclusive := by
  cases ranges with
  | nil => simp
  | cons r rest =>
    have start := follow.1.1
    refine forall_mem_cons.mpr ⟨start, fun q later => ?_⟩
    have after : r.minInclusive ≤ q.minInclusive := (pairwise_cons.mp sorted).1 q later
    exact Std.le_trans start after

theorem filter_owns_before {e : EffectivePartitionKey}
    (starts : ∀ r ∈ ranges, lo ≤ r.minInclusive) (before : e < lo) : ranges.filter (owns e) = [] := by
  rw [filter_eq_nil_iff]
  intro r mem has
  have below := (of_decide_eq_true has).1
  grind

/-- Sorted ranges that follow each other hold every key they span once.  The last one may be
inverted: its predecessor then reaches past the end. -/
theorem filter_owns_follow : ∀ {lo hi e : EffectivePartitionKey} {ranges : List PartitionKeyRange},
    Follow lo ranges hi → ranges.Pairwise startsBefore → lo ≤ e → e < hi →
    ∃ r, ranges.filter (owns e) = [r]
  | lo, hi, e, [], same, _, above, below => by
    cases same
    exact absurd above (by grind)
  | lo, hi, e, r :: rest, ⟨⟨_, start⟩, follow⟩, sorted, above, below => by
    have sortedRest := (pairwise_cons.mp sorted).2
    by_cases inside : e < r.maxExclusive
    · -- the rest starts at the end of `r`
      refine ⟨r, ?_⟩
      have here : owns e r = true := decide_eq_true ⟨Std.le_trans start above, inside⟩
      rw [filter_cons_of_pos here,
        filter_owns_before (starts_of_follow follow sortedRest) inside]
    · have passed : ¬ owns e r = true := fun has => inside (of_decide_eq_true has).2
      rw [filter_cons_of_neg passed]
      exact filter_owns_follow follow sortedRest (by grind) below

instance : Std.Total startsBefore :=
  ⟨fun a b => Std.le_total (a := a.minInclusive) (b := b.minInclusive)⟩

instance : IsTrans PartitionKeyRange startsBefore :=
  ⟨fun _ _ _ first second => Std.le_trans first second⟩

theorem partition_of_follow {gone : List String} (follow : Follow .MIN (byStart ranges) .MAX) :
    Partition (indexed (byStart ranges) gone etag next) := fun e inside =>
  filter_owns_follow follow (pairwise_insertionSort _ ranges) (EffectivePartitionKey.min_le e)
    inside

theorem partition_of_tryCreate (h : tryCreate ranges etag next = .ok (some m)) : Partition m := by
  obtain ⟨follow, rfl⟩ := tryCreate_iff.mp h
  exact partition_of_follow follow

/-! ## The refresh keeps it -/

theorem partition_of_full {order : IterationOrder PartitionKeyRange}
    (h : fetchAndBuildFull order responses = some (m, rest)) (some_ : m.orderedRanges ≠ []) :
    Partition m := by
  unfold fetchAndBuildFull at h
  split at h
  · cases h
  · cases h
    exact absurd rfl some_
  · split at h
    · rename_i created
      cases h
      exact partition_of_tryCreate created
    · cases h
      exact absurd rfl some_
    · cases h
      exact absurd rfl some_

theorem partition_of_fallBack (before : Partition prev)
    (h : fallBack orders prev responses = some (m, rest)) : Partition m := by
  unfold fallBack at h
  split at h
  · cases h
  · rename_i refreshed _ full
    cases h
    split
    · exact before
    · rename_i some_
      exact partition_of_full full (by simpa using some_)

/-- The fetch loop ends at the first response that fails or is a 304. -/
def endsLoop : Option PkRangeFetchResult → Bool
  | none => true
  | some result => result.notModified

theorem fetchLoop_returns : ∀ {responses : List (Option PkRangeFetchResult)}
    (allRanges : HashMap String PartitionKeyRange) (continuation : Option String) {n : Nat},
    n + 1 ≤ responses.countP endsLoop →
    ∃ fetched rest, fetchLoop allRanges continuation responses = some (fetched, rest) ∧
      n ≤ rest.countP endsLoop
  | [], _, _, n, enough => by simp at enough
  | none :: responses, _, _, n, enough => by
    rw [countP_cons_of_pos rfl] at enough
    exact ⟨.failed, responses, rfl, by omega⟩
  | some result :: responses, allRanges, continuation, n, enough => by
    rw [fetchLoop]
    by_cases done : result.notModified = true
    · rw [countP_cons_of_pos (show endsLoop (some result) = true from done)] at enough
      exact ⟨_, responses, if_pos done, by omega⟩
    · rw [countP_cons_of_neg (show ¬ endsLoop (some result) = true from done)] at enough
      rw [if_neg done]
      exact fetchLoop_returns _ _ enough

theorem fallBack_returns (orders : RefreshOrders)
    (prev : ContainerRoutingMap) (enough : 1 ≤ responses.countP endsLoop) :
    (fallBack orders prev responses).isSome := by
  obtain ⟨fetched, rest, loop, _⟩ := fetchLoop_returns ∅ none enough
  unfold fallBack fetchAndBuildFull
  rw [loop]
  cases fetched with
  | failed => rfl
  | listed allRanges continuation =>
    dsimp only
    cases tryCreate (orders.relisted.arrange (HashMap.intoValues allRanges)) none continuation with
    | error e => rfl
    | ok created => cases created <;> rfl

/-- Two responses that end a fetch loop are enough: one for the increment, one for the
full listing it may fall back to. -/
theorem fetchAndBuildRoutingMap_returns (orders : RefreshOrders) (prev : ContainerRoutingMap)
    (enough : 2 ≤ responses.countP endsLoop) :
    (fetchAndBuildRoutingMap orders prev responses).isSome := by
  obtain ⟨fetched, rest, loop, left⟩ :=
    fetchLoop_returns ∅ prev.changeFeedNextIfNoneMatch enough
  unfold fetchAndBuildRoutingMap
  rw [loop]
  cases fetched with
  | failed => rfl
  | listed allRanges continuation =>
    dsimp only
    split
    · rfl
    · cases prev.tryCombine orders.merged (orders.listed.arrange (HashMap.intoValues allRanges))
          continuation with
      | error e => exact fallBack_returns orders prev left
      | ok combined =>
        cases combined with
        | none => exact fallBack_returns orders prev left
        | some map => rfl

theorem partition_of_refresh (before : Partition prev)
    (h : fetchAndBuildRoutingMap orders prev responses = some (m, rest)) : Partition m := by
  unfold fetchAndBuildRoutingMap at h
  split at h
  · cases h
  · cases h
    exact before
  · split at h
    · cases h
      exact before
    · split at h
      · rename_i combined
        cases h
        obtain ⟨follow, rfl⟩ := tryCombine_iff.mp combined
        exact partition_of_follow follow
      · exact partition_of_fallBack before h
      · exact partition_of_fallBack before h

/-- **A refresh never loses a good map.**  Whatever the service answers, the map a refresh
returns partitions the EPK space when the previous one did; and it returns once the fetch
loops got the responses that end them. -/
theorem refresh_keeps_partition (orders : RefreshOrders) (prev : ContainerRoutingMap)
    (before : Partition prev) (responses : List (Option PkRangeFetchResult)) :
    (∀ m rest, fetchAndBuildRoutingMap orders prev responses = some (m, rest) →
      m.orderedRanges ≠ [] ∧ Partition m) ∧
    (2 ≤ responses.countP endsLoop →
      ∃ m rest, fetchAndBuildRoutingMap orders prev responses = some (m, rest)) := by
  constructor
  · intro m rest h
    have after := partition_of_refresh before h
    exact ⟨after.nonempty, after⟩
  · intro enough
    obtain ⟨⟨m, rest⟩, h⟩ :=
      Option.isSome_iff_exists.mp (fetchAndBuildRoutingMap_returns orders prev enough)
    exact ⟨m, rest, h⟩

/-- A page with one child of a split only, then a failing full listing. -/
def halfSplit : List (Option PkRangeFetchResult) :=
  [some ⟨splitChildren.take 1, some "e1", false⟩, some ⟨[], none, true⟩, none]

theorem halfSplit_keeps_partition :
    Partition twoRangesMap ∧ ∃ m rest,
      fetchAndBuildRoutingMap ⟨.asListed _, .asListed _, .asListed _⟩ twoRangesMap halfSplit =
        some (m, rest) ∧ m.orderedRanges ≠ [] ∧ Partition m := by
  have before : Partition twoRangesMap :=
    partition_of_tryCreate (eq_produced (x := tryCreate twoRanges none none) (by decide))
  obtain ⟨kept, returns⟩ := refresh_keeps_partition ⟨.asListed _, .asListed _, .asListed _⟩
    twoRangesMap before halfSplit
  obtain ⟨m, rest, h⟩ := returns (by decide)
  exact ⟨before, m, rest, h, kept m rest h⟩

end ContainerRoutingMap

end AzureSdk.Cosmos

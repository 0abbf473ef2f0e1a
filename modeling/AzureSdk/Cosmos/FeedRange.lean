/-
# Cosmos.FeedRange — contiguous parts of the EPK space

A feed range is `[min_inclusive, max_exclusive)`, optionally with the logical
partition key it was built from.  Every constructor of the source checks or
establishes `min ≤ max`; here the type carries that fact.  A range with
`min == max` is a legal value and stands for one key, so it is never read as an
empty interval by the constructors, only by the interval arithmetic.
-/
import AzureSdk.Theory.Interval
import AzureSdk.Cosmos.EffectivePartitionKey
import AzureSdk.Cosmos.Error

namespace AzureSdk.Cosmos

open Theory.Interval

/-- `InnerPartitionKeyValue`; a number is its IEEE-754 bit pattern. -/
inductive PartitionKeyValue
  | null
  | string (value : String)
  | number (bits : UInt64)
  | bool (value : Bool)
  | undefined
  | infinity
  deriving DecidableEq, Repr

/-- The key values, in the order of the definition's paths. -/
abbrev PartitionKey := List PartitionKeyValue

/-- `FeedRange`.  `partitionKey` is present in the `LogicalPartition` variant and
absent in the `Range` variant. -/
structure FeedRange where
  partitionKey : Option PartitionKey
  minInclusive : EffectivePartitionKey
  maxExclusive : EffectivePartitionKey
  ordered : minInclusive ≤ maxExclusive
  deriving DecidableEq

namespace FeedRange

def new (minInclusive maxExclusive : EffectivePartitionKey) : Result FeedRange :=
  if ordered : minInclusive ≤ maxExclusive then
    .ok ⟨none, minInclusive, maxExclusive, ordered⟩
  else
    fail .badRequest "feed range min_inclusive must be less than or equal to max_exclusive"

def full : FeedRange := ⟨none, .MIN, .MAX, by decide⟩

def isLogicalPartition (r : FeedRange) : Bool := r.partitionKey.isSome

def isSubsetOf (self other : FeedRange) : Bool :=
  decide (other.minInclusive ≤ self.minInclusive) &&
    decide (self.maxExclusive ≤ other.maxExclusive)

def overlaps (self other : FeedRange) : Bool :=
  decide (self.minInclusive < other.maxExclusive) &&
    decide (other.minInclusive < self.maxExclusive)

def span (r : FeedRange) : Span EffectivePartitionKey := ⟨r.minInclusive, r.maxExclusive⟩

@[simp] theorem span_lo (r : FeedRange) : r.span.lo = r.minInclusive := rfl
@[simp] theorem span_hi (r : FeedRange) : r.span.hi = r.maxExclusive := rfl

variable {r : FeedRange}

theorem has_iff {e : EffectivePartitionKey} :
    r.span.Has e ↔ r.minInclusive ≤ e ∧ e < r.maxExclusive := Iff.rfl

/-- The keys of a range.  The lower bound overrides the upper one: a range with equal
bounds stands for one key. -/
def Key (r : FeedRange) (e : EffectivePartitionKey) : Prop :=
  r.minInclusive ≤ e ∧ (e < r.maxExclusive ∨ e ≤ r.minInclusive)

/-- `overlaps` and `is_subset_of` read a range of one key as an empty interval: they are right
about two ranges unless such a range lies at a bound of the other. -/
theorem predicates_match_keys_iff (a b : FeedRange) :
    ((a.overlaps b = true ↔ ∃ e, a.Key e ∧ b.Key e) ∧
      (a.isSubsetOf b = true ↔ ∀ e, a.Key e → b.Key e)) ↔
    (a.maxExclusive ≤ a.minInclusive →
      ¬ (a.minInclusive ≤ b.minInclusive ∧ b.minInclusive ≤ a.minInclusive) ∧
      ¬ (a.minInclusive ≤ b.maxExclusive ∧ b.maxExclusive ≤ a.minInclusive)) ∧
    (b.maxExclusive ≤ b.minInclusive →
      ¬ (a.minInclusive ≤ b.minInclusive ∧ b.minInclusive ≤ a.minInclusive)) := by
  have := a.ordered
  have := b.ordered
  simp only [overlaps, isSubsetOf, Bool.and_eq_true, decide_eq_true_eq]
  unfold Key
  grind

/-- One key: the range does not overlap itself; and it is a subset of the range it ends. -/
theorem point_predicates_wrong :
    let point : FeedRange := ⟨none, ⟨[5]⟩, ⟨[5]⟩, by decide⟩
    let below : FeedRange := ⟨none, .MIN, ⟨[5]⟩, by decide⟩
    new ⟨[5]⟩ ⟨[5]⟩ = .ok point ∧ point.Key ⟨[5]⟩ ∧ point.overlaps point = false ∧
      new .MIN ⟨[5]⟩ = .ok below ∧ ¬ below.Key ⟨[5]⟩ ∧ point.isSubsetOf below = true ∧
      point.overlaps below = false := by
  refine ⟨by decide, by unfold Key; decide, by decide, by decide, by unfold Key; decide, by decide,
    by decide⟩

theorem new_ok {lo hi : EffectivePartitionKey} (ordered : lo ≤ hi) :
    new lo hi = .ok ⟨none, lo, hi, ordered⟩ := by
  simp [new, ordered]

theorem new_inv {lo hi : EffectivePartitionKey} (h : new lo hi = .ok r) :
    r.minInclusive = lo ∧ r.maxExclusive = hi := by
  unfold new at h
  split at h
  · cases h
    exact ⟨rfl, rfl⟩
  · cases h

theorem new_self (explicit : r.partitionKey = none) :
    new r.minInclusive r.maxExclusive = .ok r := by
  rw [new_ok r.ordered]
  cases r
  simp_all

end FeedRange

/-- The `EPK space`: the keys below `MAX`. -/
def epkSpace : Span EffectivePartitionKey := ⟨.MIN, .MAX⟩

theorem epkSpace_has {e : EffectivePartitionKey} : epkSpace.Has e ↔ e < .MAX :=
  ⟨fun h => h.2, fun h => ⟨EffectivePartitionKey.min_le e, h⟩⟩

/-- The later of two lower bounds, as `intersect_feed_ranges` picks it. -/
def laterMin (left right : EffectivePartitionKey) : EffectivePartitionKey :=
  if right ≤ left then left else right

/-- The earlier of two upper bounds. -/
def earlierMax (left right : EffectivePartitionKey) : EffectivePartitionKey :=
  if left ≤ right then left else right

/-- The overlap of two ranges, if it is not empty. -/
def intersectFeedRanges (left right : FeedRange) : Option FeedRange :=
  let min := laterMin left.minInclusive right.minInclusive
  let max := earlierMax left.maxExclusive right.maxExclusive
  if proper : min < max then some ⟨none, min, max, Std.le_of_lt proper⟩ else none

variable {left r right : FeedRange}

theorem intersectFeedRanges_some (h : intersectFeedRanges left right = some r) :
    r.minInclusive < r.maxExclusive ∧
      ∀ e, r.span.Has e ↔ left.span.Has e ∧ right.span.Has e := by
  simp only [intersectFeedRanges] at h
  split at h
  · rename_i proper
    cases h
    refine ⟨proper, fun e => ?_⟩
    simp only [FeedRange.has_iff, laterMin, earlierMax]
    grind
  · exact absurd h (by simp)

theorem intersectFeedRanges_none
    (h : intersectFeedRanges left right = none) (e : EffectivePartitionKey) :
    ¬ (left.span.Has e ∧ right.span.Has e) := by
  simp only [intersectFeedRanges] at h
  split at h
  · exact absurd h (by simp)
  · simp only [FeedRange.has_iff, laterMin, earlierMax] at *
    grind

theorem intersectFeedRanges_within (h : intersectFeedRanges left right = some r) :
    r.span.Within left.span ∧ r.span.Within right.span := by
  simp only [intersectFeedRanges] at h
  split at h
  · cases h
    simp only [Span.Within, FeedRange.span_lo, FeedRange.span_hi, laterMin, earlierMax]
    grind
  · exact absurd h (by simp)

theorem intersectFeedRanges_bounds (h : intersectFeedRanges left right = some r) :
    r.minInclusive = laterMin left.minInclusive right.minInclusive ∧
      r.maxExclusive = earlierMax left.maxExclusive right.maxExclusive := by
  simp only [intersectFeedRanges] at h
  split at h
  · cases h
    exact ⟨rfl, rfl⟩
  · exact absurd h (by simp)

theorem intersectFeedRanges_isSome {e : EffectivePartitionKey}
    (hl : left.span.Has e) (hr : right.span.Has e) :
    ∃ r, intersectFeedRanges left right = some r := by
  cases h : intersectFeedRanges left right with
  | some r => exact ⟨r, rfl⟩
  | none => exact absurd ⟨hl, hr⟩ (intersectFeedRanges_none h e)

end AzureSdk.Cosmos

/-
# Cosmos.Transport.Capacity — the room in a pool

A selection looks only at the first selectable shards, as many as their load needs.  If each of
these is full then all of the load is theirs, and they are as many as it needs only if there are
no others: a shard with room is found whenever there is one (`selection_finds_room`).
-/
import AzureSdk.Cosmos.Transport.ShardPool

namespace AzureSdk.Cosmos.Transport

open List Option

variable {options : ConnectionPoolOptions} {heap : Heap} {shards : List ShardId}
variable {excluded preferred : Option ShardId} {x : ShardId}

def HasRoom (options : ConnectionPoolOptions) (heap : Heap) (x : ShardId) : Prop :=
  (heap x).inflight < options.maxStreams

/-- The load of shards of which the first `n` are full. -/
theorem load_of_full : ∀ (l : List ShardId) (n : Nat), n ≤ l.length →
    (∀ x ∈ l.take n, ¬ HasRoom options heap x) →
      n * options.maxStreams ≤ (l.map fun x => (heap x).inflight).sum
  | _, 0, _, _ => by simp
  | x :: l, n + 1, le, full => by
    have first := full x (by simp)
    have rest := load_of_full l n (by simpa using le) fun y hy => full y (by simp [hy])
    simp only [HasRoom] at first
    simp only [map_cons, sum_cons, Nat.succ_mul]
    omega

/-- The first selectable shards are all of them, or more than the load fills. -/
theorem activeShardCount_enough (some : shards.filter (isSelectable heap excluded) ≠ []) :
    (shards.filter (isSelectable heap excluded)).length ≤
        activeShardCount options heap excluded shards ∨
      ((shards.filter (isSelectable heap excluded)).map fun x => (heap x).inflight).sum <
        activeShardCount options heap excluded shards * options.maxStreams := by
  have pos := options.maxStreams_pos
  have length := length_pos_iff.mpr some
  unfold activeShardCount
  dsimp only
  rw [if_neg (by omega)]
  generalize ((shards.filter _).map fun x => (heap x).inflight).sum = load
  generalize (shards.filter _).length = count at length
  by_cases all : count ≤ max ((load + 1 + options.maxStreams - 1) / options.maxStreams)
      options.minConnections
  · left
    omega
  · right
    have needed : (load + 1 + options.maxStreams - 1) / options.maxStreams <
        max (min (max ((load + 1 + options.maxStreams - 1) / options.maxStreams)
          options.minConnections) count) 1 + 1 := by omega
    have room := Nat.lt_mul_of_div_lt needed pos
    rw [Nat.succ_mul] at room
    omega

theorem exists_active_room (mem : x ∈ shards) (selectable : isSelectable heap excluded x = true)
    (room : HasRoom options heap x) :
    ∃ y ∈ (shards.filter (isSelectable heap excluded)).take
      (activeShardCount options heap excluded shards), HasRoom options heap y := by
  have inside : x ∈ shards.filter (isSelectable heap excluded) := mem_filter.mpr ⟨mem, selectable⟩
  by_contra none
  rcases Nat.le_total (shards.filter (isSelectable heap excluded)).length
    (activeShardCount options heap excluded shards) with all | few
  · exact none ⟨x, by rwa [take_of_length_le all], room⟩
  · have full := load_of_full _ _ few fun y hy room => none ⟨y, hy, room⟩
    rcases @activeShardCount_enough options heap shards excluded (ne_nil_of_mem inside) with all | less
    · exact none ⟨x, by rwa [take_of_length_le all], room⟩
    · omega

/-- **Looking only at active shards loses no capacity.** -/
theorem selection_finds_room (options : ConnectionPoolOptions) (heap : Heap)
    (shards : List ShardId) (excluded preferred : Option ShardId) :
    ((selectFromShards options heap shards excluded preferred).isSome = true ↔
      ∃ x ∈ shards, isSelectable heap excluded x = true ∧
        (heap x).inflight < options.maxStreams) ∧
    ∀ x, selectFromShards options heap shards excluded preferred = some x →
      x ∈ shards ∧ isSelectable heap excluded x = true ∧
        (heap x).inflight < options.maxStreams := by
  have sound : ∀ x, selectFromShards options heap shards excluded preferred = some x →
      x ∈ shards ∧ isSelectable heap excluded x = true ∧
        (heap x).inflight < options.maxStreams := by
    intro x found
    simp only [selectFromShards] at found
    split at found
    · rename_i y reused
      obtain ⟨preferredId, -, reused⟩ := Option.bind_eq_some_iff.mp reused
      obtain ⟨there, room⟩ := Option.filter_eq_some_iff.mp reused
      have selectable := find?_some there
      simp only [Bool.and_eq_true] at selectable
      cases found
      exact ⟨mem_of_find?_eq_some there, selectable.2, by simpa using room⟩
    · have inside := argmin_mem (Option.mem_def.mpr found)
      obtain ⟨active, room⟩ := mem_filter.mp inside
      obtain ⟨mem, selectable⟩ := mem_filter.mp (mem_of_mem_take active)
      exact ⟨mem, selectable, by simpa using room⟩
  refine ⟨⟨fun found => ?_, ?_⟩, sound⟩
  · obtain ⟨x, found⟩ := Option.isSome_iff_exists.mp found
    exact ⟨x, sound x found⟩
  · rintro ⟨x, mem, selectable, room⟩
    obtain ⟨y, active, room⟩ := exists_active_room mem selectable room
    simp only [selectFromShards]
    split
    · rfl
    · rw [← Option.ne_none_iff_isSome, leastLoaded, Ne, argmin_eq_none, filter_eq_nil_iff]
      exact fun none => none y active (decide_eq_true room)

end AzureSdk.Cosmos.Transport

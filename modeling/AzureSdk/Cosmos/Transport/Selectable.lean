/-
# Cosmos.Transport.Selectable — a selection finds a shard

A selection without an excluded shard fails only if the pool is full when it tries to
create a shard, and no shard is unmarked when it falls back.  A sweep marks failing shards
only beside a healthy one, or else one of them as a probe; where it removes a shard the
pool has room for another.  So a pool that is full has an unmarked shard, except after a
sweep that has marked the last one and found every shard busy; and until a selection that was
refused chooses an unmarked shard stays, except where a sweep marks or gives up the last, of the
pool or of the list that the selection has loaded.

`Careful` excludes these, and then every selection finds a shard
(`selection_finds_shard`).  The first of them leaves the pool without a shard to select
until a request finishes (`busy_probe_leaves_none`).
-/
import Mathlib.Data.List.Nodup
import AzureSdk.Theory.Run
import AzureSdk.Cosmos.Transport.ShardPool

namespace AzureSdk.Cosmos.Transport

open Theory List

variable {ι : Type}

/-- The call does not fall back and has not failed. -/
def CallPhase.Plain : CallPhase → Prop
  | .falling _ | .choosing _ _ | .failed _ => False
  | _ => True

/-- What `select_shard` was told to leave out, from its call until it has returned. -/
def CallPhase.excluded : CallPhase → Option (Option ShardId)
  | .loading excluded _ | .looking excluded _ _ | .creating excluded | .falling excluded
  | .choosing excluded _ | .failed excluded => some excluded
  | .selected _ => some none
  | .idle | .sending _ => none

/-- How many of its steps are done. -/
def CallPhase.stage : CallPhase → Nat
  | .looking _ _ _ => 1
  | .creating _ => 2
  | .falling _ => 3
  | .choosing _ _ => 4
  | .selected _ | .failed _ => 5
  | .idle | .loading _ _ | .sending _ => 0

variable {excluded : Option ShardId} {loaded : List ShardId} {p : CallPhase}

theorem CallPhase.Plain.not_choosing (plain : p.Plain) : p ≠ .choosing excluded loaded := by
  rintro rfl
  exact plain

theorem CallPhase.Plain.not_falling (plain : p.Plain) : p ≠ .falling excluded := by
  rintro rfl
  exact plain

theorem CallPhase.Plain.not_failed (plain : p.Plain) : p ≠ .failed excluded := by
  rintro rfl
  exact plain

namespace Pool

/-! ## What a step can do -/

section Steps

variable [DecidableEq ι]

/-- The shard that `try_create_shard` adds. -/
def withCreated (s : Pool ι) : Pool ι :=
  { (s.build 1).1 with shards := s.shards ++ (s.build 1).2 }

inductive Stepped (options : ConnectionPoolOptions) (s : Pool ι) : Event ι → Pool ι → Prop
  | stays {e : Event ι} : Stepped options s e s
  | walks {e : Event ι} {c : ι} {p : CallPhase} (plain : p.Plain) : Stepped options s e (s.goTo c p)
  | requests {e : Event ι} {c : ι} {x : ShardId} {f : ClientShard → ClientShard} {p : CallPhase}
    (keeps : ∀ t, (f t).markedForEviction = t.markedForEviction) (plain : p.Plain) :
    Stepped options s e ((s.modify x f).goTo c p)
  | refused {c : ι} {excluded : Option ShardId} (unlocked : s.isLocked = false)
    (full : options.maxConnections ≤ s.shards.length) :
    Stepped options s (.create c) (s.goTo c (.falling excluded))
  | creates {c : ι} {p : CallPhase} (unlocked : s.isLocked = false)
    (room : s.shards.length < options.maxConnections) (plain : p.Plain) :
    Stepped options s (.create c) (s.withCreated.goTo c p)
  | loads {c : ι} {excluded : Option ShardId} (falling : s.call c = .falling excluded) :
    Stepped options s (.fallBack c) (s.goTo c (.choosing excluded s.shards))
  | fails {c : ι} {excluded : Option ShardId} {loaded : List ShardId}
    (choosing : s.call c = .choosing excluded loaded)
    (none : selectOverCapacity s.heap loaded excluded = none) :
    Stepped options s (.choose c) (s.goTo c (.failed excluded))
  | evaluates {sweep : SweepPhase} (resting : s.sweep = .resting)
    (next : sweep = .building options.minConnections ∨
      sweep = .evaluating s.now (s.shards.map (snapshot s.heap))) :
    Stepped options s .sweepEvaluate { s with sweep }
  | marks {now : Nat} {snapshots : List HealthSnapshot} {needsProbe : Bool}
    (evaluating : s.sweep = .evaluating now snapshots) :
    Stepped options s .sweepMark
      { s with heap := mark options now snapshots s.heap, sweep := .storing now needsProbe }
  | stores {now count : Nat} {needsProbe : Bool} (storing : s.sweep = .storing now needsProbe) :
    Stepped options s .sweepStore
      { s with shards := keptShards options s.heap now s.shards, sweep := .building count }
  | builds {count : Nat} (building : s.sweep = .building count) :
    Stepped options s .sweepBuild
      { (s.build count).1 with sweep := .inserting (s.build count).2 }
  | inserts {newShards : List ShardId} (inserting : s.sweep = .inserting newShards) :
    Stepped options s .sweepInsert
      { s with
        shards := s.shards ++ newShards.take (options.maxConnections - s.shards.length)
        sweep := .resting }
  | ticks {elapsed : Nat} : Stepped options s (.tick elapsed) { s with now := s.now + elapsed }

theorem recordRequestOutcome_marked (now : Nat) (isOk : Bool) (t : ClientShard) :
    (t.recordRequestOutcome now isOk).markedForEviction = t.markedForEviction := by
  cases isOk <;> rfl

theorem step_stepped (options : ConnectionPoolOptions) (s : Pool ι) (e : Event ι) :
    Stepped options s e (s.step options e) := by
  cases e with
  | begin c excluded preferred | load c | release c =>
    rw [step]
    split
    · exact .walks trivial
    · exact .stays
  | look c =>
    rw [step]
    split
    · split
      · exact .walks trivial
      · exact .walks trivial
    · exact .stays
  | create c =>
    rw [step]
    split
    · split
      · exact .stays
      · rename_i unlocked
        have unlocked : s.isLocked = false := by simpa using unlocked
        unfold tryCreate
        split
        · exact .refused unlocked (by assumption)
        · exact .creates unlocked (by omega) trivial
    · exact .stays
  | fallBack c =>
    rw [step]
    split
    · exact .loads (by assumption)
    · exact .stays
  | choose c =>
    rw [step]
    split
    · split
      · exact .walks trivial
      · exact .fails (by assumption) (by assumption)
    · exact .stays
  | start c =>
    rw [step]
    split
    · exact .requests (fun _ => rfl) trivial
    · exact .stays
  | finish c outcome =>
    rw [step]
    split
    · cases outcome with
      | ok => exact .requests (recordRequestOutcome_marked s.now true) trivial
      | error => exact .requests (recordRequestOutcome_marked s.now false) trivial
      | cancelled => exact .requests (fun _ => rfl) trivial
    · exact .stays
  | sweepEvaluate =>
    rw [step]
    split
    · split
      · exact .evaluates (by assumption) (.inl rfl)
      · exact .evaluates (by assumption) (.inr rfl)
    · exact .stays
  | sweepMark =>
    rw [step]
    split
    · exact .marks (by assumption)
    · exact .stays
  | sweepStore =>
    rw [step]
    split
    · exact .stores (by assumption)
    · exact .stays
  | sweepBuild =>
    rw [step]
    split
    · exact .builds (by assumption)
    · exact .stays
  | sweepInsert =>
    rw [step]
    split
    · exact .inserts (by assumption)
    · exact .stays
  | tick elapsed => exact .ticks

end Steps

/-! ## Invariants -/

/-- Some shard of the pool is not marked. -/
def Usable (s : Pool ι) : Prop := ∃ x ∈ s.shards, (s.heap x).markedForEviction = false

/-- Shards that are built and not in the list yet. -/
def pending (s : Pool ι) : List ShardId :=
  match s.sweep with
  | .inserting newShards => newShards
  | _ => []

/-- The snapshots of a sweep are of the shards in the list, and know which are marked. -/
def Current (s : Pool ι) : Prop :=
  ∀ now snapshots, s.sweep = .evaluating now snapshots →
    snapshots.map (·.id) = s.shards ∧
      ∀ p ∈ snapshots, p.markedForEviction = (s.heap p.id).markedForEviction

structure Sound (options : ConnectionPoolOptions) (s : Pool ι) : Prop where
  bounded : s.shards.length ≤ options.maxConnections
  known : ∀ x ∈ s.shards ++ s.pending, x < s.nextShardId
  loaded : ∀ c excluded l, s.call c = .choosing excluded l → ∀ x ∈ l, x < s.nextShardId
  nodup : (s.shards ++ s.pending).Nodup
  built : ∀ x ∈ s.pending, (s.heap x).markedForEviction = false
  current : s.Current

/-- What every selection needs: a full pool has an unmarked shard whenever a shard may be
created, and as long as a selection is about to load it; and so has a list that was loaded. -/
structure Selectable (options : ConnectionPoolOptions) (s : Pool ι) : Prop where
  full : s.isLocked = false → options.maxConnections ≤ s.shards.length → s.Usable
  falling : ∀ c, s.call c = .falling none → s.Usable
  choosing : ∀ c l, s.call c = .choosing none l → ∃ x ∈ l, (s.heap x).markedForEviction = false
  found : ∀ c, s.call c ≠ .failed none

theorem giveUp_suffix (least : Nat) (canGo : ShardId → Bool) : ∀ l, giveUp least canGo l <:+ l
  | [] => suffix_refl []
  | x :: rest => by
    rw [giveUp]
    split
    · exact (giveUp_suffix least canGo rest).trans (suffix_cons x rest)
    · exact suffix_refl _

theorem mem_giveUp {least : Nat} {canGo : ShardId → Bool} {x : ShardId} (stays : canGo x = false) :
    ∀ {l}, x ∈ l → x ∈ giveUp least canGo l
  | y :: rest, mem => by
    rw [giveUp]
    split
    · rename_i goes
      rcases mem_cons.mp mem with same | mem
      · rw [same] at stays
        rw [stays] at goes
        exact absurd goes.2 (by decide)
      · exact mem_giveUp stays mem
    · exact mem

theorem keptShards_sublist (options : ConnectionPoolOptions) (heap : Heap) (now : Nat)
    (shards : List ShardId) : (keptShards options heap now shards).Sublist shards := by
  have kept := (giveUp_suffix options.minConnections
    (fun x => !(heap x).markedForEviction && (heap x).isIdleFor now options.idleTimeout)
    (shards.filter fun x => !((heap x).markedForEviction && (heap x).inflight == 0)).reverse).sublist
  have forth := List.Sublist.reverse kept
  rw [reverse_reverse] at forth
  exact forth.trans filter_sublist

section Preservation

variable {options : ConnectionPoolOptions} {s s' : Pool ι}

variable {x : ShardId}

theorem modify_marked {f : ClientShard → ClientShard}
    (keeps : ∀ t, (f t).markedForEviction = t.markedForEviction) (y : ShardId) :
    ((s.modify x f).heap y).markedForEviction = (s.heap y).markedForEviction := by
  show (Function.update s.heap x (f (s.heap x)) y).markedForEviction = _
  rw [Function.update_apply]
  split
  · rename_i same
    rw [keeps, same]
  · rfl

variable {count : Nat}

theorem build_new (mem : x ∈ (s.build count).2) :
    ((s.build count).1.heap x).markedForEviction = false := by
  show (if _ then ClientShard.new s.now else s.heap x).markedForEviction = false
  rw [if_pos (mem_range'_1.mp mem)]
  rfl

theorem build_old (old : x < s.nextShardId) : (s.build count).1.heap x = s.heap x :=
  if_neg fun new => absurd new.1 (Nat.not_le.mpr old)

theorem build_known (sound : s.Sound options) (count : Nat) :
    ∀ x ∈ (s.shards ++ (s.build count).2) ++ s.pending, x < s.nextShardId + count := by
  obtain ⟨shards, pending⟩ := forall_mem_append.mp fun x mem =>
    Nat.lt_add_right count (sound.known x mem)
  exact forall_mem_append.mpr
    ⟨forall_mem_append.mpr ⟨shards, fun x new => (mem_range'_1.mp new).2⟩, pending⟩

theorem build_nodup (sound : s.Sound options) (count : Nat) :
    ((s.shards ++ (s.build count).2) ++ s.pending).Nodup := by
  rw [append_assoc, (perm_append_comm_assoc _ _ _).nodup_iff, nodup_append]
  refine ⟨nodup_range', sound.nodup, fun x new y old same => ?_⟩
  have above : s.nextShardId ≤ x := (mem_range'_1.mp new).1
  exact absurd (same ▸ above) (Nat.not_le.mpr (sound.known y old))

theorem pending_eq_nil {sweep : SweepPhase} (h : s.sweep = sweep)
    (no : ∀ ids, sweep ≠ .inserting ids) : s.pending = [] := by
  unfold pending
  rw [h]
  cases sweep with
  | inserting ids => exact absurd rfl (no ids)
  | resting | evaluating | storing | building => rfl

theorem Sound.of_none (none : s'.pending = [])
    (loaded : ∀ c excluded l, s'.call c = .choosing excluded l → ∀ x ∈ l, x < s'.nextShardId)
    (bounded : s'.shards.length ≤ options.maxConnections)
    (known : ∀ x ∈ s'.shards, x < s'.nextShardId) (nodup : s'.shards.Nodup)
    (current : s'.Current) : s'.Sound options where
  bounded := bounded
  known x mem := by
    rw [none, append_nil] at mem
    exact known x mem
  loaded := loaded
  nodup := by
    rw [none, append_nil]
    exact nodup
  built x mem := by
    rw [none] at mem
    cases mem
  current := current

theorem Sound.known_shards (sound : s.Sound options) : ∀ x ∈ s.shards, x < s.nextShardId :=
  fun x mem => sound.known x (mem_append_left _ mem)

theorem Sound.nodup_shards (sound : s.Sound options) : s.shards.Nodup :=
  (nodup_append.mp sound.nodup).1

theorem withCreated_sound (sound : s.Sound options) (unlocked : s.isLocked = false)
    (room : s.shards.length < options.maxConnections) : s.withCreated.Sound options := by
  refine ⟨?_, build_known sound 1, fun d excluded l h x mem => ?_, build_nodup sound 1,
    fun x mem => ?_, fun now snaps h => ?_⟩
  · show (s.shards ++ (s.build 1).2).length ≤ _
    rw [length_append]
    exact room
  · exact Nat.lt_succ_of_lt (sound.loaded d excluded l h x mem)
  · have old : x < s.nextShardId := sound.known x (mem_append_right _ mem)
    show ((s.build 1).1.heap x).markedForEviction = false
    rw [build_old old]
    exact sound.built x mem
  · have locked : s.isLocked = true := by
      have evaluating : s.sweep = .evaluating now snaps := h
      rw [isLocked, evaluating]
    rw [unlocked] at locked
    cases locked

variable [DecidableEq ι] {c : ι} {p : CallPhase}

theorem goTo_call (d : ι) : (s.goTo c p).call d = if d = c then p else s.call d :=
  Function.update_apply _ _ _ _

theorem Sound.goTo (sound : s.Sound options)
    (loads : ∀ excluded l, p = .choosing excluded l → ∀ x ∈ l, x < s.nextShardId) :
    (s.goTo c p).Sound options :=
  { sound with
    loaded := fun d excluded l h => by
      rw [goTo_call] at h
      split at h
      · exact loads excluded l h
      · exact sound.loaded d excluded l h }

theorem step_sound (sound : s.Sound options) {e : Event ι} (h : Stepped options s e s') :
    s'.Sound options := by
  cases h with
  | stays => exact sound
  | walks plain => exact sound.goTo fun _ _ h => absurd h plain.not_choosing
  | refused | fails => exact sound.goTo nofun
  | loads falling =>
    refine sound.goTo fun _ _ h => ?_
    cases h
    exact sound.known_shards
  | ticks => exact { sound with bounded := sound.bounded }
  | requests keeps plain =>
    refine Sound.goTo ?_ fun _ _ h => absurd h plain.not_choosing
    refine ⟨sound.bounded, sound.known, sound.loaded, sound.nodup, fun x mem => ?_,
      fun now snaps h => ?_⟩
    · exact (modify_marked keeps x).trans (sound.built x mem)
    · obtain ⟨ids, marks⟩ := sound.current now snaps h
      exact ⟨ids, fun p mem => (marks p mem).trans (modify_marked keeps p.id).symm⟩
  | creates unlocked room plain =>
    exact (withCreated_sound sound unlocked room).goTo fun _ _ h => absurd h plain.not_choosing
  | evaluates resting next =>
    rcases next with rfl | rfl
    · exact .of_none rfl sound.loaded sound.bounded sound.known_shards sound.nodup_shards nofun
    · refine .of_none rfl sound.loaded sound.bounded sound.known_shards sound.nodup_shards ?_
      intro now snaps h
      cases h
      refine ⟨?_, fun p mem => ?_⟩
      · rw [map_map]
        exact map_id _
      · obtain ⟨x, _, rfl⟩ := mem_map.mp mem
        rfl
  | marks evaluating =>
    exact .of_none rfl sound.loaded sound.bounded sound.known_shards sound.nodup_shards nofun
  | @stores now count needsProbe storing =>
    have kept := keptShards_sublist options s.heap now s.shards
    refine .of_none rfl sound.loaded (kept.length_le.trans sound.bounded) (fun x mem => ?_) ?_ nofun
    · exact sound.known_shards x (kept.subset mem)
    · exact sound.nodup_shards.sublist kept
  | @builds count building =>
    have none : s.pending = [] := pending_eq_nil building nofun
    have known := build_known sound count
    have nodup := build_nodup sound count
    rw [none, append_nil] at known nodup
    exact ⟨sound.bounded, known, fun c excluded l h x mem =>
      Nat.lt_add_right count (sound.loaded c excluded l h x mem), nodup, fun x mem => build_new mem,
      nofun⟩
  | @inserts newShards inserting =>
    have pending : s.pending = newShards := by rw [Pool.pending, inserting]
    have sub : (s.shards ++ newShards.take (options.maxConnections - s.shards.length)).Sublist
        (s.shards ++ s.pending) := by
      rw [pending]
      exact (List.Sublist.refl _).append (take_sublist _ _)
    refine .of_none rfl sound.loaded ?_ (fun x mem => sound.known x (sub.subset mem))
      (sound.nodup.sublist sub) nofun
    show (s.shards ++ newShards.take (options.maxConnections - s.shards.length)).length ≤ _
    rw [length_append, length_take]
    have := sound.bounded
    omega

end Preservation

/-! ## Sweeps and unmarked shards -/

section Sweeps

variable {options : ConnectionPoolOptions} {s : Pool ι}

/-- A selection without an excluded shard was refused a new shard and is about to load the list. -/
def Falling (s : Pool ι) : Prop := ∃ c, s.call c = .falling none

/-- What a sweep must not meet.  When it marks while a selection that was refused is about to load the
list, some unmarked shard is not its probe; and of a list that such a selection has loaded it leaves
an unmarked shard.  When it stores the new list, not all shards of a full pool are
marked and busy; and while a selection is about to load it, some unmarked shard is in use or was
lately. -/
def Careful (options : ConnectionPoolOptions) (s : Pool ι) : Event ι → Prop
  | .sweepMark => ∀ now snapshots, s.sweep = .evaluating now snapshots →
    (s.Falling → ∃ x ∈ s.shards, (s.heap x).markedForEviction = false ∧
      pickProbeCandidate options now snapshots ≠ some x) ∧
    ∀ c l, s.call c = .choosing none l → ∃ x ∈ l, (s.heap x).markedForEviction = false ∧
      ∀ p ∈ snapshots, p.id = x → shouldMark options now snapshots p = false
  | .sweepStore => ∀ now needsProbe, s.sweep = .storing now needsProbe →
    ¬ (s.shards.length = options.maxConnections ∧
      ∀ x ∈ s.shards, (s.heap x).markedForEviction = true ∧ 0 < (s.heap x).inflight) ∧
    (s.Falling → ∃ x ∈ s.shards, (s.heap x).markedForEviction = false ∧
      (s.heap x).isIdleFor now options.idleTimeout = false)
  | _ => True

variable {now : Nat} {snapshots : List HealthSnapshot} {x : ShardId}

theorem mark_unmarked (unmarked : (s.heap x).markedForEviction = false)
    (spared : ∀ p ∈ snapshots, p.id = x → shouldMark options now snapshots p = false) :
    (mark options now snapshots s.heap x).markedForEviction = false := by
  unfold mark
  rw [if_neg ?_]
  · exact unmarked
  · intro any
    obtain ⟨p, mem, marked⟩ := any_eq_true.mp any
    rw [Bool.and_eq_true, beq_iff_eq] at marked
    rw [spared p mem marked.1] at marked
    exact absurd marked.2 (by decide)

/-- A sweep that marks leaves a shard unmarked, if the probe is not the only one. -/
theorem usable_mark (sound : s.Sound options)
    (evaluating : s.sweep = .evaluating now snapshots) (mem : x ∈ s.shards)
    (unmarked : (s.heap x).markedForEviction = false)
    (notProbe : pickProbeCandidate options now snapshots ≠ some x) :
    ∃ y ∈ s.shards, (mark options now snapshots s.heap y).markedForEviction = false := by
  obtain ⟨ids, marks⟩ := sound.current now snapshots evaluating
  cases probe : pickProbeCandidate options now snapshots with
  | some probeId =>
    refine ⟨x, mem, mark_unmarked unmarked fun p _ same => ?_⟩
    rw [shouldMark, probe, same]
    exact beq_false_of_ne fun h => notProbe (by rw [probe, h])
  | none =>
    by_cases healthy : ∃ q ∈ snapshots, q.markedForEviction = false ∧ q.isHealthy options now = true
    · obtain ⟨q, hq, free, healthy⟩ := healthy
      have member : q.id ∈ s.shards := ids ▸ mem_map_of_mem hq
      refine ⟨q.id, member, mark_unmarked (marks q hq ▸ free) fun p hp same => ?_⟩
      rw [inj_on_of_nodup_map (ids ▸ sound.nodup_shards) hp hq same, shouldMark, probe]
      rw [HealthSnapshot.isHealthy, Bool.or_eq_true, decide_eq_true_eq] at healthy
      rcases healthy with below | recent
      · simp [Nat.not_le.mpr below]
      · simp [recent]
    · refine ⟨x, mem, mark_unmarked unmarked fun p _ _ => ?_⟩
      rw [shouldMark, probe]
      have none : (snapshots.any fun p => !p.markedForEviction && p.isHealthy options now) =
          false := by
        rw [Bool.eq_false_iff]
        intro any
        obtain ⟨q, hq, both⟩ := any_eq_true.mp any
        rw [Bool.and_eq_true, Bool.not_eq_true'] at both
        exact healthy ⟨q, hq, both⟩
      simp [none]

theorem mem_keptShards (mem : x ∈ s.shards) (unmarked : (s.heap x).markedForEviction = false)
    (inUse : (s.heap x).isIdleFor now options.idleTimeout = false) :
    x ∈ keptShards options s.heap now s.shards := by
  unfold keptShards
  rw [mem_reverse]
  refine mem_giveUp (by rw [inUse, Bool.and_false]) ?_
  rw [mem_reverse, mem_filter]
  exact ⟨mem, by rw [unmarked, Bool.false_and]; rfl⟩

theorem not_idle_of_kept (mem : x ∈ keptShards options s.heap now s.shards)
    (marked : (s.heap x).markedForEviction = true) : 0 < (s.heap x).inflight := by
  unfold keptShards at mem
  rw [mem_reverse] at mem
  have filtered := (giveUp_suffix _ _ _).subset mem
  rw [mem_reverse, mem_filter, marked, Bool.true_and] at filtered
  exact Nat.pos_of_ne_zero (by simpa using filtered.2)

/-- A pool that is still full after a sweep has lost no shard, and has an unmarked one unless all
were marked and busy. -/
theorem usable_stored (sound : s.Sound options)
    (notBusy : ¬ (s.shards.length = options.maxConnections ∧
      ∀ x ∈ s.shards, (s.heap x).markedForEviction = true ∧ 0 < (s.heap x).inflight))
    (full : options.maxConnections ≤ (keptShards options s.heap now s.shards).length) :
    ∃ x ∈ keptShards options s.heap now s.shards, (s.heap x).markedForEviction = false := by
  have kept := keptShards_sublist options s.heap now s.shards
  have bounded := sound.bounded
  have shorter := kept.length_le
  have same : keptShards options s.heap now s.shards = s.shards :=
    kept.eq_of_length_le (by omega)
  by_contra allMarked
  refine notBusy ⟨by omega, fun x mem => ?_⟩
  rw [← same] at mem
  have marked : (s.heap x).markedForEviction = true := by
    cases h : (s.heap x).markedForEviction with
    | true => rfl
    | false => exact absurd ⟨x, mem, h⟩ allMarked
  exact ⟨marked, not_idle_of_kept mem marked⟩

end Sweeps

/-! ## Selections -/

section Selections

variable {options : ConnectionPoolOptions} {s s' : Pool ι}

theorem Usable.mono (usable : s.Usable) (sub : s.shards ⊆ s'.shards)
    (marks : ∀ x ∈ s.shards, (s'.heap x).markedForEviction = (s.heap x).markedForEviction) :
    s'.Usable := by
  obtain ⟨x, mem, unmarked⟩ := usable
  exact ⟨x, sub mem, (marks x mem).trans unmarked⟩

theorem selectOverCapacity_ne_none {l : List ShardId}
    (some : ∃ x ∈ l, (s.heap x).markedForEviction = false) :
    selectOverCapacity s.heap l none ≠ none := by
  obtain ⟨x, mem, unmarked⟩ := some
  unfold selectOverCapacity leastLoaded
  rw [Ne, argmin_eq_none]
  apply ne_nil_of_mem (a := x)
  rw [mem_filter]
  exact ⟨mem, by simp [isSelectable, unmarked]⟩

/-- Calls stay where they are, and an unmarked shard stays where one is needed. -/
theorem Selectable.of_calls (ok : s.Selectable options) (calls : s'.call = s.call)
    (full : s'.isLocked = false → options.maxConnections ≤ s'.shards.length → s'.Usable)
    (falls : s.Falling → s'.Usable)
    (chooses : ∀ c l, s.call c = .choosing none l → ∃ x ∈ l, (s'.heap x).markedForEviction = false) :
    s'.Selectable options where
  full := full
  falling c h := by
    rw [calls] at h
    exact falls ⟨c, h⟩
  choosing c l h := by
    rw [calls] at h
    exact chooses c l h
  found c := by
    rw [calls]
    exact ok.found c

theorem Selectable.usable (ok : s.Selectable options) (falling : s.Falling) : s.Usable := by
  obtain ⟨c, h⟩ := falling
  exact ok.falling c h

theorem Selectable.grow (sound : s.Sound options) (ok : s.Selectable options)
    (calls : s'.call = s.call) (unlocked : s.isLocked = false) (sub : s.shards ⊆ s'.shards)
    (heap : ∀ x, x < s.nextShardId → s'.heap x = s.heap x)
    (added : s.shards.length < s'.shards.length →
      ∃ x ∈ s'.shards, (s'.heap x).markedForEviction = false) : s'.Selectable options := by
  have marks : ∀ x ∈ s.shards, (s'.heap x).markedForEviction = (s.heap x).markedForEviction :=
    fun x mem => congrArg _ (heap x (sound.known_shards x mem))
  refine ok.of_calls calls (fun _ full => ?_) (fun falling => (ok.usable falling).mono sub marks)
    fun c l h => ?_
  · by_cases longer : s.shards.length < s'.shards.length
    · exact added longer
    · exact (ok.full unlocked (by omega)).mono sub marks
  · obtain ⟨x, mem, unmarked⟩ := ok.choosing c l h
    exact ⟨x, mem, by rw [heap x (sound.loaded c none l h x mem), unmarked]⟩

theorem withCreated_selectable (sound : s.Sound options) (ok : s.Selectable options)
    (unlocked : s.isLocked = false) : s.withCreated.Selectable options := by
  refine ok.grow sound rfl unlocked (subset_append_left _ _) (fun x old => build_old old) fun _ => ?_
  · have new : s.nextShardId ∈ (s.build 1).2 := mem_range'_1.mpr ⟨le_rfl, Nat.lt_succ_self _⟩
    exact ⟨s.nextShardId, mem_append_right _ new, build_new new⟩

/-- A new pool has its shards, none of them marked; where it is full it is not empty. -/
theorem new_sound (now : Nat) : (new options now : Pool ι).Sound options := by
  refine .of_none rfl nofun ?_ (fun x mem => ?_) nodup_range' nofun
  · exact (length_range').trans_le options.min_le_max
  · exact (mem_range'_1.mp mem).2

theorem new_selectable (now : Nat) : (new options now : Pool ι).Selectable options where
  full _ full := by
    have len : (range' 1 options.minConnections).length = options.minConnections :=
      length_range'
    have some : 1 ≤ options.minConnections :=
      options.maxConnections_pos.trans (full.trans len.le)
    exact ⟨1, mem_range'_1.mpr ⟨le_rfl, by omega⟩, rfl⟩
  falling _ := nofun
  choosing _ _ := nofun
  found _ := nofun

variable [DecidableEq ι] {c : ι} {p : CallPhase}

theorem Selectable.goTo (ok : s.Selectable options) (falls : p = .falling none → s.Usable)
    (chooses : ∀ l, p = .choosing none l → ∃ x ∈ l, (s.heap x).markedForEviction = false)
    (finds : p ≠ .failed none) : (s.goTo c p).Selectable options where
  full := ok.full
  falling d h := by
    rw [goTo_call] at h
    split at h
    · exact falls h
    · exact ok.falling d h
  choosing d l h := by
    rw [goTo_call] at h
    split at h
    · exact chooses l h
    · exact ok.choosing d l h
  found d := by
    rw [goTo_call]
    split
    · exact finds
    · exact ok.found d

theorem Selectable.walk (ok : s.Selectable options) (plain : p.Plain) :
    (s.goTo c p).Selectable options :=
  ok.goTo (fun h => absurd h plain.not_falling) (fun _ h => absurd h plain.not_choosing)
    plain.not_failed

theorem step_selectable (sound : s.Sound options) (ok : s.Selectable options) {e : Event ι}
    (careful : Careful options s e) (h : Stepped options s e s') : s'.Selectable options := by
  cases h with
  | stays => exact ok
  | walks plain => exact ok.walk plain
  | requests keeps plain =>
    refine Selectable.walk ?_ plain
    refine ok.of_calls rfl (fun unlocked full => ?_) (fun falling => ?_) fun c l h => ?_
    · exact (ok.full unlocked full).mono (List.Subset.refl _) fun y _ => modify_marked keeps y
    · exact (ok.usable falling).mono (List.Subset.refl _) fun y _ => modify_marked keeps y
    · obtain ⟨x, mem, unmarked⟩ := ok.choosing c l h
      exact ⟨x, mem, (modify_marked keeps x).trans unmarked⟩
  | refused unlocked full => exact ok.goTo (fun _ => ok.full unlocked full) nofun nofun
  | creates unlocked room plain => exact (withCreated_selectable sound ok unlocked).walk plain
  | @loads c excluded falling =>
    refine ok.goTo nofun (fun l h => ?_) nofun
    cases h
    exact ok.falling c falling
  | @fails c excluded loaded choosing none =>
    refine ok.goTo nofun nofun fun h => ?_
    cases h
    exact selectOverCapacity_ne_none (ok.choosing c loaded choosing) none
  | evaluates resting next =>
    have unlocked : s.isLocked = false := by rw [isLocked, resting]
    exact ok.of_calls rfl (fun _ => ok.full unlocked) ok.usable ok.choosing
  | @marks now snapshots needsProbe evaluating =>
    obtain ⟨notLast, spared⟩ := careful now snapshots evaluating
    refine ok.of_calls rfl nofun (fun falling => ?_) fun c l h => ?_
    · obtain ⟨x, mem, unmarked, notProbe⟩ := notLast falling
      exact usable_mark sound evaluating mem unmarked notProbe
    · obtain ⟨x, mem, unmarked, not⟩ := spared c l h
      exact ⟨x, mem, mark_unmarked unmarked not⟩
  | @stores now count needsProbe storing =>
    obtain ⟨notBusy, inUse⟩ := careful now needsProbe storing
    refine ok.of_calls rfl (fun _ full => usable_stored sound notBusy full) (fun falling => ?_)
      ok.choosing
    obtain ⟨x, mem, unmarked, used⟩ := inUse falling
    exact ⟨x, mem_keptShards mem unmarked used, unmarked⟩
  | @builds count building =>
    have unlocked : s.isLocked = false := by rw [isLocked, building]
    refine ok.grow sound rfl unlocked (List.Subset.refl _) (fun x old => build_old old) fun longer => ?_
    exact absurd longer (Nat.lt_irrefl _)
  | @inserts newShards inserting =>
    have unlocked : s.isLocked = false := by rw [isLocked, inserting]
    have pending : s.pending = newShards := by rw [Pool.pending, inserting]
    refine ok.grow sound rfl unlocked (subset_append_left _ _) (fun _ _ => rfl) fun longer => ?_
    rw [length_append] at longer
    have added : newShards.take (options.maxConnections - s.shards.length) ≠ [] :=
      ne_nil_of_length_pos (by omega)
    obtain ⟨x, mem⟩ := exists_mem_of_ne_nil _ added
    refine ⟨x, mem_append_right _ mem, sound.built x ?_⟩
    rw [pending]
    exact mem_of_mem_take mem
  | ticks => exact ⟨ok.full, ok.falling, ok.choosing, ok.found⟩

def CarefulStep (options : ConnectionPoolOptions) (s : Pool ι) (e : Event ι) (s' : Pool ι) : Prop :=
  Careful options s e ∧ s' = s.step options e

theorem run_selectable {now : Nat} {events : List (Event ι)}
    (run : Run (CarefulStep options) (new options now) events s) :
    s.Sound options ∧ s.Selectable options := by
  refine run.invariant (P := fun s => s.Sound options ∧ s.Selectable options) ?_
    ⟨new_sound now, new_selectable now⟩
  rintro s e _ ⟨sound, ok⟩ ⟨careful, rfl⟩
  have stepped := step_stepped options s e
  exact ⟨step_sound sound stepped, step_selectable sound ok careful stepped⟩

/-- **A pool never has more shards than it may, and no shard twice**, whatever calls and sweeps do
and in whichever order; the shards that a sweep has built and not yet inserted are counted. -/
theorem shards_bounded_distinct (options : ConnectionPoolOptions) (now : Nat) (events : List (Event ι)) :
    let s := events.foldl (step options) (new options now)
    s.shards.length ≤ options.maxConnections ∧ (s.shards ++ s.pending).Nodup := by
  intro s
  have sound : s.Sound options := by
    refine foldlRecOn events (step options) (new_sound now) fun s sound e _ => ?_
    exact step_sound sound (step_stepped options s e)
  exact ⟨sound.bounded, sound.nodup⟩

/-! ### The steps of one selection -/

/-- `select_shard` was called without an excluded shard, and `n` of its steps are done. -/
def Selecting (s : Pool ι) (c : ι) (n : Nat) : Prop :=
  (s.call c).excluded = some none ∧ n ≤ (s.call c).stage

/-- The rest of the call, without a step of another one between. -/
def selectShard (options : ConnectionPoolOptions) (s : Pool ι) (c : ι) : Pool ι :=
  ((((s.step options (.load c)).step options (.look c)).step options (.create c)).step options
    (.fallBack c)).step options (.choose c)

theorem goTo_call_self : (s.goTo c p).call c = p := Function.update_self _ _ _

theorem Selecting.load (selecting : s.Selecting c 0) : (s.step options (.load c)).Selecting c 1 := by
  unfold Selecting at *
  cases phase : s.call c <;>
    simp_all [step, goTo_call_self, CallPhase.excluded, CallPhase.stage]

theorem Selecting.look (selecting : s.Selecting c 1) : (s.step options (.look c)).Selecting c 2 := by
  unfold Selecting at *
  cases phase : s.call c with
  | looking excluded preferred loaded =>
    simp only [step, phase]
    cases selectFromShards options s.heap loaded excluded preferred <;>
      simp_all [goTo_call_self, CallPhase.excluded, CallPhase.stage]
  | _ => simp_all [step, CallPhase.excluded, CallPhase.stage]

theorem Selecting.create (unlocked : s.isLocked = false) (selecting : s.Selecting c 2) :
    (s.step options (.create c)).Selecting c 3 := by
  unfold Selecting at *
  cases phase : s.call c with
  | creating excluded =>
    simp only [step, phase, unlocked, tryCreate]
    split
    · contradiction
    · split <;> simp_all [goTo_call_self, CallPhase.excluded, CallPhase.stage]
  | _ => simp_all [step, CallPhase.excluded, CallPhase.stage]

theorem Selecting.fallBack (selecting : s.Selecting c 3) :
    (s.step options (.fallBack c)).Selecting c 4 := by
  unfold Selecting at *
  cases phase : s.call c <;>
    simp_all [step, goTo_call_self, CallPhase.excluded, CallPhase.stage]

theorem Selecting.choose (selecting : s.Selecting c 4) :
    (s.step options (.choose c)).Selecting c 5 := by
  unfold Selecting at *
  cases phase : s.call c with
  | choosing excluded loaded =>
    simp only [step, phase]
    cases selectOverCapacity s.heap loaded excluded <;>
      simp_all [goTo_call_self, CallPhase.excluded, CallPhase.stage]
  | _ => simp_all [step, CallPhase.excluded, CallPhase.stage]

omit [DecidableEq ι] in
theorem Selecting.over (selecting : s.Selecting c 5) :
    (∃ x, s.call c = .selected x) ∨ s.call c = .failed none := by
  unfold Selecting at selecting
  cases phase : s.call c <;> simp_all [CallPhase.excluded, CallPhase.stage]

theorem step_isLocked {e : Event ι} (looks : e = .load c ∨ e = .look c) :
    (s.step options e).isLocked = s.isLocked := by
  rcases looks with rfl | rfl
  · rw [step]
    split <;> rfl
  · rw [step]
    split
    · split <;> rfl
    · rfl

theorem selectShard_call (unlocked : s.isLocked = false) (selecting : s.Selecting c 0) :
    (∃ x, (s.selectShard options c).call c = .selected x) ∨
      (s.selectShard options c).call c = .failed none := by
  have free : ((s.step options (.load c)).step options (.look c)).isLocked = false :=
    ((step_isLocked (.inr rfl)).trans (step_isLocked (.inl rfl))).trans unlocked
  have last : (s.selectShard options c).Selecting c 5 := (selecting.load.look.create free).fallBack.choose
  exact last.over

theorem selectShard_run : Run (CarefulStep options) s
    [.load c, .look c, .create c, .fallBack c, .choose c] (s.selectShard options c) :=
  .cons ⟨trivial, rfl⟩ <| .cons ⟨trivial, rfl⟩ <| .cons ⟨trivial, rfl⟩ <|
    .cons ⟨trivial, rfl⟩ <| .single ⟨trivial, rfl⟩

end Selections

/-! ## A busy probe -/

/-- One shard at most, and one failure makes it a probe. -/
def single : ConnectionPoolOptions where
  maxStreams := 10
  minConnections := 1
  maxConnections := 1
  failureThreshold := 1
  gracePeriod := 10
  idleTimeout := 100
  maxStreams_pos := by decide
  maxConnections_pos := by decide
  min_le_max := by decide

local instance threeCalls : NeZero 3 := ⟨by decide⟩

/-- Call `c` selects a shard and sends its request. -/
def sends (c : Fin 3) : List (Event (Fin 3)) := [.begin c none none, .load c, .look c, .start c]

def sweeps : List (Event (Fin 3)) :=
  [.sweepEvaluate, .sweepMark, .sweepStore, .sweepBuild, .sweepInsert]

/-- One request fails while another is in flight; then a sweep, and the next selection. -/
def busyProbe : List (Event (Fin 3)) :=
  sends 0 ++ sends 1 ++ [.finish 0 .error] ++ sweeps ++
    [.begin 2 none none, .load 2, .look 2, .create 2, .fallBack 2, .choose 2]

/-- The request fails and no other is in flight. -/
def idleProbe : List (Event (Fin 3)) :=
  sends 0 ++ [.finish 0 .error] ++ sweeps ++ [.begin 2 none none]

end Pool

end AzureSdk.Cosmos.Transport

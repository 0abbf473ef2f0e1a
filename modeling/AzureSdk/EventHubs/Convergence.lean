/-
# EventHubs.Convergence — load balancing settles, and settles evenly

The processors of a consumer group take turns; each turn is one call of `load_balance`
whose claims all succeed, with no ownership expired.  A turn takes partitions in the sense
of `Theory.Shares`: those nobody owns, or those of processors above the quota
(`Balances.takes`).  So owners change only finitely often, and where no turn changes
anything the partitions are shared out evenly (`load_balancing_converges`), although a
processor sees only the processors that own something.
-/
import AzureSdk.EventHubs.LoadBalancer

namespace AzureSdk.EventHubs

open Theory List Shares

def ownerOf (ownerships : List Ownership) (id : String) : Option String :=
  (ownerships.find? fun o => o.partitionId == id).bind (·.ownerId)

/-- The records a store lists: at most one for each of the partitions, and the owners are
processors. -/
structure Table (partitionIds : List String) (processors : List LoadBalancer) where
  rows : List Ownership
  distinct : (rows.map (·.partitionId)).Nodup
  inside : ∀ o ∈ rows, o.partitionId ∈ partitionIds
  live : ∀ o ∈ rows, ∀ q, o.ownerId = some q → q ∈ processors.map (·.clientId)

/-- One turn of a processor: nothing it looks at has expired, and all its claims succeed. -/
structure Balances {partitionIds : List String} {processors : List LoadBalancer}
    (balancer : LoadBalancer) (choices : Choices) (before after : Table partitionIds processors) :
    Prop where
  current : ∀ o ∈ before.rows, balancer.expired (choices.now o) o = false
  claimed : ∀ id, ownerOf after.rows id =
    if id ∈ (balancer.loadBalance choices partitionIds before.rows).map (·.partitionId) then
      some balancer.clientId
    else ownerOf before.rows id

section Rows

variable {rows : List Ownership} {id q : String} {o : Ownership}

theorem find_row (distinct : (rows.map (·.partitionId)).Nodup) (mem : o ∈ rows) :
    rows.find? (fun o' => o'.partitionId == o.partitionId) = some o := by
  induction rows with
  | nil => cases mem
  | cons first rows ih =>
    obtain ⟨fresh, distinct⟩ := nodup_cons.mp distinct
    rcases mem_cons.mp mem with rfl | mem
    · exact find?_cons_of_pos (by simp)
    · have other : first.partitionId ≠ o.partitionId := fun same =>
        fresh (mem_map.mpr ⟨o, mem, same.symm⟩)
      rw [find?_cons_of_neg (by simpa using other)]
      exact ih distinct mem

theorem ownerOf_row (distinct : (rows.map (·.partitionId)).Nodup) (mem : o ∈ rows) :
    ownerOf rows o.partitionId = o.ownerId := by
  rw [ownerOf, find_row distinct mem]
  rfl

theorem ownerOf_eq_some (h : ownerOf rows id = some q) :
    ∃ o ∈ rows, o.partitionId = id ∧ o.ownerId = some q := by
  obtain ⟨o, found, owner⟩ := Option.bind_eq_some_iff.mp h
  exact ⟨o, mem_of_find?_eq_some found, by simpa using find?_some found, owner⟩

theorem ownerOf_missing (h : id ∉ rows.map (·.partitionId)) : ownerOf rows id = none := by
  rw [ownerOf, find?_eq_none.mpr]
  · rfl
  · intro o mem same
    exact h (mem_map.mpr ⟨o, mem, by simpa using same⟩)

end Rows

namespace Table

variable {partitionIds : List String} {processors : List LoadBalancer}
variable (table : Table partitionIds processors)

theorem load_eq (q : String) :
    load partitionIds.toFinset (ownerOf table.rows) q = (ownedBy table.rows q).length := by
  have ids : ((ownedBy table.rows q).map (·.partitionId)).toFinset =
      partitionIds.toFinset.filter fun id => ownerOf table.rows id = some q := by
    ext id
    simp only [mem_toFinset, mem_map, Finset.mem_filter]
    constructor
    · rintro ⟨o, owned, rfl⟩
      obtain ⟨mem, owner⟩ := mem_ownedBy.mp owned
      exact ⟨table.inside o mem, by rw [ownerOf_row table.distinct mem, owner]⟩
    · rintro ⟨_, owner⟩
      obtain ⟨o, mem, same, owner⟩ := ownerOf_eq_some owner
      exact ⟨o, mem_ownedBy.mpr ⟨mem, owner⟩, same⟩
  have distinct : ((ownedBy table.rows q).map (·.partitionId)).Nodup :=
    table.distinct.sublist (filter_sublist.map _)
  rw [load, ← ids, toFinset_card_of_nodup distinct, length_map]

theorem among : Shares.Among partitionIds.toFinset (processors.map (·.clientId)).toFinset
    (ownerOf table.rows) := by
  intro id _ q owner
  obtain ⟨o, mem, _, owner⟩ := ownerOf_eq_some owner
  exact mem_toFinset.mpr (table.live o mem q owner)

theorem size_groups {balancer : LoadBalancer} {choices : Choices}
    (current : ∀ o ∈ table.rows, balancer.expired (choices.now o) o = false) :
    (balancer.groups choices table.rows).2.size =
      visible (processors.map (·.clientId)).toFinset
        (load partitionIds.toFinset (ownerOf table.rows)) balancer.clientId := by
  refine LoadBalancer.size_groups current fun q => ?_
  rw [Finset.mem_insert, Finset.mem_filter, table.load_eq]
  refine or_congr_right ⟨fun h => ne_nil_of_length_pos h.2, fun some => ?_⟩
  refine ⟨?_, length_pos_of_ne_nil some⟩
  obtain ⟨o, owned⟩ := exists_mem_of_ne_nil _ some
  obtain ⟨mem, owner⟩ := mem_ownedBy.mp owned
  exact mem_toFinset.mpr (table.live o mem q owner)

end Table

/-! ## Turns -/

section Turns

variable {partitionIds : List String} {processors : List LoadBalancer} {balancer : LoadBalancer}
variable {choices : Choices} {before after : Table partitionIds processors}

variable {info : LoadBalancerInfo}

theorem owner_of_unowned {visible : Nat}
    (informed : balancer.Informed partitionIds before.rows visible info) {o : Ownership}
    (mem : o ∈ info.unownedOrExpired) :
    o.partitionId ∈ partitionIds ∧ ownerOf before.rows o.partitionId = none := by
  rw [informed.unowned] at mem
  rcases mem_append.mp mem with listed | missing
  · obtain ⟨mem, none⟩ := mem_unowned.mp listed
    exact ⟨before.inside o mem, by rw [ownerOf_row before.distinct mem, none]⟩
  · obtain ⟨id, absent, rfl⟩ := mem_map.mp missing
    obtain ⟨mem, absent⟩ := mem_filter.mp absent
    have fresh : id ∉ before.rows.map (·.partitionId) := by simpa using absent
    exact ⟨mem, ownerOf_missing fresh⟩

theorem spare_of_unowned {visible : Nat}
    (informed : balancer.Informed partitionIds before.rows visible info)
    (none : info.unownedOrExpired = []) :
    spare partitionIds.toFinset (ownerOf before.rows) = 0 := by
  rw [informed.unowned] at none
  obtain ⟨noRow, noMissing⟩ := append_eq_nil_iff.mp none
  rw [spare, Finset.card_eq_zero, Finset.filter_eq_empty_iff]
  intro id mem open_
  have listed : id ∈ before.rows.map (·.partitionId) := by
    by_contra missing
    have found : id ∈ partitionIds.filter fun id => !(before.rows.map (·.partitionId)).contains id :=
      mem_filter.mpr ⟨mem_toFinset.mp mem, by simpa using missing⟩
    rw [map_eq_nil_iff.mp noMissing] at found
    cases found
  obtain ⟨o, row, rfl⟩ := mem_map.mp listed
  rw [ownerOf_row before.distinct row] at open_
  have found := mem_unowned.mpr ⟨row, open_⟩
  rw [noRow] at found
  cases found

/-- What a call claims beyond the partitions of the processor itself. -/
structure Claims (balancer : LoadBalancer) (choices : Choices)
    (before : Table partitionIds processors) (taken : Finset String) : Prop where
  claimed : ∀ id ∈ taken,
    id ∈ (balancer.loadBalance choices partitionIds before.rows).map (·.partitionId)
  own : ∀ id ∈ (balancer.loadBalance choices partitionIds before.rows).map (·.partitionId),
    id ∉ taken → ownerOf before.rows id = some balancer.clientId
  inside : taken ⊆ partitionIds.toFinset
  source : ∀ id ∈ taken, ownerOf before.rows id = none ∨ ∃ q, q ≠ balancer.clientId ∧
    ownerOf before.rows id = some q ∧
    (balancer.getAvailablePartitions choices partitionIds before.rows).maxAllowed <
      load partitionIds.toFinset (ownerOf before.rows) q
  within : taken.Nonempty →
    load partitionIds.toFinset (ownerOf before.rows) balancer.clientId + taken.card ≤
      (balancer.getAvailablePartitions choices partitionIds before.rows).maxAllowed
  content : taken = ∅ → Shares.Content (processors.map (·.clientId)).toFinset
    (load partitionIds.toFinset (ownerOf before.rows))
    (spare partitionIds.toFinset (ownerOf before.rows)) partitionIds.length balancer.clientId

theorem content_of_informed (informed : balancer.Informed partitionIds before.rows
      (visible (processors.map (·.clientId)).toFinset
        (load partitionIds.toFinset (ownerOf before.rows)) balancer.clientId) info)
    (stops : info.maxAllowed ≤ info.currentOwnership.length ∨
      info.unownedOrExpired = [] ∧ info.aboveMax = []) :
    Shares.Content (processors.map (·.clientId)).toFinset
      (load partitionIds.toFinset (ownerOf before.rows))
      (spare partitionIds.toFinset (ownerOf before.rows)) partitionIds.length
      balancer.clientId := by
  have quota := informed.most
  unfold Shares.Content
  rw [informed.current] at stops
  rw [before.load_eq balancer.clientId, ← quota]
  refine stops.imp_right fun ⟨noOpen, noAbove⟩ => ⟨spare_of_unowned informed noOpen, ?_⟩
  intro q _ other
  rw [before.load_eq]
  by_contra high
  obtain ⟨o, owned⟩ := exists_mem_of_length_pos (l := ownedBy before.rows q) (by omega)
  have found := (informed.above o).mpr ⟨q, other, owned, by omega⟩
  rw [noAbove] at found
  cases found

theorem loadBalance_claims
    (current : ∀ o ∈ before.rows, balancer.expired (choices.now o) o = false) :
    ∃ taken, Claims balancer choices before taken := by
  obtain ⟨extra, picked⟩ :=
    @LoadBalancer.loadBalance_picked balancer choices partitionIds before.rows
  have claims := picked.toExtra
  have informed : balancer.Informed partitionIds before.rows _
      (balancer.getAvailablePartitions choices partitionIds before.rows) :=
    LoadBalancer.getAvailablePartitions_informed rfl current
  rw [before.size_groups current] at informed
  have from_ : ∀ id ∈ (extra.map (·.partitionId)).toFinset, ∃ o ∈ extra, o.partitionId = id :=
    fun id h => mem_map.mp (mem_toFinset.mp h)
  refine ⟨(extra.map (·.partitionId)).toFinset, fun id h => ?_, fun id h fresh => ?_, fun id h => ?_,
    fun id h => ?_, fun some => ?_, fun none => ?_⟩
  · rw [claims.ids]
    exact mem_append_right _ (mem_toFinset.mp h)
  · rw [claims.ids, informed.current] at h
    rcases mem_append.mp h with h | h
    · obtain ⟨o, owned, rfl⟩ := mem_map.mp h
      obtain ⟨mem, owner⟩ := mem_ownedBy.mp owned
      rw [ownerOf_row before.distinct mem, owner]
    · exact absurd (mem_toFinset.mpr h) fresh
  · obtain ⟨o, mem, rfl⟩ := from_ id h
    refine mem_toFinset.mpr ?_
    rcases claims.source o mem with open_ | above
    · exact (owner_of_unowned informed open_).1
    · obtain ⟨q, _, owned, _⟩ := (informed.above o).mp above
      exact before.inside o (mem_ownedBy.mp owned).1
  · obtain ⟨o, mem, rfl⟩ := from_ id h
    rcases claims.source o mem with open_ | above
    · exact .inl (owner_of_unowned informed open_).2
    · obtain ⟨q, other, owned, high⟩ := (informed.above o).mp above
      obtain ⟨row, owner⟩ := mem_ownedBy.mp owned
      refine .inr ⟨q, other, by rw [ownerOf_row before.distinct row, owner], ?_⟩
      rw [before.load_eq]
      exact high
  · have more : extra ≠ [] := fun none => by
      rw [none] at some
      exact absurd some (by simp)
    have fits := claims.within more
    have count := toFinset_card_le (extra.map (·.partitionId))
    rw [length_map] at count
    rw [before.load_eq, ← informed.current]
    omega
  · refine content_of_informed informed ?_
    rcases claims.stops (by simpa using none) with stop | empty
    · exact informed.enough stop
    · exact .inr empty

variable {taken : Finset String}

theorem Balances.unchanged (turn : Balances balancer choices before after)
    (claims : Claims balancer choices before taken) {id : String} (fresh : id ∉ taken) :
    ownerOf after.rows id = ownerOf before.rows id := by
  rw [turn.claimed]
  split
  · exact (claims.own id ‹_› fresh).symm
  · rfl

theorem Balances.takes (turn : Balances balancer choices before after)
    (claims : Claims balancer choices before taken) (some : taken.Nonempty) :
    Shares.Takes partitionIds.toFinset
      (balancer.getAvailablePartitions choices partitionIds before.rows).maxAllowed balancer.clientId
      taken (ownerOf before.rows) (ownerOf after.rows) where
  inside := claims.inside
  given id _ h := by rw [turn.claimed, if_pos (claims.claimed id h)]
  kept id _ fresh := turn.unchanged claims fresh
  source := claims.source
  within := claims.within some

/-- Where every partition is owned and no processor owns two more than this one, its turn changes no
owner. -/
theorem Balances.settled (turn : Balances balancer choices before after)
    (owned : ∀ id ∈ partitionIds, ownerOf before.rows id ≠ none)
    (even : ∀ q ∈ processors.map (·.clientId), (ownedBy before.rows q).length ≤
      (ownedBy before.rows balancer.clientId).length + 1) :
    ownerOf after.rows = ownerOf before.rows := by
  obtain ⟨taken, claims⟩ := loadBalance_claims turn.current
  refine funext fun id => turn.unchanged claims fun moved => ?_
  have within := claims.within ⟨id, moved⟩
  have count := Finset.card_pos.mpr ⟨id, moved⟩
  rcases claims.source id moved with open_ | ⟨q, _, owner, above⟩
  · exact owned id (mem_toFinset.mp (claims.inside moved)) open_
  · obtain ⟨o, mem, _, owner⟩ := ownerOf_eq_some owner
    have share := even q (before.live o mem q owner)
    rw [before.load_eq] at above within
    omega

def rowsOf (balancer : LoadBalancer) (partitionIds : List String) (owner : String → Option String) :
    List Ownership :=
  partitionIds.map fun id => { balancer.newOwnership id with ownerId := owner id }

theorem ids_rowsOf (owner : String → Option String) :
    (rowsOf balancer partitionIds owner).map (·.partitionId) = partitionIds := by
  rw [rowsOf, map_map]
  exact map_id partitionIds

theorem ownerOf_rowsOf (distinct : partitionIds.Nodup) {owner : String → Option String}
    (outside : ∀ id, id ∉ partitionIds → owner id = none) (id : String) :
    ownerOf (rowsOf balancer partitionIds owner) id = owner id := by
  by_cases mem : id ∈ partitionIds
  · have row : { balancer.newOwnership id with ownerId := owner id } ∈
        rowsOf balancer partitionIds owner := mem_map.mpr ⟨id, mem, rfl⟩
    exact ownerOf_row (by rw [ids_rowsOf]; exact distinct) row
  · rw [ownerOf_missing (by rw [ids_rowsOf]; exact mem), outside id mem]

theorem exists_after (distinct : partitionIds.Nodup) (member : balancer ∈ processors)
    (current : ∀ o ∈ before.rows, balancer.expired (choices.now o) o = false) :
    ∃ after : Table partitionIds processors, Balances balancer choices before after := by
  obtain ⟨taken, claims⟩ := loadBalance_claims current
  let owner := fun id =>
    if id ∈ (balancer.loadBalance choices partitionIds before.rows).map (·.partitionId) then
      some balancer.clientId
    else ownerOf before.rows id
  have known : ∀ id q, owner id = some q → q ∈ processors.map (·.clientId) ∧ id ∈ partitionIds := by
    intro id q same
    have listed : ∀ q, ownerOf before.rows id = some q →
        q ∈ processors.map (·.clientId) ∧ id ∈ partitionIds := by
      intro q same
      obtain ⟨o, mem, rfl, owner⟩ := ownerOf_eq_some same
      exact ⟨before.live o mem q owner, before.inside o mem⟩
    by_cases claimed : id ∈ (balancer.loadBalance choices partitionIds before.rows).map (·.partitionId)
    · obtain rfl : balancer.clientId = q := by
        simpa only [owner, if_pos claimed, Option.some.injEq] using same
      refine ⟨mem_map_of_mem member, ?_⟩
      by_cases moved : id ∈ taken
      · exact mem_toFinset.mp (claims.inside moved)
      · exact (listed _ (claims.own id claimed moved)).2
    · simp only [owner, if_neg claimed] at same
      exact listed q same
  have outside : ∀ id, id ∉ partitionIds → owner id = none := by
    intro id absent
    by_contra some
    obtain ⟨q, same⟩ := Option.ne_none_iff_exists'.mp some
    exact absent (known id q same).2
  refine ⟨⟨rowsOf balancer partitionIds owner, ?_, fun o mem => ?_, fun o mem q same => ?_⟩, current,
    fun id => ownerOf_rowsOf distinct outside id⟩
  · rw [ids_rowsOf]
    exact distinct
  · obtain ⟨id, inside, rfl⟩ := mem_map.mp mem
    exact inside
  · obtain ⟨id, _, rfl⟩ := mem_map.mp mem
    exact (known id q same).1

/-- Choices under which nothing has expired. -/
def patient (balancer : LoadBalancer) : Choices where
  now o := (o.lastModifiedTime.map (· + balancer.duration)).getD 0
  owners := .asListed _
  randomRange _ := 0
  inRange _ h := h
  shuffleUnowned := .asListed _
  shuffleAbove := .asListed _

theorem patient_current (o : Ownership) : balancer.expired ((patient balancer).now o) o = false := by
  unfold LoadBalancer.expired
  rw [Option.any_eq_false]
  intro time modified
  simp [patient, modified]

end Turns

/-! ## Schedules -/

section Schedules

variable {partitionIds : List String} {processors : List LoadBalancer}

def Table.potential (table : Table partitionIds processors) : Nat :=
  Shares.potential partitionIds.toFinset (processors.map (·.clientId)).toFinset (ownerOf table.rows)

/-- A turn leaves all owners as they are, or decreases the potential. -/
theorem Balances.decreases {balancer : LoadBalancer} {choices : Choices}
    {before after : Table partitionIds processors} (member : balancer ∈ processors)
    (turn : Balances balancer choices before after) :
    ownerOf after.rows = ownerOf before.rows ∨ after.potential < before.potential := by
  obtain ⟨taken, claims⟩ := loadBalance_claims turn.current
  rcases taken.eq_empty_or_nonempty with rfl | some
  · exact .inl (funext fun id => turn.unchanged claims (Finset.notMem_empty id))
  · refine .inr ((turn.takes claims some).potential_lt ?_ before.among some)
    exact mem_toFinset.mpr (mem_map_of_mem member)

theorem content_of_settled (ids : partitionIds.Nodup) {balancer : LoadBalancer}
    (member : balancer ∈ processors) {table : Table partitionIds processors}
    (settled : ∀ choices, ∀ after : Table partitionIds processors,
      Balances balancer choices table after → ∀ id, ownerOf after.rows id = ownerOf table.rows id) :
    Shares.Content (processors.map (·.clientId)).toFinset
      (load partitionIds.toFinset (ownerOf table.rows))
      (spare partitionIds.toFinset (ownerOf table.rows)) partitionIds.length
      balancer.clientId := by
  have current : ∀ o ∈ table.rows, balancer.expired ((patient balancer).now o) o = false :=
    fun o _ => patient_current o
  obtain ⟨taken, claims⟩ := loadBalance_claims current
  obtain ⟨after, turn⟩ := exists_after ids member current
  refine claims.content (Finset.eq_empty_of_forall_notMem fun id moved => ?_)
  have same := settled _ after turn id
  rw [turn.claimed, if_pos (claims.claimed id moved)] at same
  rcases claims.source id moved with none | ⟨q, other, owner, _⟩
  · rw [none] at same
    cases same
  · rw [owner] at same
    exact other (Option.some.inj same).symm

/-- **Owners change only finitely often, and where no turn changes them every partition is owned
and every processor owns its even share.** -/
theorem load_balancing_converges (partitionIds : List String) (processors : List LoadBalancer)
    (ids : partitionIds.Nodup) (clients : (processors.map (·.clientId)).Nodup)
    (live : processors ≠ []) :
    (∀ tables : Nat → Table partitionIds processors,
      (∀ n, ∃ balancer ∈ processors, ∃ choices, Balances balancer choices (tables n) (tables (n + 1))) →
      {n | ∃ id, ownerOf (tables (n + 1)).rows id ≠ ownerOf (tables n).rows id}.Finite) ∧
    (∀ table : Table partitionIds processors,
      (∀ balancer ∈ processors, ∀ choices, ∀ after : Table partitionIds processors,
        Balances balancer choices table after →
          ∀ id, ownerOf after.rows id = ownerOf table.rows id) →
      (∀ id ∈ partitionIds, (ownerOf table.rows id).isSome = true) ∧
      ∀ balancer ∈ processors,
        (ownedBy table.rows balancer.clientId).length = partitionIds.length / processors.length ∨
        (ownedBy table.rows balancer.clientId).length =
          (partitionIds.length + processors.length - 1) / processors.length) := by
  constructor
  · intro tables turns
    have step : ∀ n, ownerOf (tables (n + 1)).rows = ownerOf (tables n).rows ∨
        (tables (n + 1)).potential < (tables n).potential := by
      intro n
      obtain ⟨balancer, member, choices, turn⟩ := turns n
      exact turn.decreases member
    refine (finite_decreases (fun n => (tables n).potential) fun n => ?_).subset fun n changed => ?_
    · rcases step n with same | less
      · exact Nat.le_of_eq (by rw [Table.potential, same]; rfl)
      · exact less.le
    · obtain ⟨id, differs⟩ := changed
      exact (step n).resolve_left fun same => differs (congrFun same id)
  · intro table settled
    have count : (processors.map (·.clientId)).toFinset.card = processors.length := by
      rw [toFinset_card_of_nodup clients, length_map]
    have items : partitionIds.toFinset.card = partitionIds.length := toFinset_card_of_nodup ids
    have some : (processors.map (·.clientId)).toFinset.Nonempty := by
      rw [← Finset.card_pos, count]
      exact length_pos_of_ne_nil live
    have total := sum_load table.among
    rw [items] at total
    obtain ⟨nothing, even⟩ := shares_even some total fun q hq => by
      obtain ⟨balancer, member, rfl⟩ := mem_map.mp (mem_toFinset.mp hq)
      exact content_of_settled ids member (settled balancer member)
    constructor
    · intro id mem
      rw [spare, Finset.card_eq_zero, Finset.filter_eq_empty_iff] at nothing
      exact Option.isSome_iff_ne_none.mpr (nothing (mem_toFinset.mpr mem))
    · intro balancer member
      have share := even balancer.clientId (mem_toFinset.mpr (mem_map_of_mem member))
      rw [table.load_eq, count] at share
      exact share

end Schedules

def balancedOne : LoadBalancer := ⟨.balanced, 60, ⟨"ns", "hub", "group", "a"⟩⟩

def greedyOne : LoadBalancer := ⟨.greedy, 60, ⟨"ns", "hub", "group", "b"⟩⟩

def twoProcessors : List LoadBalancer := [balancedOne, greedyOne]

/-- Three partitions; the first processor owns all but perhaps one. -/
def sharedTable (owner : String) (known : owner ∈ ["a", "b"]) :
    Table ["0", "1", "2"] twoProcessors where
  rows := [("0", owner), ("1", "a"), ("2", "a")].map fun (id, owner) =>
    ⟨"ns", "hub", "group", id, some owner, none, none⟩
  distinct := by simp
  inside := by simp
  live := by simpa [twoProcessors, balancedOne, greedyOne, LoadBalancer.clientId] using known

/-- The second processor takes a partition of the first, and then the table is settled. -/
def takesOne : Nat → Table ["0", "1", "2"] twoProcessors
  | 0 => sharedTable "a" (by decide)
  | _ + 1 => sharedTable "b" (by decide)

theorem takesOne_settled {balancer : LoadBalancer} (member : balancer ∈ twoProcessors)
    {choices : Choices} {after : Table ["0", "1", "2"] twoProcessors}
    (turn : Balances balancer choices (takesOne 1) after) :
    ownerOf after.rows = ownerOf (takesOne 1).rows := by
  have even : ∀ balancer ∈ twoProcessors, ∀ q ∈ twoProcessors.map (·.clientId),
      (ownedBy (takesOne 1).rows q).length ≤
        (ownedBy (takesOne 1).rows balancer.clientId).length + 1 := by
    decide
  exact turn.settled (by decide) (even balancer member)

theorem load_balancing_converges_two :
    {n | ∃ id, ownerOf (takesOne (n + 1)).rows id ≠ ownerOf (takesOne n).rows id}.Finite ∧
    ∀ balancer ∈ twoProcessors, (ownedBy (takesOne 1).rows balancer.clientId).length = 1 ∨
      (ownedBy (takesOne 1).rows balancer.clientId).length = 2 := by
  obtain ⟨finite, even⟩ := load_balancing_converges ["0", "1", "2"] twoProcessors (by decide) (by decide)
    (by decide)
  refine ⟨finite takesOne fun n => ?_, (even (takesOne 1) fun balancer member choices after turn id =>
    congrFun (takesOne_settled member turn) id).2⟩
  cases n with
  | zero =>
    refine ⟨greedyOne, .tail _ (.head _), patient _, fun o _ => patient_current o, fun id => ?_⟩
    have claims : (greedyOne.loadBalance (patient greedyOne) ["0", "1", "2"] (takesOne 0).rows).map
        (·.partitionId) = ["0"] := by
      decide +kernel
    rw [claims]
    by_cases first : id = "0"
    · rw [first]
      rfl
    · simp [takesOne, sharedTable, ownerOf, first, Ne.symm first]
  | succ n =>
    obtain ⟨after, turn⟩ : ∃ after, Balances balancedOne (patient balancedOne) (takesOne 1) after :=
      exists_after (by decide) (.head _) fun o _ => patient_current o
    exact ⟨balancedOne, .head _, patient _, turn.current, fun id =>
      (congrFun (takesOne_settled (.head _) turn) id).symm.trans (turn.claimed id)⟩

end AzureSdk.EventHubs

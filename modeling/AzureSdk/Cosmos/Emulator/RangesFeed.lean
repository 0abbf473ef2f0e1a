/-
# Cosmos.Emulator.RangesFeed — a client that follows the topology

The partition key ranges of a container are listed page by page.  A page's ETag is the container's
own after the last page, and otherwise a token that names the next offset and the container's ETag;
a token of another ETag starts again at the first page, and the container's own ETag is answered
with 304.

A client adds up all ranges it has read and drops those that others name as parents.  A change takes
ranges away and adds new ones that name them (`Reshaped`).  The client is right about the topology
when it gets 304 if it was never told the current ETag before a change (a merge keeps the ETag), and
if every range it holds that is gone is still named by a range that it holds or will read: a range
names its parents, but not theirs.
-/
import AzureSdk.Cosmos.Emulator.Tiling

namespace AzureSdk.Cosmos.Emulator

open Theory List PhysicalPartition Decimal Container

/-! ## The feed -/

/-- A partition key range as the feed lists it. -/
structure PkRange where
  id : Nat
  minInclusive : Epk
  maxExclusive : Epk
  parents : List Nat
  deriving DecidableEq, Repr

def PhysicalPartition.pkRange (p : PhysicalPartition) : PkRange :=
  ⟨p.id, p.epkMin, p.epkMax, p.parents⟩

def ContainerState.ranges (state : ContainerState) : List PkRange :=
  state.physicalPartitions.map pkRange

/-- `"pkranges/"`. -/
def pageTokenStart : Text := ['p', 'k', 'r', 'a', 'n', 'g', 'e', 's', '/']

def pkrangePageToken (offset : Nat) (etag : Text) : Text :=
  pageTokenStart ++ (display offset ++ '/' :: etag)

/-- `strip_prefix`. -/
def stripStart : Text → Text → Option Text
  | [], s => some s
  | c :: cs, d :: s => if c = d then stripStart cs s else none
  | _ :: _, [] => none

/-- One past the greatest `usize`. -/
def usizeBound : Nat := 2 ^ 64

def parsePkrangePageToken (token expectedEtag : Text) : Option Nat :=
  (stripStart pageTokenStart token).bind fun rest =>
    (Text.splitOnce '/' rest).bind fun parts =>
      if parts.2 = expectedEtag then (parseUnsigned usizeBound parts.1).map Fin.val else none

inductive FeedAnswer
  | notModified (etag : Text)
  | page (ranges : List PkRange) (etag : Text)
  deriving DecidableEq

/-- `handle_read_pkranges`, for a container that exists. -/
def handleReadPkranges (pageSize : Option Nat) (state : ContainerState) (ifNoneMatch : Option Text) :
    FeedAnswer :=
  let etag := state.etag
  if ifNoneMatch = some etag then .notModified etag
  else
    let total := state.physicalPartitions.length
    let pageStart :=
      min ((ifNoneMatch.bind fun token => parsePkrangePageToken token etag).getD 0) total
    let pageEnd := min (pageStart + pageSize.getD (max total 1)) total
    let nextEtag := if pageEnd < total then pkrangePageToken pageEnd etag else etag
    .page ((state.ranges.take pageEnd).drop pageStart) nextEtag

/-- A read is answered with 304, or with the page up to some offset. -/
theorem handleReadPkranges_cases (pageSize : Option Nat) (state : ContainerState)
    (ifNoneMatch : Option Text) :
    (ifNoneMatch = some state.etag ∧
      handleReadPkranges pageSize state ifNoneMatch = .notModified state.etag) ∨
    ∃ stop, handleReadPkranges pageSize state ifNoneMatch =
      .page ((state.ranges.take stop).drop
          (min ((ifNoneMatch.bind fun token => parsePkrangePageToken token state.etag).getD 0)
            state.ranges.length))
        (if stop < state.ranges.length then pkrangePageToken stop state.etag else state.etag) := by
  rw [ContainerState.ranges, length_map]
  by_cases here : ifNoneMatch = some state.etag
  · exact .inl ⟨here, if_pos here⟩
  · exact .inr ⟨_, if_neg here⟩

/-! ## The client -/

/-- Everything a client has read, and the last ETag or page token it got. -/
structure FeedClient where
  held : BTreeMap PkRange.id
  token : Option Text

def FeedClient.receive (client : FeedClient) : FeedAnswer → FeedClient
  | .notModified etag => { client with token := some etag }
  | .page ranges etag => ⟨ranges.foldl BTreeMap.insert client.held, some etag⟩

/-- The ranges no other range names as a parent. -/
def FeedClient.combined (client : FeedClient) : List PkRange :=
  client.held.entries.filter fun r => !client.held.entries.any fun q => q.parents.contains r.id

/-! ## Tokens -/

theorem stripStart_append : ∀ (start rest : Text), stripStart start (start ++ rest) = some rest
  | [], _ => rfl
  | c :: start, rest => by
    rw [cons_append, stripStart, if_pos rfl]
    exact stripStart_append start rest

variable {offset : Nat}

/-- A page token is read as its offset, and only under its own ETag. -/
theorem parse_pageToken {etag expected : Text} {k : Nat}
    (h : parsePkrangePageToken (pkrangePageToken offset etag) expected = some k) :
    k = offset ∧ etag = expected := by
  have noSlash : '/' ∉ display offset := not_mem_display (by decide)
  rw [parsePkrangePageToken, pkrangePageToken, stripStart_append, Option.bind_some,
    Text.splitOnce_append etag noSlash, Option.bind_some] at h
  by_cases same : etag = expected
  · rw [if_pos same, parseUnsigned_display_eq_fit] at h
    obtain ⟨parsed, fits, value⟩ := Option.map_eq_some_iff.mp h
    exact ⟨value.symm.trans (fit_some fits), same⟩
  · rw [if_neg same] at h
    exact absurd h (by simp)

theorem pageToken_ne_newEtag (offset : Nat) (etag uuid : Text) :
    pkrangePageToken offset etag ≠ newEtag uuid := by
  intro same
  have first : some 'p' = some '"' := congrArg List.head? same
  exact absurd first (by decide)

theorem pageToken_inj {offset' : Nat} {etag etag' : Text}
    (same : pkrangePageToken offset etag = pkrangePageToken offset' etag') :
    offset = offset' ∧ etag = etag' := by
  have noSlash : ∀ n, '/' ∉ display n := fun n => not_mem_display (by decide)
  have rest := append_cancel_left same
  have parts := Text.splitOnce_append etag (noSlash offset)
  rw [rest, Text.splitOnce_append etag' (noSlash offset'), Option.some.injEq, Prod.mk.injEq] at parts
  exact ⟨display_inj parts.1.symm, parts.2.symm⟩

/-! ## What a client knows -/

/-- What the feed lists, and the ids given out so far. -/
structure Listing where
  ranges : List PkRange
  etag : Text
  next : Nat

/-- The ranges `old` are replaced by `new`, which name them as parents. -/
structure Reshaped (listing listing' : Listing) (old rest new : List PkRange) : Prop where
  before : listing.ranges.Perm (old ++ rest)
  after : listing'.ranges = rest ++ new
  names : ∀ r ∈ new, r.parents = old.map PkRange.id
  added : new ≠ []
  distinct : (new.map PkRange.id).Nodup
  issued : ∀ r ∈ new, listing.next ≤ r.id ∧ r.id < listing'.next
  grows : listing.next ≤ listing'.next

/-- A token the client got under an ETag: the ETag, or the offset of a page. -/
def TokenOf (etag token : Text) : Prop := token = etag ∨ ∃ k, token = pkrangePageToken k etag

/-- A range the client holds or is still to read. -/
def Known (listing : Listing) (client : FeedClient) (q : PkRange) : Prop :=
  q ∈ client.held.entries ∨ q ∈ listing.ranges

/-- What a client that has read part of the feed knows of the listing; `used` are all ETags the
container has had. -/
structure Informed (listing : Listing) (used : List Text) (client : FeedClient) : Prop where
  distinct : (listing.ranges.map PkRange.id).Nodup
  issued : ∀ q, Known listing client q → q.id < listing.next
  same : ∀ r ∈ client.held.entries, ∀ l ∈ listing.ranges, r.id = l.id → r = l
  /-- a parent is gone -/
  dead : ∀ q, Known listing client q → ∀ i ∈ q.parents,
    i < listing.next ∧ ∀ l ∈ listing.ranges, l.id ≠ i
  /-- a range that is gone is named -/
  named : ∀ r ∈ client.held.entries, r ∈ listing.ranges ∨
    ∃ q, Known listing client q ∧ r.id ∈ q.parents
  quoted : ∀ e ∈ used, ∃ uuid, e = newEtag uuid
  current : listing.etag ∈ used
  token : ∀ token, client.token = some token → ∃ e ∈ used, TokenOf e token
  complete : client.token = some listing.etag → ∀ l ∈ listing.ranges, l ∈ client.held.entries
  partly : ∀ k, client.token = some (pkrangePageToken k listing.etag) →
    ∀ l ∈ listing.ranges.take k, l ∈ client.held.entries

theorem Informed.combined {listing : Listing} {used : List Text} {client : FeedClient}
    (informed : Informed listing used client) (current : client.token = some listing.etag)
    (r : PkRange) : r ∈ client.combined ↔ r ∈ listing.ranges := by
  have all := informed.complete current
  have known : ∀ q, Known listing client q → q ∈ client.held.entries := fun q hq =>
    hq.elim id (all q)
  have unnamed : (!client.held.entries.any fun q => q.parents.contains r.id) = true ↔
      ∀ q ∈ client.held.entries, r.id ∉ q.parents := by
    simp
  rw [FeedClient.combined, mem_filter, unnamed]
  constructor
  · rintro ⟨mem, free⟩
    rcases informed.named r mem with listed | ⟨q, hq, names⟩
    · exact listed
    · exact absurd names (free q (known q hq))
  · intro listed
    refine ⟨all r listed, fun q hq names => ?_⟩
    exact (informed.dead q (.inl hq) r.id names).2 r listed rfl

theorem TokenOf.eq_etag {e e' token : Text} (first : TokenOf e token) (second : TokenOf e' token)
    (quoted : ∃ uuid, e = newEtag uuid) (quoted' : ∃ uuid, e' = newEtag uuid) : e = e' := by
  obtain ⟨uuid, rfl⟩ := quoted
  obtain ⟨uuid', rfl⟩ := quoted'
  rcases first with rfl | ⟨k, rfl⟩
  · rcases second with same | ⟨k', same⟩
    · exact same
    · exact absurd same.symm (pageToken_ne_newEtag k' _ uuid)
  · rcases second with same | ⟨k', same⟩
    · exact absurd same (pageToken_ne_newEtag k _ uuid')
    · exact (pageToken_inj same).2

section Changes

variable {listing listing' : Listing} {used : List Text} {client : FeedClient}
  {old rest new : List PkRange}

variable (informed : Informed listing used client)

include informed

/-- A change keeps what the client knows, if it leaves the client no token of the new listing's ETag
and takes away no last range that names one the client holds. -/
theorem Informed.reshape (reshaped : Reshaped listing listing' old rest new)
    (keeps : ∀ r ∈ client.held.entries, ∀ q ∈ old, r.id ∈ q.parents →
      ∃ q', (q' ∈ client.held.entries ∨ q' ∈ rest) ∧ r.id ∈ q'.parents)
    (quoted : ∃ uuid, listing'.etag = newEtag uuid)
    (unseen : ∀ token, client.token = some token → ¬ TokenOf listing'.etag token) :
    Informed listing' (listing'.etag :: used) client := by
  have inOld : ∀ r ∈ old, r ∈ listing.ranges := fun r hr =>
    reshaped.before.mem_iff.mpr (mem_append_left rest hr)
  have inRest : ∀ r ∈ rest, r ∈ listing.ranges := fun r hr =>
    reshaped.before.mem_iff.mpr (mem_append_right old hr)
  have ids := (reshaped.before.map PkRange.id).nodup_iff.mp informed.distinct
  rw [map_append, nodup_append] at ids
  have fresh : ∀ l ∈ new, ∀ i < listing.next, l.id ≠ i := fun l hl i below => by
    have := (reshaped.issued l hl).1
    omega
  have known : ∀ q, Known listing' client q → Known listing client q ∨ q ∈ new := by
    rintro q (held | listed)
    · exact .inl (.inl held)
    · rw [reshaped.after, mem_append] at listed
      exact listed.imp_left fun mem => .inr (inRest q mem)
  have known' : ∀ q, (q ∈ client.held.entries ∨ q ∈ rest) → Known listing' client q := by
    rintro q (held | mem)
    · exact .inl held
    · exact .inr (reshaped.after ▸ mem_append_left new mem)
  refine ⟨?_, ?_, ?_, ?_, ?_, ?_, .head _, ?_, ?_, ?_⟩
  · rw [reshaped.after, map_append, nodup_append]
    refine ⟨ids.2.1, reshaped.distinct, ?_⟩
    refine forall_mem_map.mpr fun r hr => forall_mem_map.mpr fun l hl => ?_
    exact (fresh l hl r.id (informed.issued r (.inr (inRest r hr)))).symm
  · intro q hq
    rcases known q hq with before | added
    · exact Nat.lt_of_lt_of_le (informed.issued q before) reshaped.grows
    · exact (reshaped.issued q added).2
  · intro r hr l hl same
    rw [reshaped.after, mem_append] at hl
    rcases hl with hl | hl
    · exact informed.same r hr l (inRest l hl) same
    · exact absurd same.symm (fresh l hl r.id (informed.issued r (.inl hr)))
  · intro q hq i hi
    have gone : i < listing.next ∧ ∀ l ∈ rest, l.id ≠ i := by
      rcases known q hq with before | added
      · have dead := informed.dead q before i hi
        exact ⟨dead.1, fun l hl => dead.2 l (inRest l hl)⟩
      · rw [reshaped.names q added] at hi
        obtain ⟨o, ho, rfl⟩ := mem_map.mp hi
        refine ⟨informed.issued o (.inr (inOld o ho)), fun l hl same => ?_⟩
        exact ids.2.2 o.id (mem_map_of_mem ho) l.id (mem_map_of_mem hl) same.symm
    refine ⟨Nat.lt_of_lt_of_le gone.1 reshaped.grows, fun l hl => ?_⟩
    rw [reshaped.after, mem_append] at hl
    exact hl.elim (gone.2 l) fun added => fresh l added i gone.1
  · intro r hr
    rcases informed.named r hr with listed | ⟨q, held | listed, names⟩
    · rcases mem_append.mp (reshaped.before.mem_iff.mp listed) with taken | stays
      · obtain ⟨q, hq⟩ := exists_mem_of_ne_nil new reshaped.added
        refine .inr ⟨q, .inr (reshaped.after ▸ mem_append_right rest hq), ?_⟩
        rw [reshaped.names q hq]
        exact mem_map_of_mem taken
      · exact .inl (reshaped.after ▸ mem_append_left new stays)
    · exact .inr ⟨q, .inl held, names⟩
    · rcases mem_append.mp (reshaped.before.mem_iff.mp listed) with taken | stays
      · obtain ⟨q', hq', names'⟩ := keeps r hr q taken names
        exact .inr ⟨q', known' q' hq', names'⟩
      · exact .inr ⟨q, known' q (.inr stays), names⟩
  · exact forall_mem_cons.mpr ⟨quoted, informed.quoted⟩
  · intro token here
    obtain ⟨e, he, of⟩ := informed.token token here
    exact ⟨e, .tail _ he, of⟩
  · intro here
    exact absurd (.inl rfl) (unseen _ here)
  · intro k here
    exact absurd (.inr ⟨k, rfl⟩) (unseen _ here)

variable {page : List PkRange}

theorem Informed.mem_receive (listed : ∀ l ∈ page, l ∈ listing.ranges) (etag : Text) (b : PkRange) :
    b ∈ (client.receive (.page page etag)).held.entries ↔ b ∈ client.held.entries ∨ b ∈ page := by
  have sameId : ∀ {a b : PkRange}, SameKey a.id b.id → a.id = b.id := fun near =>
    Nat.le_antisymm near.1 near.2
  refine BTreeMap.mem_foldl_insert (fun a ha x hx near => ?_) (fun x hx y hy near => ?_)
  · exact informed.same a ha x (listed x hx) (sameId near)
  · exact inj_on_of_nodup_map informed.distinct (listed x hx) (listed y hy) (sameId near)

/-- A page of the listing keeps what the client knows, if its token tells the truth. -/
theorem Informed.receive_page
    {etag : Text} (listed : ∀ l ∈ page, l ∈ listing.ranges) (of : TokenOf listing.etag etag)
    (complete : etag = listing.etag → ∀ l ∈ listing.ranges, l ∈ client.held.entries ∨ l ∈ page)
    (partly : ∀ k, etag = pkrangePageToken k listing.etag →
      ∀ l ∈ listing.ranges.take k, l ∈ client.held.entries ∨ l ∈ page) :
    Informed listing used (client.receive (.page page etag)) := by
  have mem := informed.mem_receive listed etag
  have known : ∀ q, Known listing (client.receive (.page page etag)) q → Known listing client q := by
    rintro q (held | here)
    · exact ((mem q).mp held).imp_right (listed q)
    · exact .inr here
  refine ⟨informed.distinct, fun q hq => informed.issued q (known q hq), ?_,
    fun q hq => informed.dead q (known q hq), ?_, informed.quoted, informed.current, ?_, ?_, ?_⟩
  · intro r hr l hl same
    rcases (mem r).mp hr with held | read
    · exact informed.same r held l hl same
    · exact inj_on_of_nodup_map informed.distinct (listed r read) hl same
  · intro r hr
    rcases (mem r).mp hr with held | read
    · refine (informed.named r held).imp_right ?_
      rintro ⟨q, hq, names⟩
      exact ⟨q, hq.imp_left fun h => (mem q).mpr (.inl h), names⟩
    · exact .inl (listed r read)
  · intro token here
    cases here
    exact ⟨listing.etag, informed.current, of⟩
  · intro here l hl
    exact (mem l).mpr (complete (Option.some.inj here) l hl)
  · intro k here l hl
    exact (mem l).mpr (partly k (Option.some.inj here) l hl)

theorem Informed.before_start {k : Nat}
    (start : (client.token.bind fun token => parsePkrangePageToken token listing.etag).getD 0 = k) :
    ∀ l ∈ listing.ranges.take k, l ∈ client.held.entries := by
  cases parsed : client.token.bind fun token => parsePkrangePageToken token listing.etag with
  | none =>
    rw [parsed] at start
    intro l hl
    rw [← start] at hl
    exact absurd hl (by simp)
  | some offset =>
    rw [parsed] at start
    obtain ⟨token, here, read⟩ := Option.bind_eq_some_iff.mp parsed
    obtain ⟨e, he, rfl | ⟨k', rfl⟩⟩ := informed.token token here
    · obtain ⟨uuid, rfl⟩ := informed.quoted token he
      cases read
    · obtain ⟨rfl, rfl⟩ := parse_pageToken read
      rw [← start]
      exact informed.partly offset here

theorem Informed.read {state : ContainerState}
    (ranges : state.ranges = listing.ranges) (etag : state.etag = listing.etag)
    (pageSize : Option Nat) :
    Informed listing used (client.receive (handleReadPkranges pageSize state client.token)) := by
  rcases handleReadPkranges_cases pageSize state client.token with ⟨here, answer⟩ | ⟨stop, answer⟩
  · rw [answer]
    have same : client.receive (.notModified state.etag) = client := by
      rw [FeedClient.receive, ← here]
    rw [same]
    exact informed
  · rw [answer, etag, ranges]
    have before := informed.before_start rfl
    generalize (client.token.bind fun token => parsePkrangePageToken token listing.etag).getD 0 =
      offset at before ⊢
    -- the ranges up to the page's end were held before or are on the page
    have upTo : ∀ l ∈ listing.ranges.take stop, l ∈ client.held.entries ∨
        l ∈ (listing.ranges.take stop).drop (min offset listing.ranges.length) := by
      intro l hl
      rw [← take_append_drop (min offset listing.ranges.length) (listing.ranges.take stop),
        mem_append, take_take] at hl
      refine hl.imp_left fun early => before l ?_
      exact (take_sublist_take_left (by omega)).mem early
    have listed : ∀ l ∈ (listing.ranges.take stop).drop (min offset listing.ranges.length),
        l ∈ listing.ranges := fun l hl => mem_of_mem_take (mem_of_mem_drop hl)
    obtain ⟨uuid, quoted⟩ := informed.quoted _ informed.current
    by_cases more : stop < listing.ranges.length
    · rw [if_pos more]
      refine informed.receive_page listed (.inr ⟨stop, rfl⟩) ?_ ?_
      · intro same
        exact absurd (same.trans quoted) (pageToken_ne_newEtag stop _ uuid)
      · intro k same
        rw [← (pageToken_inj same).1]
        exact upTo
    · rw [if_neg more]
      refine informed.receive_page listed (.inl rfl) ?_ ?_
      · intro _ l hl
        rw [← take_of_length_le (Nat.le_of_not_lt more)] at hl
        exact upTo l hl
      · intro k same
        exact absurd (same.symm.trans quoted) (pageToken_ne_newEtag k _ uuid)

theorem Informed.grow {next : Nat} (grows : listing.next ≤ next) :
    Informed ⟨listing.ranges, listing.etag, next⟩ (listing.etag :: used) client where
  distinct := informed.distinct
  issued q hq := Nat.lt_of_lt_of_le (informed.issued q hq) grows
  same := informed.same
  dead q hq i hi :=
    ⟨Nat.lt_of_lt_of_le (informed.dead q hq i hi).1 grows, (informed.dead q hq i hi).2⟩
  named := informed.named
  quoted := forall_mem_cons.mpr ⟨informed.quoted _ informed.current, informed.quoted⟩
  current := .head _
  token token here := by
    obtain ⟨e, he, of⟩ := informed.token token here
    exact ⟨e, .tail _ he, of⟩
  complete := informed.complete
  partly := informed.partly

end Changes

/-! ## What a change does to a region's listing -/

def Container.listing (c : Container) (state : ContainerState) : Listing :=
  ⟨state.ranges, state.etag, c.nextPartitionId⟩

def TopologyChange.takes : TopologyChange → List Nat
  | .split partitionId _ _ => [partitionId]
  | .merge idA idB => [idA, idB]

/-- The ETag of a region after a change is made. -/
def TopologyChange.etagAfter (etag : Text) : TopologyChange → Text
  | .split _ _ drawn => drawn
  | .merge _ _ => etag

theorem applyDocToPartition_pkRange (p : PhysicalPartition) (doc : StoredDocument)
    (isDelete : Bool) : (applyDocToPartition p doc isDelete).pkRange = p.pkRange := by
  fun_cases applyDocToPartition p doc isDelete <;> rfl

theorem routeDeferred_pkRange (midpoint : Epk) (deferred : List (StoredDocument × Bool))
    (children : PhysicalPartition × PhysicalPartition) :
    (deferred.foldl (routeDeferred midpoint) children).1.pkRange = children.1.pkRange ∧
      (deferred.foldl (routeDeferred midpoint) children).2.pkRange = children.2.pkRange := by
  induction deferred generalizing children with
  | nil => exact ⟨rfl, rfl⟩
  | cons write deferred ih =>
    obtain ⟨first, second⟩ := ih (routeDeferred midpoint children write)
    rw [foldl_cons, first, second, routeDeferred]
    split
    · exact ⟨applyDocToPartition_pkRange _ _ _, rfl⟩
    · exact ⟨rfl, applyDocToPartition_pkRange _ _ _⟩

/-- What a change may do to a region: nothing, or replace the partitions that it takes. -/
def Changed (change : TopologyChange) (c c' : Container) (state state' : ContainerState) : Prop :=
  (state'.ranges = state.ranges ∧ state'.etag = state.etag) ∨
    ∃ old rest new, Reshaped (c.listing state) (c'.listing state') old rest new ∧
      old.map PkRange.id = change.takes ∧ state'.etag = change.etagAfter state.etag

section Regions

variable {c : Container} {region : Nat} {state : ContainerState}

theorem setLocked_region (here : c.regions[region]? = some state) (ids : List Nat) (locked : Bool) :
    ∃ state', (c.setLocked ids locked).regions[region]? = some state' ∧
      state'.ranges = state.ranges ∧ state'.etag = state.etag := by
  let lock : PhysicalPartition → PhysicalPartition := fun p =>
    if ids.contains p.id then { p with locked := locked } else p
  have there : (c.setLocked ids locked).regions[region]? =
      some { state with physicalPartitions := state.physicalPartitions.map lock } := by
    rw [setLocked, getElem?_map, here]
    rfl
  refine ⟨_, there, ?_, rfl⟩
  rw [ContainerState.ranges, map_map]
  refine map_congr_left fun p _ => ?_
  show (lock p).pkRange = p.pkRange
  dsimp only [lock]
  split <;> rfl

variable {c' : Container} {idA idB : Nat}

/-- The split in a region replaces the parent by two ranges that name it. -/
theorem splitRegion_changed (seen : PhysicalPartition) (splitEpk : Option Epk)
    (midpoint : Epk) (etag : Text) (next : c'.nextPartitionId = c.nextPartitionId + 2) :
    Changed (.split seen.id splitEpk etag) c c' state
      (splitRegion seen midpoint c.nextPartitionId etag state) := by
  unfold splitRegion
  split
  · exact .inl ⟨rfl, rfl⟩
  · rename_i parent found
    obtain ⟨first, second⟩ := routeDeferred_pkRange midpoint parent.deferredReplications
      (splitChild parent c.nextPartitionId (seen.lsn + 1) seen.vectorClockVersion seen.epkMin
          midpoint (parent.documents.filter fun doc => decide (doc.epk < midpoint)),
        splitChild parent (c.nextPartitionId + 1) (seen.lsn + 1) seen.vectorClockVersion midpoint
          seen.epkMax (parent.documents.filter fun doc => !decide (doc.epk < midpoint)))
    refine .inr ⟨[parent.pkRange],
      (state.physicalPartitions.eraseP fun p => p.id == seen.id).map pkRange,
      [⟨c.nextPartitionId, seen.epkMin, midpoint, [parent.id]⟩,
        ⟨c.nextPartitionId + 1, midpoint, seen.epkMax, [parent.id]⟩], ?_, ?_, rfl⟩
    · refine ⟨(perm_cons_eraseP found).map _, ?_, ?_, ?_, ?_, ?_, ?_⟩
      · simp only [listing, ContainerState.ranges, map_append, map_cons,
          map_nil]
        rw [first, second]
        rfl
      · simp [pkRange]
      · simp
      · simp
      · simp [listing, next]
      · simp [listing, next]
    · exact congrArg (fun i => [i]) (withId_some found).2

theorem id_of_findIdx? {id i : Nat} {partitions : List PhysicalPartition} {p : PhysicalPartition}
    (index : partitions.findIdx? (fun p => p.id == id) = some i) (here : partitions[i]? = some p) :
    p.id = id := by
  obtain ⟨bound, same, -⟩ := findIdx?_eq_some_iff_getElem.mp index
  rw [List.getElem?_eq_getElem bound, Option.some.injEq] at here
  rw [here] at same
  simpa using same

/-- The merge in a region replaces two partitions by one range that names them. -/
theorem mergeRegion_changed (ne : idA ≠ idB)
    (preview : MergePreview) (next : c'.nextPartitionId = c.nextPartitionId + 1) :
    Changed (.merge idA idB) c c' state (mergeRegion preview idA idB c.nextPartitionId state) := by
  unfold mergeRegion
  dsimp only
  split
  · rename_i i j indexA indexB
    split
    · rename_i a b atA atB
      have sameA := id_of_findIdx? indexA atA
      have sameB := id_of_findIdx? indexB atB
      have apart : i ≠ j := by
        rintro rfl
        rw [atA, Option.some.injEq] at atB
        exact ne (sameA.symm.trans (atB ▸ sameB))
      have out := (perm_eraseIdx_eraseIdx apart atA atB).map pkRange
      refine .inr ⟨[a.pkRange, b.pkRange],
        ((state.physicalPartitions.eraseIdx (max i j)).eraseIdx (min i j)).map
          pkRange,
        [⟨c.nextPartitionId, preview.epkMin, preview.epkMax, [idA, idB]⟩], ?_, ?_, rfl⟩
      · refine ⟨out, ?_, ?_, ?_, ?_, ?_, ?_⟩
        · simp only [listing, ContainerState.ranges, map_append]
          rfl
        · simp [pkRange, sameA, sameB]
        · simp
        · simp
        · simp [listing, next]
        · simp [listing, next]
      · simp [pkRange, TopologyChange.takes, sameA, sameB]
    · exact .inl ⟨rfl, rfl⟩
  · exact .inl ⟨rfl, rfl⟩

/-- A merge names two partitions. -/
def TopologyChange.Proper : TopologyChange → Prop
  | .split _ _ _ => True
  | .merge idA idB => idA ≠ idB

theorem executeSplit_region (here : c.regions[region]? = some state) (partitionId : Nat)
    (splitEpk : Option Epk) (etag : Text) :
    let c' := c.executeSplit partitionId splitEpk etag
    ∃ state', c'.regions[region]? = some state' ∧ c.nextPartitionId ≤ c'.nextPartitionId ∧
      Changed (.split partitionId splitEpk etag) c c' state state' := by
  fun_cases executeSplit c partitionId splitEpk etag with
  | case1 => exact ⟨state, here, Nat.le_refl _, .inl ⟨rfl, rfl⟩⟩
  | case2 =>
    obtain ⟨state', there, same⟩ := setLocked_region here [partitionId] false
    exact ⟨state', there, Nat.le_refl _, .inl same⟩
  | case3 seen found midpoint point =>
    obtain ⟨first, -, found⟩ := exists_of_findSome?_eq_some found
    obtain ⟨-, rfl⟩ := withId_some found
    refine ⟨_, by rw [getElem?_map, here]; rfl, Nat.le_add_right _ 2, ?_⟩
    exact splitRegion_changed seen splitEpk midpoint etag rfl

theorem mergeRegion_etag (preview : MergePreview) (childId : Nat) :
    (mergeRegion preview idA idB childId state).etag = state.etag := by
  fun_cases mergeRegion preview idA idB childId state <;> rfl

theorem executeMerge_region (here : c.regions[region]? = some state) (idA idB : Nat) :
    let c' := c.executeMerge idA idB
    ∃ state', c'.regions[region]? = some state' ∧ c.nextPartitionId ≤ c'.nextPartitionId ∧
      state'.etag = state.etag ∧ (idA ≠ idB → Changed (.merge idA idB) c c' state state') := by
  have refused : ∃ state', (c.setLocked [idA, idB] false).regions[region]? = some state' ∧
      c.nextPartitionId ≤ c.nextPartitionId ∧ state'.etag = state.etag ∧
      (idA ≠ idB → Changed (.merge idA idB) c (c.setLocked [idA, idB] false) state state') := by
    obtain ⟨state', there, same⟩ := setLocked_region here [idA, idB] false
    exact ⟨state', there, Nat.le_refl _, same.2, fun _ => .inl same⟩
  fun_cases executeMerge c idA idB with
  | case1 => exact refused
  | case2 => exact refused
  | case3 lower upper found meet preview =>
    refine ⟨_, by rw [getElem?_map, here]; rfl, Nat.le_add_right _ 1, mergeRegion_etag _ _, ?_⟩
    exact fun ne => mergeRegion_changed ne preview rfl

/-- Every change of a container does one of two things to a region; a merge keeps its ETag. -/
theorem change_region (here : c.regions[region]? = some state) (change : TopologyChange) :
    ∃ state', (c.change change).regions[region]? = some state' ∧
      c.nextPartitionId ≤ (c.change change).nextPartitionId ∧
      (change.Proper → Changed change c (c.change change) state state') ∧
      (¬ change.Proper → state'.etag = state.etag) := by
  have relock : ∀ {locked : ContainerState} {c' : Container} {state' : ContainerState},
      locked.ranges = state.ranges ∧ locked.etag = state.etag →
      Changed change (c.setLocked change.takes true) c' locked state' →
      Changed change c c' state state' := by
    rintro locked c' state' ⟨ranges, etag⟩ changed
    have same : (c.setLocked change.takes true).listing locked = c.listing state := by
      rw [listing, ranges, etag]
      rfl
    rw [Changed, same, ranges, etag] at changed
    exact changed
  obtain ⟨locked, there, same⟩ := setLocked_region here change.takes true
  cases change with
  | split partitionId splitEpk etag =>
    obtain ⟨state', after, grows, changed⟩ := executeSplit_region there partitionId splitEpk etag
    exact ⟨state', after, grows, fun _ => relock same changed, fun improper => absurd trivial improper⟩
  | merge idA idB =>
    obtain ⟨state', after, grows, kept, changed⟩ := executeMerge_region there idA idB
    exact ⟨state', after, grows, fun proper => relock same (changed proper),
      fun _ => kept.trans same.2⟩

end Regions

/-! ## Runs -/

/-- A container, a client that polls it, and the ETags the client's region has had. -/
structure Polling where
  container : Container
  client : FeedClient
  used : List Text

inductive PollEvent
  | change (change : TopologyChange)
  | read

/-- A change of the container, or a read of a region's feed with the last ETag or token. -/
def Polling.step (region : Nat) (pageSize : Option Nat) (s : Polling) : PollEvent → Polling
  | .change change =>
    let container := s.container.change change
    { s with
      container := container
      used := (container.regions[region]?.map ContainerState.etag).toList ++ s.used }
  | .read =>
    match s.container.regions[region]? with
    | none => s
    | some state =>
      { s with client := s.client.receive (handleReadPkranges pageSize state s.client.token) }

/-- The ETag a split draws is a new one. -/
def TopologyChange.Draws (used : List Text) : TopologyChange → Prop
  | .split _ _ etag => etag ∉ used ∧ ∃ uuid, etag = newEtag uuid
  | .merge _ _ => True

/-- A change that a client with this knowledge will come to see.  Wherever a range that is taken
away names one the client holds, another range that the client holds or can still read names it too;
and a merge, which keeps the ETag, finds the client without a token of that ETag. -/
structure Noticed (state : ContainerState) (client : FeedClient) (change : TopologyChange) : Prop where
  proper : change.Proper
  keeps : ∀ r ∈ client.held.entries, ∀ q ∈ state.ranges, q.id ∈ change.takes → r.id ∈ q.parents →
    (∃ q' ∈ client.held.entries, r.id ∈ q'.parents) ∨
      ∃ q' ∈ state.ranges, q'.id ∉ change.takes ∧ r.id ∈ q'.parents
  unseen : ∀ idA idB, change = .merge idA idB →
    ∀ token, client.token = some token → ¬ TokenOf state.etag token

/-- A step of a run in which every change that is made in the region is noticed; one that is refused
leaves the ranges as they are. -/
def Polls (region : Nat) (pageSize : Option Nat) (s : Polling) (e : PollEvent) (s' : Polling) :
    Prop :=
  s' = s.step region pageSize e ∧
    ∀ change, e = .change change → change.Draws s.used ∧
      ∀ state state', s.container.regions[region]? = some state →
        s'.container.regions[region]? = some state' → state'.ranges ≠ state.ranges →
          Noticed state s.client change

/-- What holds between a client and the region that it polls. -/
def Polling.Sound (region : Nat) (s : Polling) : Prop :=
  ∃ state, s.container.regions[region]? = some state ∧
    Informed (s.container.listing state) s.used s.client

theorem Informed.change {c c' : Container} {state state' : ContainerState} {used : List Text}
    {client : FeedClient} {change : TopologyChange} {old rest new : List PkRange}
    (informed : Informed (c.listing state) used client)
    (reshaped : Reshaped (c.listing state) (c'.listing state') old rest new)
    (takes : old.map PkRange.id = change.takes) (etag : state'.etag = change.etagAfter state.etag)
    (draws : change.Draws used) (noticed : Noticed state client change) :
    Informed (c'.listing state') (state'.etag :: used) client := by
  refine informed.reshape reshaped ?_ ?_ ?_
  · intro r hr q hq names
    have taken : q.id ∈ change.takes := takes ▸ mem_map_of_mem hq
    have listed : q ∈ state.ranges := reshaped.before.mem_iff.mpr (mem_append_left rest hq)
    rcases noticed.keeps r hr q listed taken names with ⟨q', held, names'⟩ | ⟨q', here, stays, names'⟩
    · exact ⟨q', .inl held, names'⟩
    · rcases mem_append.mp (reshaped.before.mem_iff.mp here) with gone | mem
      · exact absurd (takes ▸ mem_map_of_mem gone) stays
      · exact ⟨q', .inr mem, names'⟩
  · show ∃ uuid, state'.etag = newEtag uuid
    rw [etag]
    cases change with
    | split _ _ drawn => exact draws.2
    | merge _ _ => exact informed.quoted _ informed.current
  · show ∀ token, client.token = some token → ¬ TokenOf state'.etag token
    intro token here
    rw [etag]
    cases change with
    | split _ _ drawn =>
      intro of
      obtain ⟨e, he, of'⟩ := informed.token token here
      have same : drawn = e := of.eq_etag of' draws.2 (informed.quoted e he)
      exact draws.1 (same ▸ he)
    | merge idA idB => exact noticed.unseen idA idB rfl token here

theorem polls_sound {region : Nat} {pageSize : Option Nat} {s s' : Polling} {e : PollEvent}
    (sound : s.Sound region) (step : Polls region pageSize s e s') : s'.Sound region := by
  obtain ⟨state, here, informed⟩ := sound
  obtain ⟨rfl, quiet⟩ := step
  cases e with
  | change change =>
    obtain ⟨draws, noticed⟩ := quiet change rfl
    obtain ⟨state', there, grows, changed, kept⟩ := change_region here change
    refine ⟨state', there, ?_⟩
    have used : (s.step region pageSize (.change change)).used = state'.etag :: s.used := by
      simp [Polling.step, there]
    rw [used]
    have refused (ranges : state'.ranges = state.ranges) (etag : state'.etag = state.etag) :
        Informed ((s.container.change change).listing state') (state'.etag :: s.used) s.client := by
      rw [listing, ranges, etag]
      exact informed.grow grows
    by_cases proper : change.Proper
    · rcases changed proper with ⟨ranges, etag⟩ | ⟨old, rest, new, reshaped, takes, etag⟩
      · exact refused ranges etag
      · refine informed.change reshaped takes etag draws (noticed state state' here there fun same => ?_)
        -- the ranges that a change adds have ids of their own
        obtain ⟨q, hq⟩ := exists_mem_of_ne_nil new reshaped.added
        have after : state'.ranges = rest ++ new := reshaped.after
        have listed : q ∈ state.ranges := same ▸ after ▸ mem_append_right rest hq
        exact absurd (informed.issued q (.inr listed)) (Nat.not_lt.mpr (reshaped.issued q hq).1)
    · refine refused (Classical.byContradiction fun made => ?_) (kept proper)
      exact proper (noticed state state' here there made).proper
  | read =>
    have next : s.step region pageSize .read =
        { s with client := s.client.receive (handleReadPkranges pageSize state s.client.token) } := by
      simp [Polling.step, here]
    rw [next]
    exact ⟨state, here, informed.read rfl rfl pageSize⟩

/-- A fresh container, and a client that has read nothing. -/
structure Polling.Fresh (region n : Nat) (s : Polling) : Prop where
  container : s.container.Fresh n
  region : ∃ state uuid, s.container.regions[region]? = some state ∧ state.etag = newEtag uuid ∧
    s.used = [state.etag] ∧ ∀ r ∈ state.ranges, r.parents = []
  client : s.client = ⟨.empty, none⟩

theorem createPartitions_ids (n : Nat) (kind : PartitionKeyKind) (version : PartitionKeyVersion) :
    ((createPartitions n kind version).map slot).map Slot.id = range n := by
  rw [createPartitions, map_map, map_map]
  exact map_id' _

theorem Polling.Fresh.sound {region n : Nat} {s : Polling} (fresh : s.Fresh region n) :
    s.Sound region := by
  obtain ⟨state, uuid, here, etag, used, parents⟩ := fresh.region
  have ids : state.ranges.map PkRange.id = range n := by
    have slots := fresh.container.regions state (mem_of_getElem? here)
    rw [← createPartitions_ids n s.container.kind s.container.version, ← slots,
      ContainerState.ranges, map_map, map_map]
    rfl
  refine ⟨state, here, ?_⟩
  rw [fresh.client, used]
  have known : ∀ q, Known (s.container.listing state) ⟨.empty, none⟩ q → q ∈ state.ranges := by
    rintro q (held | listed)
    · exact absurd held not_mem_nil
    · exact listed
  refine ⟨?_, ?_, ?_, ?_, ?_, ?_, .head _, ?_, ?_, ?_⟩
  · show (state.ranges.map PkRange.id).Nodup
    rw [ids]
    exact nodup_range
  · intro q hq
    have mem : q.id ∈ state.ranges.map PkRange.id := mem_map_of_mem (known q hq)
    rw [ids, mem_range] at mem
    show q.id < s.container.nextPartitionId
    rw [fresh.container.counter]
    exact mem
  · exact fun r hr => absurd hr not_mem_nil
  · intro q hq i hi
    rw [parents q (known q hq)] at hi
    exact absurd hi not_mem_nil
  · exact fun r hr => absurd hr not_mem_nil
  · intro e he
    exact ⟨uuid, (mem_singleton.mp he).trans etag⟩
  · exact fun token none => absurd none (by simp)
  · exact fun none => absurd none (by simp)
  · exact fun k none => absurd none (by simp)

/-- Whenever a client of a fresh container gets 304, its combined ranges are those of the region, if
every change so far was one the client would notice. -/
theorem not_modified_is_current {region n : Nat} {pageSize : Option Nat} {s s' : Polling}
    {events : List PollEvent} {state : ContainerState} {etag : Text} (fresh : s.Fresh region n)
    (run : Run (Polls region pageSize) s events s')
    (here : s'.container.regions[region]? = some state)
    (answer : handleReadPkranges pageSize state s'.client.token = .notModified etag) :
    s'.client.combined.Perm state.ranges := by
  obtain ⟨state', there, informed⟩ := Run.invariant (P := Polling.Sound region) polls_sound run fresh.sound
  rw [here, Option.some.injEq] at there
  subst there
  have current : s'.client.token = some state.etag := by
    rcases handleReadPkranges_cases pageSize state s'.client.token with ⟨now, -⟩ | ⟨stop, page⟩
    · exact now
    · rw [page] at answer
      exact absurd answer (by simp)
  refine (perm_ext_iff_of_nodup ?_ (List.Nodup.of_map _ informed.distinct)).mpr
    (informed.combined current)
  exact s'.client.held.nodup.filter _

/-! ## One region with two partitions -/

/-- Two fresh partitions, and a client that has read nothing. -/
def samplePolling : Polling :=
  ⟨⟨.hash, .v2, 2, [⟨newEtag ['0'], createPartitions 2 .hash .v2⟩]⟩, ⟨.empty, none⟩, [newEtag ['0']]⟩

theorem samplePolling_fresh : samplePolling.Fresh 0 2 where
  container :=
    { counter := rfl
      regions := by
        intro state hstate
        rw [mem_singleton.mp hstate]
        rfl
      placed := by
        intro state hstate p hp doc hdoc
        rw [mem_singleton.mp hstate] at hp
        obtain ⟨i, -, rfl⟩ := mem_map.mp hp
        exact absurd hdoc not_mem_nil
      settled := by
        intro state hstate p hp
        rw [mem_singleton.mp hstate] at hp
        obtain ⟨i, -, rfl⟩ := mem_map.mp hp
        rfl }
  region := by
    refine ⟨_, ['0'], rfl, rfl, rfl, fun r hr => ?_⟩
    obtain ⟨p, hp, rfl⟩ := mem_map.mp hr
    obtain ⟨i, -, rfl⟩ := mem_map.mp hp
    rfl
  client := rfl

/-- Between the first page and the second, one partition is split and its children are merged; a
merge at the end is refused. -/
def sampleEvents : List PollEvent :=
  [.read, .change (.split 1 (some ⟨[0x80]⟩) (newEtag ['1'])), .change (.merge 2 3), .read, .read,
    .change (.merge 0 0)]

theorem sampleEvents_run : Run (Polls 0 (some 1)) samplePolling sampleEvents
    (sampleEvents.foldl (Polling.step 0 (some 1)) samplePolling) := by
  have isRead : ∀ {change}, PollEvent.read ≠ .change change := fun same => nomatch same
  refine .cons ⟨rfl, fun _ same => absurd same isRead⟩ (.cons ⟨rfl, ?_⟩ (.cons ⟨rfl, ?_⟩
    (.cons ⟨rfl, fun _ same => absurd same isRead⟩
      (.cons ⟨rfl, fun _ same => absurd same isRead⟩ (.single ⟨rfl, ?_⟩)))))
  · rintro change ⟨⟩
    refine ⟨⟨by decide, ['1'], rfl⟩, fun state _ here _ _ =>
      ⟨trivial, ?_, fun _ _ same => nomatch same⟩⟩
    cases here
    decide +kernel
  · rintro change ⟨⟩
    refine ⟨trivial, fun state _ here _ _ => ⟨(by decide : 2 ≠ 3), ?_, ?_⟩⟩
    · cases here
      decide +kernel
    · cases here
      rintro _ _ - token here of
      cases here
      have same := TokenOf.eq_etag of (.inr ⟨1, rfl⟩) ⟨['1'], rfl⟩ ⟨['0'], rfl⟩
      exact absurd same (by decide)
  · rintro change ⟨⟩
    refine ⟨trivial, fun state state' here there made => absurd ?_ made⟩
    cases here
    cases there
    decide +kernel

/-- The client starts again under the new ETag and finds the child of the merge. -/
theorem sample_not_modified_is_current :
    let s := sampleEvents.foldl (Polling.step 0 (some 1)) samplePolling
    ∃ state, s.container.regions[0]? = some state ∧
      handleReadPkranges (some 1) state s.client.token = .notModified (newEtag ['1']) ∧
      state.ranges.map PkRange.id = [0, 4] ∧ s.client.combined.Perm state.ranges := by
  intro s
  obtain ⟨state, here⟩ : ∃ state, s.container.regions[0]? = some state := ⟨_, rfl⟩
  have answer : handleReadPkranges (some 1) state s.client.token = .notModified (newEtag ['1']) := by
    cases here
    decide +kernel
  refine ⟨state, here, answer, ?_,
    not_modified_is_current samplePolling_fresh sampleEvents_run here answer⟩
  cases here
  decide +kernel

/-- A merge of everything the client has read. -/
def mergeBehind : List PollEvent := [.read, .change (.merge 0 1)]

/-- Two generations of splits between two reads. -/
def splitTwice : List PollEvent :=
  [.read, .change (.split 0 (some ⟨[0x10]⟩) (newEtag ['1'])),
    .change (.split 2 (some ⟨[0x08]⟩) (newEtag ['2'])),
    .change (.split 3 (some ⟨[0x18]⟩) (newEtag ['3'])), .read]

/-- After a merge the ETag is still the one the client has.  After two splits in a row nothing names
the first parent, and the client keeps it beside its grandchildren. -/
theorem not_modified_but_stale :
    (let s := mergeBehind.foldl (Polling.step 0 none) samplePolling
      ∃ state, s.container.regions[0]? = some state ∧
        handleReadPkranges none state s.client.token = .notModified (newEtag ['0']) ∧
        s.client.combined.map PkRange.id = [0, 1] ∧ state.ranges.map PkRange.id = [2]) ∧
    (let s := splitTwice.foldl (Polling.step 0 none) samplePolling
      ∃ state, s.container.regions[0]? = some state ∧
        handleReadPkranges none state s.client.token = .notModified (newEtag ['3']) ∧
        s.client.combined.map PkRange.id = [0, 1, 4, 5, 6, 7] ∧
        state.ranges.map PkRange.id = [1, 4, 5, 6, 7]) := by
  refine ⟨⟨_, rfl, ?_, ?_, ?_⟩, ⟨_, rfl, ?_, ?_, ?_⟩⟩ <;> decide +kernel

end AzureSdk.Cosmos.Emulator

/-
# Cosmos.Dataflow.Workload — what a live drain has left to read

The abstract reading of a drain is a *work status* per key: drained, to be read from
the start, or to be read from a server continuation (`WorkStatus`).  A drain that was
planned fresh and has run for any number of calls keeps one invariant, `Workload`:
live leaves with nonempty slices in ascending order, and what is left is the upper
end of the query's scope (`reachable_workload`).
-/
import AzureSdk.Cosmos.Dataflow.Planner

namespace AzureSdk.Cosmos.Dataflow

open Theory Theory.Interval List Request

/-! ## Work status -/

inductive WorkStatus
  | drained
  | fresh
  | continuing (serverContinuation : String)
  | duplicated
  deriving DecidableEq, Repr

def Request.ownsKey (n : Request) (e : EffectivePartitionKey) : Bool :=
  match n.feedRange with
  | some range => decide (range.span.Has e)
  | none => false

def Request.workStatus (n : Request) : WorkStatus :=
  match n.state with
  | .initial => .fresh
  | .continuing token => .continuing token
  | .drained => .drained

/-- The status of a key: drained if no leaf owns it, what its leaf does if exactly one
owns it. -/
def workStatus (leaves : List Request) (e : EffectivePartitionKey) : WorkStatus :=
  match leaves.filter (fun n => n.ownsKey e) with
  | [] => .drained
  | [n] => n.workStatus
  | _ => .duplicated

/-- The status that a list of owners stands for. -/
def statusOf : List (Option String) → WorkStatus
  | [] => .drained
  | [none] => .fresh
  | [some token] => .continuing token
  | _ => .duplicated

theorem ownersAt_ledger (e : EffectivePartitionKey) : ∀ leaves : List Request,
    ownersAt (ledger leaves) e =
      (leaves.filter fun n => n.ownsKey e).map fun n => n.state.continuation
  | [] => rfl
  | n :: rest => by
    have tail := ownersAt_ledger e rest
    cases slice : n.feedRange with
    | none =>
      have skip : ledger (n :: rest) = ledger rest := by simp [ledger, slice]
      simp [skip, tail, ownsKey, slice]
    | some range =>
      rw [ledger_cons slice, ownersAt_cons, tail]
      by_cases has : range.span.Has e <;> simp [ownsKey, slice, has]

theorem workStatus_eq {leaves : List Request} (live : ∀ n ∈ leaves, n.state ≠ .drained)
    (e : EffectivePartitionKey) : workStatus leaves e = statusOf (ownersAt (ledger leaves) e) := by
  rw [ownersAt_ledger]
  unfold workStatus
  have alive : ∀ n ∈ leaves.filter (fun n => n.ownsKey e), n.state ≠ .drained := fun n hn =>
    live n (mem_of_mem_filter hn)
  generalize leaves.filter (fun n => n.ownsKey e) = owners at alive
  match owners, alive with
  | [], _ => rfl
  | [n], alive =>
    cases state : n.state with
    | initial | continuing token =>
      simp [Request.workStatus, state, RequestState.continuation, statusOf]
    | drained => exact absurd state (alive n (mem_singleton_self n))
  | n :: _ :: _, _ => cases first : n.state.continuation <;> simp [statusOf, first]

/-! ## The plan's ranges -/

/-- What an action emits for an element; nothing where it fails. -/
def emitted {α β : Type} (f : α → Result (List β)) (x : α) : List β :=
  match f x with
  | .ok out => out
  | .error _ => []

variable {β : Type} {range : FeedRange} {operation : CosmosOperation} {m : ContainerRoutingMap}
  {ranges : List FeedRange} {plan : QueryPlan}

theorem emitAll_ok {α : Type} {f : α → Result (List β)} {g : α → List β} :
    ∀ {xs : List α}, (∀ x ∈ xs, f x = .ok (g x)) → emitAll f xs = .ok (xs.flatMap g)
  | [], _ => rfl
  | x :: xs, each => by
    have head := each x (.head _)
    have tail := emitAll_ok fun y hy => each y (.tail _ hy)
    simp [emitAll, head, tail, bind, Except.bind]

theorem emitted_ok {α : Type} {f : α → Result (List β)} {x : α} {P : List β → Prop}
    (h : ∃ out, f x = .ok out ∧ P out) : f x = .ok (emitted f x) ∧ P (emitted f x) := by
  obtain ⟨out, made, holds⟩ := h
  have same : emitted f x = out := by simp [emitted, made]
  exact same ▸ ⟨made, holds⟩

/-- A feed range is handled along its cut where each partition of the cut is. -/
theorem overFeedRange_ok {emit : FeedRange → ResolvedRange → Result (List β)}
    {P : ResolvedRange × FeedRange → List β → Prop} (valid : m.Valid)
    (proper : range.minInclusive < range.maxExclusive) (inSpace : range.minInclusive < .MAX)
    (each : ∀ {c : ResolvedRange × FeedRange}, intersectFeedRanges c.1.range range = some c.2 →
      ∃ out, emit range c.1 = .ok out ∧ P c out) :
    ∃ cuts, Cuts range cuts ∧ ∃ f : ResolvedRange × FeedRange → List β,
      overFeedRange (some m) emit range = .ok (cuts.flatMap f) ∧ ∀ c ∈ cuts, P c (f c) := by
  obtain ⟨cuts, exact, resolved⟩ := resolveRanges_cuts valid proper inSpace
  have made := fun c hc => emitted_ok (each (exact.piece c hc))
  refine ⟨cuts, exact, fun c => emitted (emit range) c.1, ?_, fun c hc => (made c hc).2⟩
  have all := emitAll_ok (forall_mem_map.mpr fun c hc => (made c hc).1)
  unfold overFeedRange
  rw [resolved]
  simpa [bind, Except.bind, flatMap_map] using all

theorem emitAll_inv {α : Type} {f : α → Result (List β)} : ∀ {xs : List α} {out : List β},
    emitAll f xs = .ok out →
      (∀ x ∈ xs, f x = .ok (emitted f x)) ∧ out = xs.flatMap (emitted f)
  | [], out, h => by
    cases h
    simp
  | x :: xs, out, h => by
    obtain ⟨first, head, h⟩ := bind_ok h
    obtain ⟨rest, tail, h⟩ := bind_ok h
    cases h
    obtain ⟨each, rfl⟩ := emitAll_inv tail
    have here : emitted f x = first := by simp [emitted, head]
    exact ⟨forall_mem_cons.mpr ⟨here ▸ head, each⟩, by simp [here]⟩

def planRanges (plan : QueryPlan) (operation : CosmosOperation) : Result (List FeedRange) :=
  emitAll (fun queryRange =>
    (queryRangeToFeedRange queryRange (operation.container.bind normalizedEpkLen)).map fun r => [r])
    plan.queryRanges

section OverRanges

variable {β : Type} {topology : Option ContainerRoutingMap} {operation : CosmosOperation}
  {emit : FeedRange → ResolvedRange → Result (List β)}

theorem overQueryRange_ok_iff {queryRange : QueryRange} {out : List β} :
    overQueryRange topology operation emit queryRange = .ok out ↔
      ∃ planRange, queryRangeToFeedRange queryRange
          (operation.container.bind normalizedEpkLen) = .ok planRange ∧
        emitAll (overFeedRange topology emit) (clipToScope operation.target planRange).toList =
          .ok out := by
  constructor
  · intro h
    obtain ⟨planRange, made, h⟩ := bind_ok h
    refine ⟨planRange, made, ?_⟩
    cases clip : clipToScope operation.target planRange with
    | none =>
      rw [clip] at h
      exact h
    | some feedRange =>
      rw [clip] at h
      simp [emitAll, h, bind, Except.bind]
  · rintro ⟨planRange, made, h⟩
    simp only [overQueryRange, made, bind, Except.bind]
    cases clip : clipToScope operation.target planRange with
    | none =>
      rw [clip] at h
      exact h
    | some feedRange =>
      rw [clip] at h
      obtain ⟨first, head, h⟩ := bind_ok h
      obtain ⟨rest, tail, h⟩ := bind_ok h
      cases tail
      cases h
      simpa using head

theorem emitAll_append {α : Type} {f : α → Result (List β)} {xs ys : List α}
    {left right : List β} (hl : emitAll f xs = .ok left) (hr : emitAll f ys = .ok right) :
    emitAll f (xs ++ ys) = .ok (left ++ right) := by
  obtain ⟨eachLeft, rfl⟩ := emitAll_inv hl
  obtain ⟨eachRight, rfl⟩ := emitAll_inv hr
  rw [← flatMap_append]
  exact emitAll_ok (forall_mem_append.mpr ⟨eachLeft, eachRight⟩)

theorem filterMap_cons_toList {γ δ : Type} (f : γ → Option δ) (x : γ) (xs : List γ) :
    (x :: xs).filterMap f = (f x).toList ++ xs.filterMap f := by
  cases h : f x <;> simp [h]

variable {plan : QueryPlan}

theorem overQueryRanges_inv {out : List β}
    (h : overQueryRanges plan topology operation emit = .ok out) :
    ∃ ranges, planRanges plan operation = .ok ranges ∧
      emitAll (overFeedRange topology emit)
        (ranges.filterMap (clipToScope operation.target)) = .ok out := by
  unfold overQueryRanges at h
  unfold planRanges
  generalize plan.queryRanges = queryRanges at h ⊢
  induction queryRanges generalizing out with
  | nil =>
    cases h
    exact ⟨[], rfl, rfl⟩
  | cons queryRange queryRanges ih =>
    obtain ⟨first, head, h⟩ := bind_ok h
    obtain ⟨rest, tail, h⟩ := bind_ok h
    cases h
    obtain ⟨ranges, converted, emittedRest⟩ := ih tail
    obtain ⟨planRange, made, emittedFirst⟩ := overQueryRange_ok_iff.mp head
    refine ⟨planRange :: ranges, ?_, ?_⟩
    · rw [emitAll, made, converted]
      rfl
    · rw [filterMap_cons_toList]
      exact emitAll_append emittedFirst emittedRest

theorem overQueryRanges_ok {ranges : List FeedRange}
    {g : FeedRange → List β} (converted : planRanges plan operation = .ok ranges)
    (each : ∀ feedRange ∈ ranges.filterMap (clipToScope operation.target),
      overFeedRange topology emit feedRange = .ok (g feedRange)) :
    overQueryRanges plan topology operation emit =
      .ok ((ranges.filterMap (clipToScope operation.target)).flatMap g) := by
  unfold planRanges at converted
  unfold overQueryRanges
  generalize plan.queryRanges = queryRanges at converted ⊢
  induction queryRanges generalizing ranges with
  | nil =>
    cases converted
    rfl
  | cons queryRange queryRanges ih =>
    obtain ⟨first, head, rest⟩ := bind_ok converted
    obtain ⟨others, tail, rest⟩ := bind_ok rest
    cases rest
    obtain ⟨planRange, made, rfl⟩ := map_ok head
    rw [singleton_append, filterMap_cons_toList] at each ⊢
    have later := ih (fun feedRange mem => each feedRange (mem_append_right _ mem)) tail
    have here := emitAll_ok fun feedRange mem => each feedRange (mem_append_left _ mem)
    rw [flatMap_append, emitAll, overQueryRange_ok_iff.mpr ⟨planRange, made, here⟩, later]
    rfl

end OverRanges

/-! ## Fresh plans -/

/-- The keys of a plan: those of its clipped feed ranges that lie in the EPK space. -/
def Scope (feedRanges : List FeedRange) (e : EffectivePartitionKey) : Prop :=
  (∃ r ∈ feedRanges, r.span.Has e) ∧ e < .MAX

variable {query resolved feedRange : FeedRange} {nodes children : List Request}
  {cuts : List (ResolvedRange × FeedRange)} {scope : Option FeedRange}

theorem clipResolved_inv (h : clipResolved resolved query = .ok range) :
    intersectFeedRanges resolved query = some range := by
  unfold clipResolved at h
  split at h
  · rename_i found
    cases h
    exact found
  · exact absurd h (by simp [fail])

theorem clipResolved_ok (h : intersectFeedRanges resolved query = some range) :
    clipResolved resolved query = .ok range := by
  simp [clipResolved, h]

theorem freshLeaves_inv :
    ∀ {resolved : List ResolvedRange} {nodes : List Request},
      emitAll (freshLeaf operation feedRange) resolved = .ok nodes →
      ∃ cuts : List (ResolvedRange × FeedRange), cuts.map Prod.fst = resolved ∧
        (∀ c ∈ cuts, intersectFeedRanges c.1.range feedRange = some c.2) ∧
        nodes = cuts.map (pieceLeaf operation none)
  | [], nodes, h => by
    cases h
    exact ⟨[], rfl, by simp, rfl⟩
  | r :: rest, nodes, h => by
    obtain ⟨first, head, h⟩ := bind_ok h
    obtain ⟨others, tail, h⟩ := bind_ok h
    obtain ⟨range, clipped, head⟩ := bind_ok head
    cases h
    cases head
    obtain ⟨cuts, fsts, pieces, rfl⟩ := freshLeaves_inv tail
    exact ⟨(r, range) :: cuts, by simp [fsts],
      forall_mem_cons.mpr ⟨clipResolved_inv clipped, pieces⟩, rfl⟩

/-- A handled feed range is a nonempty part of the EPK space, and its leaves are those
of its cut. -/
theorem overFeedRange_fresh_inv (valid : m.Valid)
    (h : overFeedRange (some m) (freshLeaf operation) feedRange = .ok nodes) :
    (feedRange.minInclusive < feedRange.maxExclusive ∧ feedRange.minInclusive < .MAX) ∧
      ∃ cuts, Cuts feedRange cuts ∧ nodes = cuts.map (pieceLeaf operation none) := by
  obtain ⟨resolved, found, h⟩ := bind_ok h
  obtain ⟨cuts, rfl, pieces, rfl⟩ := freshLeaves_inv h
  exact ⟨resolveRanges_inside valid found pieces, cuts, cuts_of_pieces valid found pieces, rfl⟩

/-! ## What a live drain has left -/

/-- The invariant of a drain over a plan with keys `scope`: live leaves with nonempty
slices in ascending order, and with a key every later key of the scope is left. -/
structure Workload (scope : EffectivePartitionKey → Prop) (children : List Request) : Prop where
  sliced : ∀ c ∈ children, ∃ range, c.feedRange = some range ∧
    range.minInclusive < range.maxExclusive
  live : ∀ c ∈ children, c.state ≠ .drained
  ascending : Ascending (ledger children)
  inside : ∀ e, Owned (ledger children) e → scope e
  upward : ∀ e e', Owned (ledger children) e → e ≤ e' → scope e' → Owned (ledger children) e'

theorem cuts_sliced
    (exact : Cuts range cuts) (operation : CosmosOperation) (continuation : Option String) :
    ∀ c ∈ cuts.map (pieceLeaf operation continuation), ∃ slice, c.feedRange = some slice ∧
      slice.minInclusive < slice.maxExclusive := by
  refine forall_mem_map.mpr fun piece hp => ?_
  exact ⟨piece.2, pieceLeaf_feedRange _ _ _, (intersectFeedRanges_some (exact.piece piece hp)).1⟩

theorem cuts_live (operation : CosmosOperation) (continuation : Option String) :
    ∀ c ∈ cuts.map (pieceLeaf operation continuation), c.state ≠ .drained :=
  forall_mem_map.mpr fun _ _ => new_live _ _ _

theorem owned_flatMap {γ : Type} {xs : List γ} {f : γ → Ledger EffectivePartitionKey β}
    {e : EffectivePartitionKey} : Owned (xs.flatMap f) e ↔ ∃ x ∈ xs, Owned (f x) e := by
  simp only [Owned, mem_flatMap]
  constructor
  · rintro ⟨p, ⟨x, hx, hp⟩, has⟩
    exact ⟨x, hx, p, hp, has⟩
  · rintro ⟨x, hx, p, hp, has⟩
    exact ⟨p, ⟨x, hx, hp⟩, has⟩

theorem ledger_flatMap {γ : Type} (xs : List γ) (f : γ → List Request) :
    ledger (xs.flatMap f) = xs.flatMap fun x => ledger (f x) := by
  induction xs with
  | nil => rfl
  | cons x xs ih => simp [ih]

theorem clipToScope_within {planRange clipped : FeedRange}
    (h : clipToScope scope planRange = some clipped) : clipped.span.Within planRange.span := by
  unfold clipToScope at h
  split at h
  · exact (intersectFeedRanges_within h).2
  · cases h
    exact ⟨Std.le_refl _, Std.le_refl _⟩

theorem clipped_pairwise (ordered : ranges.Pairwise fun a b => a.span.Before b.span) :
    (ranges.filterMap (clipToScope scope)).Pairwise fun a b => a.span.Before b.span := by
  rw [pairwise_filterMap]
  refine ordered.imp fun {a b} before c hc d hd => ?_
  have wc := clipToScope_within hc
  have wd := clipToScope_within hd
  simp only [Span.Before, Span.Within] at *
  grind

theorem freshLeaves_owned_iff (valid : m.Valid) {feedRanges : List FeedRange}
    (each : ∀ r ∈ feedRanges, overFeedRange (some m) (freshLeaf operation) r =
      .ok (emitted (overFeedRange (some m) (freshLeaf operation)) r)) (e : EffectivePartitionKey) :
    Owned (ledger (feedRanges.flatMap (emitted (overFeedRange (some m) (freshLeaf operation))))) e ↔
      Scope feedRanges e := by
  rw [ledger_flatMap, owned_flatMap]
  constructor
  · rintro ⟨r, hr, holds⟩
    obtain ⟨_, cuts, exact, eq⟩ := overFeedRange_fresh_inv valid (each r hr)
    rw [eq, cuts_owned_iff exact] at holds
    exact ⟨⟨r, hr, holds.1⟩, holds.2⟩
  · rintro ⟨⟨r, hr, has⟩, below⟩
    obtain ⟨_, cuts, exact, eq⟩ := overFeedRange_fresh_inv valid (each r hr)
    exact ⟨r, hr, by rw [eq, cuts_owned_iff exact]; exact ⟨has, below⟩⟩

theorem planFresh_workload (valid : m.Valid) (converted : planRanges plan operation = .ok ranges)
    (ordered : ranges.Pairwise fun a b => a.span.Before b.span)
    (planned : planFresh plan (some m) operation = .ok nodes) :
    Workload (Scope (ranges.filterMap (clipToScope operation.target))) nodes ∧
      ∀ r ∈ ranges.filterMap (clipToScope operation.target),
        r.minInclusive < r.maxExclusive ∧ r.minInclusive < .MAX := by
  obtain ⟨ranges', converted', planned⟩ := overQueryRanges_inv planned
  rw [converted, Except.ok.injEq] at converted'
  subst converted'
  obtain ⟨each, rfl⟩ := emitAll_inv planned
  have cut := fun r hr => overFeedRange_fresh_inv valid (each r hr)
  have owned := freshLeaves_owned_iff valid each
  refine ⟨⟨?_, ?_, ?_, fun e => (owned e).mp, fun e e' _ _ => (owned e').mpr⟩,
    fun r hr => (cut r hr).1⟩
  · intro c hc
    obtain ⟨r, hr, hc⟩ := mem_flatMap.mp hc
    obtain ⟨_, cuts, exact, eq⟩ := cut r hr
    exact cuts_sliced exact operation none c (eq ▸ hc)
  · intro c hc
    obtain ⟨r, hr, hc⟩ := mem_flatMap.mp hc
    obtain ⟨_, cuts, _, eq⟩ := cut r hr
    exact cuts_live operation none c (eq ▸ hc)
  · rw [ledger_flatMap]
    refine ascending_flatMap FeedRange.span _ (clipped_pairwise ordered) ?_ ?_
    · intro r hr p hp
      obtain ⟨_, cuts, exact, eq⟩ := cut r hr
      exact cuts_within exact operation none p (eq ▸ hp)
    · intro r hr
      obtain ⟨_, cuts, exact, eq⟩ := cut r hr
      rw [eq]
      exact (cuts_ledger exact operation none).2

theorem poll_kept_live {w : Poll} {current : Request} (live : current.state ≠ .drained)
    (unfinished : ¬ (poll w current).Finished) : (poll w current).after.state ≠ .drained := by
  change (nextPage w current).2.state ≠ _
  change ¬ ((nextPage w current).1 = _ ∨ ∃ _, (nextPage w current).1 = _)
    at unfinished
  have cases := nextPage_cases w current
  generalize (nextPage w current).1 = report at cases unfinished
  generalize (nextPage w current).2 = after at cases
  cases cases with
  | failed | drained | split => exact live
  | page response =>
    obtain ⟨terminal, page, ends⟩ := handleResponse_page current response live
    intro done
    rw [ends.mpr done] at page
    exact unfinished (.inr ⟨response, congrArg Except.ok page⟩)

section WorkloadSteps

variable {scope : EffectivePartitionKey → Prop}

variable {current : Request} {rest : List Request}

theorem Workload.replace {nodes : List Request}
    (spaced : ∀ e, scope e → e < .MAX) (before : Workload scope (current :: rest))
    (fills : Refills current nodes)
    (sliced : ∀ c ∈ nodes, ∃ range, c.feedRange = some range ∧
      range.minInclusive < range.maxExclusive)
    (live : ∀ c ∈ nodes, c.state ≠ .drained) : Workload scope (nodes ++ rest) where
  sliced := forall_mem_append.mpr ⟨sliced, (forall_mem_cons.mp before.sliced).2⟩
  live := forall_mem_append.mpr ⟨live, (forall_mem_cons.mp before.live).2⟩
  ascending := fills.inOrder (l := []) before.ascending
  inside e holds := before.inside e (fills.owned_of (l := []) holds)
  upward e e' holds le inScope := (fills.owned_iff (l := []) (spaced e' inScope)).mpr
    (before.upward e e' (fills.owned_of (l := []) holds) le inScope)

/-- The first child may leave: what is left is still the upper end of the scope. -/
theorem Workload.tail (before : Workload scope (current :: rest)) : Workload scope rest := by
  obtain ⟨range, slice, _⟩ := before.sliced current (.head _)
  have asc := before.ascending
  have inside := before.inside
  have upward := before.upward
  simp only [ledger_cons slice, owned_cons] at asc inside upward
  obtain ⟨first, later⟩ := ascending_cons.mp asc
  refine ⟨fun c hc => before.sliced c (.tail _ hc),
    fun c hc => before.live c (.tail _ hc), later,
    fun e holds => inside e (.inr holds), ?_⟩
  rintro e e' ⟨p, hp, has⟩ le inScope
  rcases upward e e' (.inr ⟨p, hp, has⟩) le inScope with held | holds
  · -- a key of the first child is below every later child
    have := first p hp
    unfold Span.Before at this
    unfold Span.Has at *
    grind
  · exact holds

/-- **Step lemma.**  One poll keeps the workload. -/
theorem drainStep_workload {children children' : List Request} {p : Polled Request}
    (spaced : ∀ e, scope e → e < .MAX) (before : Workload scope children)
    (step : DrainStep Poll.Complete children p children') : Workload scope children' := by
  cases step with
  | @kept w current rest complete unfinished =>
    obtain ⟨range, slice, proper⟩ := before.sliced current (.head _)
    have live := before.live current (.head _)
    refine before.replace spaced (refills_kept slice w) ?_ ?_
    · intro c hc
      rw [mem_singleton.mp hc]
      exact ⟨range, poll_kept_feedRange.trans slice, proper⟩
    · intro c hc
      rw [mem_singleton.mp hc]
      exact poll_kept_live live unfinished
  | finished => exact before.tail
  | @split w current rest nodes complete replaced =>
    obtain ⟨range, cuts, slice, exact, rfl⟩ := poll_split_cuts complete replaced
    exact before.replace spaced (refills_cuts slice exact _ _) (cuts_sliced exact _ _) (cuts_live _ _)

end WorkloadSteps

/-- The drains a program can hold for a plan: a fresh plan over a complete topology, then
any number of calls in which every refreshed topology is complete. -/
inductive Reachable (plan : QueryPlan) (operation : CosmosOperation) : List Request → Prop
  | planned {m : ContainerRoutingMap} {children : List Request} (valid : m.Valid)
    (built : buildSequentialDrain plan (some m) operation none =
      .ok (.sequentialDrain children)) : Reachable plan operation children
  | called {children : List Request} {answers : List Poll}
    (before : Reachable plan operation children)
    (complete : ∀ w ∈ answers, w.Complete) :
    Reachable plan operation (drainNextPage answers children).children

theorem buildSequentialDrain_fresh_inv {topology : Option ContainerRoutingMap}
    (h : buildSequentialDrain plan topology operation none = .ok (.sequentialDrain children)) :
    validateQueryPlan plan = .ok () ∧ planFresh plan topology operation = .ok children := by
  obtain ⟨⟨⟩, validated, h⟩ := bind_ok h
  obtain ⟨nodes, planned, h⟩ := bind_ok h
  split at h
  · exact absurd h (by simp [fail])
  · cases h
    exact ⟨validated, planned⟩

/-- Every reachable drain of a plan with sorted disjoint ranges has a workload over the
plan's scope, and the plan's ranges are nonempty parts of the EPK space. -/
theorem reachable_workload (converted : planRanges plan operation = .ok ranges)
    (ordered : ranges.Pairwise fun a b => a.span.Before b.span)
    (reached : Reachable plan operation children) :
    validateQueryPlan plan = .ok () ∧
    Workload (Scope (ranges.filterMap (clipToScope operation.target))) children ∧
      ∀ r ∈ ranges.filterMap (clipToScope operation.target),
        r.minInclusive < r.maxExclusive ∧ r.minInclusive < .MAX := by
  induction reached with
  | planned valid built =>
    obtain ⟨validated, planned⟩ := buildSequentialDrain_fresh_inv built
    exact ⟨validated, planFresh_workload valid converted ordered planned⟩
  | called _ complete ih =>
    obtain ⟨validated, workload, proper⟩ := ih
    refine ⟨validated, (drainLoop_run complete).invariant ?_ workload, proper⟩
    exact fun before step => drainStep_workload (fun e inScope => inScope.2) before step

end AzureSdk.Cosmos.Dataflow

/-
# Cosmos.Dataflow.UnorderedMerge — the round-robin node of change feeds

The merge polls its children in turn.  A child stays in the rotation when it yields a
page or fails, leaves it when it reports `Drained`, and is replaced by its split
children in place (`Rotates`); nothing else moves a child (`mergeCalls_rotates`).

The end of a feed is another matter.  The loop counts the children that reported
`Drained` against the number of children at entry, while splits of the same call add
children.  `merge_drained_iff` says exactly when a reported end is a real one, and
`splitThenDrained_ends_early` is the run in which it is not.
-/
import Mathlib.Algebra.Order.Group.Multiset
import Mathlib.Tactic.Abel
import AzureSdk.Cosmos.Dataflow.Drain

namespace AzureSdk.Cosmos.Dataflow

open Theory List

structure UnorderedMerge (ν : Type) where
  children : List ν
  cursor : Nat
  startMarker : Option ChangeFeedStartFrom
  deriving DecidableEq

/-- What a poll did to the child whose turn it was. -/
inductive Turn (ν : Type)
  | stayed (p : Polled ν)
  | drained (p : Polled ν)
  | replaced (p : Polled ν) (nodes : List ν)

/-- A call of the merge: how it ended, the merge it leaves, and the turns it took. -/
structure MergeCall (ν : Type) where
  outcome : Outcome ν
  merge : UnorderedMerge ν
  turns : List (Turn ν)

/-- Adds an earlier turn to the record of a call. -/
def MergeCall.after {ν : Type} (t : Turn ν) (c : MergeCall ν) : MergeCall ν :=
  { c with turns := t :: c.turns }

section Merge

variable {ω ν : Type} [PipelineNode ω ν]

/-- The loop of `UnorderedMerge::next_page`: `childrenCount` is fixed at entry, the
counters are the splits and the drained children so far. -/
def mergeLoop (childrenCount : Nat) : Nat → Nat → List ω → UnorderedMerge ν → MergeCall ν
  | _, _, [], self =>
    ⟨if self.children.isEmpty then .returned (.ok .drained) else .pending, self, []⟩
  | splitRetries, attempts, w :: answers, self =>
    let idx := self.cursor % self.children.length
    match self.children[idx]? with
    | none => ⟨.returned (.ok .drained), self, []⟩
    | some child =>
      let p := poll w child
      let polled := self.children.set idx p.after
      match p.report with
      | .error fault => ⟨.returned (.error fault), { self with children := polled }, [.stayed p]⟩
      | .ok (.page response _) =>
        ⟨.returned (.ok (.page response false)),
          { self with children := polled, cursor := (idx + 1) % self.children.length },
          [.stayed p]⟩
      | .ok .drained =>
        let children := self.children.eraseIdx idx
        if children.isEmpty then
          ⟨.returned (.ok .drained), { self with children := children }, [.drained p]⟩
        else
          let self := { self with children := children, cursor := self.cursor % children.length }
          if childrenCount ≤ attempts + 1 then
            ⟨.returned (.ok .drained), self, [.drained p]⟩
          else
            (mergeLoop childrenCount splitRetries (attempts + 1) answers self).after (.drained p)
      | .ok (.splitRequired replacementNodes) =>
        if maxSplitRetries < splitRetries + 1 then
          ⟨.returned (fail .clientSplitRetriesExhausted
            "exceeded maximum split retries (10) in UnorderedMerge"),
            { self with children := polled }, [.stayed p]⟩
        else
          let children :=
            self.children.take idx ++ replacementNodes ++ self.children.drop (idx + 1)
          (mergeLoop childrenCount (splitRetries + 1) attempts answers
            { self with children := children }).after (.replaced p replacementNodes)

/-- `UnorderedMerge::next_page`. -/
def mergeNextPage (answers : List ω) (self : UnorderedMerge ν) : MergeCall ν :=
  if self.children.isEmpty then ⟨.returned (.ok .drained), self, []⟩
  else mergeLoop self.children.length 0 0 answers self

/-- Any number of calls, one after the other, with all their turns. -/
def mergeCalls : List (List ω) → UnorderedMerge ν → UnorderedMerge ν × List (Turn ν)
  | [], self => (self, [])
  | answers :: calls, self =>
    let call := mergeNextPage answers self
    let later := mergeCalls calls call.merge
    (later.1, call.turns ++ later.2)

/-- The loop of `UnorderedMerge::snapshot_state`, from child `idx` on. -/
def mergeSnapshotLoop (total : Nat) : Nat → List ν → Result (List RangedToken)
  | _, [] => .ok []
  | idx, child :: rest =>
    match PipelineNode.feedRange child with
    | none => fail .clientContinuationTokenUnexpectedNestedShape
      ("UnorderedMerge child " ++ toString idx ++ " of " ++ toString total ++
        " has no feed_range; cannot snapshot continuation state safely")
    | some range => do
      let childState ← PipelineNode.snapshotState child
      let contribution ← intoChildContribution "UnorderedMerge" idx total childState
      let activeTokens ← mergeSnapshotLoop total (idx + 1) rest
      match contribution with
      | .pending (some token) =>
        .ok (⟨range.minInclusive.toHex, range.maxExclusive.toHex, token⟩ :: activeTokens)
      | _ => .ok activeTokens

/-- `UnorderedMerge::snapshot_state`. -/
def mergeSnapshotState (self : UnorderedMerge ν) : Result PipelineNodeState :=
  if self.children.isEmpty then .ok .drained
  else do
    let activeTokens ← mergeSnapshotLoop self.children.length 0 self.children
    .ok (.unorderedMerge activeTokens self.startMarker)

/-! ## The loop as a run of turns -/

/-- One turn of the rotation, of the child at position `i`.  `admits` restricts what the
outside world answers. -/
inductive Rotates (admits : ω → Prop) : List ν → Turn ν → List ν → Prop
  | stayed {w : ω} {children : List ν} {i : Nat} {child : ν} (admitted : admits w)
    (here : children[i]? = some child) (unfinished : (poll w child).report ≠ .ok .drained) :
    Rotates admits children (.stayed (poll w child)) (children.set i (poll w child).after)
  | drained {w : ω} {children : List ν} {i : Nat} {child : ν} (admitted : admits w)
    (here : children[i]? = some child) (done : (poll w child).report = .ok .drained) :
    Rotates admits children (.drained (poll w child)) (children.eraseIdx i)
  | replaced {w : ω} {children nodes : List ν} {i : Nat} {child : ν} (admitted : admits w)
    (here : children[i]? = some child)
    (split : (poll w child).report = .ok (.splitRequired nodes)) :
    Rotates admits children (.replaced (poll w child) nodes)
      (children.take i ++ nodes ++ children.drop (i + 1))

/-- What a call of the loop can do from a merge with `attempts` drained children so far. -/
inductive MergeTrace (admits : ω → Prop) (childrenCount : Nat) :
    Nat → UnorderedMerge ν → MergeCall ν → Prop
  | ended {attempts : Nat} {self : UnorderedMerge ν} (none : self.children = []) :
    MergeTrace admits childrenCount attempts self ⟨.returned (.ok .drained), self, []⟩
  | waiting {attempts : Nat} {self : UnorderedMerge ν} :
    MergeTrace admits childrenCount attempts self ⟨.pending, self, []⟩
  | stayed {attempts i cursor : Nat} {self : UnorderedMerge ν} {w : ω} {child : ν}
    {result : Result (PageResult ν)} (admitted : admits w)
    (here : self.children[i]? = some child)
    (unfinished : (poll w child).report ≠ .ok .drained) (more : result ≠ .ok .drained) :
    MergeTrace admits childrenCount attempts self
      ⟨.returned result, ⟨self.children.set i (poll w child).after, cursor, self.startMarker⟩,
        [.stayed (poll w child)]⟩
  | last {attempts i cursor : Nat} {self : UnorderedMerge ν} {w : ω} {child : ν}
    (admitted : admits w) (here : self.children[i]? = some child)
    (done : (poll w child).report = .ok .drained)
    (final : self.children.eraseIdx i = [] ∨ childrenCount ≤ attempts + 1) :
    MergeTrace admits childrenCount attempts self
      ⟨.returned (.ok .drained), ⟨self.children.eraseIdx i, cursor, self.startMarker⟩,
        [.drained (poll w child)]⟩
  | drained {attempts i cursor : Nat} {self : UnorderedMerge ν} {w : ω} {child : ν}
    {call : MergeCall ν} (admitted : admits w) (here : self.children[i]? = some child)
    (done : (poll w child).report = .ok .drained) (short : attempts + 1 < childrenCount)
    (rest : MergeTrace admits childrenCount (attempts + 1)
      ⟨self.children.eraseIdx i, cursor, self.startMarker⟩ call) :
    MergeTrace admits childrenCount attempts self (call.after (.drained (poll w child)))
  | replaced {attempts i : Nat} {self : UnorderedMerge ν} {w : ω} {child : ν} {nodes : List ν}
    {call : MergeCall ν} (admitted : admits w) (here : self.children[i]? = some child)
    (split : (poll w child).report = .ok (.splitRequired nodes))
    (rest : MergeTrace admits childrenCount attempts
      ⟨self.children.take i ++ nodes ++ self.children.drop (i + 1), self.cursor,
        self.startMarker⟩ call) :
    MergeTrace admits childrenCount attempts self (call.after (.replaced (poll w child) nodes))

variable {admits : ω → Prop} {childrenCount : Nat} {self : UnorderedMerge ν}

theorem mergeLoop_trace : ∀ {answers : List ω}
    (splitRetries attempts : Nat) (self : UnorderedMerge ν), (∀ w ∈ answers, admits w) →
    MergeTrace admits childrenCount attempts self
      (mergeLoop childrenCount splitRetries attempts answers self)
  | [], _, _, self, _ => by
    rw [mergeLoop]
    split
    · rename_i none
      exact .ended (isEmpty_iff.mp none)
    · exact .waiting
  | w :: answers, splitRetries, attempts, self, admitted => by
    have head := admitted w (.head _)
    have tail := fun v hv => admitted v (.tail _ hv)
    simp only [mergeLoop]
    split
    · rename_i none
      refine .ended (eq_nil_iff_length_eq_zero.mpr ?_)
      by_contra some
      have bound := Nat.mod_lt self.cursor (Nat.pos_of_ne_zero some)
      have := List.getElem?_eq_none_iff.mp none
      omega
    · rename_i child here
      split
      · rename_i report
        exact .stayed head here (by simp [report]) (by simp)
      · rename_i report
        exact .stayed head here (by simp [report]) (by simp)
      · rename_i report
        split
        · rename_i none
          exact .last head here report (.inl (isEmpty_iff.mp none))
        · split
          · rename_i reached
            exact .last head here report (.inr reached)
          · rename_i short
            exact .drained head here report (by omega)
              (mergeLoop_trace splitRetries (attempts + 1) _ tail)
      · rename_i report
        split
        · exact .stayed head here (by simp [report]) (by simp [fail])
        · exact .replaced head here report (mergeLoop_trace (splitRetries + 1) attempts _ tail)

variable {attempts : Nat} {call : MergeCall ν} {answers : List ω}

theorem MergeTrace.rotates (trace : MergeTrace admits childrenCount attempts self call) :
    Run (Rotates admits) self.children call.turns call.merge.children := by
  induction trace with
  | ended => exact .nil _
  | waiting => exact .nil _
  | stayed admitted here unfinished => exact .single (.stayed admitted here unfinished)
  | last admitted here done => exact .single (.drained admitted here done)
  | drained admitted here done _ _ ih => exact .cons (.drained admitted here done) ih
  | replaced admitted here split _ ih => exact .cons (.replaced admitted here split) ih

theorem MergeTrace.startMarker (trace : MergeTrace admits childrenCount attempts self call) :
    call.merge.startMarker = self.startMarker := by
  induction trace with
  | ended | waiting | stayed | last => rfl
  | drained _ _ _ _ _ ih => exact ih
  | replaced _ _ _ _ ih => exact ih

theorem mergeNextPage_startMarker (answers : List ω) (self : UnorderedMerge ν) :
    (mergeNextPage answers self).merge.startMarker = self.startMarker := by
  unfold mergeNextPage
  split
  · rfl
  · have trace : MergeTrace (fun _ => True) self.children.length 0 self
        (mergeLoop self.children.length 0 0 answers self) :=
      mergeLoop_trace 0 0 self fun _ _ => trivial
    exact trace.startMarker

theorem mergeNextPage_rotates (admitted : ∀ w ∈ answers, admits w) :
    Run (Rotates admits) self.children (mergeNextPage answers self).turns
      (mergeNextPage answers self).merge.children := by
  unfold mergeNextPage
  split
  · exact .nil self.children
  · exact (mergeLoop_trace 0 0 self admitted).rotates

theorem mergeCalls_rotates : ∀ (calls : List (List ω))
    (self : UnorderedMerge ν), (∀ answers ∈ calls, ∀ w ∈ answers, admits w) →
    Run (Rotates admits) self.children (mergeCalls calls self).2 (mergeCalls calls self).1.children
  | [], self, _ => .nil self.children
  | answers :: calls, self, admitted =>
    (mergeNextPage_rotates (admitted answers (.head _))).append
      (mergeCalls_rotates calls (mergeNextPage answers self).merge
        fun later hl => admitted later (.tail _ hl))

/-! ## Who has left the rotation -/

/-- The children a turn brings into the rotation. -/
def Turn.born : Turn ν → List ν
  | .replaced _ nodes => nodes
  | _ => []

/-- The child a turn takes out of it: one that reported `Drained` or was replaced. -/
def Turn.left : Turn ν → List ν
  | .stayed _ => []
  | .drained p => [p.child]
  | .replaced p _ => [p.child]

section Labels

variable {L : Type} (label : ν → L)

/-- Every child that was ever in the rotation, by its label. -/
def everExisted (children : List ν) (turns : List (Turn ν)) : Multiset L :=
  (children ++ turns.flatMap Turn.born).map label

/-- Every child that reported `Drained` or was replaced, by its label. -/
def everLeft (turns : List (Turn ν)) : Multiset L :=
  (turns.flatMap Turn.left).map label

variable {label} (stable : ∀ (w : ω) (child : ν), label (poll w child).after = label child)

theorem split_at {γ : Type} {xs : List γ} {i : Nat} {x : γ} (here : xs[i]? = some x) :
    xs = xs.take i ++ x :: xs.drop (i + 1) := by
  obtain ⟨bound, rfl⟩ := List.getElem?_eq_some_iff.mp here
  rw [← drop_eq_getElem_cons bound, take_append_drop]

theorem set_at {γ : Type} {xs : List γ} {i : Nat} {x : γ} (here : xs[i]? = some x) (y : γ) :
    xs.set i y = xs.take i ++ y :: xs.drop (i + 1) := by
  obtain ⟨bound, _⟩ := List.getElem?_eq_some_iff.mp here
  rw [set_eq_take_append_cons_drop, if_pos bound]

include stable

variable {admits : ω → Prop} {children children' : List ν}

theorem Rotates.conserves {t : Turn ν} (turn : Rotates admits children t children') :
    (↑(children.map label) + ↑(t.born.map label) : Multiset L) =
      ↑(children'.map label) + ↑(t.left.map label) := by
  cases turn with
  | stayed _ here _ =>
    rw [set_at here]
    nth_rewrite 1 [split_at here]
    simp [Turn.born, Turn.left, stable]
  | drained _ here _ =>
    rw [eraseIdx_eq_take_drop_succ]
    nth_rewrite 1 [split_at here]
    simp only [Turn.born, Turn.left, map_append, map_cons, map_nil,
      ← Multiset.coe_add, ← Multiset.cons_coe, ← Multiset.singleton_add, Multiset.coe_nil, poll]
    abel
  | replaced _ here _ =>
    nth_rewrite 1 [split_at here]
    simp only [Turn.born, Turn.left, map_append, map_cons, map_nil,
      ← Multiset.coe_add, ← Multiset.cons_coe, ← Multiset.singleton_add, Multiset.coe_nil, poll]
    abel

/-- Over a run, the children that ever existed are those that left and those still there. -/
theorem everExisted_eq {turns : List (Turn ν)}
    (run : Run (Rotates admits) children turns children') :
    everExisted label children turns = ↑(children'.map label) + everLeft label turns := by
  induction run with
  | nil => simp [everExisted, everLeft]
  | @cons s s' s'' t ts first _ ih =>
    have step := first.conserves stable
    simp only [everExisted, everLeft, flatMap_cons, map_append,
      ← Multiset.coe_add] at ih ⊢
    rw [← add_assoc, step, add_right_comm, ih]
    abel

end Labels

/-! ## When a reported end is a real one -/

/-- How many children reported `Drained`. -/
def drainedTurns (turns : List (Turn ν)) : Nat :=
  turns.countP fun | .drained _ => true | _ => false

def replacedTurns (turns : List (Turn ν)) : Nat :=
  turns.countP fun | .replaced _ _ => true | _ => false

/-- As many children of the call reported `Drained` as there were when it began, while its
splits brought in more children than they replaced. -/
def Overcounted (entry : List ν) (turns : List (Turn ν)) : Prop :=
  drainedTurns turns = entry.length ∧ replacedTurns turns < (turns.flatMap Turn.born).length

instance (entry : List ν) (turns : List (Turn ν)) : Decidable (Overcounted entry turns) :=
  inferInstanceAs (Decidable (_ ∧ _))

omit [PipelineNode ω ν] in
theorem left_length (turns : List (Turn ν)) :
    (turns.flatMap Turn.left).length = drainedTurns turns + replacedTurns turns := by
  unfold drainedTurns replacedTurns
  induction turns with
  | nil => rfl
  | cons t turns ih =>
    rw [flatMap_cons, length_append, ih]
    cases t <;> simp [Turn.left] <;> omega

theorem rotates_length {children children' : List ν} {turns : List (Turn ν)}
    (run : Run (Rotates admits) children turns children') :
    children.length + (turns.flatMap Turn.born).length =
      children'.length + (drainedTurns turns + replacedTurns turns) := by
  have unmarked : everExisted (fun _ : ν => ()) children turns = _ :=
    everExisted_eq (fun _ _ => rfl) run
  have counted := congrArg Multiset.card unmarked
  simpa only [everExisted, everLeft, Multiset.coe_card, Multiset.card_add, length_map,
    length_append, left_length] using counted

section Ends

variable {admits : ω → Prop} {childrenCount attempts : Nat} {self : UnorderedMerge ν}
  {call : MergeCall ν}

/-- The loop never counts past the children at entry. -/
theorem MergeTrace.drainedTurns_le (trace : MergeTrace admits childrenCount attempts self call)
    (start : attempts < childrenCount) : attempts + drainedTurns call.turns ≤ childrenCount := by
  induction trace with
  | ended | waiting | stayed => simpa [drainedTurns] using Nat.le_of_lt start
  | last =>
    simp [drainedTurns]
    omega
  | drained _ _ _ short _ ih =>
    have := ih short
    simp only [MergeCall.after, drainedTurns, countP_cons] at this ⊢
    simp
    omega
  | replaced _ _ _ _ ih => simpa [MergeCall.after, drainedTurns] using ih start

/-- It reports the end when no child is left or when it has counted that many. -/
theorem MergeTrace.end_cases (trace : MergeTrace admits childrenCount attempts self call)
    (ended : call.outcome = .returned (.ok .drained)) :
    call.merge.children = [] ∨ childrenCount ≤ attempts + drainedTurns call.turns := by
  induction trace with
  | ended none => exact .inl none
  | waiting => simp at ended
  | stayed _ _ _ more => simp [more] at ended
  | last _ _ _ final => simpa [drainedTurns] using final
  | drained _ _ _ _ _ ih =>
    refine (ih ended).imp_right fun enough => ?_
    simp only [MergeCall.after, drainedTurns, countP_cons] at enough ⊢
    simp
    omega
  | replaced _ _ _ _ ih => simpa [MergeCall.after, drainedTurns] using ih ended

end Ends

/-- A call that reports the end leaves no child exactly if it did not overcount. -/
theorem mergeNextPage_end_iff
    (ended : (mergeNextPage answers self).outcome = .returned (.ok .drained)) :
    (mergeNextPage answers self).merge.children = [] ↔
      ¬ Overcounted self.children (mergeNextPage answers self).turns := by
  unfold mergeNextPage at ended ⊢
  by_cases none : self.children.isEmpty
  · rw [if_pos none]
    simp [Overcounted, replacedTurns, isEmpty_iff.mp none]
  · rw [if_neg none] at ended ⊢
    have trace : MergeTrace (fun _ => True) self.children.length 0 self
        (mergeLoop self.children.length 0 0 answers self) :=
      mergeLoop_trace 0 0 self fun _ _ => trivial
    have some := length_pos_iff.mpr (mt isEmpty_iff.mpr none)
    have counted := rotates_length trace.rotates
    have most := trace.drainedTurns_le some
    have least := trace.end_cases ended
    rw [← length_eq_zero_iff] at least ⊢
    unfold Overcounted
    omega

/-- **The end of a merge.**  In every run, children only leave the rotation by reporting
`Drained` or by being replaced; and when a call reports the end, every child that ever
existed has left exactly if that call did not overcount.  `label` is any mark that a poll
leaves on a child. -/
theorem merge_drained_iff {L : Type} {label : ν → L}
    (stable : ∀ (w : ω) (child : ν), label (poll w child).after = label child)
    (self : UnorderedMerge ν) (calls : List (List ω)) (answers : List ω) :
    let past := mergeCalls calls self
    let call := mergeNextPage answers past.1
    Run (Rotates fun _ => True) self.children (past.2 ++ call.turns) call.merge.children ∧
      (call.outcome = .returned (.ok .drained) →
        (everExisted label self.children (past.2 ++ call.turns) =
            everLeft label (past.2 ++ call.turns) ↔
          ¬ Overcounted past.1.children call.turns)) := by
  intro past call
  have run : Run (Rotates fun _ => True) self.children (past.2 ++ call.turns) call.merge.children :=
    (mergeCalls_rotates calls self fun _ _ _ _ => trivial).append
      (mergeNextPage_rotates fun _ _ => trivial)
  refine ⟨run, fun ended => ?_⟩
  rw [everExisted_eq stable run, add_eq_right, Multiset.coe_eq_zero, map_eq_nil_iff]
  exact mergeNextPage_end_iff ended

end Merge

/-! ## A run that ends early -/

/-- A child that reports whatever it is told to. -/
structure ScriptedChild where
  name : String
  deriving DecidableEq

instance : PipelineNode (Result (PageResult ScriptedChild)) ScriptedChild where
  nextPage answer child := (answer, child)
  snapshotState _ := .ok (.request none)
  feedRange _ := none

def oneChild : UnorderedMerge ScriptedChild := ⟨[⟨"A"⟩], 0, none⟩

/-- The child splits in two and the first of the two is drained. -/
def splitThenDrained : MergeCall ScriptedChild :=
  mergeNextPage [.ok (.splitRequired [⟨"B"⟩, ⟨"C"⟩]), .ok .drained] oneChild

/-- The call reports the end of the feed with the child `C` still in the rotation. -/
theorem splitThenDrained_ends_early :
    splitThenDrained.outcome = .returned (.ok .drained) ∧
      splitThenDrained.merge.children = [⟨"C"⟩] ∧
      everExisted ScriptedChild.name oneChild.children splitThenDrained.turns = {"A", "B", "C"} ∧
      everLeft ScriptedChild.name splitThenDrained.turns = {"A", "B"} :=
  ⟨rfl, rfl, rfl, rfl⟩

/-- The same split in an earlier call, in which the first of the two yields a page. -/
def splitThenPage : UnorderedMerge ScriptedChild × List (Turn ScriptedChild) :=
  mergeCalls [[.ok (.splitRequired [⟨"B"⟩, ⟨"C"⟩]), .ok (.page ⟨[], none, none⟩ false)]] oneChild

/-- The next call, in which both are drained. -/
def bothDrained : MergeCall ScriptedChild :=
  mergeNextPage [.ok .drained, .ok .drained] splitThenPage.1

/-- Its end is a real one. -/
theorem bothDrained_ends_the_feed :
    bothDrained.outcome = .returned (.ok .drained) ∧
      everExisted ScriptedChild.name oneChild.children (splitThenPage.2 ++ bothDrained.turns) =
        everLeft ScriptedChild.name (splitThenPage.2 ++ bothDrained.turns) := by
  have law := merge_drained_iff (fun _ (child : ScriptedChild) => Eq.refl child.name) oneChild
    [[.ok (.splitRequired [⟨"B"⟩, ⟨"C"⟩]), .ok (.page ⟨[], none, none⟩ false)]]
    [.ok .drained, .ok .drained]
  have ended : bothDrained.outcome = .returned (.ok .drained) := rfl
  exact ⟨ended, (law.2 ended).mpr (by decide)⟩

end AzureSdk.Cosmos.Dataflow

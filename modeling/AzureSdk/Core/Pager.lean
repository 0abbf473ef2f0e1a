/-
# Core.Pager — the items of pages that are requested one after another

A `PageIterator` calls a callback for each page, with the continuation the page before came with;
an `ItemIterator` yields the items of those pages, one at a time.  Both are streams that are polled,
over futures that may be pending: that of a request is kept until it is ready, that in which a page
is turned into its items is polled once and dropped.

What the callback returns is given as `Answers`, with how often each future is pending.  `expected`
are the items of the pages in their order, up to the end or the first failure, each marked with the
answer it comes from.  `items_emitted_iff` says when the iterator yields them: where each page is
turned into its items at once (`Prompt`).  A page that is not is lost, with its items or its failure.
-/
import AzureSdk.Core.Error
import AzureSdk.Theory.Polled

namespace AzureSdk.Core.Pager

open Theory.Polled List

variable {κ α : Type}

/-- A page, as its `into_items` future: how often it is pending, and what it ends in. -/
structure Page (α : Type) where
  delay : Nat
  items : Result (List α)

/-- What successive calls of the page callback return, up to the last page or the first failure:
each with how often its future is pending. -/
inductive Answers (κ α : Type)
  | failed (delay : Nat) (error : Error)
  | more (delay : Nat) (response : Page α) (continuation : κ) (rest : Answers κ α)
  | done (delay : Nat) (response : Page α)

namespace Answers

/-- How often the future of the next call is pending. -/
def delay : Answers κ α → Nat
  | .failed delay _ => delay
  | .more delay _ _ _ => delay
  | .done delay _ => delay

def length : Answers κ α → Nat
  | .failed _ _ => 1
  | .more _ _ _ rest => rest.length + 1
  | .done _ _ => 1

end Answers

/-! ## Pages -/

/-- A request under way is how often it will still be pending, and `More` has the
continuation it is to be called with. -/
inductive State (κ : Type)
  | init
  | pending (left : Nat)
  | more (continuation : κ)
  | done

/-- `State::Init` or `State::More`, by whether there is a continuation. -/
def State.ofContinuation : Option κ → State κ
  | none => .init
  | some continuation => .more continuation

/-- `PageIterator`: `continuation` is that of its options, `answers` what the callback will return
from the call under way or the next one on, `served` how many pages it has returned. -/
structure PageIterator (κ α : Type) where
  state : State κ
  continuation : Option κ
  answers : Answers κ α
  served : Nat

namespace PageIterator

def new (continuation : Option κ) (answers : Answers κ α) : PageIterator κ α :=
  { state := .ofContinuation continuation, continuation, answers, served := 0 }

variable (s : PageIterator κ α)

/-- `poll_next`, from the result of a request on. -/
def answered : Option (Option (Result (Page α))) × PageIterator κ α :=
  match s.answers with
  | .failed _ error => (some (some (.error error)), { s with state := .done })
  | .more _ response continuation rest =>
    (some (some (.ok response)),
      { state := .more continuation, continuation := some continuation, answers := rest
        served := s.served + 1 })
  | .done _ response =>
    (some (some (.ok response)),
      { s with state := .done, continuation := none, served := s.served + 1 })

/-- The first poll of a new request. -/
def request : Option (Option (Result (Page α))) × PageIterator κ α :=
  match s.answers.delay with
  | 0 => s.answered
  | left + 1 => (none, { s with state := .pending left })

def pollNext : Option (Option (Result (Page α))) × PageIterator κ α :=
  match s.state with
  | .init => s.request
  | .pending 0 => s.answered
  | .pending (left + 1) => (none, { s with state := .pending left })
  | .more _ => s.request
  | .done => (some none, { s with continuation := none })

/-- How many results are still to come. -/
def size : Nat :=
  match s.state with
  | .done => 0
  | _ => s.answers.length

/-- What a poll can do: find a request pending, end, fail or return a page. -/
theorem pollNext_cases :
    (∃ left, s.pollNext = (none, { s with state := .pending left })) ∨
    (s.state = .done ∧ s.pollNext = (some none, { s with continuation := none })) ∨
    (s.state ≠ .done ∧ s.pollNext = s.answered) := by
  have requested : (∃ left, s.request = (none, { s with state := .pending left })) ∨
      s.request = s.answered := by
    unfold request
    split
    · exact .inr rfl
    · exact .inl ⟨_, rfl⟩
  unfold pollNext
  split
  case h_1 state | h_4 state =>
      rcases requested with pending | now
      · exact .inl pending
      · exact .inr (.inr ⟨by simp [state], now⟩)
  case h_2 state => exact .inr (.inr ⟨by simp [state], rfl⟩)
  case h_3 state => exact .inl ⟨_, rfl⟩
  case h_5 state => exact .inr (.inl ⟨state, rfl⟩)

variable {s s' : PageIterator κ α}

theorem served_pollNext {polled : Option (Option (Result (Page α)))}
    (h : s.pollNext = (polled, s')) :
    s.served ≤ s'.served ∧ ∀ page, polled = some (some (.ok page)) → s'.served = s.served + 1 := by
  rcases s.pollNext_cases with ⟨left, pending⟩ | ⟨-, ended⟩ | ⟨-, now⟩
  · rw [pending] at h
    cases h
    exact ⟨Nat.le_refl _, nofun⟩
  · rw [ended] at h
    cases h
    exact ⟨Nat.le_refl _, nofun⟩
  · rw [now] at h
    unfold answered at h
    split at h
    · cases h
      exact ⟨Nat.le_refl _, nofun⟩
    all_goals
      cases h
      exact ⟨Nat.le_succ _, fun _ _ => rfl⟩

theorem size_pollNext {page : Page α}
    (h : s.pollNext = (some (some (.ok page)), s')) : s'.size < s.size := by
  rcases s.pollNext_cases with ⟨left, pending⟩ | ⟨-, ended⟩ | ⟨going, now⟩
  · rw [pending] at h
    cases h
  · rw [ended] at h
    cases h
  · have whole : s.size = s.answers.length := by
      unfold size
      split
      · contradiction
      · rfl
    rw [now] at h
    unfold answered at h
    split at h
    · cases h
    all_goals
      rename_i answers
      cases h
      rw [whole, answers]
      simp [size, Answers.length]

end PageIterator

/-! ## Items -/

/-- What an item iterator yields, marked with the answer it comes from: the first is `1`. -/
inductive Outcome (α : Type)
  | item (answer : Nat) (item : α)
  | failed (answer : Nat) (error : Error)
  | finished

/-- An outcome of an answer after the first `number`. -/
def Outcome.After (number : Nat) : Outcome α → Prop
  | .item answer _ => number < answer
  | .failed answer _ => number < answer
  | .finished => True

/-- The items of the current page stand with the number of the page. -/
structure ItemIterator (κ α : Type) where
  iter : PageIterator κ α
  continuation : Option κ
  current : Option (Nat × List α)

namespace ItemIterator

def new (continuation : Option κ) (answers : Answers κ α) : ItemIterator κ α :=
  { iter := .new continuation answers, continuation, current := none }

def pollNext (s : ItemIterator κ α) : Option (Outcome α) × ItemIterator κ α :=
  match s.current with
  | some (page, item :: items) => (some (.item page item), { s with current := some (page, items) })
  | _ =>
    let continuation := s.iter.continuation
    match h : s.iter.pollNext with
    | (some (some (.ok page)), iter) =>
      match page.delay, page.items with
      | 0, .ok items =>
        pollNext { iter, continuation, current := some (iter.served, items) }
      | 0, .error error =>
        (some (.failed iter.served error), { iter, continuation, current := none })
      -- the future is dropped, and the page with it
      | _ + 1, _ => (none, { iter, continuation, current := none })
    | (some (some (.error error)), iter) =>
      (some (.failed (iter.served + 1) error), { iter, continuation, current := none })
    | (some none, iter) => (some .finished, { iter, continuation, current := none })
    | (none, iter) => (none, { iter, continuation, current := none })
  termination_by s.iter.size
  decreasing_by exact PageIterator.size_pollNext h

/-- The iterator between two pages. -/
def waiting (iter : PageIterator κ α) : ItemIterator κ α :=
  { iter, continuation := iter.continuation, current := none }

variable {iter iter' : PageIterator κ α} {continuation : Option κ} {outs : List (Outcome α)}

@[simp] theorem pollNext_item (number : Nat) (item : α) (items : List α) :
    pollNext { iter, continuation, current := some (number, item :: items) } =
      (some (.item number item), { iter, continuation, current := some (number, items) }) := by
  rw [pollNext]

theorem pollNext_exhausted (number : Nat) :
    pollNext { iter, continuation, current := some (number, []) } = pollNext (waiting iter) := by
  rw [pollNext, pollNext]
  rfl

/-- One round of the loop, by what the poll of the pages has returned. -/
theorem pollNext_waiting (iter : PageIterator κ α) :
    pollNext (waiting iter) =
      match iter.pollNext with
      | (some (some (.ok page)), iter') =>
        match page.delay, page.items with
        | 0, .ok items =>
          pollNext
            { iter := iter', continuation := iter.continuation
              current := some (iter'.served, items) }
        | 0, .error error =>
          (some (.failed iter'.served error),
            { iter := iter', continuation := iter.continuation, current := none })
        | _ + 1, _ =>
          (none, { iter := iter', continuation := iter.continuation, current := none })
      | (some (some (.error error)), iter') =>
        (some (.failed (iter'.served + 1) error),
          { iter := iter', continuation := iter.continuation, current := none })
      | (some none, iter') =>
        (some .finished, { iter := iter', continuation := iter.continuation, current := none })
      | (none, iter') =>
        (none, { iter := iter', continuation := iter.continuation, current := none }) := by
  rw [pollNext]
  simp only [waiting]
  split <;> simp_all

/-! ## What is emitted -/

theorem emits_none : Emits pollNext { iter, continuation, current := none } outs ↔
      Emits pollNext (waiting iter) outs :=
  emits_congr (by rw [pollNext, pollNext]; rfl)

theorem emits_of_pending (h : iter.pollNext = (none, iter')) :
    Emits pollNext (waiting iter) outs ↔ Emits pollNext (waiting iter') outs := by
  have first : pollNext (waiting iter) =
      (none, { iter := iter', continuation := iter.continuation, current := none }) := by
    rw [pollNext_waiting, h]
  rw [emits_pending first, emits_none]

theorem emits_items (number : Nat) (items : List α) :
    Emits pollNext { iter, continuation, current := some (number, items) }
        (items.map (.item number) ++ outs) ↔
      Emits pollNext (waiting iter) outs := by
  induction items with
  | nil => exact emits_congr (pollNext_exhausted number)
  | cons item items ih =>
    rw [map_cons, cons_append, emits_cons (pollNext_item number item items)]
    simpa using ih

theorem emits_left (left : Nat) :
    Emits pollNext (waiting { iter with state := .pending left }) outs ↔
      Emits pollNext (waiting { iter with state := .pending 0 }) outs := by
  induction left with
  | zero => rfl
  | succ left ih => exact (emits_of_pending rfl).trans ih

theorem emits_requested (new : iter.pollNext = iter.request) :
    Emits pollNext (waiting iter) outs ↔
      Emits pollNext (waiting { iter with state := .pending 0 }) outs := by
  cases delay : iter.answers.delay with
  | zero =>
    apply emits_congr
    have now : iter.request = iter.answered := by simp [PageIterator.request, delay]
    rw [pollNext_waiting, pollNext_waiting, new, now]
    rfl
  | succ left =>
    have pending : iter.request = (none, { iter with state := .pending left }) := by
      simp [PageIterator.request, delay]
    rw [emits_of_pending (new.trans pending), emits_left]

/-- The first `number` answers are used up. -/
structure After (number : Nat) (s : ItemIterator κ α) : Prop where
  served : number ≤ s.iter.served
  current : ∀ answer items, s.current = some (answer, items) → number < answer

variable {number : Nat} {s : ItemIterator κ α}

theorem After.pages {polled : Option (Option (Result (Page α)))} (after : After number s)
    (h : s.iter.pollNext = (polled, iter')) :
    After number { iter := iter', continuation, current := none } :=
  ⟨Nat.le_trans after.served (PageIterator.served_pollNext h).1, nofun⟩

theorem After.page {page : Page α} (after : After number s)
    (h : s.iter.pollNext = (some (some (.ok page)), iter')) : number < iter'.served := by
  rw [(PageIterator.served_pollNext h).2 page rfl]
  exact Nat.lt_succ_of_le after.served

theorem After.poll (after : After number s) :
    (∀ o ∈ (pollNext s).1, o.After number) ∧ After number (pollNext s).2 := by
  fun_induction pollNext s with
  | case1 s page item items current =>
    have later := after.current _ _ current
    refine ⟨?_, after.served, ?_⟩
    · rintro o ⟨⟩
      exact later
    · rintro answer rest ⟨⟩
      exact later
  | case2 s continuation page iter' polled items _ _ _ ih =>
    refine ih ⟨Nat.le_of_lt (after.page polled), ?_⟩
    rintro answer items ⟨⟩
    exact after.page polled
  | case3 s continuation page iter' polled error =>
    refine ⟨?_, after.pages polled⟩
    rintro o ⟨⟩
    exact after.page polled
  | case4 s continuation page iter' polled => exact ⟨nofun, after.pages polled⟩
  | case5 s continuation error iter' polled =>
    refine ⟨?_, after.pages polled⟩
    rintro o ⟨⟩
    exact Nat.lt_succ_of_le
      (Nat.le_trans after.served (PageIterator.served_pollNext polled).1)
  | case6 s continuation iter' polled =>
    refine ⟨?_, after.pages polled⟩
    rintro o ⟨⟩
    exact trivial
  | case7 s continuation iter' polled => exact ⟨nofun, after.pages polled⟩

theorem emits_after {o : Outcome α} (emits : Emits pollNext (waiting iter) (o :: outs)) :
    o.After iter.served :=
  emits.forall_mem After.poll ⟨Nat.le_refl _, nofun⟩ o (.head _)

end ItemIterator

/-! ## Items that are lost -/

namespace Page

/-- What the page of answer `number` is to yield, and after its items the rest. -/
def expected (number : Nat) (page : Page α) (rest : List (Outcome α)) : List (Outcome α) :=
  match page.items with
  | .ok items => items.map (.item number) ++ rest
  | .error error => [.failed number error]

/-- The page is turned into its items at once, or there are none. -/
def Prompt (page : Page α) : Prop := page.delay = 0 ∨ page.items = .ok []

end Page

namespace Answers

/-- The items of the pages in their order, up to the end or to the first request or page that
fails; `served` answers came before. -/
def expected (served : Nat) : Answers κ α → List (Outcome α)
  | .failed _ error => [.failed (served + 1) error]
  | .more _ response _ rest => response.expected (served + 1) (rest.expected (served + 1))
  | .done _ response => response.expected (served + 1) [.finished]

/-- No page up to the first that fails is pending with items or a failure. -/
def Prompt : Answers κ α → Prop
  | .failed _ _ => True
  | .more _ response _ rest => response.Prompt ∧ (response.items.isOk → rest.Prompt)
  | .done _ response => response.Prompt

end Answers

namespace ItemIterator

variable {iter iter' : PageIterator κ α} {page : Page α} {rest : List (Outcome α)}

/-- A page yields what it is to yield where it is prompt; otherwise the polls go on to the
answers after it. -/
theorem emits_page (h : iter.pollNext = (some (some (.ok page)), iter')) :
    Emits pollNext (waiting iter) (page.expected iter'.served rest) ↔
      page.Prompt ∧ (page.items.isOk → Emits pollNext (waiting iter') rest) := by
  have polled := pollNext_waiting iter
  rw [h] at polled
  obtain ⟨delay, items⟩ := page
  cases delay with
  | zero =>
    cases items with
    | ok items =>
      rw [emits_congr polled]
      simp only [Page.expected, emits_items]
      simp [Page.Prompt, Except.isOk, Except.toBool]
    | error error =>
      simp only [Page.expected, emits_cons polled]
      simp [Page.Prompt, Except.isOk, Except.toBool, Emits.nil]
  | succ delay =>
    rw [emits_pending polled, emits_none]
    cases items with
    | ok items =>
      cases items with
      | nil => simp [Page.expected, Page.Prompt, Except.isOk, Except.toBool]
      | cons item items =>
        have lost : ¬ Emits pollNext (waiting iter')
            (.item iter'.served item :: (items.map (.item iter'.served) ++ rest)) :=
          fun emits => Nat.lt_irrefl _ (emits_after emits)
        simpa [Page.expected, Page.Prompt] using lost
    | error error =>
      have lost : ¬ Emits pollNext (waiting iter') [.failed iter'.served error] :=
        fun emits => Nat.lt_irrefl _ (emits_after emits)
      simpa [Page.expected, Page.Prompt] using lost

theorem emits_last {o : Outcome α} {iter'' : ItemIterator κ α}
    (polled : pollNext (waiting iter) = (some o, iter'')) : Emits pollNext (waiting iter) [o] :=
  (emits_cons polled).mpr ⟨rfl, .nil _⟩

/-- From a new request on: by induction on the answers that are still to come. -/
theorem emits_expected_iff (answers : Answers κ α) {iter : PageIterator κ α}
    (asked : iter.answers = answers) (new : iter.pollNext = iter.request) :
    Emits pollNext (waiting iter) (answers.expected iter.served) ↔ answers.Prompt := by
  induction answers generalizing iter with
  | failed delay error =>
    have answered : ({ iter with state := .pending 0 } : PageIterator κ α).pollNext =
        (some (some (.error error)), { iter with state := .done }) := by
      simp only [PageIterator.pollNext, PageIterator.answered, asked]
    have emits := emits_last ((pollNext_waiting _).trans (by rw [answered]))
    rw [emits_requested new, Answers.expected, Answers.Prompt]
    exact iff_true_intro emits
  | more delay response continuation rest ih =>
    have answered : ({ iter with state := .pending 0 } : PageIterator κ α).pollNext =
        (some (some (.ok response)),
          { state := .more continuation, continuation := some continuation, answers := rest
            served := iter.served + 1 }) := by
      simp only [PageIterator.pollNext, PageIterator.answered, asked]
    rw [emits_requested new, Answers.expected, Answers.Prompt, emits_page answered]
    exact and_congr_right fun _ => imp_congr_right fun _ => ih rfl rfl
  | done delay response =>
    have answered : ({ iter with state := .pending 0 } : PageIterator κ α).pollNext =
        (some (some (.ok response)),
          { iter with state := .done, continuation := none, served := iter.served + 1 }) := by
      simp only [PageIterator.pollNext, PageIterator.answered, asked]
    rw [emits_requested new, Answers.expected, Answers.Prompt, emits_page answered]
    exact and_iff_left fun _ => emits_last (pollNext_waiting _)

/-- The iterator yields the items of all pages in their order and then ends, or yields those before
the first failure and then the failure, exactly where no page up to there is pending when it is to
be turned into its items. -/
theorem items_emitted_iff (continuation : Option κ) (answers : Answers κ α) :
    Emits pollNext (new continuation answers) (answers.expected 0) ↔ answers.Prompt :=
  emits_expected_iff answers rfl (by cases continuation <;> rfl)

/-- A last page of one item that is pending once: the iterator ends without the item. -/
theorem pending_page_lost :
    let answers : Answers String String := .done 0 { delay := 1, items := .ok ["item"] }
    Emits pollNext (new none answers) [.finished] ∧
      ¬ Emits pollNext (new none answers) [.item 1 "item", .finished] := by
  intro answers
  let spent : PageIterator String String :=
    { state := .done, continuation := none, answers, served := 1 }
  have dropped : pollNext (new none answers) = (none, waiting spent) :=
    pollNext_waiting (.new none answers)
  have ended : pollNext (waiting spent) = (some .finished, waiting spent) := pollNext_waiting spent
  rw [emits_pending dropped, emits_pending dropped, emits_cons ended, emits_cons ended]
  exact ⟨⟨rfl, .nil _⟩, nofun⟩

end ItemIterator

end AzureSdk.Core.Pager

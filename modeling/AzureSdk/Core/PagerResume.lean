/-
# Core.PagerResume — where a pager goes on

A sequence of pages is given by its first page and, for each later one, the continuation it is
requested with.  An `ItemIterator` over it keeps the continuation of the page whose items it is
yielding; a new iterator is resumed with it, and `into_pages` resumes the iterator itself.

`Paged` says where a page iterator stands in the sequence and what is still to come of it, `Coming`
the same of an item iterator; a poll keeps both.  So after an item the continuation is that of the
item's page.  After the end it is `None`, which is also the request of the first page:
`resumes_right_iff` says that resuming is right exactly up to the last item.
-/
import AzureSdk.Core.Pager

namespace AzureSdk.Core.Pager

open Theory.Polled List Outcome

variable {κ α : Type}

/-! ## A sequence of pages -/

/-- The first page, and each later one with the continuation it is requested with. -/
structure Pages (κ α : Type) where
  first : List α
  later : List (κ × List α)
  distinct : (later.map Prod.fst).Nodup

/-- What the callback returns from a page on; `timing n` is how often the `n`-th request and its
page are pending. -/
def answersFrom : List α → List (κ × List α) → (Nat → Nat × Nat) → Answers κ α
  | items, [], timing => .done (timing 0).1 { delay := (timing 0).2, items := .ok items }
  | items, (continuation, next) :: later, timing =>
    .more (timing 0).1 { delay := (timing 0).2, items := .ok items } continuation
      (answersFrom next later fun n => timing (n + 1))

section Requests

variable [DecidableEq κ]

/-- The page that is requested with a continuation, and those after it. -/
def resume (continuation : κ) : List (κ × List α) → Option (List α × List (κ × List α))
  | [] => none
  | (token, items) :: later => if token = continuation then some (items, later) else
    resume continuation later

variable {continuation : κ} {items : List α} {later : List (κ × List α)}

theorem resume_append :
    ∀ {before : List (κ × List α)}, continuation ∉ before.map Prod.fst →
      resume continuation (before ++ (continuation, items) :: later) = some (items, later)
  | [], _ => by simp [resume]
  | (token, _) :: before, new => by
    simp only [map_cons, mem_cons, not_or] at new
    rw [cons_append, resume, if_neg (Ne.symm new.1)]
    exact resume_append new.2

theorem resume_some :
    ∀ {all : List (κ × List α)}, resume continuation all = some (items, later) →
      ∃ before, all = before ++ (continuation, items) :: later
  | [], h => by cases h
  | (token, _) :: all, h => by
    rw [resume] at h
    split at h
    · next same =>
      cases h
      exact ⟨[], by rw [same, nil_append]⟩
    · obtain ⟨before, rfl⟩ := resume_some h
      exact ⟨_ :: before, rfl⟩

namespace Pages

variable (pages : Pages κ α)

/-- The page that is requested with a continuation, or the first one without. -/
def requested : Option κ → Option (List α × List (κ × List α))
  | none => some (pages.first, pages.later)
  | some continuation => resume continuation pages.later

/-- What the callback returns from the request with `continuation` on. -/
def serve (continuation : Option κ) (timing : Nat → Nat × Nat) : Answers κ α :=
  match pages.requested continuation with
  | some (items, later) => answersFrom items later timing
  | none => .failed 0 { kind := .other, message := "unknown continuation" }

/-- The pages before the one that is requested. -/
def before (continuation : Option κ) : Nat :=
  match pages.requested continuation with
  | some (_, later) => pages.later.length - later.length
  | none => 0

def sheets : List (List α) := pages.first :: pages.later.map Prod.snd

variable {pages : Pages κ α} {continuation : Option κ} {items : List α}
  {later : List (κ × List α)}

theorem requested_suffix (h : pages.requested continuation = some (items, later)) :
    ∃ before, pages.sheets = before ++ items :: later.map Prod.snd ∧
      before.length + later.length = pages.later.length := by
  cases continuation with
  | none =>
    cases h
    exact ⟨[], rfl, by simp⟩
  | some token =>
    obtain ⟨before, all⟩ := resume_some h
    refine ⟨pages.first :: before.map Prod.snd, ?_, ?_⟩
    · simp [sheets, all]
    · simp [all]
      omega

/-- The page after is requested with the continuation it stands with: no page before has it. -/
theorem requested_next {token : κ} {next : List α}
    (h : pages.requested continuation = some (items, (token, next) :: later)) :
    pages.requested (some token) = some (next, later) := by
  obtain ⟨before, all⟩ : ∃ before, pages.later = before ++ (token, next) :: later := by
    cases continuation with
    | none => exact ⟨[], (Prod.mk.inj (Option.some.inj h)).2⟩
    | some token' =>
      obtain ⟨before, all⟩ := resume_some h
      exact ⟨before ++ [(token', items)], by rw [all, append_assoc]; rfl⟩
  have distinct := pages.distinct
  rw [all, map_append, map_cons] at distinct
  have new : token ∉ before.map Prod.fst := fun mem =>
    (nodup_append.mp distinct).2.2 _ mem _ (.head _) rfl
  rw [requested, all]
  exact resume_append new

theorem before_requested (h : pages.requested continuation = some (items, later)) :
    pages.before continuation + later.length = pages.later.length := by
  obtain ⟨before, -, length⟩ := requested_suffix h
  simp only [Pages.before, h]
  omega

theorem sheets_drop (h : pages.requested continuation = some (items, later)) :
    pages.sheets.drop (pages.before continuation) = items :: later.map Prod.snd := by
  obtain ⟨before, all, length⟩ := requested_suffix h
  have count := before_requested h
  rw [all]
  exact drop_left' (by omega)

end Pages

/-! ## What the pages of an iterator are -/

/-- The page of answer `number` of an iterator over the pages after the first `base` is the one
that is requested with `continuation`. -/
def Pages.At (pages : Pages κ α) (base number : Nat) (continuation : Option κ) : Prop :=
  ∃ items later, pages.requested continuation = some (items, later) ∧
    base + number + later.length = pages.later.length + 1

/-- The items that are yielded of the page of answer `number`. -/
def Page.kept (number : Nat) (page : Page α) : List (Outcome α) :=
  match page.delay, page.items with
  | 0, .ok items => items.map (.item number)
  | _, _ => []

/-- The items that are yielded of all pages. -/
def Answers.kept (served : Nat) : Answers κ α → List (Outcome α)
  | .failed _ _ => []
  | .more _ response _ rest => response.kept (served + 1) ++ rest.kept (served + 1)
  | .done _ response => response.kept (served + 1)

/-- Where a page iterator over the pages after the first `base` stands in the sequence, and the
items that it leaves to come. -/
inductive Paged (pages : Pages κ α) (base : Nat) : PageIterator κ α → List (Outcome α) → Prop
  | asks (iter : PageIterator κ α) (timing : Nat → Nat × Nat) {items : List α}
    {later : List (κ × List α)} (going : iter.state ≠ .done)
    (requested : pages.requested iter.continuation = some (items, later))
    (answers : iter.answers = answersFrom items later timing)
    (number : base + iter.served + later.length = pages.later.length) :
    Paged pages base iter (iter.answers.kept iter.served)
  | spent (iter : PageIterator κ α) (done : iter.state = .done) (ended : iter.continuation = none) :
    Paged pages base iter []

namespace Paged

variable {pages : Pages κ α} {base : Nat} {iter : PageIterator κ α} {coming : List (Outcome α)}

variable {items : List α} {later : List (κ × List α)}

theorem new {start : Option κ}
    (known : pages.requested start = some (items, later)) (timing : Nat → Nat × Nat) :
    Paged pages (pages.before start) (.new start (pages.serve start timing))
      ((pages.serve start timing).kept 0) := by
  refine .asks (.new start (pages.serve start timing)) timing ?_ known ?_ ?_
  · cases start <;> simp [PageIterator.new, State.ofContinuation]
  · simp only [PageIterator.new, Pages.serve, known]
  · simpa [PageIterator.new] using Pages.before_requested known

/-- A result of a request: the page that was asked for, and the one after it is next. -/
theorem answered {timing : Nat → Nat × Nat}
    (requested : pages.requested iter.continuation = some (items, later))
    (answers : iter.answers = answersFrom items later timing)
    (number : base + iter.served + later.length = pages.later.length) :
    ∃ iter' page rest, iter.answered = (some (some (.ok page)), iter') ∧ page.items = .ok items ∧
      iter.answers.kept iter.served = page.kept iter'.served ++ rest ∧ Paged pages base iter' rest ∧
      pages.At base iter'.served iter.continuation := by
  cases later with
  | nil =>
    let iter' : PageIterator κ α :=
      { iter with state := .done, continuation := none, served := iter.served + 1 }
    have result : iter.answered = (some (some (.ok ⟨(timing 0).2, .ok items⟩)), iter') := by
      simp only [PageIterator.answered, answers, answersFrom, iter']
    refine ⟨_, _, [], result, rfl, ?_, .spent iter' rfl rfl, _, _, requested, ?_⟩
    · rw [answers, answersFrom, Answers.kept, append_nil]
    · change base + (iter.served + 1) + 0 = pages.later.length + 1
      simp only [length_nil] at number
      omega
  | cons next later =>
    obtain ⟨token, next⟩ := next
    rw [length_cons] at number
    let iter' : PageIterator κ α :=
      { state := .more token, continuation := some token
        answers := answersFrom next later fun n => timing (n + 1), served := iter.served + 1 }
    have result : iter.answered = (some (some (.ok ⟨(timing 0).2, .ok items⟩)), iter') := by
      simp only [PageIterator.answered, answers, answersFrom, iter']
    have after : base + iter'.served + later.length = pages.later.length := by
      change base + (iter.served + 1) + later.length = pages.later.length
      omega
    refine ⟨_, _, _, result, rfl, ?_,
      .asks iter' _ (by simp [iter']) (Pages.requested_next requested) rfl after, _, _, requested, ?_⟩
    · rw [answers, answersFrom, Answers.kept]
    · rw [length_cons]
      omega

/-- What a poll finds: a request that is pending, the end, or the page that was asked for. -/
theorem poll (h : Paged pages base iter coming) :
    match iter.pollNext with
    | (none, iter') => Paged pages base iter' coming
    | (some none, iter') => coming = [] ∧ iter.continuation = none ∧ Paged pages base iter' []
    | (some (some result), iter') => ∃ page items rest, result = .ok page ∧ page.items = .ok items ∧
      coming = page.kept iter'.served ++ rest ∧ Paged pages base iter' rest ∧
      pages.At base iter'.served iter.continuation := by
  cases h with
  | asks timing going requested answers number =>
    rcases iter.pollNext_cases with ⟨left, pending⟩ | ⟨done, -⟩ | ⟨-, now⟩
    · rw [pending]
      exact .asks { iter with state := .pending left } timing nofun requested answers number
    · contradiction
    · obtain ⟨iter', page, rest, result, found⟩ := answered requested answers number
      rw [now, result]
      exact ⟨page, _, rest, rfl, found⟩
  | spent done ended =>
    have polled : iter.pollNext = (some none, { iter with continuation := none }) := by
      simp only [PageIterator.pollNext, done]
    rw [polled]
    exact ⟨rfl, ended, .spent _ done rfl⟩

end Paged

/-! ## What the items of an iterator are -/

namespace ItemIterator

/-- The items of the current page that are left. -/
def left (s : ItemIterator κ α) : List (Outcome α) :=
  match s.current with
  | some (number, items) => items.map (.item number)
  | none => []

/-- The items that an item iterator leaves to come; with a current page, its continuation is the
one the page was requested with. -/
structure Coming (pages : Pages κ α) (base : Nat) (s : ItemIterator κ α)
    (coming : List (Outcome α)) : Prop where
  paged : ∃ rest, Paged pages base s.iter rest ∧ coming = s.left ++ rest
  current : ∀ number items, s.current = some (number, items) → pages.At base number s.continuation

omit [DecidableEq κ] in
theorem left_eq_nil {s : ItemIterator κ α}
    (exhausted : ∀ number item items, s.current = some (number, item :: items) → False) :
    s.left = [] := by
  unfold left
  split
  · next number items current =>
    cases items with
    | nil => rfl
    | cons item items => exact (exhausted _ _ _ current).elim
  · rfl

variable {pages : Pages κ α} {base : Nat} {s : ItemIterator κ α} {coming : List (Outcome α)}

/-- A poll is pending, finds the end, or yields the first item that was to come. -/
theorem Coming.poll (h : Coming pages base s coming) :
    (∃ s', pollNext s = (none, s') ∧ Coming pages base s' coming) ∨
    (∃ s', pollNext s = (some .finished, s') ∧ coming = [] ∧ s'.continuation = none ∧
      Coming pages base s' []) ∨
    (∃ s' number item rest, pollNext s = (some (.item number item), s') ∧
      coming = .item number item :: rest ∧ pages.At base number s'.continuation ∧
      Coming pages base s' rest) := by
  obtain ⟨⟨rest, paged, rfl⟩, current⟩ := h
  fun_induction pollNext s generalizing rest with
  | case1 s number item items page =>
    have here := current _ _ page
    refine .inr (.inr ⟨_, number, item, items.map (.item number) ++ rest, rfl, ?_, here, ?_⟩)
    · simp [left, page]
    · refine ⟨⟨rest, paged, rfl⟩, ?_⟩
      rintro _ _ ⟨⟩
      exact here
  | case2 s continuation page iter' polled items all prompt exhausted ih =>
    have found := paged.poll
    rw [polled] at found
    obtain ⟨_, _, rest', ⟨⟩, -, rfl, next, here⟩ := found
    rw [left_eq_nil exhausted, nil_append]
    have kept : page.kept iter'.served = items.map (.item iter'.served) := by
      simp only [Page.kept, prompt, all]
    rw [kept]
    refine ih ?_ rest' next
    rintro _ _ ⟨⟩
    exact here
  | case3 s continuation page iter' polled error failed prompt exhausted =>
    have found := paged.poll
    rw [polled] at found
    obtain ⟨_, _, _, ⟨⟩, all, -⟩ := found
    rw [failed] at all
    cases all
  | case4 s continuation page iter' polled delay pending exhausted =>
    have found := paged.poll
    rw [polled] at found
    obtain ⟨_, _, rest', ⟨⟩, -, rfl, next, -⟩ := found
    have lost : page.kept iter'.served = [] := by
      simp only [Page.kept, pending]
    refine .inl ⟨_, rfl, ⟨rest', next, ?_⟩, (by simp)⟩
    rw [left_eq_nil exhausted, lost]
    rfl
  | case5 s continuation error iter' polled exhausted =>
    have found := paged.poll
    rw [polled] at found
    obtain ⟨_, _, _, ⟨⟩, -⟩ := found
  | case6 s continuation iter' polled exhausted =>
    have found := paged.poll
    rw [polled] at found
    obtain ⟨rfl, ended, spent⟩ := found
    rw [left_eq_nil exhausted]
    exact .inr (.inl ⟨_, rfl, rfl, ended, ⟨[], spent, rfl⟩, (by simp)⟩)
  | case7 s continuation iter' polled exhausted =>
    have found := paged.poll
    rw [polled] at found
    refine .inl ⟨_, rfl, ⟨rest, found, ?_⟩, (by simp)⟩
    rw [left_eq_nil exhausted]
    rfl

end ItemIterator

end Requests

/-! ## Taking items -/

/-- How many polls there are until the answers are used up. -/
def Answers.polls : Answers κ α → Nat
  | .failed delay _ => delay + 1
  | .more delay _ _ rest => delay + 1 + rest.polls
  | .done delay _ => delay + 1

/-- How many of them come after the next answer. -/
def Answers.behind : Answers κ α → Nat
  | .more _ _ _ rest => rest.polls
  | _ => 0

theorem Answers.polls_eq (answers : Answers κ α) :
    answers.polls = answers.delay + 1 + answers.behind := by
  cases answers <;> rfl

/-- How many polls there are until the iterator is at its end. -/
def PageIterator.polls (s : PageIterator κ α) : Nat :=
  match s.state with
  | .init => s.answers.polls
  | .pending left => left + 1 + s.answers.behind
  | .more _ => s.answers.polls
  | .done => 0

theorem PageIterator.polls_answered (s : PageIterator κ α) :
    s.answered.2.polls ≤ s.answers.behind := by
  unfold answered
  split <;> simp [polls, Answers.behind, *]

theorem PageIterator.polls_pollNext {s s' : PageIterator κ α}
    {polled : Option (Option (Result (Page α)))} (h : s.pollNext = (polled, s'))
    (going : polled ≠ some none) : s'.polls < s.polls := by
  have answered := s.polls_answered
  have all := s.answers.polls_eq
  have requested (h : s.request = (polled, s')) : s'.polls < s.answers.polls := by
    unfold request at h
    split at h
    · rw [h] at answered
      simp only at answered
      omega
    · next left delay =>
      cases h
      simp only [polls]
      omega
  unfold pollNext at h
  split at h
  · next state =>
    simpa [polls, state] using requested h
  · next state =>
    rw [h] at answered
    simp only [polls, state] at answered ⊢
    omega
  · next left state =>
    cases h
    simp only [polls, state]
    omega
  · next state =>
    simpa [polls, state] using requested h
  · cases h
    contradiction

theorem ItemIterator.polls_pollNext {s s' : ItemIterator κ α} (h : s.pollNext = (none, s')) :
    s'.iter.polls < s.iter.polls := by
  fun_induction pollNext s with
  | case1 => cases h
  | case2 s continuation page iter' polled items _ _ _ ih =>
    exact Nat.lt_trans (ih h) (PageIterator.polls_pollNext polled (by simp))
  | case3 => cases h
  | case4 s continuation page iter' polled =>
    cases h
    exact PageIterator.polls_pollNext polled (by simp)
  | case5 => cases h
  | case6 => cases h
  | case7 s continuation iter' polled =>
    cases h
    exact PageIterator.polls_pollNext polled (by simp)

/-! ## Delivering pages -/

namespace PageIterator

/-- The iterator delivers the pages `sheets` and then ends. -/
def Delivers (iter : PageIterator κ α) (sheets : List (List α)) : Prop :=
  ∃ responses : List (Page α), responses.map Page.items = sheets.map .ok ∧
    Emits pollNext iter (responses.map (fun page => some (.ok page)) ++ [none])

theorem eq_of_delivered : ∀ {xs ys : List (Page α)},
    xs.map (fun page => (some (.ok page) : Option (Result (Page α)))) ++ [none] <+:
      ys.map (fun page => some (.ok page)) ++ [none] → xs = ys
  | [], [], _ => rfl
  | [], y :: ys, h => by simp at h
  | x :: xs, [], h => by simp at h
  | x :: xs, y :: ys, h => by
    simp only [map_cons, cons_append, cons_prefix_cons, Option.some.injEq,
      Except.ok.injEq] at h
    rw [h.1, eq_of_delivered h.2]

variable {iter : PageIterator κ α} {sheets sheets' : List (List α)}
  {outs : List (Option (Result (Page α)))}

theorem Delivers.unique (left : iter.Delivers sheets) (right : iter.Delivers sheets') :
    sheets = sheets' := by
  obtain ⟨xs, items, emits⟩ := left
  obtain ⟨ys, items', emits'⟩ := right
  have same : xs = ys := by
    rcases Emits.prefix_or emits emits' with le | le
    · exact eq_of_delivered le
    · exact (eq_of_delivered le).symm
  rw [same, items'] at items
  exact (map_inj_right fun _ _ => Except.ok.inj).mp items.symm

theorem emits_left (left : Nat) :
    Emits pollNext { iter with state := .pending left } outs ↔
      Emits pollNext { iter with state := .pending 0 } outs := by
  induction left with
  | zero => rfl
  | succ left ih =>
    have waits : pollNext { iter with state := .pending (left + 1) } =
        (none, { iter with state := .pending left }) := rfl
    rw [emits_pending waits, ih]

theorem emits_requested (new : iter.pollNext = iter.request) :
    Emits pollNext iter outs ↔ Emits pollNext { iter with state := .pending 0 } outs := by
  cases delay : iter.answers.delay with
  | zero =>
    have now : iter.request = iter.answered := by simp [request, delay]
    exact emits_congr (new.trans now)
  | succ left =>
    have pending : iter.request = (none, { iter with state := .pending left }) := by
      simp [request, delay]
    rw [emits_pending (new.trans pending), emits_left]

/-- By induction on the pages after the one that is asked for. -/
theorem delivers_answersFrom (items : List α) (later : List (κ × List α))
    (timing : Nat → Nat × Nat) {iter : PageIterator κ α} (new : iter.pollNext = iter.request)
    (answers : iter.answers = answersFrom items later timing) :
    iter.Delivers (items :: later.map Prod.snd) := by
  induction later generalizing items timing iter with
  | nil =>
    let last : PageIterator κ α :=
      { iter with state := .done, continuation := none, served := iter.served + 1 }
    have answered : ({ iter with state := .pending 0 } : PageIterator κ α).pollNext =
        (some (some (.ok ⟨(timing 0).2, .ok items⟩)), last) := by
      simp only [pollNext, PageIterator.answered, answers, answersFrom, last]
    refine ⟨[⟨(timing 0).2, .ok items⟩], rfl, ?_⟩
    rw [emits_requested new]
    have ended : last.pollNext = (some none, last) := rfl
    exact (emits_cons answered).mpr ⟨rfl, (emits_cons ended).mpr ⟨rfl, .nil _⟩⟩
  | cons next later ih =>
    let iter' : PageIterator κ α :=
      { state := .more next.1, continuation := some next.1
        answers := answersFrom next.2 later fun n => timing (n + 1), served := iter.served + 1 }
    have answered : ({ iter with state := .pending 0 } : PageIterator κ α).pollNext =
        (some (some (.ok ⟨(timing 0).2, .ok items⟩)), iter') := by
      simp only [pollNext, PageIterator.answered, answers, answersFrom, iter']
    have asked : iter'.pollNext = iter'.request := rfl
    obtain ⟨responses, sheets, emits⟩ := ih next.2 (fun n => timing (n + 1)) asked rfl
    refine ⟨⟨(timing 0).2, .ok items⟩ :: responses, by simp [sheets], ?_⟩
    rw [emits_requested new]
    exact (emits_cons answered).mpr ⟨rfl, emits⟩

end PageIterator

/-! ## Which items come of which page -/

/-- The item, where it comes from answer `number`. -/
def Outcome.itemOf (number : Nat) : Outcome α → Option α
  | .item answer value => if answer = number then some value else none
  | _ => none

variable {number served : Nat} {items : List α} {later : List (κ × List α)}

theorem Page.kept_isItem {page : Page α} :
    ∀ o ∈ page.kept number, ∃ item, o = .item number item := by
  intro o mem
  unfold kept at mem
  split at mem
  · obtain ⟨item, -, rfl⟩ := mem_map.mp mem
    exact ⟨item, rfl⟩
  · cases mem

theorem Answers.kept_isItem {answers : Answers κ α} :
    ∀ o ∈ answers.kept served, ∃ number item, o = .item number item ∧ served < number := by
  have page {served : Nat} {page : Page α} : ∀ o ∈ page.kept (served + 1),
      ∃ number item, o = .item number item ∧ served < number := by
    intro o mem
    obtain ⟨item, rfl⟩ := Page.kept_isItem o mem
    exact ⟨_, item, rfl, Nat.lt_succ_self _⟩
  induction answers generalizing served with
  | failed => simp [kept]
  | more delay response continuation rest ih =>
    intro o mem
    rcases mem_append.mp mem with here | later
    · exact page o here
    · obtain ⟨number, item, rfl, lt⟩ := ih o later
      exact ⟨number, item, rfl, by omega⟩
  | done delay response => exact page

theorem Page.filterMap_kept (number : Nat) (delay : Nat) (items : List α) :
    (kept number { delay, items := .ok items }).filterMap (itemOf number) =
      if delay = 0 then items else [] := by
  cases delay with
  | zero =>
    simp only [kept, filterMap_map]
    have some_item : itemOf number ∘ item number = (some : α → Option α) := by
      funext item
      simp [itemOf]
    rw [some_item, filterMap_some]
    rfl
  | succ delay => rfl

theorem Answers.filterMap_kept_of_le (le : number ≤ served) (answers : Answers κ α) :
    (answers.kept served).filterMap (itemOf number) = [] := by
  rw [filterMap_eq_nil_iff]
  intro o mem
  obtain ⟨answer, item, rfl, lt⟩ := kept_isItem o mem
  exact if_neg (by omega)

theorem filterMap_kept {sheet : List α} (timing : Nat → Nat × Nat) (served : Nat) {n : Nat}
    (h : (items :: later.map Prod.snd)[n]? = some sheet) :
    ((answersFrom items later timing).kept served).filterMap (itemOf (served + n + 1)) =
      if (timing n).2 = 0 then sheet else [] := by
  induction later generalizing items timing served n with
  | nil =>
    cases n with
    | zero =>
      cases h
      exact Page.filterMap_kept ..
    | succ n => simp at h
  | cons next later ih =>
    rw [answersFrom, Answers.kept, filterMap_append]
    cases n with
    | zero =>
      cases h
      rw [Answers.filterMap_kept_of_le (Nat.le_refl _), append_nil]
      exact Page.filterMap_kept ..
    | succ n =>
      have others : (Page.kept (served + 1) ⟨(timing 0).2, .ok items⟩).filterMap
          (itemOf (served + (n + 1) + 1)) = [] := by
        rw [filterMap_eq_nil_iff]
        intro o mem
        obtain ⟨item, rfl⟩ := Page.kept_isItem o mem
        exact if_neg (by omega)
      rw [others, nil_append]
      have number : served + (n + 1) + 1 = served + 1 + n + 1 := by omega
      rw [number]
      exact ih _ _ h

theorem kept_eq_nil {timing : Nat → Nat × Nat} (served : Nat)
    (pending : ∀ n sheet, (items :: later.map Prod.snd)[n]? = some sheet → (timing n).2 ≠ 0) :
    (answersFrom items later timing).kept served = [] := by
  have page : Page.kept (served + 1) ⟨(timing 0).2, .ok items⟩ = [] := by
    obtain ⟨delay, delayed⟩ := Nat.exists_eq_succ_of_ne_zero (pending 0 items rfl)
    rw [delayed]
    rfl
  induction later generalizing items timing served with
  | nil => exact page
  | cons next later ih =>
    have rest : ∀ n sheet, (next.2 :: later.map Prod.snd)[n]? = some sheet →
        (timing (n + 1)).2 ≠ 0 := fun n sheet here => pending (n + 1) sheet here
    rw [answersFrom, Answers.kept, page, nil_append]
    refine ih (served + 1) rest ?_
    obtain ⟨delay, delayed⟩ := Nat.exists_eq_succ_of_ne_zero (rest 0 next.2 rfl)
    rw [delayed]
    rfl

/-! ## Resuming -/

/-- The answer the last item came from, `0` without an item. -/
def lastAnswer (taken : List (Outcome α)) : Nat :=
  taken.foldl
    (fun last o =>
      match o with
      | .item answer _ => answer
      | _ => last) 0

theorem lastAnswer_finished (n : Nat) :
    lastAnswer (replicate n (.finished : Outcome α)) = 0 := by
  induction n with
  | zero => rfl
  | succ n ih =>
    exact ih

/-- All items of the page of answer `n + 1` have been taken. -/
def Pages.Full (pages : Pages κ α) (base : Nat) (taken : List (Outcome α)) (n : Nat) : Prop :=
  pages.sheets[base + n]? = some (taken.filterMap (itemOf (n + 1)))

/-- Going on after the first `skipped` pages: not before the page of the last item, and no page
after it is left out; once the items have ended, none is delivered that has been in full. -/
structure Pages.GoesOn (pages : Pages κ α) (base : Nat) (taken : List (Outcome α)) (skipped : Nat) :
    Prop where
  notBefore : lastAnswer taken ≠ 0 → base + lastAnswer taken ≤ skipped + 1
  noneLeftOut : skipped ≤ base + lastAnswer taken
  notAgain : .finished ∈ taken → ∀ n, pages.Full base taken n → base + n < skipped

/-- What the resumed iterator delivers are the pages from one on where it is right to go on. -/
def Pages.ResumesRight (pages : Pages κ α) (base : Nat) (taken : List (Outcome α))
    (resumed : PageIterator κ α) : Prop :=
  ∃ skipped ≤ pages.sheets.length, resumed.Delivers (pages.sheets.drop skipped) ∧
    pages.GoesOn base taken skipped

/-- `into_pages`; `answers` is what the callback returns from the next call on. -/
def ItemIterator.intoPages (s : ItemIterator κ α) (answers : Answers κ α) : PageIterator κ α :=
  { s.iter with
    continuation := s.continuation, state := .ofContinuation s.continuation, answers }

section Resuming

variable [DecidableEq κ] {pages : Pages κ α} {continuation : Option κ} {items : List α}
  {later : List (κ × List α)} {timing : Nat → Nat × Nat} {base : Nat} {taken : List (Outcome α)}

theorem Pages.before_le (known : pages.requested continuation = some (items, later)) :
    pages.before continuation ≤ pages.sheets.length := by
  have count := before_requested known
  rw [sheets, length_cons, length_map]
  omega

/-- The pages are delivered from the requested one on, and from no other. -/
theorem resumesRight_iff_goesOn (known : pages.requested continuation = some (items, later))
    {resumed : PageIterator κ α} (state : resumed.state = .ofContinuation continuation)
    (answers : resumed.answers = pages.serve continuation timing) :
    pages.ResumesRight base taken resumed ↔
      pages.GoesOn base taken (pages.before continuation) := by
  have delivers : resumed.Delivers (pages.sheets.drop (pages.before continuation)) := by
    rw [Pages.sheets_drop known]
    refine PageIterator.delivers_answersFrom items later timing ?_ ?_
    · cases continuation <;> simp [PageIterator.pollNext, state, State.ofContinuation]
    · rw [answers, Pages.serve, known]
  have le := Pages.before_le known
  constructor
  · rintro ⟨skipped, le', delivers', right⟩
    have same := congrArg List.length (delivers'.unique delivers)
    rw [length_drop, length_drop] at same
    have : skipped = pages.before continuation := by omega
    rwa [← this]
  · exact fun right => ⟨_, le, delivers, right⟩

namespace ItemIterator

/-- What has been taken, against the items that come. -/
def Read (pages : Pages κ α) (base : Nat) (all : List (Outcome α)) (s : ItemIterator κ α)
    (past : List (Outcome α)) : Prop :=
  ∃ coming, Coming pages base s coming ∧
    (past ++ coming = all ∨ coming = [] ∧ ∃ n, past = all ++ List.replicate n .finished)

/-- After an item the iterator is at the item's page, after the end at none. -/
def Left (pages : Pages κ α) (base : Nat) (all : List (Outcome α)) (s : ItemIterator κ α)
    (past : List (Outcome α)) : Prop :=
  past <+: all ∧ pages.At base (lastAnswer past) s.continuation ∨
    (∃ n, past = all ++ List.replicate (n + 1) .finished) ∧ s.continuation = none

variable {all past : List (Outcome α)} {s s' : ItemIterator κ α}

theorem Read.pending (h : Read pages base all s past) (polled : pollNext s = (none, s')) :
    Read pages base all s' past := by
  obtain ⟨coming, comes, split⟩ := h
  rcases comes.poll with ⟨_, pending, next⟩ | ⟨_, ended, -⟩ | ⟨_, _, _, _, yielded, -⟩
  · cases pending.symm.trans polled
    exact ⟨coming, next, split⟩
  · cases ended.symm.trans polled
  · cases yielded.symm.trans polled

theorem Read.ready {o : Outcome α} (h : Read pages base all s past)
    (polled : pollNext s = (some o, s')) :
    Read pages base all s' (past ++ [o]) ∧ Left pages base all s' (past ++ [o]) := by
  obtain ⟨coming, comes, split⟩ := h
  rcases comes.poll with
    ⟨_, pending, -⟩ | ⟨_, ended, rfl, none, next⟩ | ⟨_, number, item, rest, yielded, rfl, here, next⟩
  · cases pending.symm.trans polled
  · cases ended.symm.trans polled
    have spent : ∃ n, past = all ++ replicate n .finished := by
      rcases split with whole | ⟨-, spent⟩
      · exact ⟨0, by simpa using whole⟩
      · exact spent
    obtain ⟨n, rfl⟩ := spent
    have again : all ++ replicate n finished ++ [.finished] =
        all ++ replicate (n + 1) .finished := by
      rw [append_assoc, replicate_succ']
    rw [again]
    exact ⟨⟨[], next, .inr ⟨rfl, n + 1, rfl⟩⟩, .inr ⟨⟨n, rfl⟩, none⟩⟩
  · cases yielded.symm.trans polled
    have whole : past ++ [.item number item] ++ rest = all := by
      rcases split with whole | ⟨none, -⟩
      · simpa using whole
      · cases none
    refine ⟨⟨rest, next, .inl whole⟩, .inl ⟨⟨rest, whole⟩, ?_⟩⟩
    simpa [lastAnswer] using here

theorem taken_left {start : Option κ} (known : pages.requested start = some (items, later))
    (h : Taken pollNext (new start (pages.serve start timing)) taken s) :
    taken = [] ∧ s = new start (pages.serve start timing) ∨
      Left pages (pages.before start) ((pages.serve start timing).kept 0) s taken := by
  have begin : Read pages (pages.before start) ((pages.serve start timing).kept 0)
      (new start (pages.serve start timing)) [] :=
    ⟨_, ⟨⟨_, Paged.new known timing, rfl⟩, nofun⟩, .inl rfl⟩
  exact h.history Read.pending Read.ready begin

end ItemIterator

/-- All pages from the requested one on are lost: each has items, and is pending when it is to be
turned into them. -/
def Pages.AllLost (pages : Pages κ α) (start : Option κ) (timing : Nat → Nat × Nat) : Prop :=
  ∀ n sheet, pages.sheets[pages.before start + n]? = some sheet → (timing n).2 ≠ 0 ∧ sheet ≠ []

section Known

variable {start : Option κ} (known : pages.requested start = some (items, later))

include known

theorem Pages.getElem?_sheets (n : Nat) :
    pages.sheets[pages.before start + n]? = (items :: later.map Prod.snd)[n]? := by
  rw [← sheets_drop known, getElem?_drop]

theorem Pages.filterMap_taken (timing : Nat → Nat × Nat) (ends : Nat) {n : Nat} {sheet : List α}
    (h : pages.sheets[pages.before start + n]? = some sheet) :
    ((pages.serve start timing).kept 0 ++ replicate ends finished).filterMap
        (itemOf (n + 1)) = if (timing n).2 = 0 then sheet else [] := by
  rw [getElem?_sheets known] at h
  have here := filterMap_kept timing 0 h
  have nothing : (replicate ends finished).filterMap (itemOf (n + 1)) =
      ([] : List α) := by
    simp [filterMap_eq_nil_iff, itemOf]
  rw [filterMap_append, nothing, append_nil, Pages.serve, known]
  rwa [Nat.zero_add] at here

/-- A page is delivered in full unless it is lost. -/
theorem Pages.allLost_iff (ends : Nat) :
    pages.AllLost start timing ↔ ∀ n, ¬ pages.Full (pages.before start)
      ((pages.serve start timing).kept 0 ++ replicate ends .finished) n := by
  constructor
  · intro lost n full
    obtain ⟨pending, items⟩ := lost n _ full
    have taken := filterMap_taken known timing ends full
    rw [if_neg pending] at taken
    exact items taken
  · intro never n sheet here
    have taken := filterMap_taken known timing ends here
    constructor
    · intro prompt
      rw [if_pos prompt] at taken
      exact never n (here.trans (by rw [taken]))
    · rintro rfl
      rw [ite_self] at taken
      exact never n (here.trans (by rw [taken]))

theorem Pages.kept_of_allLost (lost : pages.AllLost start timing) :
    (pages.serve start timing).kept 0 = [] := by
  rw [serve, known]
  refine kept_eq_nil 0 fun n sheet here => (lost n sheet ?_).1
  rw [getElem?_sheets known, here]

theorem goesOn_iff {s : ItemIterator κ α}
    (h : Taken ItemIterator.pollNext (.new start (pages.serve start timing)) taken s) :
    (∃ found, pages.requested s.continuation = some found) ∧
      (pages.GoesOn (pages.before start) taken (pages.before s.continuation) ↔
        taken.length ≤ ((pages.serve start timing).kept 0).length ∨ pages.AllLost start timing) := by
  rcases ItemIterator.taken_left known h with
    ⟨rfl, rfl⟩ | ⟨begins, items', later', here, number⟩ | ⟨⟨n, rfl⟩, ended⟩
  · refine ⟨⟨_, known⟩, iff_of_true ⟨nofun, Nat.le_refl _, nofun⟩ (.inl (Nat.zero_le _))⟩
  · have count := Pages.before_requested here
    refine ⟨⟨_, here⟩, iff_of_true ⟨fun _ => by omega, by omega, ?_⟩ (.inl begins.length_le)⟩
    intro finished
    obtain ⟨_, _, isItem, -⟩ := Answers.kept_isItem _ (begins.subset finished)
    cases isItem
  · rw [ended]
    refine ⟨⟨_, rfl⟩, ?_⟩
    have first : pages.before none = 0 := Nat.sub_self _
    rw [first]
    constructor
    · intro right
      refine .inr ((Pages.allLost_iff known (n + 1)).mpr fun number full => ?_)
      exact absurd (right.notAgain (by simp) number full) (Nat.not_lt_zero _)
    · rintro (short | lost)
      · rw [length_append, length_replicate] at short
        omega
      · have never := (Pages.allLost_iff known (n + 1)).mp lost
        rw [Pages.kept_of_allLost known lost, nil_append] at never ⊢
        refine ⟨fun some_item => ?_, Nat.zero_le _, fun _ number full => (never number full).elim⟩
        exact (some_item (lastAnswer_finished (n + 1))).elim

end Known

/-- Any number of items can be taken.  The iterator that is resumed with the continuation, and the
one `into_pages` gives, go on where they should exactly as long as no more is taken than there are
items, or if no page has been delivered at all. -/
theorem resumes_right_iff (pages : Pages κ α) (start : Option κ)
    (known : (pages.requested start).isSome) (timing : Nat → Nat × Nat) (count : Nat) :
    (∃ taken s, Taken ItemIterator.pollNext (.new start (pages.serve start timing)) taken s ∧
      taken.length = count) ∧
    ∀ taken s, Taken ItemIterator.pollNext (.new start (pages.serve start timing)) taken s →
      taken.length = count → ∀ again : Nat → Nat × Nat,
        (pages.ResumesRight (pages.before start) taken
            (ItemIterator.new s.continuation (pages.serve s.continuation again)).iter ↔
          count ≤ ((pages.serve start timing).kept 0).length ∨ pages.AllLost start timing) ∧
        (pages.ResumesRight (pages.before start) taken
            (s.intoPages (pages.serve s.continuation again)) ↔
          count ≤ ((pages.serve start timing).kept 0).length ∨ pages.AllLost start timing) := by
  obtain ⟨⟨items, later⟩, known⟩ := Option.isSome_iff_exists.mp known
  refine ⟨exists_taken ItemIterator.polls_pollNext count _, ?_⟩
  rintro taken s h rfl again
  obtain ⟨⟨found, here⟩, goesOn⟩ := goesOn_iff known h
  rw [resumesRight_iff_goesOn here rfl rfl, resumesRight_iff_goesOn here rfl rfl]
  exact ⟨goesOn, goesOn⟩

/-- Two pages, of which two items are taken. -/
theorem resumes_right_two :
    let pages : Pages String Nat := { first := [1], later := [("b", [2])], distinct := by simp }
    ∃ taken s, Taken ItemIterator.pollNext (.new none (pages.serve none fun _ => (0, 0))) taken s ∧
      taken.length = 2 ∧
      pages.ResumesRight 0 taken (s.intoPages (pages.serve s.continuation fun _ => (0, 0))) := by
  intro pages
  obtain ⟨⟨taken, s, h, length⟩, right⟩ := resumes_right_iff pages none rfl (fun _ => (0, 0)) 2
  exact ⟨taken, s, h, length, (right taken s h length _).2.mpr (.inl (by decide))⟩

/-- One page of one item.  After the end, both iterators deliver the page again. -/
theorem ended_pager_restarts :
    let pages : Pages String Nat := { first := [1], later := [], distinct := .nil }
    let answers := pages.serve none fun _ => (0, 0)
    ∃ s, Taken ItemIterator.pollNext (.new none answers) [.item 1 1, .finished] s ∧
      (ItemIterator.new s.continuation (pages.serve s.continuation fun _ => (0, 0))).iter.Delivers
        [[1]] ∧
      (s.intoPages (pages.serve s.continuation fun _ => (0, 0))).Delivers [[1]] ∧
      pages.Full 0 [.item 1 1, .finished] 0 ∧
      ¬ pages.ResumesRight 0 [.item 1 1, .finished]
        (s.intoPages (pages.serve s.continuation fun _ => (0, 0))) := by
  intro pages answers
  let spent : PageIterator String Nat := { state := .done, continuation := none, answers, served := 1 }
  have first : ItemIterator.pollNext (.new none answers) =
      (some (.item 1 1), { iter := spent, continuation := none, current := some (1, []) }) := by
    refine (ItemIterator.pollNext_waiting (.new none answers)).trans ?_
    exact ItemIterator.pollNext_item 1 1 []
  have ended : ItemIterator.pollNext
      { iter := spent, continuation := none, current := some (1, []) } =
      (some .finished, ItemIterator.waiting spent) := by
    rw [ItemIterator.pollNext_exhausted]
    exact ItemIterator.pollNext_waiting spent
  have taken := Taken.ready first (.ready ended (.nil _))
  have delivers : (PageIterator.new none answers).Delivers [[1]] :=
    PageIterator.delivers_answersFrom [1] [] (fun _ => (0, 0)) rfl rfl
  have full : pages.Full 0 [.item 1 1, .finished] 0 := by
    simp [Pages.Full, Pages.sheets, pages, itemOf]
  refine ⟨_, taken, delivers, ?_, full, ?_⟩
  · exact PageIterator.delivers_answersFrom [1] [] (fun _ => (0, 0)) rfl rfl
  · have known : pages.requested none = some ([1], []) := rfl
    have again : ((ItemIterator.waiting spent).intoPages answers).answers =
        pages.serve none fun _ => (0, 0) := rfl
    intro resumes
    have right := (resumesRight_iff_goesOn known rfl again).mp resumes
    exact absurd (right.notAgain (by simp) 0 full) (Nat.not_lt_zero _)

end Resuming

end AzureSdk.Core.Pager

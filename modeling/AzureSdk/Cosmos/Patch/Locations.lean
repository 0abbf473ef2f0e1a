/-
# Cosmos.Patch.Locations — the location a pointer denotes

The tokens of a pointer denote a location only within a document: a token is a name in an object and
an index in an array, where several tokens are one index.  `locate` is that location; its last token
may be the place after the last item where something is to be added.

The evaluator edits the parent of the location and nothing else (`editParent_of_descend`), and what
it edits there is the step the last token denotes: one lemma for each operation.
-/
import AzureSdk.Theory.Location
import AzureSdk.Cosmos.Patch.Eval

namespace AzureSdk.Cosmos.Patch

open Theory Theory.Json List Option

/-! ## Tokens -/

def stepOf (allowAppend : Bool) (v : Value) (token : Text) : Option Step :=
  match v with
  | .object _ => some (.key token)
  | .array items => ((parseArrayIndex token [] items.length allowAppend).toOption).map .index
  | _ => none

/-- The location the tokens lead to and the value there. -/
def descend : Value → List Text → Option (Location × Value)
  | v, [] => some ([], v)
  | v, token :: tokens => do
    let step ← stepOf false v token
    let child ← v.child step
    let (below, u) ← descend child tokens
    some (step :: below, u)

/-- The location that is denoted: the last token need not lead to a value. -/
def locate (allowAppend : Bool) (doc : Value) (tokens : List Text) : Option Location :=
  match tokens.getLast? with
  | none => some []
  | some last => do
    let (above, parent) ← descend doc tokens.dropLast
    let step ← stepOf allowAppend parent last
    some (above ++ [step])

variable {allowAppend : Bool} {token : Text} {tokens : List Text}

variable {items : List Value}

/-- What `stepOf` tells apart. -/
inductive Denotes (allowAppend : Bool) (token : Text) : Value → Step → Prop
  | key {members : Members} : Denotes allowAppend token (.object members) (.key token)
  | index {items : List Value} {idx : Nat}
    (parsed : ∀ path, parseArrayIndex token path items.length allowAppend = .ok idx) :
    Denotes allowAppend token (.array items) (.index idx)

theorem stepOf_denotes {v : Value} {step : Step} (denoted : stepOf allowAppend v token = some step) :
    Denotes allowAppend token v step := by
  cases v with
  | object members =>
    cases denoted
    exact .key
  | array items =>
    obtain ⟨idx, parsed, rfl⟩ := map_eq_some_iff.mp denoted
    refine .index fun path => ?_
    cases result : parseArrayIndex token [] items.length allowAppend with
    | error e =>
      rw [result] at parsed
      cases parsed
    | ok idx' =>
      rw [result] at parsed
      cases parsed
      exact parseArrayIndex_eq_ok.mpr (parseArrayIndex_eq_ok.mp result)
  | null | bool | number | string => cases denoted

theorem stepOf_of_parse {path : Text} {idx : Nat}
    (parsed : parseArrayIndex token path items.length allowAppend = .ok idx) :
    stepOf allowAppend (.array items) token = some (.index idx) := by
  rw [stepOf, (parseArrayIndex_eq_ok.mpr (parseArrayIndex_eq_ok.mp parsed) :
    parseArrayIndex token [] items.length allowAppend = .ok idx)]
  rfl

theorem descend_cons {v : Value} {above : Location} {u : Value} :
    descend v (token :: tokens) = some (above, u) ↔
      ∃ step child below, stepOf false v token = some step ∧ v.child step = some child ∧
        descend child tokens = some (below, u) ∧ above = step :: below := by
  constructor
  · intro h
    obtain ⟨step, denoted, h⟩ := bind_eq_some_iff.mp h
    obtain ⟨child, found, h⟩ := bind_eq_some_iff.mp h
    obtain ⟨⟨below, u⟩, rest, h⟩ := bind_eq_some_iff.mp h
    cases h
    exact ⟨step, child, below, denoted, found, rest, rfl⟩
  · rintro ⟨step, child, below, denoted, found, rest, rfl⟩
    simp only [descend, denoted, found, rest, bind_eq_bind, bind_some]

theorem get_of_descend : ∀ {v u : Value} {above : Location},
    descend v tokens = some (above, u) → v.get above = some u := by
  induction tokens with
  | nil =>
    intro v u above h
    cases h
    rfl
  | cons token tokens ih =>
    intro v u above h
    obtain ⟨step, child, below, -, found, rest, rfl⟩ := descend_cons.mp h
    rw [Value.get_cons found]
    exact ih rest

theorem length_descend : ∀ {v u : Value} {above : Location},
    descend v tokens = some (above, u) → above.length = tokens.length := by
  induction tokens with
  | nil =>
    intro v u above h
    cases h
    rfl
  | cons token tokens ih =>
    intro v u above h
    obtain ⟨step, child, below, -, -, rest, rfl⟩ := descend_cons.mp h
    rw [length_cons, length_cons, ih rest]

theorem locate_concat {doc : Value} {init : List Text} {last : Text} {location : Location} :
    locate allowAppend doc (init ++ [last]) = some location ↔
      ∃ above parent step, descend doc init = some (above, parent) ∧
        stepOf allowAppend parent last = some step ∧ location = above ++ [step] := by
  simp only [locate, getLast?_concat, dropLast_concat]
  constructor
  · intro h
    obtain ⟨⟨above, parent⟩, led, h⟩ := bind_eq_some_iff.mp h
    obtain ⟨step, denoted, h⟩ := bind_eq_some_iff.mp h
    cases h
    exact ⟨above, parent, step, led, denoted, rfl⟩
  · rintro ⟨above, parent, step, led, denoted, rfl⟩
    simp only [led, denoted, bind_eq_bind, bind_some]

/-! ## The evaluator at a location -/

section Edits

variable {α : Type} {edit : Edit α} {path : Text}

theorem editParent_step {v child : Value} {token next : Text} {rest : List Text} {step : Step}
    (denoted : stepOf false v token = some step) (found : v.child step = some child) :
    editParent edit path (token :: next :: rest) v = (do
      let (child, out) ← editParent edit path (next :: rest) child
      .ok (v.setChild step child, out)) := by
  cases stepOf_denotes denoted with
  | @key members =>
    have member : Members.get token members = some child := found
    rw [editParent, member]
    rfl
  | @index items idx parsed =>
    have item : items[idx]? = some child := found
    rw [editParent, parsed path]
    simp only [bind, Except.bind, item]
    rfl

theorem editParent_of_descend {init : List Text} {last : Text} : ∀ {doc parent : Value}
    {above : Location}, descend doc init = some (above, parent) →
      editParent edit path (init ++ [last]) doc = (do
        let (parent, out) ← edit parent last
        .ok (doc.put above parent, out)) := by
  induction init with
  | nil =>
    intro doc parent above led
    cases led
    rw [nil_append, editParent]
    cases edit doc last <;> rfl
  | cons token init ih =>
    intro doc parent above led
    obtain ⟨step, child, below, denoted, found, rest, rfl⟩ := descend_cons.mp led
    obtain ⟨next, others, tail⟩ := exists_cons_of_ne_nil
      (append_ne_nil_of_right_ne_nil init (cons_ne_nil last []))
    rw [cons_append, tail, editParent_step denoted found, ← tail, ih rest]
    cases edit parent last with
    | error e => rfl
    | ok edited =>
      simp only [bind, Except.bind]
      rw [Value.put_cons found]

theorem descend_of_editParent : ∀ {tokens : List Text} {doc : Value} {edited : Value × α},
    editParent edit path tokens doc = .ok edited →
      ∃ init last above parent, tokens = init ++ [last] ∧ descend doc init = some (above, parent)
  | [], _, _, h => by cases h
  | [last], doc, _, _ => ⟨[], last, [], doc, rfl, rfl⟩
  | token :: next :: rest, .object members, _, h => by
    rw [editParent] at h
    split at h
    · cases h
    next child found =>
      obtain ⟨edited, inner, -⟩ := bind_ok h
      obtain ⟨init, last, above, parent, tail, led⟩ := descend_of_editParent inner
      refine ⟨token :: init, last, .key token :: above, parent, by rw [tail]; rfl, ?_⟩
      exact descend_cons.mpr ⟨.key token, child, above, rfl, found, led, rfl⟩
  | token :: next :: rest, .array items, _, h => by
    obtain ⟨idx, parsed, h⟩ := bind_ok h
    split at h
    · cases h
    next child found =>
      obtain ⟨edited, inner, -⟩ := bind_ok h
      obtain ⟨init, last, above, parent, tail, led⟩ := descend_of_editParent inner
      refine ⟨token :: init, last, .index idx :: above, parent, by rw [tail]; rfl, ?_⟩
      exact descend_cons.mpr ⟨.index idx, child, above, stepOf_of_parse parsed, found, led, rfl⟩
  | _ :: _ :: _, .null, _, h | _ :: _ :: _, .bool _, _, h | _ :: _ :: _, .number _, _, h
  | _ :: _ :: _, .string _, _, h => by cases h

theorem editParent_ok {tokens : List Text} {doc doc' : Value} {out : α}
    (h : editParent edit path tokens doc = .ok (doc', out)) :
    ∃ init last above parent parent', tokens = init ++ [last] ∧
      descend doc init = some (above, parent) ∧ edit parent last = .ok (parent', out) ∧
      doc' = doc.put above parent' := by
  obtain ⟨init, last, above, parent, rfl, led⟩ := descend_of_editParent h
  rw [editParent_of_descend led] at h
  obtain ⟨⟨parent', out'⟩, edited, h⟩ := bind_ok h
  cases h
  exact ⟨init, last, above, parent, parent', rfl, led, edited, rfl⟩

end Edits

/-! ## The edits of a parent -/

section Parents

variable {parent parent' : Value} {last path : Text} {step : Step} {allowAppend : Bool}

theorem settable_of_stepOf (denoted : stepOf false parent last = some step) :
    parent.Settable step := by
  cases stepOf_denotes denoted with
  | key =>
    trivial
  | index parsed =>
    exact parseArrayIndex_lt (parsed [])

theorem addable_of_stepOf (denoted : stepOf true parent last = some step) :
    parent.Addable step := by
  cases stepOf_denotes denoted with
  | key =>
    trivial
  | index parsed =>
    exact parseArrayIndex_le (parsed [])

theorem addOrSetIn_set (denoted : stepOf false parent last = some step) (value : Value) :
    addOrSetIn path value .set parent last = .ok (parent.setChild step value, ()) := by
  cases stepOf_denotes denoted with
  | key =>
    rfl
  | index parsed =>
    have number : last ≠ ['-'] := by
      rcases parseArrayIndex_eq_ok.mp (parsed path) with ⟨_, append, _⟩ | ⟨number, _⟩
      · cases append
      · exact number
    rw [addOrSetIn, if_pos ⟨rfl, number⟩, parsed path]
    rfl

theorem addOrSetIn_add (denoted : stepOf true parent last = some step) (value : Value) :
    addOrSetIn path value .add parent last = .ok (parent.addChild step value, ()) := by
  cases stepOf_denotes denoted with
  | key =>
    rfl
  | index parsed =>
    rw [addOrSetIn, if_neg (by simp), parsed path]
    rfl

variable {value : Value}

theorem stepOf_of_add (h : addOrSetIn path value .add parent last = .ok (parent', ())) :
    ∃ step, stepOf true parent last = some step := by
  cases parent with
  | object members => exact ⟨.key last, rfl⟩
  | array items =>
    obtain ⟨idx, parsed, -⟩ := bind_ok h
    exact ⟨.index idx, stepOf_of_parse parsed⟩
  | null | bool | number | string => cases h

theorem replaceIn_ok (denoted : stepOf false parent last = some step)
    (h : replaceIn path value parent last = .ok (parent', ())) :
    parent' = parent.setChild step value := by
  cases stepOf_denotes denoted with
  | key =>
    rw [replaceIn] at h
    split at h
    · cases h
    · cases h
      rfl
  | index parsed =>
    rw [replaceIn, parsed path] at h
    cases h
    rfl

variable {delta : CosmosNumber}

theorem incrementLeaf_ok {leaf written : Value} (h : incrementLeaf path delta leaf = .ok written) :
    ∃ target, leaf = .number target ∧ incremented path delta target = .ok written := by
  cases leaf with
  | number target => exact ⟨target, rfl, h⟩
  | null | bool | string | array | object => cases h

theorem incrementIn_ok (denoted : stepOf false parent last = some step)
    (h : incrementIn path delta parent last = .ok (parent', ())) :
    ∃ target written, parent.child step = some (.number target) ∧
      incremented path delta target = .ok written ∧ parent' = parent.setChild step written := by
  cases stepOf_denotes denoted with
  | key =>
    rw [incrementIn] at h
    split at h
    · cases h
    next leaf found =>
      obtain ⟨written, sum, h⟩ := bind_ok h
      cases h
      obtain ⟨target, rfl, sum⟩ := incrementLeaf_ok sum
      exact ⟨target, written, found, sum, rfl⟩
  | @index items idx parsed =>
    rw [incrementIn, parsed path] at h
    obtain ⟨idx', same, h⟩ := bind_ok h
    cases same
    split at h
    · cases h
    next leaf found =>
      obtain ⟨written, sum, h⟩ := bind_ok h
      cases h
      obtain ⟨target, rfl, sum⟩ := incrementLeaf_ok sum
      exact ⟨target, written, found, sum, rfl⟩

theorem removeIn_eq (denoted : stepOf false parent last = some step)
    (found : parent.child step = some value) :
    removeIn path parent last = .ok (parent.removeChild step, value) := by
  cases stepOf_denotes denoted with
  | @key members =>
    have member : Members.get last members = some value := found
    rw [removeIn, member]
    rfl
  | @index items idx parsed =>
    have item : items[idx]? = some value := found
    rw [removeIn, parsed path]
    simp only [bind, Except.bind, item]
    rfl

theorem removeIn_ok (h : removeIn path parent last = .ok (parent', value)) :
    ∃ step, stepOf false parent last = some step ∧ parent.child step = some value ∧
      parent' = parent.removeChild step := by
  cases parent with
  | object members =>
    rw [removeIn] at h
    split at h
    · cases h
    next found =>
      cases h
      exact ⟨.key last, rfl, found, rfl⟩
  | array items =>
    obtain ⟨idx, parsed, h⟩ := bind_ok h
    split at h
    · cases h
    next found =>
      cases h
      exact ⟨.index idx, stepOf_of_parse parsed, found, rfl⟩
  | null | bool | number | string => cases h

end Parents

/-! ## Adding and removing at a location -/

section Located

variable {doc : Value} {path : Text} {tokens : List Text} {above : Location} {step : Step}

theorem located_parent {allowAppend : Bool}
    (located : locate allowAppend doc tokens = some (above ++ [step])) :
    ∃ init last parent, tokens = init ++ [last] ∧ descend doc init = some (above, parent) ∧
      stepOf allowAppend parent last = some step := by
  rcases eq_nil_or_concat tokens with rfl | ⟨init, last, rfl⟩
  · have root : [] = above ++ [step] := some.inj located
    simp at root
  · rw [concat_eq_append] at located ⊢
    obtain ⟨above', parent, step', led, denoted, same⟩ := locate_concat.mp located
    obtain ⟨rfl, one⟩ := append_inj' same rfl
    cases one
    exact ⟨init, last, parent, rfl, led, denoted⟩

theorem addOrSet_located (parsed : parsePointer path = .ok tokens)
    (located : locate true doc tokens = some (above ++ [step])) (value : Value) :
    ∃ parent, doc.get above = some parent ∧ parent.Addable step ∧
      addOrSet doc path value .add = .ok (doc.put above (parent.addChild step value)) := by
  obtain ⟨init, last, parent, rfl, led, denoted⟩ := located_parent located
  refine ⟨parent, get_of_descend led, addable_of_stepOf denoted, ?_⟩
  rw [addOrSet, parsed]
  simp only [bind, Except.bind, append_eq_nil_iff, cons_ne_nil, and_false, if_false,
    editParent_of_descend led, addOrSetIn_add denoted]

theorem remove_located {parent value : Value} (parsed : parsePointer path = .ok tokens)
    (located : locate false doc tokens = some (above ++ [step]))
    (found : doc.get above = some parent) (child : parent.child step = some value) :
    remove doc path = .ok (doc.put above (parent.removeChild step), value) := by
  obtain ⟨init, last, parent', rfl, led, denoted⟩ := located_parent located
  cases found.symm.trans (get_of_descend led)
  rw [remove, parsed]
  simp only [bind, Except.bind, append_eq_nil_iff, cons_ne_nil, and_false, if_false,
    editParent_of_descend led, removeIn_eq denoted child]

end Located

end AzureSdk.Cosmos.Patch

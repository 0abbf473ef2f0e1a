/-
# Cosmos.Patch.Move — where a move takes its value

A move removes the value at its source and adds it at its destination, which is read in the document
without the source.  It must not go below its own source: the evaluator compares the tokens of the
two pointers, but in an array `0` and `00` are one index.

`move_right_iff` says which moves that succeed have taken a value from where it was to where the
destination is: not those whose source and destination are one pointer to nothing, which succeed
without a look at the document, and not those whose destination is below another spelling of the
source.
-/
import AzureSdk.Cosmos.Patch.Locations

namespace AzureSdk.Cosmos.Patch

open Theory Theory.Json List Value Option

/-! ## Pointers below one another -/

section Below

variable {v u w : Value} {token : Text} {tokens : List Text} {above below : Location} {step : Step}
  {allowAppend : Bool}

theorem descend_append_iff {head rest : List Text} :
    descend v (head ++ rest) = some (above, w) ↔
      ∃ first u second, descend v head = some (first, u) ∧ descend u rest = some (second, w) ∧
        above = first ++ second := by
  induction head generalizing v above with
  | nil =>
    constructor
    · exact fun h => ⟨[], v, above, rfl, h, rfl⟩
    · rintro ⟨_, _, second, ⟨⟩, h, rfl⟩
      exact h
  | cons token head ih =>
    rw [cons_append, descend_cons]
    constructor
    · rintro ⟨step, child, below, denoted, found, led, rfl⟩
      obtain ⟨first, u, second, under, rest, rfl⟩ := ih.mp led
      exact ⟨step :: first, u, second,
        descend_cons.mpr ⟨step, child, first, denoted, found, under, rfl⟩, rest, rfl⟩
    · rintro ⟨_, u, second, led, rest, rfl⟩
      obtain ⟨step, child, first, denoted, found, under, rfl⟩ := descend_cons.mp led
      exact ⟨step, child, first ++ second, denoted, found,
        ih.mpr ⟨first, u, second, under, rest, rfl⟩, rfl⟩

theorem descend_iff_located :
    descend v tokens = some (above, u) ↔ locate false v tokens = some above ∧ v.get above = some u := by
  rcases eq_nil_or_concat tokens with rfl | ⟨init, last, rfl⟩
  · constructor
    · intro h
      cases h
      exact ⟨rfl, rfl⟩
    · rintro ⟨⟨⟩, ⟨⟩⟩
      rfl
  · rw [concat_eq_append]
    constructor
    · intro h
      refine ⟨?_, get_of_descend h⟩
      obtain ⟨first, parent, second, led, rest, rfl⟩ := descend_append_iff.mp h
      obtain ⟨step, child, below, denoted, -, ⟨⟩, rfl⟩ := descend_cons.mp rest
      exact locate_concat.mpr ⟨first, parent, step, led, denoted, rfl⟩
    · rintro ⟨located, found⟩
      obtain ⟨first, parent, step, led, denoted, rfl⟩ := locate_concat.mp located
      rw [get_append, get_of_descend led, bind_some] at found
      obtain ⟨child, here, rest⟩ := child_of_get found
      cases rest
      exact descend_append_iff.mpr ⟨first, parent, [step], led,
        descend_cons.mpr ⟨step, _, [], denoted, here, rfl, rfl⟩, rfl⟩

theorem descend_split (h : descend v tokens = some (above ++ below, w)) :
    ∃ head rest u, tokens = head ++ rest ∧ descend v head = some (above, u) ∧
      descend u rest = some (below, w) := by
  induction above generalizing v tokens with
  | nil => exact ⟨[], tokens, v, rfl, rfl, h⟩
  | cons step above ih =>
    cases tokens with
    | nil => cases h
    | cons token tokens =>
      obtain ⟨step', child, _, denoted, found, led, same⟩ := descend_cons.mp h
      cases same
      obtain ⟨head, rest, u, rfl, first, second⟩ := ih led
      exact ⟨token :: head, rest, u, rfl,
        descend_cons.mpr ⟨step, child, above, denoted, found, first, rfl⟩, second⟩

theorem locate_split (located : locate allowAppend v tokens = some (above ++ below))
    (strict : below ≠ []) :
    ∃ head rest u, tokens = head ++ rest ∧ descend v head = some (above, u) ∧
      locate allowAppend u rest = some below := by
  obtain ⟨middle, step, rfl⟩ := (eq_nil_or_concat below).resolve_left strict
  rw [concat_eq_append, ← append_assoc] at located
  obtain ⟨init, last, parent, rfl, led, denoted⟩ := located_parent located
  obtain ⟨head, rest, u, rfl, first, second⟩ := descend_split led
  refine ⟨head, rest ++ [last], u, append_assoc .., first, ?_⟩
  exact locate_concat.mpr ⟨middle, parent, step, second, denoted, concat_eq_append⟩

theorem locate_append {head rest : List Text} (led : descend v head = some (above, u))
    (strict : rest ≠ []) (located : locate allowAppend u rest = some below) :
    locate allowAppend v (head ++ rest) = some (above ++ below) := by
  obtain ⟨init, last, rfl⟩ := (eq_nil_or_concat rest).resolve_left strict
  rw [concat_eq_append] at located ⊢
  obtain ⟨middle, parent, step, second, denoted, rfl⟩ := locate_concat.mp located
  rw [← append_assoc]
  exact locate_concat.mpr ⟨above ++ middle, parent, step,
    descend_append_iff.mpr ⟨above, u, middle, led, second, rfl⟩, denoted, (append_assoc ..).symm⟩

theorem length_locate (located : locate allowAppend v tokens = some above) :
    above.length = tokens.length := by
  rcases eq_nil_or_concat tokens with rfl | ⟨init, last, rfl⟩
  · cases located
    rfl
  · rw [concat_eq_append] at located ⊢
    obtain ⟨above, parent, step, led, -, rfl⟩ := locate_concat.mp located
    rw [length_append, length_append, length_descend led]
    rfl

theorem stepOf_append (denoted : stepOf false v token = some step) :
    stepOf true v token = some step := by
  cases stepOf_denotes denoted with
  | key => rfl
  | @index items idx parsed =>
    have again : parseArrayIndex token [] items.length true = .ok idx := by
      rcases parseArrayIndex_eq_ok.mp (parsed []) with ⟨_, append, _⟩ | ⟨number, reads, bound⟩
      · cases append
      · exact parseArrayIndex_eq_ok.mpr (.inr ⟨number, reads, Nat.lt_succ_of_lt bound⟩)
    exact stepOf_of_parse again

theorem locate_true_of_false (located : locate false v tokens = some above) :
    locate true v tokens = some above := by
  rcases eq_nil_or_concat tokens with rfl | ⟨init, last, rfl⟩
  · exact located
  · rw [concat_eq_append] at located ⊢
    obtain ⟨above, parent, step, led, denoted, rfl⟩ := locate_concat.mp located
    exact locate_concat.mpr ⟨above, parent, step, led, stepOf_append denoted, rfl⟩

theorem descend_put (w : Value) (h : descend v tokens = some (above, u)) :
    descend (v.put above w) tokens = some (above, w) := by
  induction tokens generalizing v above with
  | nil =>
    cases h
    rfl
  | cons token tokens ih =>
    obtain ⟨step, child, below, denoted, found, led, rfl⟩ := descend_cons.mp h
    have same : stepOf false (v.setChild step (child.put below w)) token = some step := by
      rw [← denoted]
      cases stepOf_denotes denoted with
      | key => rfl
      | index _ =>
        simp only [setChild, stepOf, length_set]
    rw [put_cons found]
    exact descend_cons.mpr ⟨step, child.put below w, below, same,
      child_setChild (settable_of_child found) _, ih led, rfl⟩

theorem stepOf_removeChild (denoted : stepOf false v token = some step) :
    stepOf true (v.removeChild step) token = some step := by
  cases stepOf_denotes denoted with
  | key =>
    rfl
  | @index items idx parsed =>
    have bound := parseArrayIndex_lt (parsed [])
    have length : (items.eraseIdx idx).length = items.length - 1 := length_eraseIdx_of_lt bound
    have again : parseArrayIndex token [] (items.eraseIdx idx).length true = .ok idx := by
      rcases parseArrayIndex_eq_ok.mp (parsed []) with ⟨_, append, _⟩ | ⟨number, reads, -⟩
      · cases append
      · refine parseArrayIndex_eq_ok.mpr (.inr ⟨number, reads, ?_⟩)
        rw [length, indexBound, if_pos rfl]
        omega
    exact stepOf_of_parse again

end Below

/-! ## Moves -/

def denote (allowAppend : Bool) (doc : Value) (path : Text) : Option Location :=
  match parsePointer path with
  | .ok tokens => locate allowAppend doc tokens
  | .error _ => none

/-- The document once the value at a location has been removed; without its root it is nothing. -/
def without (doc : Value) (location : Location) : Value :=
  match location.getLast?, doc.get location.dropLast with
  | some step, some parent => doc.put location.dropLast (parent.removeChild step)
  | _, _ => .null

/-- The source denotes a value, the destination does not denote a place below it, and the value is
found where the destination is once the source has been removed. -/
def MovedRight (doc doc' : Value) (source path : Text) : Prop :=
  ∃ location value, denote false doc source = some location ∧ doc.get location = some value ∧
    (∀ target, denote true doc path = some target → location <+: target → target = location) ∧
    ∃ target, denote true (without doc location) path = some target ∧ doc'.get target = some value

/-- The destination is inside the value of the source, by another spelling of an index on the way. -/
def Respells (doc : Value) (source path : Text) : Prop :=
  ∃ tokens head rest location value below, parsePointer source = .ok tokens ∧
    parsePointer path = .ok (head ++ rest) ∧ head ≠ tokens ∧ rest ≠ [] ∧
    locate false doc tokens = some location ∧ locate false doc head = some location ∧
    doc.get location = some value ∧ locate true value rest = some below

variable {doc doc' : Value} {source path : Text} {tokens toTokens : List Text}
  {location : Location} {value : Value}

theorem denote_eq {allowAppend : Bool} (parsed : parsePointer path = .ok tokens) :
    denote allowAppend doc path = locate allowAppend doc tokens := by
  rw [denote, parsed]

theorem without_concat {above : Location} {parent : Value} (found : doc.get above = some parent)
    (step : Step) : without doc (above ++ [step]) = doc.put above (parent.removeChild step) := by
  simp only [without, getLast?_concat, dropLast_concat, found]

theorem remove_ok {staged : Value} (h : remove doc source = .ok (staged, value)) :
    ∃ location, denote false doc source = some location ∧ doc.get location = some value ∧
      staged = without doc location := by
  obtain ⟨tokens, parsed, h⟩ := bind_ok h
  split at h
  · cases h
  obtain ⟨init, last, above, parent, parent', rfl, led, removed, rfl⟩ := editParent_ok h
  obtain ⟨step, denoted, found, rfl⟩ := removeIn_ok removed
  have here := get_of_descend led
  refine ⟨above ++ [step], ?_, ?_, (without_concat here step).symm⟩
  · rw [denote_eq parsed]
    exact locate_concat.mpr ⟨above, parent, step, led, denoted, rfl⟩
  · rw [get_append, here, bind_some, get_cons found]
    rfl

theorem addOrSet_ok (h : addOrSet doc path value .add = .ok doc') :
    ∃ target, denote true doc path = some target ∧ doc'.get target = some value := by
  obtain ⟨tokens, parsed, h⟩ := bind_ok h
  split at h
  case isTrue root =>
      subst root
      cases h
      exact ⟨[], denote_eq parsed, rfl⟩
  case isFalse =>
      obtain ⟨⟨_, ⟨⟩⟩, changed, h⟩ := bind_ok h
      cases h
      obtain ⟨init, last, above, parent, parent', rfl, led, added, rfl⟩ := editParent_ok changed
      obtain ⟨step, denoted⟩ := stepOf_of_add added
      cases (addOrSetIn_add denoted value).symm.trans added
      refine ⟨above ++ [step], ?_, ?_⟩
      · rw [denote_eq parsed]
        exact locate_concat.mpr ⟨above, parent, step, led, denoted, rfl⟩
      · rw [get_append, get_put (get_of_descend led), bind_some,
          get_cons (child_addChild (addable_of_stepOf denoted) value)]
        rfl

theorem movedRight_self (there : denote false doc source = some location)
    (found : doc.get location = some value) : MovedRight doc doc source source := by
  obtain ⟨tokens, parsed⟩ : ∃ tokens, parsePointer source = .ok tokens := by
    cases parsed : parsePointer source with
    | ok tokens => exact ⟨tokens, rfl⟩
    | error e =>
      rw [denote, parsed] at there
      cases there
  rw [denote_eq parsed] at there
  refine ⟨location, value, by rw [denote_eq parsed, there], found, ?_, location, ?_, found⟩
  · intro target same _
    rw [denote_eq parsed, locate_true_of_false there] at same
    exact (some.inj same).symm
  · rw [denote_eq parsed]
    rcases eq_nil_or_concat tokens with rfl | ⟨init, last, rfl⟩
    · cases there
      rfl
    · rw [concat_eq_append] at there ⊢
      obtain ⟨above, parent, step, led, denoted, rfl⟩ := locate_concat.mp there
      rw [without_concat (get_of_descend led)]
      exact locate_concat.mpr ⟨above, _, step, descend_put _ led, stepOf_removeChild denoted, rfl⟩

theorem not_respells_self : ¬ Respells doc source source := by
  rintro ⟨tokens, head, rest, location, value, below, parsed, parsed', -, strict, whole, part, -⟩
  cases parsed.symm.trans parsed'
  have lengths := (length_locate whole).symm.trans (length_locate part)
  rw [length_append] at lengths
  exact strict (length_eq_zero_iff.mp (by omega))

/-- Where the tokens of the source do not begin those of the destination, only another spelling
leads below the source. -/
theorem below_iff_respells (parsed : parsePointer source = .ok tokens)
    (parsed' : parsePointer path = .ok toTokens)
    (checked : ¬ (toTokens.length > tokens.length ∧ toTokens.take tokens.length = tokens))
    (there : denote false doc source = some location) (found : doc.get location = some value) :
    (∀ target, denote true doc path = some target → location <+: target → target = location) ↔
      ¬ Respells doc source path := by
  rw [denote_eq parsed] at there
  constructor
  · rintro apart ⟨_, head, rest, _, _, below, same, same', -, strict, whole, part, here, inside⟩
    cases parsed.symm.trans same
    cases parsed'.symm.trans same'
    cases there.symm.trans whole
    cases found.symm.trans here
    have target := locate_append (descend_iff_located.mpr ⟨part, found⟩) strict inside
    have equal := apart _ (by rw [denote_eq parsed', target]) (prefix_append _ _)
    have nothing : below = [] := by simpa using equal
    have length := length_locate inside
    rw [nothing] at length
    exact strict (length_eq_zero_iff.mp length.symm)
  · rintro other target denoted ⟨below, rfl⟩
    by_contra more
    have strict : below ≠ [] := fun none_ => more (by rw [none_, append_nil])
    rw [denote_eq parsed'] at denoted
    obtain ⟨head, rest, u, rfl, led, inside⟩ := locate_split denoted strict
    obtain ⟨part, here⟩ := descend_iff_located.mp led
    have long : rest ≠ [] := by
      rintro rfl
      cases inside
      exact strict rfl
    refine other ⟨tokens, head, rest, location, u, below, parsed, parsed', ?_, long, there, part,
      here, inside⟩
    rintro rfl
    refine checked ⟨?_, take_left⟩
    have positive := length_pos_of_ne_nil long
    rw [length_append]
    omega

/-- A move that succeeds is right exactly where a source that is also the destination denotes a
value, and the destination is not below another spelling of the source. -/
theorem move_right_iff {doc doc' : Value} {source path : Text}
    (h : moveValue doc source path = .ok doc') :
    MovedRight doc doc' source path ↔
      (source = path → ∃ location, denote false doc source = some location ∧
        (doc.get location).isSome) ∧ ¬ Respells doc source path := by
  unfold moveValue at h
  split at h
  case isTrue same =>
      cases h
      subst same
      constructor
      · rintro ⟨location, value, there, found, -⟩
        exact ⟨fun _ => ⟨location, there, by rw [found]; rfl⟩, not_respells_self⟩
      · rintro ⟨exists_, -⟩
        obtain ⟨location, there, found⟩ := exists_ rfl
        obtain ⟨value, found⟩ := Option.isSome_iff_exists.mp found
        exact movedRight_self there found
  case isFalse other =>
      obtain ⟨tokens, parsed, h⟩ := bind_ok h
      obtain ⟨toTokens, parsed', h⟩ := bind_ok h
      split at h
      · cases h
      next checked =>
        obtain ⟨⟨staged, value⟩, removed, added⟩ := bind_ok h
        obtain ⟨location, there, found, rfl⟩ := remove_ok removed
        have apart := below_iff_respells parsed parsed' checked there found
        constructor
        · rintro ⟨location', _, there', -, notBelow, -⟩
          cases there.symm.trans there'
          exact ⟨fun same => absurd same other, apart.mp notBelow⟩
        · rintro ⟨-, spelled⟩
          exact ⟨location, value, there, found, apart.mpr spelled, addOrSet_ok added⟩

/-- In `{"a":[null]}`, `/a/0` is moved to `/b`. -/
theorem move_right_member :
    let doc : Value := .object [("a".toList, .array [.null])]
    MovedRight doc (.object [("a".toList, .array []), ("b".toList, .null)]) "/a/0".toList
      "/b".toList := by
  intro doc
  have moved : moveValue doc "/a/0".toList "/b".toList =
      .ok (.object [("a".toList, .array []), ("b".toList, .null)]) := rfl
  refine (move_right_iff moved).mpr ⟨nofun, ?_⟩
  rintro ⟨tokens, head, rest, location, value, below, parsed, parsed', -, strict, whole, part, -⟩
  cases parsed
  have short : parsePointer "/b".toList = .ok ["b".toList] := rfl
  have lengths := (length_locate whole).symm.trans (length_locate part)
  have whole' := congrArg List.length (Except.ok.inj (short.symm.trans parsed'))
  rw [length_append, ← lengths] at whole'
  exact absurd whole' (by simp; omega)

/-- Moving `/a` to itself succeeds in a document without it.  In `{"a":[{},{}]}`, moving `/a/0` to
`/a/00/x` succeeds although the destination is below the source: what is `/a/1` before gets it. -/
theorem move_wrong :
    (moveValue (.object []) "/a".toList "/a".toList = .ok (.object []) ∧
      ¬ MovedRight (.object []) (.object []) "/a".toList "/a".toList) ∧
    let doc : Value := .object [("a".toList, .array [.object [], .object []])]
    let doc' : Value := .object [("a".toList, .array [.object [("x".toList, .object [])]])]
    moveValue doc "/a/0".toList "/a/00/x".toList = .ok doc' ∧
      ¬ MovedRight doc doc' "/a/0".toList "/a/00/x".toList := by
  refine ⟨⟨rfl, ?_⟩, rfl, ?_⟩
  · rintro ⟨location, value, there, found, -⟩
    cases there
    cases found
  · rintro ⟨location, value, there, -, notBelow, -⟩
    cases there
    have same := notBelow [.key "a".toList, .index 0, .key "x".toList] rfl ⟨[.key "x".toList], rfl⟩
    cases same

end AzureSdk.Cosmos.Patch

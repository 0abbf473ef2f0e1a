/-
# Cosmos.Patch.Laws — what a patch operation leaves alone

Set, replace and increment put a value at the location of their pointer: it is read back there, and
every location that is not below it keeps its value, with the new one inside where it is above.  What
add has put into an object that had no such member, or anywhere into an array, remove takes out
again, whichever pointer denotes the place (`patch_lens_laws`).
-/
import AzureSdk.Cosmos.Patch.Locations

namespace AzureSdk.Cosmos.Patch

open Theory Theory.Json List

/-- The value an operation writes at its location, where `old` is what stands there before. -/
inductive PatchOperation.Writes : PatchOperation → Option Value → Value → Prop
  | set (path : Text) (value : Value) (old : Option Value) : Writes (.set path value) old value
  | replace (path : Text) (value : Value) (old : Option Value) :
    Writes (.replace path value) old value
  | increment (path : Text) (delta : CosmosNumber) (target : Number) (value : Value)
    (sum : incremented path delta target = .ok value) :
    Writes (.increment path delta) (some (.number target)) value

/-- Set, replace or increment. -/
def PatchOperation.IsWrite : PatchOperation → Prop
  | .set _ _ | .replace _ _ | .increment _ _ => True
  | _ => False

/-- `doc'` has `written` at the location; what is not below it is unchanged except there. -/
structure WrittenAt (doc : Value) (location : Location) (written doc' : Value) : Prop where
  there : doc'.get location = some written
  apart : ∀ other, ¬ location <+: other → ¬ other <+: location → doc'.get other = doc.get other
  above : ∀ other below, location = other ++ below → below ≠ [] →
    ∃ u, doc.get other = some u ∧ doc'.get other = some (u.put below written)

variable {doc doc' : Value} {path : Text} {tokens : List Text} {location : Location}

theorem WrittenAt.root (doc written : Value) : WrittenAt doc [] written written where
  there := rfl
  apart _ notBelow _ := absurd nil_prefix notBelow
  above _ _ whole strict := absurd (append_eq_nil_iff.mp whole.symm).2 strict

variable {above : Location} {step : Step} {op : PatchOperation}

theorem WrittenAt.put {parent : Value}
    (found : doc.get above = some parent) (settable : parent.Settable step) (written : Value) :
    WrittenAt doc (above ++ [step]) written (doc.put above (parent.setChild step written)) := by
  have whole : doc.put above (parent.setChild step written) = doc.put (above ++ [step]) written := by
    rw [Value.put_append found]
    rfl
  rw [whole]
  refine ⟨Value.get_put_step found settable, ?_, ?_⟩
  · exact fun other => Value.get_put_step_of_apart found
  · intro other below split strict
    -- what is above the last step is on the way to the parent
    obtain ⟨between, rfl, rfl⟩ : ∃ between, above = other ++ between ∧ below = between ++ [step] := by
      obtain ⟨init, last, rfl⟩ := eq_nil_or_concat below |>.resolve_left strict
      rw [concat_eq_append, ← append_assoc] at split
      obtain ⟨rfl, same⟩ := append_inj' split rfl
      cases same
      exact ⟨init, rfl, concat_eq_append⟩
    rw [Value.get_append] at found
    obtain ⟨u, here, -⟩ := Option.bind_eq_some_iff.mp found
    refine ⟨u, here, ?_⟩
    rw [append_assoc, Value.put_append here]
    exact Value.get_put here

theorem writtenAt_of_edit {edit : Edit Unit} {root : Evaluated Value}
    (writes : ∀ {parent parent' last step}, stepOf false parent last = some step →
      edit parent last = .ok (parent', ()) → ∃ written, op.Writes (parent.child step) written ∧
        parent' = parent.setChild step written)
    (replaces : ∀ {doc'}, root = .ok doc' → op.Writes (some doc) doc')
    (parsed : parsePointer path = .ok tokens) (located : locate false doc tokens = some location)
    (h : (do
      let tokens ← parsePointer path
      if tokens = [] then root else (editParent edit path tokens doc >>= fun p => .ok p.1)) =
        .ok doc') :
    ∃ written, op.Writes (doc.get location) written ∧ WrittenAt doc location written doc' := by
  obtain ⟨tokens', parsed', h⟩ := bind_ok h
  cases parsed.symm.trans parsed'
  split at h
  case isTrue none_ =>
      subst none_
      cases located
      exact ⟨doc', replaces h, .root doc doc'⟩
  case isFalse =>
      obtain ⟨⟨_, ⟨⟩⟩, changed, h⟩ := bind_ok h
      cases h
      obtain ⟨init, last, above, parent, parent', rfl, led, edited, rfl⟩ := editParent_ok changed
      obtain ⟨above', parent'', step, led', denoted, rfl⟩ := locate_concat.mp located
      cases led.symm.trans led'
      obtain ⟨written, value, rfl⟩ := writes denoted edited
      have found := get_of_descend led
      have old : doc.get (above ++ [step]) = parent.child step := by
        rw [Value.get_append, found]
        cases child : parent.child step with
        | none | some c => simp [Value.get, child]
      exact ⟨written, old ▸ value, .put found (settable_of_stepOf denoted) written⟩

theorem writtenAt_of_applyOne (isWrite : op.IsWrite)
    (parsed : parsePointer op.path = .ok tokens) (located : locate false doc tokens = some location)
    (h : applyOne doc op = .ok doc') :
    ∃ written, op.Writes (doc.get location) written ∧ WrittenAt doc location written doc' := by
  cases op with
  | set path value =>
    refine writtenAt_of_edit (fun denoted edited => ?_) (fun same => ?_) parsed located h
    · cases (addOrSetIn_set denoted value).symm.trans edited
      exact ⟨value, .set path value _, rfl⟩
    · cases same
      exact .set path value _
  | replace path value =>
    refine writtenAt_of_edit (fun denoted edited => ?_) (fun same => ?_) parsed located h
    · exact ⟨value, .replace path value _, replaceIn_ok denoted edited⟩
    · cases same
      exact .replace path value _
  | increment path delta =>
    refine writtenAt_of_edit (fun denoted edited => ?_) (fun same => ?_) parsed located h
    rotate_left
    · cases same
    obtain ⟨target, written, found, sum, rfl⟩ := incrementIn_ok denoted edited
    exact ⟨written, found ▸ .increment path delta target written sum, rfl⟩
  | add | remove | move => cases isWrite

theorem remove_added (value : Value) (parsed : parsePointer path = .ok tokens)
    (located : locate true doc tokens = some (above ++ [step]))
    (fresh : ∀ name, step = .key name → doc.get (above ++ [step]) = none) :
    ∃ doc', applyOne doc (.add path value) = .ok doc' ∧
      ∀ path' tokens', parsePointer path' = .ok tokens' →
        locate false doc' tokens' = some (above ++ [step]) →
          applyOne doc' (.remove path') = .ok doc := by
  obtain ⟨parent, found, addable, added⟩ := addOrSet_located parsed located value
  refine ⟨_, added, fun path' tokens' parsed' located' => ?_⟩
  have new : ∀ name, step = .key name → parent.child step = none := by
    intro name key
    have none_ := fresh name key
    rw [Value.get_append, found] at none_
    cases child : parent.child step with
    | none => rfl
    | some c => simp [Value.get, child] at none_
  have removed := remove_located parsed' located' (Value.get_put found)
    (Value.child_addChild addable value)
  rw [Value.removeChild_addChild addable new, Value.put_put found, Value.put_get found] at removed
  rw [applyOne, removed]
  rfl

/-- Writing obeys the laws of a location, and adding is undone by removing. -/
theorem patch_lens_laws (doc : Value) :
    (∀ op doc' tokens location, PatchOperation.IsWrite op → parsePointer op.path = .ok tokens →
      locate false doc tokens = some location → applyOne doc op = .ok doc' →
      ∃ written, op.Writes (doc.get location) written ∧ WrittenAt doc location written doc') ∧
    (∀ path value tokens above step, parsePointer path = .ok tokens →
      locate true doc tokens = some (above ++ [step]) →
      (∀ name, step = .key name → doc.get (above ++ [step]) = none) →
      ∃ doc', applyOne doc (.add path value) = .ok doc' ∧
        ∀ path' tokens', parsePointer path' = .ok tokens' →
          locate false doc' tokens' = some (above ++ [step]) →
            applyOne doc' (.remove path') = .ok doc) :=
  ⟨fun _ _ _ _ isWrite parsed located h => writtenAt_of_applyOne isWrite parsed located h,
    fun _ value _ _ _ parsed located fresh => remove_added value parsed located fresh⟩

/-- In `{"a":[null]}`: `/a/0` is set, and what is appended to `/a` is removed as `/a/1`. -/
theorem patch_lens_laws_array :
    let doc : Value := .object [("a".toList, .array [.null])]
    let location : Location := [.key "a".toList, .index 0]
    WrittenAt doc location (.bool true) (.object [("a".toList, .array [.bool true])]) ∧
      ∃ doc', applyOne doc (.add "/a/-".toList (.bool true)) = .ok doc' ∧
        applyOne doc' (.remove "/a/1".toList) = .ok doc := by
  intro doc location
  obtain ⟨writes, adds⟩ := patch_lens_laws doc
  constructor
  · obtain ⟨written, value, at_⟩ := writes (.set "/a/0".toList (.bool true)) _
      ["a".toList, "0".toList] location trivial rfl rfl rfl
    cases value
    exact at_
  · obtain ⟨doc', added, removes⟩ := adds "/a/-".toList (.bool true) ["a".toList, "-".toList]
      [.key "a".toList] (.index 1) rfl rfl nofun
    refine ⟨doc', added, removes "/a/1".toList ["a".toList, "1".toList] rfl ?_⟩
    cases added
    rfl

end AzureSdk.Cosmos.Patch

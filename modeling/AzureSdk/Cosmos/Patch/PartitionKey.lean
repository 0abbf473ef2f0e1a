/-
# Cosmos.Patch.PartitionKey — patches and the partition key

A patch must not change the partition key of the item: the handler refuses operations
whose path overlaps a partition key path, as text.  An operation that is not on the
path to a value, at it or below it leaves the value alone (`editParent_walk`), so the
guard is sound where the text of a partition key path says which property it names.

It does not always: the guard compares pointers, in which `~` is written `~0`, with
property names, in which it is not; and extraction drops all leading slashes of a
partition key path where the guard keeps them.  `partition_key_guard_iff` says for which
partition keys the guard holds.
-/
import Mathlib.Algebra.Order.BigOperators.Group.List
import Mathlib.Algebra.Order.Group.Nat
import AzureSdk.Cosmos.Error
import AzureSdk.Cosmos.Patch.Pointer

namespace AzureSdk.Cosmos.Patch

open Theory Theory.Json List Members

/-! ## The guard -/

def normalize (p : Text) : Text :=
  match p with
  | [] => []
  | '/' :: rest => '/' :: rest
  | p => '/' :: p

def withSlash (p : Text) : Text := if p.getLast? = some '/' then p else p ++ ['/']

def pathOverlapsPartitionKey (opPath pkPath : Text) : Bool :=
  let op := normalize opPath
  let pk := normalize pkPath
  if op = pk then true
  else
    let a := withSlash op
    let b := withSlash pk
    b.isPrefixOf a || a.isPrefixOf b

/-- The paths an operation writes: its destination, and the source of a move. -/
def PatchOperation.written : PatchOperation → List Text
  | .move source path => [path, source]
  | op => [op.path]

/-- The check of one path of an operation against the partition key paths. -/
def checkPath (path : Text) : List Text → Result Unit
  | [] => .ok ()
  | pkPath :: pkPaths =>
    if pathOverlapsPartitionKey path pkPath then
      fail .badRequest ("PATCH op '" ++ String.ofList path ++ "' overlaps partition key path '" ++
        String.ofList pkPath ++ "'; cannot mutate partition key with a client-side Read-Modify-Write")
    else checkPath path pkPaths

def validatePartitionKeyPaths (ops : List PatchOperation) (pkPaths : List Text) : Result Unit :=
  ops.forM fun op => op.written.forM fun path => checkPath path pkPaths

/-! ## The value at a partition key path -/

/-- What `extract_pk_at_path` finds: a value, none, or a value that has no properties in the
way of the segment. -/
inductive Found
  | value (v : Value)
  | undefined
  | nonObject (segment : Text)

def walk : Value → List Text → Found
  | v, [] => .value v
  | .object members, segment :: segments =>
    match get segment members with
    | some next => walk next segments
    | none => .undefined
  | _, segment :: _ => .nonObject segment

/-- The segments of a partition key path, without its leading slashes. -/
def segments (path : Text) : List Text :=
  let pathStr := path.dropWhile (· = '/')
  if pathStr = [] then [] else pathStr.splitOn '/'

/-- `extract_pk_at_path`, before the value is converted. -/
def extractPkAtPath (body : Value) (path : Text) : Found := walk body (segments path)

/-! ## Edits elsewhere -/

/-- The edit changes one child of the parent and not its kind. -/
def Local {α : Type} (edit : Edit α) : Prop :=
  ∀ parent last parent' out, edit parent last = .ok (parent', out) →
    (∃ members members', parent = .object members ∧ parent' = .object members' ∧
      ∀ name, name ≠ last → get name members' = get name members) ∨
    ∃ items items', parent = .array items ∧ parent' = .array items'

theorem addOrSetIn_local (path : Text) (value : Value) (mode : AddOrSet) :
    Local (addOrSetIn path value mode) := by
  intro parent last parent' out h
  cases parent with
  | object members =>
    cases h
    refine .inl ⟨members, _, rfl, rfl, fun name other => ?_⟩
    rw [get_insert, if_neg other]
  | array items =>
    rw [addOrSetIn] at h
    split at h
    all_goals
      obtain ⟨idx, _, h⟩ := bind_ok h
      cases h
      exact .inr ⟨items, _, rfl, rfl⟩
  | null | bool | number | string => cases h

theorem replaceIn_local (path : Text) (value : Value) : Local (replaceIn path value) := by
  intro parent last parent' out h
  cases parent with
  | object members =>
    rw [replaceIn] at h
    split at h
    · cases h
    · cases h
      refine .inl ⟨members, _, rfl, rfl, fun name other => ?_⟩
      rw [get_insert, if_neg other]
  | array items =>
    obtain ⟨idx, _, h⟩ := bind_ok h
    cases h
    exact .inr ⟨items, _, rfl, rfl⟩
  | null | bool | number | string => cases h

theorem removeIn_local (path : Text) : Local (removeIn path) := by
  intro parent last parent' out h
  cases parent with
  | object members =>
    rw [removeIn] at h
    split at h
    · cases h
    · cases h
      exact .inl ⟨members, _, rfl, rfl, fun name other => get_remove_of_ne other members⟩
  | array items =>
    obtain ⟨idx, _, h⟩ := bind_ok h
    split at h
    · cases h
    · cases h
      exact .inr ⟨items, _, rfl, rfl⟩
  | null | bool | number | string => cases h

theorem incrementIn_local (path : Text) (delta : CosmosNumber) : Local (incrementIn path delta) := by
  intro parent last parent' out h
  cases parent with
  | object members =>
    rw [incrementIn] at h
    split at h
    · cases h
    · obtain ⟨value, _, h⟩ := bind_ok h
      cases h
      refine .inl ⟨members, _, rfl, rfl, fun name other => ?_⟩
      rw [get_insert, if_neg other]
  | array items =>
    obtain ⟨idx, _, h⟩ := bind_ok h
    split at h
    · cases h
    · obtain ⟨value, _, h⟩ := bind_ok h
      cases h
      exact .inr ⟨items, _, rfl, rfl⟩
  | null | bool | number | string => cases h

/-- Neither path leads through the other. -/
def Apart (a b : List Text) : Prop := ¬ a <+: b ∧ ¬ b <+: a

variable {a b : List Text}

theorem Apart.tail {t : Text} (h : Apart (t :: a) (t :: b)) : Apart a b :=
  ⟨fun p => h.1 (cons_prefix_cons.mpr ⟨rfl, p⟩), fun p => h.2 (cons_prefix_cons.mpr ⟨rfl, p⟩)⟩

variable {path q : Text} {α : Type} {segs pkPaths : List Text} {doc doc' : Value} {edit : Edit α}

/-- An edit off the path to a value leaves the value alone; by induction on the tokens of the
edit, which the segments follow until they part. -/
theorem editParent_walk (isLocal : Local edit) :
    ∀ {tokens segs : List Text} {doc doc' : Value} {out : α},
      editParent edit path tokens doc = .ok (doc', out) → Apart tokens segs →
      walk doc' segs = walk doc segs
  | [], _, _, _, _, h, _ => by cases h
  | [last], [], _, _, _, _, apart => absurd nil_prefix apart.2
  | [last], segment :: segs, doc, doc', out, h, apart => by
    have other : segment ≠ last := by
      rintro rfl
      exact apart.1 (cons_prefix_cons.mpr ⟨rfl, nil_prefix⟩)
    rcases isLocal doc last doc' out h with ⟨members, members', rfl, rfl, same⟩ |
      ⟨items, items', rfl, rfl⟩
    · rw [walk, walk, same segment other]
    · rfl
  | token :: next :: rest, [], _, _, _, _, apart => absurd nil_prefix apart.2
  | token :: next :: rest, segment :: segs, .object members, doc', out, h, apart => by
    rw [editParent] at h
    split at h
    · cases h
    rename_i child found
    obtain ⟨⟨child', out'⟩, edited, h⟩ := bind_ok h
    cases h
    rw [walk, walk, get_insert]
    by_cases same : segment = token
    · subst same
      rw [if_pos rfl, found]
      exact editParent_walk isLocal edited apart.tail
    · rw [if_neg same]
  | token :: next :: rest, segment :: segs, .array items, doc', out, h, apart => by
    obtain ⟨idx, _, h⟩ := bind_ok h
    split at h
    · cases h
    obtain ⟨⟨child', out'⟩, _, h⟩ := bind_ok h
    cases h
    rfl

/-- A path whose tokens are apart from the segments, if it is a pointer at all. -/
def Off (segs : List Text) (path : Text) : Prop :=
  ∀ tokens, path = encode tokens → Apart tokens segs

theorem Off.tokens {tokens : List Text} (off : Off segs path)
    (parsed : parsePointer path = .ok tokens) : Apart tokens segs :=
  off tokens (parsePointer_eq_ok.mp parsed)

theorem edit_walk (isLocal : Local edit)
    {tokens : List Text} {root : Evaluated Value} (off : Off segs path)
    (parsed : parsePointer path = .ok tokens)
    (h : (if tokens = [] then root else (editParent edit path tokens doc >>= fun p => .ok p.1)) =
      .ok doc') : walk doc' segs = walk doc segs := by
  split at h
  case isTrue none_ =>
      subst none_
      exact absurd nil_prefix (off.tokens parsed).1
  case isFalse =>
      obtain ⟨p, edited, h⟩ := bind_ok h
      cases h
      exact editParent_walk isLocal edited (off.tokens parsed)

theorem addOrSet_walk {value : Value} {mode : AddOrSet}
    (off : Off segs path) (h : addOrSet doc path value mode = .ok doc') :
    walk doc' segs = walk doc segs := by
  obtain ⟨tokens, parsed, h⟩ := bind_ok h
  exact edit_walk (addOrSetIn_local path value mode) off parsed h

theorem remove_walk {out : Value × Value}
    (off : Off segs path) (h : remove doc path = .ok out) : walk out.1 segs = walk doc segs := by
  obtain ⟨tokens, parsed, h⟩ := bind_ok h
  split at h
  case isTrue => cases h
  case isFalse => exact editParent_walk (removeIn_local path) h (off.tokens parsed)

theorem applyOne_walk {op : PatchOperation}
    (off : ∀ path ∈ op.written, Off segs path) (h : applyOne doc op = .ok doc') :
    walk doc' segs = walk doc segs := by
  cases op with
  | add path value | set path value => exact addOrSet_walk (off path (.head _)) h
  | replace path value =>
    obtain ⟨tokens, parsed, h⟩ := bind_ok h
    exact edit_walk (replaceIn_local path value) (off path (.head _)) parsed h
  | remove path =>
    obtain ⟨out, removed, h⟩ := bind_ok h
    cases h
    exact remove_walk (off path (.head _)) removed
  | increment path value =>
    obtain ⟨tokens, parsed, h⟩ := bind_ok h
    exact edit_walk (incrementIn_local path value) (off path (.head _)) parsed h
  | move source path =>
    have h : moveValue doc source path = .ok doc' := h
    unfold moveValue at h
    split at h
    · cases h
      rfl
    obtain ⟨fromTokens, _, h⟩ := bind_ok h
    obtain ⟨toTokens, _, h⟩ := bind_ok h
    split at h
    · cases h
    obtain ⟨out, removed, h⟩ := bind_ok h
    rw [addOrSet_walk (off path (.head _)) h,
      remove_walk (off source (.tail _ (.head _))) removed]

theorem applyPatchOps_walk : ∀ {ops : List PatchOperation} {doc doc' : Value},
    (∀ op ∈ ops, ∀ path ∈ op.written, Off segs path) → applyPatchOps doc ops = .ok doc' →
    walk doc' segs = walk doc segs
  | [], doc, doc', _, h => by
    cases h
    rfl
  | op :: ops, doc, doc', off, h => by
    obtain ⟨between, first, rest⟩ := bind_ok h
    rw [applyPatchOps_walk (fun o ho => off o (.tail _ ho)) rest,
      applyOne_walk (off op (.head _)) first]

/-! ## Text and tokens -/

theorem checkPath_eq_ok :
    checkPath path pkPaths = .ok () ↔ ∀ pk ∈ pkPaths, pathOverlapsPartitionKey path pk = false := by
  induction pkPaths with
  | nil => simp [checkPath]
  | cons pk pkPaths ih =>
    rw [checkPath]
    split
    case isTrue overlaps => simp [fail, overlaps]
    case isFalse clear_ =>
        rw [ih]
        simp [Bool.eq_false_iff.mpr clear_]

theorem forM_eq_ok {f : α → Result Unit} : ∀ {l : List α}, l.forM f = .ok () ↔ ∀ a ∈ l, f a = .ok ()
  | [] => by
    constructor
    · simp
    · intro _
      rfl
  | a :: l => by
    rw [forall_mem_cons, ← forM_eq_ok]
    show (f a >>= fun _ => l.forM f) = .ok () ↔ _
    constructor
    · intro h
      obtain ⟨_, first, rest⟩ := bind_ok h
      exact ⟨first, rest⟩
    · rintro ⟨first, rest⟩
      rw [first]
      exact rest

theorem validate_eq_ok {ops : List PatchOperation} :
    validatePartitionKeyPaths ops pkPaths = .ok () ↔ ∀ op ∈ ops, ∀ path ∈ op.written,
      ∀ pk ∈ pkPaths, pathOverlapsPartitionKey path pk = false := by
  unfold validatePartitionKeyPaths
  simp only [forM_eq_ok, checkPath_eq_ok]

theorem overlaps_eq_false {pk : Text} : pathOverlapsPartitionKey path pk = false ↔
      ¬ withSlash (normalize pk) <+: withSlash (normalize path) ∧
      ¬ withSlash (normalize path) <+: withSlash (normalize pk) := by
  unfold pathOverlapsPartitionKey
  dsimp only
  split
  case isTrue same => simp [same]
  case isFalse => simp [Bool.eq_false_iff]

@[simp] theorem normalize_encode (tokens : List Text) : normalize (encode tokens) = encode tokens := by
  cases tokens <;> rfl

theorem withSlash_within (p : Text) : withSlash p <+: p ++ ['/'] := by
  unfold withSlash
  split
  · exact prefix_append p ['/']
  · exact prefix_refl _

theorem within_withSlash (p : Text) : p <+: withSlash p := by
  unfold withSlash
  split
  · exact prefix_refl p
  · exact prefix_append p ['/']

theorem encode_slash_within {token : Text} : encode a ++ ['/'] <+: encode (a ++ token :: b) := by
  rw [encode_append, encode_cons]
  exact ⟨escape token ++ encode b, by simp⟩

/-- What the guard has to know of a partition key path: some partition key path, as text, leads
to the property its segments name. -/
def Covered (pkPaths : List Text) (pkPath : Text) : Prop :=
  ∃ q ∈ pkPaths, withSlash (normalize q) <+: encode (segments pkPath) ++ ['/']

/-- A covered path overlaps every pointer on the way to its value, at it or below it. -/
theorem apart_of_covered {tokens : List Text}
    (cover : withSlash (normalize q) <+: encode segs ++ ['/'])
    (clear_ : pathOverlapsPartitionKey (encode tokens) q = false) : Apart tokens segs := by
  rw [overlaps_eq_false, normalize_encode] at clear_
  -- two starts of one text are comparable
  have notBoth : ¬ withSlash (encode tokens) <+: encode segs ++ ['/'] := by
    intro start
    rcases Nat.le_total (withSlash (normalize q)).length (withSlash (encode tokens)).length with le | le
    · exact clear_.1 (prefix_of_prefix_length_le cover start le)
    · exact clear_.2 (prefix_of_prefix_length_le start cover le)
  constructor
  · rintro ⟨rest, rfl⟩
    apply notBoth
    cases rest with
    | nil =>
      rw [append_nil]
      exact withSlash_within _
    | cons token rest =>
      exact (withSlash_within _).trans
        (encode_slash_within.trans (prefix_append _ _))
  · rintro ⟨rest, rfl⟩
    cases rest with
    | nil =>
      rw [append_nil] at notBoth
      exact notBoth (withSlash_within _)
    | cons token rest =>
      exact clear_.1 (cover.trans (encode_slash_within.trans (within_withSlash _)))

/-! ## Where the guard fails -/

/-- Objects in objects, down to a value. -/
def nest : List Text → Value → Value
  | [], v => v
  | segment :: segs, v => .object [(segment, nest segs v)]

theorem walk_nest (segs : List Text) (v : Value) : walk (nest segs v) segs = .value v := by
  induction segs with
  | nil => rfl
  | cons segment segs ih => simp [nest, walk, Members.get, ih]

theorem editParent_nest {last : Text} {v v' : Value} {out : α}
    (h : edit v last = .ok (v', out)) : ∀ segs : List Text,
    editParent edit path (segs ++ [last]) (nest segs v) = .ok (nest segs v', out)
  | [] => h
  | segment :: segs => by
    have inner : editParent edit path (segs ++ [last]) (nest segs v) = .ok (nest segs v', out) :=
      editParent_nest h segs
    obtain ⟨next, rest, tokens⟩ : ∃ next rest, segs ++ [last] = next :: rest :=
      exists_cons_of_ne_nil (by simp)
    rw [cons_append, tokens, nest, editParent]
    rw [tokens] at inner
    simp only [Members.get, if_true, inner]
    show Except.ok (Value.object (Members.insert segment (nest segs v') [(segment, nest segs v)]), out)
      = _
    simp [Members.insert, nest]

/-- A name longer than every partition key path. -/
def freshName (pkPaths : List Text) : Text :=
  List.replicate ((pkPaths.map fun q => (withSlash (normalize q)).length).sum + 1) 'x'

theorem length_lt_freshName (mem : q ∈ pkPaths) :
    (withSlash (normalize q)).length < (freshName pkPaths).length := by
  have le : (withSlash (normalize q)).length ≤
      (pkPaths.map fun q => (withSlash (normalize q)).length).sum :=
    le_sum_of_mem (mem_map_of_mem mem)
  rw [freshName, length_replicate]
  omega

theorem escape_replicate (n : Nat) : escape (replicate n 'x') = replicate n 'x' := by
  induction n with
  | zero => rfl
  | succ n ih =>
    show escapeChar 'x' ++ escape (replicate n 'x') = _
    rw [ih]
    rfl

theorem getLast_withSlash (p : Text) : (withSlash p).getLast? = some '/' := by
  unfold withSlash
  split
  · assumption
  · simp

/-- A fresh name below a path that is not covered overlaps no partition key path. -/
theorem clear_below (mem : q ∈ pkPaths)
    (uncovered : ¬ withSlash (normalize q) <+: encode segs ++ ['/']) :
    pathOverlapsPartitionKey (encode (segs ++ [freshName pkPaths])) q = false := by
  have short := length_lt_freshName mem
  have text : encode (segs ++ [freshName pkPaths]) = (encode segs ++ ['/']) ++ freshName pkPaths := by
    rw [encode_append, encode_cons, encode_nil, freshName, escape_replicate]
    simp
  rw [overlaps_eq_false, normalize_encode, text]
  constructor
  · -- it would end inside the fresh name, but it ends with a slash
    intro start
    have inText : withSlash (normalize q) <+: (encode segs ++ ['/']) ++ freshName pkPaths :=
      prefix_of_prefix_length_le start (within_withSlash _) (by
        rw [length_append]
        omega)
    rcases Nat.le_total (withSlash (normalize q)).length (encode segs ++ ['/']).length with le | le
    · exact uncovered (prefix_of_prefix_length_le inText (prefix_append _ _) le)
    · obtain ⟨tail, same⟩ := prefix_of_prefix_length_le (prefix_append _ _) inText le
      rw [← same, prefix_append_right_inj] at inText
      cases more : tail.getLast? with
      | none =>
        rw [getLast?_eq_none_iff.mp more, append_nil] at same
        exact uncovered (same ▸ prefix_refl _)
      | some c =>
        have inName : c ∈ freshName pkPaths := inText.subset (mem_of_getLast? more)
        have slash := getLast_withSlash (normalize q)
        rw [← same, getLast?_append, more] at slash
        cases slash
        exact absurd (eq_of_mem_replicate inName) (by decide)
  · intro start
    have le := start.length_le
    have longer := (within_withSlash ((encode segs ++ ['/']) ++ freshName pkPaths)).length_le
    rw [length_append] at longer
    omega

/-! ## Partition keys the guard protects -/

/-- **Which partition keys the guard protects.**  Accepted patches leave the value at every
partition key path as it was, or absent, exactly when every partition key path is covered. -/
theorem partition_key_guard_iff (pkPaths : List Text) :
    (∀ doc ops doc', validatePartitionKeyPaths ops pkPaths = .ok () →
      applyPatchOps doc ops = .ok doc' →
      ∀ pkPath ∈ pkPaths, extractPkAtPath doc' pkPath = extractPkAtPath doc pkPath) ↔
    ∀ pkPath ∈ pkPaths, Covered pkPaths pkPath := by
  constructor
  · intro guarded pkPath mem
    by_contra uncovered
    let segs := segments pkPath
    let op := PatchOperation.add (encode (segs ++ [freshName pkPaths])) .null
    have accepted : validatePartitionKeyPaths [op] pkPaths = .ok () := by
      refine validate_eq_ok.mpr fun op' hop path hpath q hq => ?_
      rw [mem_singleton.mp hop] at hpath
      rw [mem_singleton.mp hpath]
      exact clear_below hq fun cover => uncovered ⟨q, hq, cover⟩
    have applied : applyPatchOps (nest segs (.object [])) [op] =
        .ok (nest segs (.object [(freshName pkPaths, .null)])) := by
      have parsed := parsePointer_eq_ok.mpr (rfl : op.path = encode (segs ++ [freshName pkPaths]))
      have edited : addOrSetIn op.path .null .add (.object []) (freshName pkPaths) =
        .ok (.object [(freshName pkPaths, .null)], ()) := rfl
      show (addOrSet (nest segs (.object [])) op.path .null .add >>= pure) = _
      rw [addOrSet, parsed]
      show ((if segs ++ [freshName pkPaths] = [] then _ else _) >>= pure) = _
      rw [if_neg (by simp), editParent_nest edited segs]
      rfl
    have same := guarded _ _ _ accepted applied pkPath mem
    rw [extractPkAtPath, extractPkAtPath, walk_nest, walk_nest] at same
    cases same
  · intro covered doc ops doc' accepted applied pkPath mem
    refine applyPatchOps_walk (fun op hop path hpath tokens same => ?_) applied
    obtain ⟨q, hq, cover⟩ := covered pkPath mem
    refine apart_of_covered cover ?_
    rw [← same]
    exact validate_eq_ok.mp accepted op hop path hpath q hq

def natural (n : UInt64) : Value := .number (.posInt n)

/-- In the pointer `/a~0b` the property is `a~b`, which is the partition key: the guard accepts
the operation, and the partition key changes from 1 to 2. -/
theorem tilde_passes_guard :
    let ops := [PatchOperation.set "/a~0b".toList (natural 2)]
    let pkPath := "/a~b".toList
    let doc := Value.object [("a~b".toList, natural 1)]
    let doc' := Value.object [("a~b".toList, natural 2)]
    validatePartitionKeyPaths ops [pkPath] = .ok () ∧ applyPatchOps doc ops = .ok doc' ∧
      extractPkAtPath doc pkPath = .value (natural 1) ∧
      extractPkAtPath doc' pkPath = .value (natural 2) := by
  refine ⟨?_, ?_, ?_, ?_⟩ <;> rfl

/-- A sibling of a partition key with a plain path may be set. -/
theorem sibling_keeps_tenantId :
    let pkPath := "/tenant/id".toList
    let doc := Value.object [("tenant".toList, .object [("id".toList, natural 1)])]
    let doc' := Value.object
      [("tenant".toList, .object [("id".toList, natural 1), ("name".toList, natural 2)])]
    extractPkAtPath doc' pkPath = extractPkAtPath doc pkPath := by
  intro pkPath doc doc'
  have plain : ∀ path ∈ [pkPath], Covered [pkPath] path := by
    intro path mem
    rw [mem_singleton.mp mem]
    exact ⟨pkPath, .head _, by decide⟩
  exact (partition_key_guard_iff [pkPath]).mpr plain doc
    [.set "/tenant/name".toList (natural 2)] doc' rfl rfl pkPath (.head _)

end AzureSdk.Cosmos.Patch

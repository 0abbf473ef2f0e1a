/-
# Cosmos.Patch.Pointer — a pointer has one spelling

Escaping leaves no choice: `~` and `/` inside a token have to be escaped and nothing
else can be.  So `encode` is the only text that parses to its tokens
(`parsePointer_eq_ok`), and comparing pointers as text compares their tokens.
-/
import AzureSdk.Cosmos.Patch.Eval

namespace AzureSdk.Cosmos.Patch

open Theory List

/-- The escape of a character of a token. -/
def escapeChar (c : Char) : Text :=
  if c = '~' then ['~', '0'] else if c = '/' then ['~', '1'] else [c]

def escape (token : Text) : Text := token.flatMap escapeChar

def encode (tokens : List Text) : Text := tokens.flatMap fun token => '/' :: escape token

@[simp] theorem encode_nil : encode [] = [] := rfl

theorem encode_cons (token : Text) (tokens : List Text) :
    encode (token :: tokens) = '/' :: (escape token ++ encode tokens) := rfl

theorem encode_append (a b : List Text) : encode (a ++ b) = encode a ++ encode b :=
  flatMap_append

theorem slash_not_mem_escape (token : Text) : '/' ∉ escape token := by
  intro h
  obtain ⟨c, _, here⟩ := mem_flatMap.mp h
  unfold escapeChar at here
  split at here
  · simp at here
  split at here
  · simp at here
  · rename_i other
    exact other (mem_singleton.mp here).symm

theorem unescapeChars_escape (raw : Text) : ∀ token : Text,
    unescapeChars raw (escape token) = .ok token
  | [] => rfl
  | c :: token => by
    have rest := unescapeChars_escape raw token
    show unescapeChars raw (escapeChar c ++ escape token) = _
    unfold escapeChar
    split
    · rename_i tilde
      subst tilde
      show (unescapeChars raw (escape token)).map _ = _
      rw [rest]
      rfl
    split
    · rename_i slash
      subst slash
      show (unescapeChars raw (escape token)).map _ = _
      rw [rest]
      rfl
    · rename_i plain _
      rw [singleton_append, unescapeChars, rest]
      · rfl
      · exact fun _ same => absurd same plain
      · exact fun _ same => absurd same plain
      · exact fun same => absurd same plain

/-- Only the escape of a token unescapes to it. -/
theorem unescapeChars_eq_ok {raw s : Text} : ∀ {token : Text}, '/' ∉ s →
    unescapeChars raw s = .ok token → s = escape token := by
  fun_induction unescapeChars raw s with
  | case1 =>
    intro token _ h
    cases h
    rfl
  | case2 rest ih =>
    intro token plain h
    obtain ⟨tail, parsed, rfl⟩ := map_ok h
    rw [ih (fun slash => plain (by simp [slash])) parsed]
    rfl
  | case3 rest ih =>
    intro token plain h
    obtain ⟨tail, parsed, rfl⟩ := map_ok h
    rw [ih (fun slash => plain (by simp [slash])) parsed]
    rfl
  | case4 =>
    intro token _ h
    cases h
  | case5 c rest _ _ tilde ih =>
    intro token plain h
    obtain ⟨tail, parsed, rfl⟩ := map_ok h
    have slash : c ≠ '/' := fun same => plain (by simp [same])
    have other : c ≠ '~' := fun same => tilde same
    have single : escapeChar c = [c] := by simp [escapeChar, slash, other]
    show c :: rest = escapeChar c ++ escape tail
    rw [single, ← ih (fun slash => plain (by simp [slash])) parsed]
    rfl

variable {tokens : List Text}

theorem mapM_unescape {raws : List Text} (plain : ∀ raw ∈ raws, '/' ∉ raw)
    (h : raws.mapM unescapeToken = .ok tokens) : raws = tokens.map escape := by
  induction raws generalizing tokens with
  | nil =>
    cases h
    rfl
  | cons raw raws ih =>
    rw [mapM_cons] at h
    cases first : unescapeToken raw with
    | error e =>
      rw [first] at h
      cases h
    | ok token =>
      cases rest : raws.mapM unescapeToken with
      | error e =>
        rw [first, rest] at h
        cases h
      | ok others =>
        rw [first, rest] at h
        cases h
        rw [map_cons, ← unescapeChars_eq_ok (plain raw (.head _)) first,
          ← ih (fun r hr => plain r (.tail _ hr)) rest]

theorem encode_eq_intercalate (some_ : tokens ≠ []) :
    encode tokens = '/' :: ['/'].intercalate (tokens.map escape) := by
  induction tokens with
  | nil => exact absurd rfl some_
  | cons token tokens ih =>
    cases tokens with
    | nil => simp [encode, intercalate_singleton]
    | cons next rest =>
      rw [encode_cons, ih (cons_ne_nil next rest)]
      show _ = '/' :: ['/'].intercalate (escape token :: escape next :: rest.map escape)
      rw [intercalate_cons_cons]
      simp

/-- **A pointer has one spelling.** -/
theorem parsePointer_eq_ok {path : Text} :
    parsePointer path = .ok tokens ↔ path = encode tokens := by
  constructor
  · intro h
    unfold parsePointer at h
    split at h
    · cases h
      rfl
    · rename_i rest
      have raws := mapM_unescape (fun raw hr => Text.not_mem_of_mem_splitOn hr) h
      have some_ : tokens ≠ [] := by
        rintro rfl
        exact splitOn_ne_nil '/' rest raws
      rw [encode_eq_intercalate some_, ← raws, intercalate_splitOn]
    · cases h
  · rintro rfl
    by_cases none_ : tokens = []
    · subst none_
      rfl
    · rw [encode_eq_intercalate none_, parsePointer]
      have raws : (['/'].intercalate (tokens.map escape)).splitOn '/' = tokens.map escape := by
        refine splitOn_intercalate '/' ?_ (by simpa using none_)
        exact forall_mem_map.mpr fun token _ => slash_not_mem_escape token
      rw [raws]
      clear raws none_
      induction tokens with
      | nil => rfl
      | cons token tokens ih =>
        rw [map_cons, mapM_cons, ih]
        have first : unescapeToken (escape token) = .ok token := unescapeChars_escape _ token
        rw [first]
        rfl

end AzureSdk.Cosmos.Patch

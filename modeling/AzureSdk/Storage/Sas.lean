/-
# Storage.Sas — what a shared access signature signs

`blob_udk_string_to_sign` joins 28 fields with newlines.  The signed request headers are lines of
their own, the signed query parameters are as well, and nothing is escaped: a string with a newline
can say what two fields say.  `string_to_sign_pins` says that the text determines every field that
is signed where no string has a newline, account and container have no slash, and the keys of
headers and parameters have no colon.
-/
import AzureSdk.Theory.Decimal
import AzureSdk.Theory.Join
import AzureSdk.Theory.HashMap

namespace AzureSdk.Storage.Sas

open Theory List Decimal

/-! ## Times, addresses, protocols -/

/-- The fields of a time in UTC, to the second. -/
@[ext] structure UtcTime where
  year : Int
  month : Nat
  day : Nat
  hour : Nat
  minute : Nat
  second : Nat
  month_le : month ≤ 12
  day_le : day ≤ 31
  hour_lt : hour < 24
  minute_lt : minute < 60
  second_lt : second < 60
  deriving DecidableEq

/-- `OffsetDateTime`, as it is in UTC. -/
structure OffsetDateTime where
  utc : UtcTime
  nanosecond : Nat

/-- `{:04}` of a year. -/
def formatYear (year : Int) : Text :=
  if year < 0 then '-' :: padded 3 year.natAbs else padded 4 year.natAbs

/-- What `format_time` has after the year. -/
def formatDay (t : UtcTime) : Text :=
  '-' :: (padded 2 t.month ++ '-' :: (padded 2 t.day ++
    'T' :: (padded 2 t.hour ++ ':' :: (padded 2 t.minute ++
      ':' :: (padded 2 t.second ++ ['Z'])))))

/-- `CommonFields::format_time`. -/
def formatTime (t : OffsetDateTime) : Text := formatYear t.utc.year ++ formatDay t.utc

@[ext] structure Ipv4Addr where
  a : UInt8
  b : UInt8
  c : UInt8
  d : UInt8
  deriving DecidableEq

def Ipv4Addr.display (addr : Ipv4Addr) : Text :=
  Decimal.display addr.a.toNat ++ '.' :: (Decimal.display addr.b.toNat ++
    '.' :: (Decimal.display addr.c.toNat ++ '.' :: Decimal.display addr.d.toNat))

inductive SasIpRange
  | address (addr : Ipv4Addr)
  | inclusiveRange (start stop : Ipv4Addr)
  deriving DecidableEq

def SasIpRange.sipValue : SasIpRange → Text
  | .address addr => addr.display
  | .inclusiveRange start stop => start.display ++ '-' :: stop.display

inductive SasProtocol
  | https | httpsAndHttp
  deriving DecidableEq

def SasProtocol.display : SasProtocol → Text
  | .https => "https".toList
  | .httpsAndHttp => "https,http".toList

/-! ## Permissions -/

/-- A letter, if the permission is enabled. -/
def letter (enabled : Bool) (c : Char) : Text := if enabled then [c] else []

/-- The letters of the permissions that are enabled. -/
def letters (enabled : List Bool) (cs : Text) : Text := (List.zipWith letter enabled cs).flatten

@[ext] structure BlobPermissions where
  read : Bool := false
  add : Bool := false
  create : Bool := false
  write : Bool := false
  delete : Bool := false
  deleteVersion : Bool := false
  permanentDelete : Bool := false
  tags : Bool := false
  moveBlob : Bool := false
  execute : Bool := false
  ownership : Bool := false
  permissions : Bool := false
  setImmutabilityPolicy : Bool := false
  deriving DecidableEq

def BlobPermissions.toSasStr (p : BlobPermissions) : Text :=
  letters [p.read, p.add, p.create, p.write, p.delete, p.deleteVersion, p.permanentDelete, p.tags,
    p.moveBlob, p.execute, p.ownership, p.permissions, p.setImmutabilityPolicy] "racwdxytmeopi".toList

@[ext] structure ContainerPermissions where
  read : Bool := false
  add : Bool := false
  create : Bool := false
  write : Bool := false
  delete : Bool := false
  deleteVersion : Bool := false
  permanentDelete : Bool := false
  list : Bool := false
  tags : Bool := false
  moveBlob : Bool := false
  execute : Bool := false
  ownership : Bool := false
  permissions : Bool := false
  setImmutabilityPolicy : Bool := false
  deriving DecidableEq

def ContainerPermissions.toSasStr (p : ContainerPermissions) : Text :=
  letters [p.read, p.add, p.create, p.write, p.delete, p.deleteVersion, p.permanentDelete, p.list,
    p.tags, p.moveBlob, p.execute, p.ownership, p.permissions, p.setImmutabilityPolicy]
    "racwdxyltmeopi".toList

/-! ## The builder -/

abbrev BTreeMap := Std.ExtTreeMap Text Text compare

structure BlobSasOptions where
  encryptionScope : Option Text := none
  cacheControl : Option Text := none
  contentDisposition : Option Text := none
  contentEncoding : Option Text := none
  contentLanguage : Option Text := none
  contentType : Option Text := none
  authorizedObjectId : Option Text := none
  unauthorizedObjectId : Option Text := none
  correlationId : Option Text := none
  signedRequestHeaders : Option BTreeMap := none
  signedRequestQueryParameters : Option BTreeMap := none

structure CommonFields where
  account : Text
  start : Option OffsetDateTime := none
  expiry : OffsetDateTime
  protocol : Option SasProtocol := none
  ipRange : Option SasIpRange := none
  delegatedUserObjectId : Option Text := none

/-- The resource that is selected, with its permissions. -/
inductive Resource
  | blob (container blob : Text) (snapshot versionId : Option Text) (permissions : BlobPermissions)
  | container (container : Text) (permissions : ContainerPermissions)
  | directory (container directory : Text) (permissions : ContainerPermissions)

/-- `SasBuilder`, with a blob-service resource selected. -/
structure SasBuilder where
  common : CommonFields
  resource : Resource
  options : BlobSasOptions := {}

/-- `ValidatedKey`, as far as it is signed. -/
structure ValidatedKey where
  signedOid : Text
  signedTid : Text
  signedStart : OffsetDateTime
  signedExpiry : OffsetDateTime
  signedService : Text
  signedVersion : Text
  signedDelegatedUserTid : Option Text

namespace SasBuilder

variable (b : SasBuilder)

/-- `SasBuilder::new(account, key, expiry)` and `blob(container, blob)`. -/
def newBlob (account : Text) (expiry : OffsetDateTime) (container blob : Text) : SasBuilder :=
  { common := { account, expiry }, resource := .blob container blob none none {} }

variable (value : Text)

def authorizedObjectId : SasBuilder :=
  { b with options := { b.options with authorizedObjectId := some value } }

def unauthorizedObjectId : SasBuilder :=
  { b with options := { b.options with unauthorizedObjectId := some value } }

def signedRequestHeader (key value : Text) : SasBuilder :=
  { b with options := { b.options with
      signedRequestHeaders := some ((b.options.signedRequestHeaders.getD ∅).insert key value) } }

end SasBuilder

/-! ## The text -/

/-- `key:value`. -/
def line (entry : Text × Text) : Text := entry.1 ++ ':' :: entry.2

/-- `signed_request_headers_str`, of the entries in the order of their keys. -/
def headersStr (entries : List (Text × Text)) : Text := entries.flatMap fun e => line e ++ ['\n']

/-- `signed_request_query_parameters_str`. -/
def parametersStr (entries : List (Text × Text)) : Text := entries.flatMap fun e => '\n' :: line e

/-- The entries of a map that may not be there. -/
def entries (map : Option BTreeMap) : List (Text × Text) := (map.getD ∅).toList

namespace Resource

/-- `permissions.to_sas_str()`. -/
def permissionsStr : Resource → Text
  | .blob _ _ _ _ permissions => permissions.toSasStr
  | .container _ permissions => permissions.toSasStr
  | .directory _ _ permissions => permissions.toSasStr

/-- `signed_resource` of a blob. -/
def signedBlob (snapshot versionId : Option Text) : Text :=
  if snapshot.isSome then "bs".toList else if versionId.isSome then "bv".toList else "b".toList

def signedResource : Resource → Text
  | .blob _ _ snapshot versionId _ => signedBlob snapshot versionId
  | .container _ _ => "c".toList
  | .directory _ _ _ => "d".toList

/-- The name of the container, and what is named in it. -/
def canonicalName : Resource → Text
  | .blob outer name _ _ _ => outer ++ '/' :: name
  | .container outer _ => outer
  | .directory outer name _ => outer ++ '/' :: name

def canonicalizedResource (account : Text) (r : Resource) : Text :=
  "/blob/".toList ++ (account ++ '/' :: r.canonicalName)

/-- `snapshot_or_version_time().unwrap_or("")` for a blob, `""` for the others. -/
def snapshotTime : Resource → Text
  | .blob _ _ snapshot versionId _ => (snapshot.or versionId).getD []
  | _ => []

end Resource

def sasVersion : Text := "2026-04-06".toList

/-- The fields up to the encryption scope. -/
def leadingParts (key : ValidatedKey) (b : SasBuilder) : List Text :=
  [ b.resource.permissionsStr,
    (b.common.start.map formatTime).getD [],
    formatTime b.common.expiry,
    b.resource.canonicalizedResource b.common.account,
    key.signedOid,
    key.signedTid,
    formatTime key.signedStart,
    formatTime key.signedExpiry,
    key.signedService,
    key.signedVersion,
    b.options.authorizedObjectId.getD [],
    b.options.unauthorizedObjectId.getD [],
    b.options.correlationId.getD [],
    key.signedDelegatedUserTid.getD [],
    b.common.delegatedUserObjectId.getD [],
    (b.common.ipRange.map SasIpRange.sipValue).getD [],
    (b.common.protocol.map SasProtocol.display).getD [],
    sasVersion,
    b.resource.signedResource,
    b.resource.snapshotTime,
    b.options.encryptionScope.getD [] ]

def overrides (options : BlobSasOptions) : List Text :=
  [ options.cacheControl.getD [],
    options.contentDisposition.getD [],
    options.contentEncoding.getD [],
    options.contentLanguage.getD [],
    options.contentType.getD [] ]

/-- `blob_udk_string_to_sign`: all parts, joined with newlines. -/
def stringToSign (key : ValidatedKey) (b : SasBuilder) : Text :=
  ['\n'].intercalate
    (leadingParts key b ++ headersStr (entries b.options.signedRequestHeaders) ::
      parametersStr (entries b.options.signedRequestQueryParameters) :: overrides b.options)

/-! ## What is signed -/

/-- Which state of a blob is meant. -/
inductive Target
  | base
  | snapshot (time : Text)
  | version (id : Text)
  deriving DecidableEq

/-- The resource, with what is granted on it. -/
inductive Grant
  | blob (container blob : Text) (target : Target) (permissions : BlobPermissions)
  | container (container : Text) (permissions : ContainerPermissions)
  | directory (container directory : Text) (permissions : ContainerPermissions)
  deriving DecidableEq

/-- A snapshot takes precedence over a version. -/
def Target.of : Option Text → Option Text → Target
  | some time, _ => .snapshot time
  | none, some id => .version id
  | none, none => .base

def Resource.grant : Resource → Grant
  | .blob outer name snapshot versionId permissions =>
    .blob outer name (Target.of snapshot versionId) permissions
  | .container outer permissions => .container outer permissions
  | .directory outer name permissions => .directory outer name permissions

/-- The fields that are signed: times are signed to the second, and a string that is not set is
signed as an empty one. -/
structure Signed where
  account : Text
  grant : Grant
  start : Option UtcTime
  expiry : UtcTime
  ipRange : Option SasIpRange
  protocol : Option SasProtocol
  delegatedUserObjectId : Text
  authorizedObjectId : Text
  unauthorizedObjectId : Text
  correlationId : Text
  encryptionScope : Text
  signedRequestHeaders : BTreeMap
  signedRequestQueryParameters : BTreeMap
  overrides : List Text

def SasBuilder.signed (b : SasBuilder) : Signed where
  account := b.common.account
  grant := b.resource.grant
  start := b.common.start.map OffsetDateTime.utc
  expiry := b.common.expiry.utc
  ipRange := b.common.ipRange
  protocol := b.common.protocol
  delegatedUserObjectId := b.common.delegatedUserObjectId.getD []
  authorizedObjectId := b.options.authorizedObjectId.getD []
  unauthorizedObjectId := b.options.unauthorizedObjectId.getD []
  correlationId := b.options.correlationId.getD []
  encryptionScope := b.options.encryptionScope.getD []
  signedRequestHeaders := b.options.signedRequestHeaders.getD ∅
  signedRequestQueryParameters := b.options.signedRequestQueryParameters.getD ∅
  overrides := Sas.overrides b.options

def Resource.texts : Resource → List Text
  | .blob outer name snapshot versionId _ => [outer, name, (snapshot.or versionId).getD []]
  | .container outer _ => [outer]
  | .directory outer name _ => [outer, name]

def Resource.containerName : Resource → Text
  | .blob outer _ _ _ _ => outer
  | .container outer _ => outer
  | .directory outer _ _ => outer

def SasBuilder.mapEntries (b : SasBuilder) : List (Text × Text) :=
  entries b.options.signedRequestHeaders ++ entries b.options.signedRequestQueryParameters

def SasBuilder.texts (b : SasBuilder) : List Text :=
  [ b.common.account,
    b.common.delegatedUserObjectId.getD [],
    b.options.authorizedObjectId.getD [],
    b.options.unauthorizedObjectId.getD [],
    b.options.correlationId.getD [],
    b.options.encryptionScope.getD [] ] ++
    b.resource.texts ++ overrides b.options ++ b.mapEntries.flatMap fun e => [e.1, e.2]

/-- The strings do not have what separates them. -/
structure SasBuilder.Clean (b : SasBuilder) : Prop where
  newline : ∀ text ∈ b.texts, '\n' ∉ text
  account : '/' ∉ b.common.account
  container : '/' ∉ b.resource.containerName
  keys : ∀ entry ∈ b.mapEntries, ':' ∉ entry.1

/-! ## Fields from their texts -/

theorem mem_of_mem_letters {d : Char} : ∀ {enabled : List Bool} {cs : Text},
    d ∈ letters enabled cs → d ∈ cs
  | [], _, mem => by cases mem
  | _ :: _, [], mem => by cases mem
  | on :: enabled, c :: cs, mem => by
    rcases mem_append.mp mem with mem | mem
    · unfold letter at mem
      split at mem
      · rw [mem_singleton.mp mem]
        exact .head _
      · cases mem
    · exact .tail _ (mem_of_mem_letters mem)

/-- Distinct letters tell which permissions are enabled. -/
theorem letters_inj : ∀ {cs : Text}, cs.Nodup → ∀ {enabled enabled' : List Bool},
    enabled.length = cs.length → enabled'.length = cs.length →
    letters enabled cs = letters enabled' cs → enabled = enabled'
  | [], _, enabled, enabled', length, length', _ => by
    rw [length_eq_zero_iff.mp length, length_eq_zero_iff.mp length']
  | c :: cs, distinct, on :: enabled, on' :: enabled', length, length', same => by
    obtain ⟨fresh, distinct⟩ := nodup_cons.mp distinct
    have rest : letters enabled cs = letters enabled' cs → enabled = enabled' :=
      letters_inj distinct (Nat.succ.inj length) (Nat.succ.inj length')
    -- a letter that is not enabled is not among the later ones
    have apart : ∀ {flags flags' : List Bool}, c :: letters flags cs ≠ letters flags' cs := by
      intro flags flags' same
      have mem : c ∈ letters flags' cs := same ▸ mem_cons_self
      exact fresh (mem_of_mem_letters mem)
    cases on <;> cases on'
    · rw [rest same]
    · exact absurd same.symm apart
    · exact absurd same apart
    · rw [rest (cons.inj same).2]

theorem BlobPermissions.toSasStr_inj {p q : BlobPermissions} (same : p.toSasStr = q.toSasStr) :
    p = q := by
  have flags := letters_inj (by decide) (by rfl) (by rfl) same
  simpa [BlobPermissions.ext_iff] using flags

theorem ContainerPermissions.toSasStr_inj {p q : ContainerPermissions}
    (same : p.toSasStr = q.toSasStr) : p = q := by
  have flags := letters_inj (by decide) (by rfl) (by rfl) same
  simpa [ContainerPermissions.ext_iff] using flags

theorem formatYear_inj {y z : Int} (same : formatYear y = formatYear z) : y = z := by
  have sign : ∀ width n m, '-' :: padded width n ≠ padded (width + 1) m := by
    intro width n m same
    have digit := padded_isDigit (same ▸ mem_cons_self)
    exact absurd digit (by decide)
  unfold formatYear at same
  split at same <;> split at same
  · have abs := padded_inj (cons.inj same).2
    omega
  · exact absurd same (sign 3 _ _)
  · exact absurd same.symm (sign 3 _ _)
  · have abs := padded_inj same
    omega

theorem length_formatDay (t : UtcTime) : (formatDay t).length = 16 := by
  have month := length_padded_two t.month (by have := t.month_le; omega)
  have day := length_padded_two t.day (by have := t.day_le; omega)
  have hour := length_padded_two t.hour (by have := t.hour_lt; omega)
  have minute := length_padded_two t.minute (by have := t.minute_lt; omega)
  have second := length_padded_two t.second (by have := t.second_lt; omega)
  simp [formatDay, month, day, hour, minute, second]

variable {c : Char} {r : Resource}

theorem not_mem_padded {width n : Nat} (other : c.isDigit = false) : c ∉ padded width n := by
  intro mem
  rw [padded_isDigit mem] at other
  cases other

theorem formatTime_inj {t u : OffsetDateTime} (same : formatTime t = formatTime u) : t.utc = u.utc := by
  obtain ⟨year, rest⟩ := append_inj' same (by rw [length_formatDay, length_formatDay])
  have dash {n : Nat} : '-' ∉ padded 2 n := not_mem_padded (by decide)
  have clock {n : Nat} : 'T' ∉ padded 2 n := not_mem_padded (by decide)
  have colon {n : Nat} : ':' ∉ padded 2 n := not_mem_padded (by decide)
  have zulu {n : Nat} : 'Z' ∉ padded 2 n := not_mem_padded (by decide)
  obtain ⟨month, rest⟩ := append_cons_inj dash dash (cons.inj rest).2
  obtain ⟨day, rest⟩ := append_cons_inj clock clock rest
  obtain ⟨hour, rest⟩ := append_cons_inj colon colon rest
  obtain ⟨minute, rest⟩ := append_cons_inj colon colon rest
  obtain ⟨second, _⟩ := append_cons_inj zulu zulu rest
  exact UtcTime.ext (formatYear_inj year) (padded_inj month) (padded_inj day)
    (padded_inj hour) (padded_inj minute) (padded_inj second)

theorem Ipv4Addr.display_inj {x y : Ipv4Addr} (same : x.display = y.display) : x = y := by
  have dot {n : Nat} : '.' ∉ Decimal.display n := Decimal.not_mem_display (by decide)
  obtain ⟨a, rest⟩ := append_cons_inj dot dot same
  obtain ⟨b, rest⟩ := append_cons_inj dot dot rest
  obtain ⟨c, d⟩ := append_cons_inj dot dot rest
  ext
  · exact congrArg _ (UInt8.toNat_inj.mp (Decimal.display_inj a))
  · exact congrArg _ (UInt8.toNat_inj.mp (Decimal.display_inj b))
  · exact congrArg _ (UInt8.toNat_inj.mp (Decimal.display_inj c))
  · exact congrArg _ (UInt8.toNat_inj.mp (Decimal.display_inj d))

theorem Ipv4Addr.not_mem_display {addr : Ipv4Addr} (digit : c.isDigit = false)
    (dot : c ≠ '.') : c ∉ addr.display := by
  have none {n : Nat} : c ∉ Decimal.display n := Decimal.not_mem_display digit
  simp [display, none, dot]

theorem SasIpRange.sipValue_inj {x y : SasIpRange} (same : x.sipValue = y.sipValue) : x = y := by
  have dash {addr : Ipv4Addr} : '-' ∉ addr.display :=
    Ipv4Addr.not_mem_display (by decide) (by decide)
  have apart : ∀ {addr start stop : Ipv4Addr}, addr.display ≠ start.display ++ '-' :: stop.display := by
    intro addr start stop same
    exact dash (same ▸ mem_append_right _ (.head _))
  cases x with
  | address addr =>
    cases y with
    | address addr' => rw [Ipv4Addr.display_inj same]
    | inclusiveRange start stop => exact absurd same apart
  | inclusiveRange start stop =>
    cases y with
    | address addr => exact absurd same.symm apart
    | inclusiveRange start' stop' =>
      obtain ⟨first, last⟩ := append_cons_inj dash dash same
      rw [Ipv4Addr.display_inj first, Ipv4Addr.display_inj last]

theorem SasProtocol.display_inj {x y : SasProtocol} (same : x.display = y.display) : x = y := by
  revert same
  cases x <;> cases y <;> decide

/-- Where no value has an empty text, an empty text says that there is none. -/
theorem optional_inj {α β : Type} {f : α → Text} {g : α → β} (some : ∀ a, f a ≠ [])
    (inj : ∀ {a a'}, f a = f a' → g a = g a') {x y : Option α}
    (same : (x.map f).getD [] = (y.map f).getD []) : x.map g = y.map g := by
  cases x with
  | none =>
    cases y with
    | none => rfl
    | some b => exact absurd same.symm (some b)
  | some a =>
    cases y with
    | none => exact absurd same (some a)
    | some b => exact congrArg Option.some (inj same)

theorem SasIpRange.sipValue_ne_nil (range : SasIpRange) : range.sipValue ≠ [] := by
  cases range <;> simp [sipValue, Ipv4Addr.display]

theorem SasProtocol.display_ne_nil (protocol : SasProtocol) : protocol.display ≠ [] := by
  cases protocol <;> decide

theorem Target.of_inj {snapshot snapshot' version version' : Option Text}
    (kind : Resource.signedBlob snapshot version = Resource.signedBlob snapshot' version')
    (time : (snapshot.or version).getD [] = (snapshot'.or version').getD []) :
    Target.of snapshot version = Target.of snapshot' version' := by
  revert kind time
  cases snapshot <;> cases version <;> cases snapshot' <;> cases version' <;>
    simp [Resource.signedBlob, Target.of]

theorem signedBlob_apart (snapshot version : Option Text) (other : c ≠ 'b') :
    Resource.signedBlob snapshot version ≠ [c] := by
  unfold Resource.signedBlob
  split
  · simp
  · split
    · simp
    · simp [Ne.symm other]

/-- The kind, the names, the target and the permissions make the grant. -/
theorem Resource.grant_inj {r' : Resource} (slash : '/' ∉ r.containerName)
    (slash' : '/' ∉ r'.containerName) (kind : r.signedResource = r'.signedResource)
    (names : r.canonicalName = r'.canonicalName) (time : r.snapshotTime = r'.snapshotTime)
    (flags : r.permissionsStr = r'.permissionsStr) : r.grant = r'.grant := by
  cases r with
  | blob outer name snapshot version permissions =>
    cases r' with
    | blob outer' name' snapshot' version' permissions' =>
      obtain ⟨rfl, rfl⟩ : outer = outer' ∧ name = name' := append_cons_inj slash slash' names
      obtain rfl := BlobPermissions.toSasStr_inj flags
      exact congrArg (Grant.blob outer name · permissions) (Target.of_inj kind time)
    | container | directory => exact absurd kind (signedBlob_apart _ _ (by decide))
  | container outer permissions =>
    cases r' with
    | blob => exact absurd kind.symm (signedBlob_apart _ _ (by decide))
    | container outer' permissions' =>
      obtain rfl : outer = outer' := names
      obtain rfl := ContainerPermissions.toSasStr_inj flags
      rfl
    | directory => cases (cons.inj kind).1
  | directory outer name permissions =>
    cases r' with
    | blob => exact absurd kind.symm (signedBlob_apart _ _ (by decide))
    | container => cases (cons.inj kind).1
    | directory outer' name' permissions' =>
      obtain ⟨rfl, rfl⟩ : outer = outer' ∧ name = name' := append_cons_inj slash slash' names
      obtain rfl := ContainerPermissions.toSasStr_inj flags
      rfl

/-! ## The lines of both maps -/

theorem headersStr_append : ∀ (headers : List (Text × Text)) (rest : Text),
    headersStr headers ++ rest = ended '\n' (headers.map line) rest
  | [], rest => rfl
  | e :: headers, rest => by
    have more := headersStr_append headers rest
    rw [headersStr] at more ⊢
    rw [flatMap_cons, append_assoc, more, append_assoc]
    rfl

theorem parametersStr_append : ∀ (parameters : List (Text × Text)) (rest : Text),
    parametersStr parameters ++ '\n' :: rest = '\n' :: ended '\n' (parameters.map line) rest
  | [], rest => rfl
  | e :: parameters, rest => by
    have more := parametersStr_append parameters rest
    rw [parametersStr] at more ⊢
    rw [flatMap_cons, append_assoc, more]
    rfl

/-- Both maps and the overrides as lines: two empty ones are between headers and parameters. -/
def trailingLines (headers parameters : List (Text × Text)) (overrides : List Text) : List Text :=
  headers.map line ++ [] :: [] :: (parameters.map line ++ overrides)

theorem intercalate_trailing (headers parameters : List (Text × Text)) (last : Text)
    (overrides : List Text) :
    ['\n'].intercalate (headersStr headers :: parametersStr parameters :: last :: overrides) =
      ['\n'].intercalate (trailingLines headers parameters (last :: overrides)) := by
  have left := intercalate_append '\n' last overrides [headersStr headers, parametersStr parameters]
  have right := intercalate_append '\n' last overrides
    (headers.map line ++ [[], []] ++ parameters.map line)
  have lines : trailingLines headers parameters (last :: overrides) =
      headers.map line ++ [[], []] ++ parameters.map line ++ last :: overrides := by
    simp [trailingLines]
  rw [lines, right, ended_append, ended_append, ← headersStr_append]
  show headersStr headers ++ '\n' :: (parametersStr parameters ++ '\n' :: _) = _
  rw [parametersStr_append]
  rfl

/-- A key without a colon ends at the first one. -/
theorem map_line_inj {es es' : List (Text × Text)} (keys : ∀ e ∈ es, ':' ∉ e.1)
    (keys' : ∀ e ∈ es', ':' ∉ e.1) (same : es.map line = es'.map line) : es = es' := by
  have back : ∀ {es : List (Text × Text)}, (∀ e ∈ es, ':' ∉ e.1) →
      (es.map line).map (Text.splitOnce ':') = es.map some := by
    intro es keys
    rw [map_map]
    exact map_congr_left fun e mem => Text.splitOnce_append e.2 (keys e mem)
  have entries := (back keys).symm.trans ((congrArg _ same).trans (back keys'))
  exact map_injective_iff.mpr (fun _ _ => Option.some.inj) entries

theorem trailingLines_inj {hs hs' ps ps' : List (Text × Text)} {os os' : List Text}
    (keys : ∀ e ∈ hs ++ ps, ':' ∉ e.1) (keys' : ∀ e ∈ hs' ++ ps', ':' ∉ e.1)
    (length : os.length = os'.length)
    (same : trailingLines hs ps os = trailingLines hs' ps' os') : hs = hs' ∧ ps = ps' ∧ os = os' := by
  have fresh : ∀ es : List (Text × Text), [] ∉ es.map line := by
    intro es mem
    obtain ⟨e, _, empty⟩ := mem_map.mp mem
    simp [line] at empty
  obtain ⟨headers, rest⟩ := append_cons_inj (fresh hs) (fresh hs') same
  obtain ⟨parameters, overrides⟩ := append_inj' (cons.inj rest).2 length
  refine ⟨map_line_inj ?_ ?_ headers, map_line_inj ?_ ?_ parameters, overrides⟩
  · exact fun e mem => keys e (mem_append_left _ mem)
  · exact fun e mem => keys' e (mem_append_left _ mem)
  · exact fun e mem => keys e (mem_append_right _ mem)
  · exact fun e mem => keys' e (mem_append_right _ mem)

/-! ## The whole text -/

theorem plain_permissions (r : Resource) : '\n' ∉ r.permissionsStr := by
  cases r with
  | blob _ _ _ _ permissions =>
    intro mem
    exact absurd (mem_of_mem_letters mem) (by decide)
  | container _ permissions | directory _ _ permissions =>
    intro mem
    exact absurd (mem_of_mem_letters mem) (by decide)

theorem plain_formatTime (t : OffsetDateTime) : '\n' ∉ formatTime t := by
  have digits {width n : Nat} : '\n' ∉ padded width n := not_mem_padded (by decide)
  have year : '\n' ∉ formatYear t.utc.year := by
    unfold formatYear
    split <;> simp [digits]
  simp [formatTime, formatDay, digits, year]

theorem plain_sipValue (range : SasIpRange) : '\n' ∉ range.sipValue := by
  have addr {addr : Ipv4Addr} : '\n' ∉ addr.display :=
    Ipv4Addr.not_mem_display (by decide) (by decide)
  cases range <;> simp [SasIpRange.sipValue, addr]

theorem plain_protocol (protocol : SasProtocol) : '\n' ∉ protocol.display := by
  cases protocol <;> decide

theorem plain_signedResource (r : Resource) : '\n' ∉ r.signedResource := by
  cases r with
  | blob _ _ snapshot version _ =>
    show '\n' ∉ Resource.signedBlob snapshot version
    unfold Resource.signedBlob
    split
    · decide
    · split <;> decide
  | container _ _ | directory _ _ _ => simp [Resource.signedResource]

theorem plain_optional {α : Type} {f : α → Text} (plain : ∀ a, '\n' ∉ f a) (x : Option α) :
    '\n' ∉ (x.map f).getD [] := by
  cases x with
  | none => exact not_mem_nil
  | some a => exact plain a

theorem Resource.plain_canonicalName (plain : ∀ text ∈ r.texts, '\n' ∉ text) :
    '\n' ∉ r.canonicalName := by
  cases r with
  | blob outer name _ _ _ | directory outer name _ =>
    have first := plain outer (by simp [texts])
    have second := plain name (by simp [texts])
    simp [canonicalName, first, second]
  | container outer _ => exact plain outer (by simp [texts])

theorem Resource.plain_time (plain : ∀ text ∈ r.texts, '\n' ∉ text) : '\n' ∉ r.snapshotTime := by
  cases r with
  | blob _ _ snapshot version _ => exact plain ((snapshot.or version).getD []) (by simp [texts])
  | container _ _ | directory _ _ _ => exact not_mem_nil

namespace SasBuilder.Clean

variable {b b' : SasBuilder} (clean : b.Clean)
include clean

theorem plain_resource : ∀ text ∈ b.resource.texts, '\n' ∉ text :=
  fun text mem => clean.newline text (by simp [texts, mem])

theorem plain_strings :
    '\n' ∉ b.common.account ∧ '\n' ∉ b.common.delegatedUserObjectId.getD [] ∧
      '\n' ∉ b.options.authorizedObjectId.getD [] ∧
      '\n' ∉ b.options.unauthorizedObjectId.getD [] ∧
      '\n' ∉ b.options.correlationId.getD [] ∧ '\n' ∉ b.options.encryptionScope.getD [] := by
  have plain := clean.newline
  simp only [texts, forall_mem_append, forall_mem_cons] at plain
  obtain ⟨⟨⟨⟨account, delegated, authorized, unauthorized, correlation, scope, _⟩, _⟩, _⟩, _⟩ := plain
  exact ⟨account, delegated, authorized, unauthorized, correlation, scope⟩

theorem plain_canonical : '\n' ∉ b.resource.canonicalizedResource b.common.account := by
  have account := clean.plain_strings.1
  have names : '\n' ∉ b.resource.canonicalName :=
    Resource.plain_canonicalName clean.plain_resource
  intro mem
  rcases mem_append.mp mem with mem | mem
  · exact absurd mem (by decide)
  · rcases mem_append.mp mem with mem | mem
    · exact account mem
    · rcases mem_cons.mp mem with same | mem
      · exact absurd same (by decide)
      · exact names mem

theorem plain_trailing : ∀ text ∈ trailingLines (entries b.options.signedRequestHeaders)
    (entries b.options.signedRequestQueryParameters) (overrides b.options), '\n' ∉ text := by
  have lines : ∀ e ∈ b.mapEntries, '\n' ∉ line e := by
    intro e mem
    have key : '\n' ∉ e.1 := clean.newline _ (by
      simp only [texts, mem_append, mem_flatMap]
      exact .inr ⟨e, mem, by simp⟩)
    have value : '\n' ∉ e.2 := clean.newline _ (by
      simp only [texts, mem_append, mem_flatMap]
      exact .inr ⟨e, mem, by simp⟩)
    simp [line, key, value]
  intro text mem
  simp only [trailingLines, mem_append, mem_cons, mem_map] at mem
  rcases mem with ⟨e, mem, rfl⟩ | rfl | rfl | ⟨e, mem, rfl⟩ | mem
  · exact lines e (mem_append_left _ mem)
  · exact not_mem_nil
  · exact not_mem_nil
  · exact lines e (mem_append_right _ mem)
  · exact clean.newline text (by simp [texts, mem])

/-- A leading part is a field of the key, or has no newline. -/
theorem alike (clean' : b'.Clean) (key : ValidatedKey) :
    List.Forall₂ (fun p q => p = q ∨ '\n' ∉ p ∧ '\n' ∉ q) (leadingParts key b)
      (leadingParts key b') := by
  have own {p q : Text} (hp : '\n' ∉ p) (hq : '\n' ∉ q) : p = q ∨ '\n' ∉ p ∧ '\n' ∉ q :=
    .inr ⟨hp, hq⟩
  obtain ⟨_, delegated, authorized, unauthorized, correlation, scope⟩ := clean.plain_strings
  obtain ⟨_, delegated', authorized', unauthorized', correlation', scope'⟩ := clean'.plain_strings
  refine .cons (own (plain_permissions _) (plain_permissions _)) ?_
  refine .cons (own (plain_optional plain_formatTime _) (plain_optional plain_formatTime _)) ?_
  refine .cons (own (plain_formatTime _) (plain_formatTime _)) ?_
  refine .cons (own clean.plain_canonical clean'.plain_canonical) ?_
  refine .cons (.inl rfl) <| .cons (.inl rfl) <| .cons (.inl rfl) <| .cons (.inl rfl) <|
    .cons (.inl rfl) <| .cons (.inl rfl) ?_
  refine .cons (own authorized authorized') ?_
  refine .cons (own unauthorized unauthorized') ?_
  refine .cons (own correlation correlation') ?_
  refine .cons (.inl rfl) ?_
  refine .cons (own delegated delegated') ?_
  refine .cons (own (plain_optional plain_sipValue _) (plain_optional plain_sipValue _)) ?_
  refine .cons (own (plain_optional plain_protocol _) (plain_optional plain_protocol _)) ?_
  refine .cons (.inl rfl) ?_
  refine .cons (own (plain_signedResource _) (plain_signedResource _)) ?_
  refine .cons (own (Resource.plain_time clean.plain_resource)
    (Resource.plain_time clean'.plain_resource)) ?_
  exact .cons (own scope scope') .nil

end SasBuilder.Clean

/-- The text determines its leading parts, both maps and the overrides. -/
theorem stringToSign_parts {key : ValidatedKey} {b b' : SasBuilder} (clean : b.Clean)
    (clean' : b'.Clean) (same : stringToSign key b = stringToSign key b') :
    leadingParts key b = leadingParts key b' ∧
      entries b.options.signedRequestHeaders = entries b'.options.signedRequestHeaders ∧
      entries b.options.signedRequestQueryParameters =
        entries b'.options.signedRequestQueryParameters ∧
      overrides b.options = overrides b'.options := by
  unfold stringToSign at same
  rw [intercalate_append, intercalate_append] at same
  obtain ⟨leading, trailing⟩ := ended_inj (clean.alike clean' key) same
  refine ⟨leading, ?_⟩
  unfold overrides at trailing
  rw [intercalate_trailing, intercalate_trailing] at trailing
  -- lines without separators are told apart by them
  have lines := congrArg (splitOn '\n') trailing
  have split := splitOn_intercalate '\n' clean.plain_trailing (by simp [trailingLines])
  have split' := splitOn_intercalate '\n' clean'.plain_trailing (by simp [trailingLines])
  replace lines := split.symm.trans (lines.trans split')
  exact trailingLines_inj clean.keys clean'.keys rfl lines

/-- **The text that is signed determines every field that is signed**, where the strings do not
have what separates them. -/
theorem string_to_sign_pins (key : ValidatedKey) (b b' : SasBuilder) (clean : b.Clean)
    (clean' : b'.Clean) (same : stringToSign key b = stringToSign key b') :
    b.signed = b'.signed := by
  obtain ⟨leading, headers, parameters, overrides⟩ := stringToSign_parts clean clean' same
  simp only [leadingParts, List.cons.injEq, and_true, true_and] at leading
  obtain ⟨permissions, start, expiry, canonical, authorized, unauthorized, correlation, delegated, ip,
    protocol, kind, time, scope⟩ := leading
  obtain ⟨account, names⟩ :=
    append_cons_inj clean.account clean'.account (append_cancel_left canonical)
  have grant := Resource.grant_inj clean.container clean'.container kind names time permissions
  have start := optional_inj (by simp [formatTime, formatDay]) formatTime_inj start
  have ip : b.common.ipRange = b'.common.ipRange := by
    simpa using optional_inj (g := id) SasIpRange.sipValue_ne_nil SasIpRange.sipValue_inj ip
  have protocol : b.common.protocol = b'.common.protocol := by
    simpa using optional_inj (g := id) SasProtocol.display_ne_nil SasProtocol.display_inj protocol
  have headers := Std.ExtTreeMap.toList_inj.mp headers
  have parameters := Std.ExtTreeMap.toList_inj.mp parameters
  simp only [SasBuilder.signed, account, grant, start, formatTime_inj expiry, ip, protocol, delegated,
    authorized, unauthorized, correlation, scope, headers, parameters, overrides]

/-! ## Configurations with the same text -/

def noon : OffsetDateTime :=
  ⟨⟨2025, 6, 1, 12, 0, 0, by decide, by decide, by decide, by decide, by decide⟩, 0⟩

def plainKey : ValidatedKey :=
  ⟨"oid".toList, "tid".toList, noon, noon, "b".toList, "2025-11-05".toList, none⟩

/-- A configuration for a blob of an account. -/
def photo : SasBuilder :=
  SasBuilder.newBlob "account".toList noon "images".toList "photo.jpg".toList

/-- An identifier that is not set is signed as an empty one. -/
theorem string_to_sign_pins_photo :
    photo.Clean ∧ (photo.authorizedObjectId []).Clean ∧
      stringToSign plainKey photo = stringToSign plainKey (photo.authorizedObjectId []) ∧
      photo.signed = (photo.authorizedObjectId []).signed := by
  have clean : photo.Clean := ⟨by decide, by decide, by decide, by decide⟩
  have clean' : (photo.authorizedObjectId []).Clean := ⟨by decide, by decide, by decide, by decide⟩
  exact ⟨clean, clean', rfl, string_to_sign_pins plainKey _ _ clean clean' rfl⟩

/-- A newline moves a part of an identifier to the next field. -/
def newlineFirst : SasBuilder :=
  (photo.authorizedObjectId "alice\nbob".toList).unauthorizedObjectId "carol".toList

def newlineSecond : SasBuilder :=
  (photo.authorizedObjectId "alice".toList).unauthorizedObjectId "bob\ncarol".toList

/-- A colon moves a part of a value to its key. -/
def colonFirst : SasBuilder := photo.signedRequestHeader "a:b".toList "c".toList

def colonSecond : SasBuilder := photo.signedRequestHeader "a".toList "b:c".toList

/-- A slash moves a part of a name. -/
def slashFirst : SasBuilder := SasBuilder.newBlob "a".toList noon "c/d".toList "e".toList

def slashSecond : SasBuilder := SasBuilder.newBlob "a".toList noon "c".toList "d/e".toList

/-- Different identifiers, different headers and different containers have the same text. -/
theorem same_text_other_fields :
    (stringToSign plainKey newlineFirst = stringToSign plainKey newlineSecond ∧
      newlineFirst.signed ≠ newlineSecond.signed) ∧
    (stringToSign plainKey colonFirst = stringToSign plainKey colonSecond ∧
      colonFirst.signed ≠ colonSecond.signed) ∧
    (stringToSign plainKey slashFirst = stringToSign plainKey slashSecond ∧
      slashFirst.signed ≠ slashSecond.signed) := by
  refine ⟨⟨rfl, fun same => ?_⟩, ⟨rfl, fun same => ?_⟩, ⟨rfl, fun same => ?_⟩⟩
  · exact absurd (congrArg Signed.authorizedObjectId same) (by decide)
  · have headers := congrArg (·.signedRequestHeaders.toList) same
    exact absurd headers (by decide)
  · exact absurd (congrArg Signed.grant same) (by decide)

end AzureSdk.Storage.Sas

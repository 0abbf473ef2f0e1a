/-
# Cosmos.Query.OrderBy — the order of ORDER BY

Values of different types are compared by their types, and two numbers as doubles unless both are
64-bit integers.  While no two integers of a column equal one of its doubles, that is an order and the
rows are sorted by it (`order_by_sorts_iff`).  An integer between two doubles is equal to one of
them, and then so is its neighbour (`equality_not_transitive`).
-/
import Mathlib.Data.List.Sort
import AzureSdk.Cosmos.Query.Eval

namespace AzureSdk.Cosmos.Query

open Theory CosmosValue Std List

def sortTypeOrder : CosmosValue → Nat
  | .null => 0
  | .boolean _ => 1
  | .number _ | .integer _ => 2
  | .string _ => 3
  | .array _ => 4
  | .object _ => 5
  | .undefined => 6

def totalCmpForSort (a b : CosmosValue) : Ordering :=
  (cosmosCmp a b).getD (compare (sortTypeOrder a) (sortTypeOrder b))

section Rows

variable (cmp : CosmosValue → CosmosValue → Ordering)

def compareItem : SqlSortOrder → CosmosValue → CosmosValue → Ordering
  | .descending, a, b => (cmp a b).swap
  | _, a, b => cmp a b

/-- The loop over the items of the clause; a row has a key for each of them. -/
def compareKeys : List SqlSortOrder → List CosmosValue → List CosmosValue → Ordering
  | [], _, _ => .eq
  | order :: orders, a, b =>
    (compareItem cmp order (a.headD .undefined) (b.headD .undefined)).then
      (compareKeys orders a.tail b.tail)

end Rows

/-- The ORDER BY step, over the rows with their keys. -/
def orderRows {ρ : Type} (orders : List SqlSortOrder) (rows : List (List CosmosValue × ρ)) :
    List (List CosmosValue × ρ) :=
  rows.mergeSort fun a b => (compareKeys totalCmpForSort orders a.1 b.1).isLE

/-! ## By rank -/

section Rank

def numberRank : CosmosValue → Int
  | .boolean b => b.toInt
  | .number n => n.key
  | .integer i => (Float64.ofI64 i).key
  | _ => 0

def textRank : CosmosValue → List Nat
  | .string s => s.map Char.toNat
  | _ => []

variable (exact : Int → Int)

/-- Integers that are rounded to the same double are told apart; `exact` gives a double the integer
that it equals. -/
def exactRank : CosmosValue → Int
  | .number n => exact n.key
  | .integer i => i.toInt
  | _ => 0

def rankCmp : CosmosValue → CosmosValue → Ordering :=
  compareLex (compareOn sortTypeOrder) (compareLex (compareOn numberRank)
    (compareLex (compareOn (exactRank exact)) (compareOn textRank)))

instance : TransCmp (rankCmp exact) := inferInstanceAs (TransCmp (compareLex _ _))

end Rank

/-- No double is a NaN. -/
def Numbers (S : CosmosValue → Prop) : Prop := ∀ n, S (.number n) → n.isNaN = false

/-- Two integers that are equal to a double among the values are the same. -/
def Separated (S : CosmosValue → Prop) : Prop :=
  ∀ n i j, S (.number n) → S (.integer i) → S (.integer j) →
    totalCmpForSort (.integer i) (.number n) = .eq →
    totalCmpForSort (.integer j) (.number n) = .eq → i = j

theorem transCmp_on {α β : Type} (f : α → β) {cmp : β → β → Ordering} (_ : TransCmp cmp) :
    TransCmp fun a b => cmp (f a) (f b) where
  eq_swap := OrientedCmp.eq_swap
  isLE_trans := TransCmp.isLE_trans

theorem laws_of {α : Type} {cmp : α → α → Ordering} (_ : TransCmp cmp) (a b c : α) :
    cmp a a = .eq ∧ cmp a b = (cmp b a).swap ∧
      ((cmp a b).isLE → (cmp b c).isLE → (cmp a c).isLE) ∧
      (cmp a b = .eq → cmp b c = .eq → cmp a c = .eq) :=
  ⟨ReflCmp.compare_self, OrientedCmp.eq_swap, TransCmp.isLE_trans, TransCmp.eq_trans⟩

variable {S : CosmosValue → Prop}

theorem cmp_of_numbers {x y : Float64} (hx : x.isNaN = false) (hy : y.isNaN = false) :
    Float64.cmp x y = some (compare x.key y.key) := by
  simp [Float64.cmp, hx, hy]

theorem cmp_integer_number {i : Int64} {n : Float64} (number : n.isNaN = false) :
    totalCmpForSort (.integer i) (.number n) = compare (Float64.ofI64 i).key n.key := by
  simp [totalCmpForSort, cosmosCmp, cmp_of_numbers (Float64.isNaN_ofI64 i) number]

theorem cmp_number_integer {i : Int64} {n : Float64} (number : n.isNaN = false) :
    totalCmpForSort (.number n) (.integer i) = compare n.key (Float64.ofI64 i).key := by
  simp [totalCmpForSort, cosmosCmp, cmp_of_numbers number (Float64.isNaN_ofI64 i)]

/-- Rounding first does not change how two integers compare. -/
theorem compare_integers (i j : Int64) :
    compare i.toInt j.toInt = (compare (Float64.ofI64 i).key (Float64.ofI64 j).key).then
      (compare i.toInt j.toInt) := by
  cases rounded : compare (Float64.ofI64 i).key (Float64.ofI64 j).key with
  | eq => rfl
  | lt =>
    have below := compare_eq_lt.mp rounded
    refine compare_eq_lt.mpr (Int.not_le.mp fun le => ?_)
    have := Float64.key_ofI64_le le
    omega
  | gt =>
    have above := compare_eq_gt.mp rounded
    refine compare_eq_gt.mpr (Int.not_le.mp fun le => ?_)
    have := Float64.key_ofI64_le le
    omega

/-- Of a function of the keys, equal keys have the same value. -/
theorem compare_then_exact (exact : Int → Int) (x y : Int) :
    compare x y = (compare x y).then (compare (exact x) (exact y)) := by
  cases keys : compare x y with
  | eq => simp [LawfulEqCmp.eq_of_compare keys]
  | lt | gt => rfl

theorem totalCmp_eq (numbers : Numbers S) {exact : Int → Int}
    (found : ∀ n i, S (.number n) → S (.integer i) → (Float64.ofI64 i).key = n.key →
      exact n.key = i.toInt)
    {a b : CosmosValue} (ha : S a) (hb : S b) : totalCmpForSort a b = rankCmp exact a b := by
  cases a <;> cases b <;>
    simp [rankCmp, compareLex, compareOn, sortTypeOrder, numberRank, exactRank, textRank]
  case boolean.boolean x y => cases x <;> cases y <;> rfl
  case number.number x y =>
    simp only [totalCmpForSort, cosmosCmp, cmp_of_numbers (numbers _ ha) (numbers _ hb),
      Option.getD_some]
    exact compare_then_exact exact _ _
  case number.integer n i =>
    rw [cmp_number_integer (numbers n ha)]
    cases keys : compare n.key (Float64.ofI64 i).key with
    | eq => simp [found n i ha hb (LawfulEqCmp.eq_of_compare keys).symm]
    | lt | gt => rfl
  case integer.number i n =>
    rw [cmp_integer_number (numbers n hb)]
    cases keys : compare (Float64.ofI64 i).key n.key with
    | eq => simp [found n i hb ha (LawfulEqCmp.eq_of_compare keys)]
    | lt | gt => rfl
  case integer.integer i j => exact compare_integers i j
  all_goals simp [totalCmpForSort, cosmosCmp, sortTypeOrder]
  all_goals rfl

/-- The comparison of separated values is that of their ranks. -/
theorem Separated.lawful (separated : Separated S) (numbers : Numbers S) :
    TransCmp fun a b : { v // S v } => totalCmpForSort a.1 b.1 := by
  classical
  let exact (key : Int) : Int :=
    if h : ∃ i, S (.integer i) ∧ (Float64.ofI64 i).key = key then h.choose.toInt else 0
  have found : ∀ n i, S (.number n) → S (.integer i) → (Float64.ofI64 i).key = n.key →
      exact n.key = i.toInt := by
    intro n i hn hi same
    have some : ∃ i, S (.integer i) ∧ (Float64.ofI64 i).key = n.key := ⟨i, hi, same⟩
    have equal {i : Int64} (same : (Float64.ofI64 i).key = n.key) :
        totalCmpForSort (.integer i) (.number n) = .eq := by
      simp [cmp_integer_number (numbers n hn), same]
    rw [show exact n.key = _ from dif_pos some]
    exact congrArg _ (separated n _ _ hn some.choose_spec.1 hi (equal some.choose_spec.2) (equal same))
  have same : (fun a b : { v // S v } => totalCmpForSort a.1 b.1) =
      fun a b => rankCmp exact a.1 b.1 := by
    funext a b
    exact totalCmp_eq numbers found a.2 b.2
  rw [same]
  exact transCmp_on Subtype.val inferInstance

/-! ## Rows -/

/-- Sorting by what is lawful on the elements. -/
theorem pairwise_sort {α : Type} {cmp : α → α → Ordering} {l : List α}
    (lawful : TransCmp fun a b : { a // a ∈ l } => cmp a.1 b.1) :
    (l.mergeSort fun a b => (cmp a b).isLE).Pairwise fun a b => (cmp a b).isLE := by
  let le (a b : { a // a ∈ l }) : Bool := (cmp a.1 b.1).isLE
  have total (a b) : (le a b || le b a) = true := by
    have turned : cmp b.1 a.1 = (cmp a.1 b.1).swap := lawful.eq_swap
    simp only [le, turned]
    cases cmp a.1 b.1 <;> rfl
  have sorted := @pairwise_mergeSort _ le (fun _ _ _ => lawful.isLE_trans) total l.attach
  have same := @map_mergeSort _ _ le (fun a b => (cmp a b).isLE) Subtype.val l.attach
    fun _ _ _ _ => rfl
  rw [attach_map_subtype_val] at same
  rw [← same]
  exact pairwise_map.mpr sorted

variable {cmp : CosmosValue → CosmosValue → Ordering}

theorem compareItem_eq {order : SqlSortOrder} {a b : CosmosValue} :
    compareItem cmp order a b = .eq ↔ cmp a b = .eq := by
  cases order <;> simp [compareItem]

theorem transCmp_compareItem (lawful : TransCmp fun a b : { v // S v } => cmp a.1 b.1)
    (order : SqlSortOrder) : TransCmp fun a b : { v // S v } => compareItem cmp order a.1 b.1 := by
  cases order with
  | unspecified | ascending => exact lawful
  | descending =>
    have turned : (fun a b : { v // S v } => compareItem cmp .descending a.1 b.1) =
        fun a b => cmp b.1 a.1 := by
      funext a b
      exact (lawful.eq_swap (a := b)).symm
    rw [turned]
    exact TransCmp.opposite

def Column (rows : List CosmosValue → Prop) (v : CosmosValue) : Prop :=
  ∃ keys, rows keys ∧ keys.headD .undefined = v

/-- The further columns of the rows that tie with one. -/
def Tied (rows : List CosmosValue → Prop) (keys rest : List CosmosValue) : Prop :=
  ∃ keys', rows keys' ∧ keys'.tail = rest ∧
    totalCmpForSort (keys.headD .undefined) (keys'.headD .undefined) = .eq

/-- The first column is separated, and the further ones among the rows that tie in it. -/
def ColumnsSeparated : List SqlSortOrder → (List CosmosValue → Prop) → Prop
  | [], _ => True
  | _ :: orders, rows =>
    Separated (Column rows) ∧ ∀ keys, rows keys → ColumnsSeparated orders (Tied rows keys)

/-- A lexicographic step: the further columns are compared among rows that tie. -/
theorem transCmp_then {α : Type} {first rest : α → α → Ordering} (lawful : TransCmp first)
    (swaps : ∀ a b, first a b = .eq → rest a b = (rest b a).swap)
    (trans : ∀ a b c, first a b = .eq → first a c = .eq → (rest a b).isLE → (rest b c).isLE →
      (rest a c).isLE) : TransCmp fun a b => (first a b).then (rest a b) where
  eq_swap {a b} := by
    have turned : first b a = (first a b).swap := OrientedCmp.eq_swap
    rw [turned]
    cases tie : first a b with
    | eq => exact swaps a b tie
    | lt | gt => rfl
  isLE_trans {a b c} ab bc := by
    have notGt : ∀ {x y}, ((first x y).then (rest x y)).isLE → (first x y).isLE := by
      intro x y le
      cases tie : first x y <;> simp_all
    cases tie : first a b with
    | gt => simp [tie] at ab
    | lt => simp [TransCmp.lt_of_lt_of_isLE tie (notGt bc)]
    | eq =>
      cases tie' : first b c with
      | gt => simp [tie'] at bc
      | lt => simp [TransCmp.lt_of_isLE_of_lt (notGt ab) tie']
      | eq =>
        have tied : first a c = .eq := TransCmp.eq_trans tie tie'
        simp only [tie, tie', Ordering.eq_then] at ab bc
        simpa [tied] using trans a b c tie tied ab bc

theorem lawful_rows : ∀ (orders : List SqlSortOrder) {rows : List CosmosValue → Prop},
    (∀ keys, rows keys → Numbers (· ∈ keys)) → ColumnsSeparated orders rows →
    TransCmp fun a b : { keys // rows keys } => compareKeys totalCmpForSort orders a.1 b.1
  | [], _, _, _ => { eq_swap := rfl, isLE_trans := fun _ _ => rfl }
  | order :: orders, rows, numbers, ⟨column, tied⟩ => by
    have heads : Numbers (Column rows) := by
      rintro n ⟨keys, row, head⟩
      cases keys with
      | nil => cases head
      | cons v keys => exact numbers _ row n (head ▸ .head _)
    have first := transCmp_on (fun a : { keys // rows keys } =>
      (⟨a.1.headD .undefined, a.1, a.2, rfl⟩ : { v // Column rows v }))
      (transCmp_compareItem (column.lawful heads) order)
    have rest (a : { keys // rows keys }) : TransCmp fun b c : { keys // Tied rows a.1 keys } =>
        compareKeys totalCmpForSort orders b.1 c.1 := by
      refine lawful_rows orders ?_ (tied a.1 a.2)
      rintro _ ⟨keys, row, rfl, -⟩ n mem
      exact numbers keys row n (mem_of_mem_tail mem)
    have member {a b : { keys // rows keys }} (tie : compareItem totalCmpForSort order
        (a.1.headD .undefined) (b.1.headD .undefined) = .eq) : Tied rows a.1 b.1.tail :=
      ⟨b.1, b.2, rfl, compareItem_eq.mp tie⟩
    have self (a : { keys // rows keys }) : Tied rows a.1 a.1.tail :=
      member (laws_of first a a a).1
    refine transCmp_then first (fun a b tie => ?_) fun a b c ab ac le le' => ?_
    · exact (rest a).eq_swap (a := ⟨_, self a⟩) (b := ⟨_, member tie⟩)
    · exact (rest a).isLE_trans (a := ⟨_, self a⟩) (b := ⟨_, member ab⟩) (c := ⟨_, member ac⟩) le le'

/-- **The order of ORDER BY is an order on values without NaNs exactly if no two integers among them
equal one double**, and where this holds in each column, of the rows that tie in the columns before
it, the rows come out sorted. -/
theorem order_by_sorts_iff (S : CosmosValue → Prop) (numbers : Numbers S) :
    ((∀ a b c, S a → S b → S c → totalCmpForSort a a = .eq ∧
      totalCmpForSort a b = (totalCmpForSort b a).swap ∧
      ((totalCmpForSort a b).isLE → (totalCmpForSort b c).isLE → (totalCmpForSort a c).isLE) ∧
      (totalCmpForSort a b = .eq → totalCmpForSort b c = .eq → totalCmpForSort a c = .eq)) ↔
      Separated S) ∧
    ∀ {ρ : Type} (orders : List SqlSortOrder) (rows : List (List CosmosValue × ρ)),
      (∀ row ∈ rows, row.1.length = orders.length ∧ ∀ v ∈ row.1, S v) →
      ColumnsSeparated orders (fun keys => ∃ row ∈ rows, row.1 = keys) →
      (orderRows orders rows).Pairwise fun a b =>
        (compareKeys totalCmpForSort orders a.1 b.1).isLE := by
  refine ⟨⟨fun laws n i j hn hi hj left right => ?_, fun separated a b c ha hb hc => ?_⟩,
    fun orders rows keyed separated => ?_⟩
  · have back := (laws _ _ _ hn hj hj).2.1.trans (congrArg Ordering.swap right)
    have same : compare i.toInt j.toInt = .eq := (laws _ _ _ hi hn hj).2.2.2 left back
    exact Int64.toInt_inj.mp (LawfulEqCmp.eq_of_compare same)
  · exact laws_of (separated.lawful numbers) ⟨a, ha⟩ ⟨b, hb⟩ ⟨c, hc⟩
  · have lawful := lawful_rows orders (by
      rintro _ ⟨row, mem, rfl⟩ n key
      exact numbers n ((keyed row mem).2 _ key)) separated
    exact pairwise_sort (transCmp_on (fun row : { row // row ∈ rows } =>
      (⟨row.1.1, row.1, row.2, rfl⟩ : { keys // ∃ row ∈ rows, row.1 = keys })) lawful)

/-- The integers 2^53 + 1 and 2^53 beside the double 1, in descending order, and doubles in a second
column. -/
theorem order_by_sorts_large :
    (orderRows [.descending, .ascending]
      [([.integer 9007199254740993, .number 0x4000000000000000], 0),
        ([.number 0x3FF0000000000000, .null], 1),
        ([.integer 9007199254740992, .number 0x3FF0000000000000], 2)]).Pairwise fun a b =>
          (compareKeys totalCmpForSort [.descending, .ascending] a.1 b.1).isLE := by
  have apart : ∀ i : Int64, totalCmpForSort (.integer i) (.number 0x3FF0000000000000) = .eq →
      ¬ (i = 9007199254740993 ∨ i = 9007199254740992) := by
    rintro i tie (rfl | rfl) <;> exact absurd tie (by decide +kernel)
  refine (order_by_sorts_iff
    (· ∈ [.integer 9007199254740993, .integer 9007199254740992, .number 0x4000000000000000,
      .number 0x3FF0000000000000, .null]) (by simp [Numbers]; decide)).2 _ _ (by simp)
    ⟨?_, fun _ _ => ⟨?_, fun _ _ => trivial⟩⟩
  · rintro n i j ⟨_, ⟨_, mem, rfl⟩, double⟩ ⟨_, ⟨_, mem', rfl⟩, integer⟩ - tie -
    simp only [mem_cons, not_mem_nil, or_false] at mem mem'
    rcases mem with rfl | rfl | rfl <;> cases double
    rcases mem' with rfl | rfl | rfl <;> cases integer
    · exact absurd (.inl rfl) (apart _ tie)
    · exact absurd (.inr rfl) (apart _ tie)
  · -- no integer is in the second column
    rintro n i j - ⟨_, ⟨_, ⟨_, mem, rfl⟩, rfl, -⟩, integer⟩
    simp only [mem_cons, not_mem_nil, or_false] at mem
    rcases mem with rfl | rfl | rfl <;> cases integer

/-- 2^53 + 1 and 2^53 are equal to the double 2^53, and not to each other. -/
theorem equality_not_transitive :
    totalCmpForSort (.integer 9007199254740993) (.number 0x4340000000000000) = .eq ∧
    totalCmpForSort (.number 0x4340000000000000) (.integer 9007199254740992) = .eq ∧
    totalCmpForSort (.integer 9007199254740993) (.integer 9007199254740992) = .gt := by
  decide +kernel

end AzureSdk.Cosmos.Query

import ApiSuite.Value.Basic
import ApiSuite.Decimal.Exact

/-!
# Equality and order of values

Truth values count as the integers zero and one, and integers and floats are compared by the
numbers they denote, so that `true`, `1` and `1.0` are equal, also inside collections. Lists
are equal entry by entry; objects and sets are equal when they hold the same entries in any
order. A float that is no number differs from itself, but a collection that holds one is
still equal to itself.

The order relations hold between two numbers, two texts, two days, two times of which both
or neither have an offset, and two lists, compared at their first difference; between two
sets they mean inclusion. Any other pair has no order.
-/

namespace ApiSuite

namespace Value

/-- The number that a value denotes, if it is one. -/
def number? : Value → Option Decimal.Quantity
  | .bool b => some (Decimal.ofInt (if b then 1 else 0))
  | .int n => some (Decimal.ofInt n)
  | .float x => some (Decimal.ofFloat x)
  | _ => none

/-- Whether two numbers are the same one, what is no number being the same as itself. -/
def sameNumber (a b : Decimal.Quantity) : Bool :=
  match a, b with
  | .notANumber, .notANumber => true
  | _, _ => a.compare? b == some .eq

mutual

/-- Whether two values are the same inside a collection. -/
def same : Value → Value → Bool
  | .null, .null => true
  | .str a, .str b => a == b
  | .bytes a, .bytes b => a == b
  | .date a, .date b => a == b
  | .datetime a, .datetime b => a.compare? b == some .eq
  | .list a, .list b => sameAll a b
  | .tuple a, .tuple b => sameAll a b
  | .set a, .set b => a.length == b.length && sameMembers a b
  | .object a, .object b => a.length == b.length && sameEntries a b
  | .bool a, other => sameAsNumber (Decimal.ofInt (if a then 1 else 0)) other
  | .int a, other => sameAsNumber (Decimal.ofInt a) other
  | .float a, other => sameAsNumber (Decimal.ofFloat a) other
  | _, _ => false

/-- Whether a value denotes the given number. -/
def sameAsNumber (a : Decimal.Quantity) (other : Value) : Bool :=
  match other.number? with
  | some b => sameNumber a b
  | none => false

/-- Whether two lists are the same entry by entry. -/
def sameAll : List Value → List Value → Bool
  | [], [] => true
  | a :: as, b :: bs => same a b && sameAll as bs
  | _, _ => false

/-- Whether all of the first members are among the second. -/
def sameMembers : List Value → List Value → Bool
  | [], _ => true
  | a :: as, bs => bs.any (same a) && sameMembers as bs

/-- Whether all of the first entries are among the second. -/
def sameEntries : List (Value × Value) → List (Value × Value) → Bool
  | [], _ => true
  | (k, v) :: es, fs =>
    (match fs.find? fun f => same k f.1 with
      | some f => same v f.2
      | none => false) && sameEntries es fs

end

/-- Whether two values are equal. -/
def equal : Value → Value → Bool
  | .float x, .float y => (Decimal.ofFloat x).compare? (Decimal.ofFloat y) == some .eq
  | a, b => same a b

/-- The four order relations. -/
inductive Relation where
  | less
  | lessOrEqual
  | greater
  | greaterOrEqual
deriving DecidableEq, Repr

/-- Whether a relation holds of two things in this order. -/
def Relation.holds : Relation → Ordering → Bool
  | .less, o => o == .lt
  | .lessOrEqual, o => o != .gt
  | .greater, o => o == .gt
  | .greaterOrEqual, o => o != .lt

/-- Whether an inclusion holds of two sets. -/
def Relation.includes (r : Relation) (a b : List Value) : Bool :=
  match r with
  | .less => a.length < b.length && sameMembers a b
  | .lessOrEqual => sameMembers a b
  | .greater => b.length < a.length && sameMembers b a
  | .greaterOrEqual => sameMembers b a

/-- The order of two sequences of octets. -/
def compareOctets : List UInt8 → List UInt8 → Ordering
  | [], [] => .eq
  | [], _ :: _ => .lt
  | _ :: _, [] => .gt
  | a :: as, b :: bs => (compare a b).then (compareOctets as bs)

mutual

/-- Whether an order relation holds of two values; `none` when they have no order. -/
def ordered? (r : Relation) : Value → Value → Option Bool
  | .str a, .str b => some (r.holds (compare a b))
  | .bytes a, .bytes b => some (r.holds (compareOctets a b))
  | .date a, .date b => some (r.holds (a.compare b))
  | .datetime a, .datetime b => (a.compare? b).map r.holds
  | .list a, .list b => orderedAt? r a b
  | .tuple a, .tuple b => orderedAt? r a b
  | .set a, .set b => some (r.includes a b)
  | .bool a, other => orderedNumber? r (Decimal.ofInt (if a then 1 else 0)) other
  | .int a, other => orderedNumber? r (Decimal.ofInt a) other
  | .float a, other => orderedNumber? r (Decimal.ofFloat a) other
  | _, _ => none

/-- Whether an order relation holds of a number and a value. What is no number is in no
relation to any number. -/
def orderedNumber? (r : Relation) (a : Decimal.Quantity) (other : Value) : Option Bool :=
  other.number?.map fun b =>
    match a.compare? b with
    | some o => r.holds o
    | none => false

/-- Whether an order relation holds of two lists: of their entries at the first difference,
or of their lengths when one begins the other. -/
def orderedAt? (r : Relation) : List Value → List Value → Option Bool
  | [], [] => some (r.holds .eq)
  | [], _ :: _ => some (r.holds .lt)
  | _ :: _, [] => some (r.holds .gt)
  | a :: as, b :: bs => if same a b then orderedAt? r as bs else ordered? r a b

end

/-- Whether a condition counts as fulfilled by a value. Collections always count, also when
they are empty. -/
def isTrue : Value → Bool
  | .null => false
  | .bool b => b
  | .int n => n != 0
  | .float x => (Decimal.ofFloat x).compare? (Decimal.ofInt 0) != some .eq
  | .str s => !s.isEmpty
  | .bytes bs => !bs.isEmpty
  | .set items => !items.isEmpty
  | .date _ | .datetime _ | .list _ | .tuple _ | .object _ => true

/-- Whether a value holds nothing: null, falsehood, zero, or an empty text or collection. -/
def isVoid : Value → Bool
  | .list items | .tuple items => items.isEmpty
  | .object entries => entries.isEmpty
  | .date _ | .datetime _ => false
  | v => !isTrue v

/-- The entries with one more, which takes the place of an entry with the same key but leaves
its key and position. -/
def insert (key value : Value) : List (Value × Value) → List (Value × Value)
  | [] => [(key, value)]
  | (k, v) :: rest => if same k key then (k, value) :: rest else (k, v) :: insert key value rest

/-- The members with one more, unless it is among them. -/
def insertMember (item : Value) (items : List Value) : List Value :=
  if items.any fun i => same i item then items else items ++ [item]

end Value

end ApiSuite

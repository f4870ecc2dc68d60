import ModAtlas.Number.Number

/-!
# JSON values

A JSON value with its members in order and its two kinds of numbers kept apart. Members behave
as a map that remembers when a key was first written: writing a key again replaces its value and
keeps its place. `Value.same` is equality by value: numbers compare across their kinds, members
in any order, and a truth value never equals a number.
-/

namespace ModAtlas.Json

/-- A JSON value. -/
inductive Value where
  | null
  | bool (b : Bool)
  | num (n : Number)
  | str (s : String)
  | arr (items : List Value)
  | obj (members : List (String × Value))
deriving Repr, Inhabited

/-- The members of an object, in the order in which their keys were first written. -/
abbrev Members := List (String × Value)

namespace Members

/-- The value under a key. -/
def get? (members : Members) (key : String) : Option Value := members.lookup key

/-- Is there a value under the key? -/
def has (members : Members) (key : String) : Bool := members.any (·.1 == key)

/-- Writes a value under a key, in place when the key is there and at the end otherwise. -/
def put (key : String) (value : Value) : Members → Members
  | [] => [(key, value)]
  | (k, v) :: rest => if k = key then (k, value) :: rest else (k, v) :: put key value rest

/-- The members written one after the other. -/
def ofList (pairs : List (String × Value)) : Members :=
  pairs.foldl (fun members p => put p.1 p.2 members) []

/-- The keys in order. -/
def keys (members : Members) : List String := members.map (·.1)

end Members

namespace Value

/-- The member of an object under a key; other values have none. -/
def get? : Value → String → Option Value
  | .obj members, key => Members.get? members key
  | _, _ => none

/-- The members of an object. -/
def members? : Value → Option Members
  | .obj members => some members
  | _ => none

/-- The items of an array. -/
def items? : Value → Option (List Value)
  | .arr items => some items
  | _ => none

/-- A string's text. -/
def text? : Value → Option String
  | .str s => some s
  | _ => none

/-- Everything but null, false, zero and what is empty. -/
def isTruthy : Value → Bool
  | .null => false
  | .bool b => b
  | .num n => !n.isZero
  | .str s => !s.isEmpty
  | .arr items => !items.isEmpty
  | .obj members => !members.isEmpty

/-- The number a value counts as where a quantity is asked for; truth values count as 0 and 1. -/
def quantity? : Value → Option Number
  | .num n => some n
  | .bool b => some (.int (if b then 1 else 0))
  | _ => none

mutual

/-- Equality by value. -/
def same : Value → Value → Bool
  | .null, .null => true
  | .bool a, .bool b => a == b
  | .num a, .num b => a.same b
  | .str a, .str b => a == b
  | .arr xs, .arr ys => sameItems xs ys
  | .obj xs, .obj ys => xs.length == ys.length && sameMembers xs ys
  | _, _ => false

/-- Equality of items, pair by pair. -/
def sameItems : List Value → List Value → Bool
  | [], [] => true
  | x :: xs, y :: ys => same x y && sameItems xs ys
  | _, _ => false

/-- Is every member found, with an equal value, among the others? -/
def sameMembers : Members → Members → Bool
  | [], _ => true
  | (key, x) :: xs, ys =>
    (match ys.lookup key with
      | some y => same x y
      | none => false) && sameMembers xs ys

end

mutual

/-- How many containers lie inside one another. -/
def depth : Value → Nat
  | .arr items => depthItems items + 1
  | .obj members => depthMembers members + 1
  | _ => 0

/-- The greatest depth among items. -/
def depthItems : List Value → Nat
  | [] => 0
  | x :: xs => max (depth x) (depthItems xs)

/-- The greatest depth among members. -/
def depthMembers : Members → Nat
  | [] => 0
  | (_, x) :: xs => max (depth x) (depthMembers xs)

end

mutual

/-- How many values a value is made of, itself included. -/
def count : Value → Nat
  | .arr items => countItems items + 1
  | .obj members => countMembers members + 1
  | _ => 1

/-- The number of values in items. -/
def countItems : List Value → Nat
  | [] => 0
  | x :: xs => count x + countItems xs

/-- The number of values in members. -/
def countMembers : Members → Nat
  | [] => 0
  | (_, x) :: xs => count x + countMembers xs

end

mutual

/-- Are both written in the same way, with the same numbers and the same order of members? -/
def identical : Value → Value → Bool
  | .null, .null => true
  | .bool a, .bool b => a == b
  | .num a, .num b => a == b
  | .str a, .str b => a == b
  | .arr xs, .arr ys => identicalItems xs ys
  | .obj xs, .obj ys => identicalMembers xs ys
  | _, _ => false

/-- Are the items identical, pair by pair? -/
def identicalItems : List Value → List Value → Bool
  | [], [] => true
  | x :: xs, y :: ys => identical x y && identicalItems xs ys
  | _, _ => false

/-- Are the members identical, pair by pair? -/
def identicalMembers : Members → Members → Bool
  | [], [] => true
  | (k, x) :: xs, (l, y) :: ys => k == l && identical x y && identicalMembers xs ys
  | _, _ => false

end

end Value
end ModAtlas.Json

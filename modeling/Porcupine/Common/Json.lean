import Mathlib.Data.Nat.Notation
/-!
# JSON values

A document as a reader sees it that asks an object for its members by name
and takes them for null where there are none. Only what these readings
show of a document is kept: they are `get`, `Index`, `as_u64` and `as_str`
of `serde_json::Value`, on a document as its `from_str` gives it.
-/

/-- A JSON value. Of a number only what `as_u64` gives is kept, the 64-bit
unsigned integer it is, if it is one. -/
inductive Json
  | null
  | bool (b : Bool)
  | number (n : Option UInt64)
  | string (s : String)
  | array (elems : List Json)
  | object (members : List (String × Json))

namespace Json

/-- `Value::get` with a string: the member of an object. -/
def get : Json → String → Option Json
  | object members, key => members.lookup key
  | _, _ => none

/-- `Index` with a string: the member of an object, or null. -/
def index (v : Json) (key : String) : Json := (v.get key).getD null

/-- `Value::as_u64`. -/
def asU64 : Json → Option UInt64
  | number n => n
  | _ => none

/-- `Value::as_str`. -/
def asStr : Json → Option String
  | string s => some s
  | _ => none

variable {v w : Json} {key : String}

theorem asU64_eq_some {n : UInt64} : v.asU64 = some n ↔ v = number (some n) := by
  cases v <;> simp [asU64]

theorem asStr_eq_some {s : String} : v.asStr = some s ↔ v = string s := by
  cases v <;> simp [asStr]

theorem index_of_get (h : v.get key = some w) : v.index key = w := by
  rw [index, h, Option.getD_some]

/-- What is no null is there. -/
theorem get_of_index {n : UInt64} (h : v.index key = number (some n)) :
    v.get key = some (number (some n)) := by
  rw [index] at h
  cases hget : v.get key with
  | none =>
    rw [hget] at h
    cases h
  | some u =>
    rw [hget] at h
    exact congrArg some h

end Json

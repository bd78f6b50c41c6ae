import DynamicEval.Cache
import DynamicEval.Json.Reader

/-!
# Configuration

How large the cache of expressions is and which key an overflow drops.

The fields, their defaults and the names of the policies are the program's own. How they are found
in a JSON text, by `RootConfig.read?` and what it uses, is derived from the declarations of the
fields by a library of others and stands in for it here. What is proved of roots and caches is
proved for every configuration, however it was read.

## Main definitions

* `RootConfig`: a configuration.
* `RootConfig.read?`: a configuration from a JSON text.
-/

namespace DynamicEval

/-- A configuration. -/
structure RootConfig where
  /-- The capacity of the cache of expressions; zero stands for no bound. -/
  cacheSize : Nat := 1000
  /-- Which key an overflow of the cache drops. -/
  cachePolicy : CachePolicy := .lru
deriving DecidableEq

/-- The policy of a name. -/
def CachePolicy.ofName? (name : List Char) : Option CachePolicy :=
  if name = "fifo".toList then some .fifo
  else if name = "lru".toList then some .lru
  else none

/-- The policy of a JSON value: its name, or an object with its name over null. -/
def CachePolicy.ofJson? : Json → Option CachePolicy
  | .string (some name) => ofName? name
  | .object [(some name, .null)] => ofName? name
  | _ => none

/-- The capacity of a JSON value. -/
def capacityOfJson? : Json → Option Nat
  | .number n => n
  | _ => none

namespace RootConfig

/-- The only value among the members of an object that are called `name`, read by `read`; a missing
one is the default, and a second one is a mistake. -/
def member? {α : Type} (name : String) (read : Json → Option α) (default : α)
    (members : List (Option (List Char) × Json)) : Option α :=
  match members.filter fun m => m.1 = some name.toList with
  | [] => some default
  | [m] => read m.2
  | _ => none

/-- The configuration of a JSON value: an object, in which other members do not matter, or an array
of the settings in their order. -/
def ofJson? : Json → Option RootConfig
  | .object members => do
    if members.any fun m => m.1.isNone then
      none
    let default : RootConfig := {}
    let size ← member? "cache_size" capacityOfJson? default.cacheSize members
    let policy ← member? "cache_policy" CachePolicy.ofJson? default.cachePolicy members
    return ⟨size, policy⟩
  | .array [] => some {}
  | .array [size] => (capacityOfJson? size).map fun n => { cacheSize := n }
  | .array [size, policy] => do
    return ⟨← capacityOfJson? size, ← CachePolicy.ofJson? policy⟩
  | _ => none

/-- The configuration of a JSON text. -/
def read? (text : String) : Option RootConfig :=
  (Json.read? text).bind ofJson?

end RootConfig

end DynamicEval

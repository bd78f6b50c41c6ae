import DynamicEval.Path.Write
import DynamicEval.World

/-!
# Stock routines

A host with routines for everyday callables. The body of a routine is a word, which may have an
argument behind a colon.

## Main definitions

* `Stock.plain`, `Stock.method`: the routines of functions and of record methods.
* `Stock.host`: the host of the stock.
-/

namespace DynamicEval.Stock

/-- The word of a body and its argument. -/
def splitBody (body : String) : String × String :=
  let cs := body.toList
  let word := cs.takeWhile (· ≠ ':')
  (String.ofList word, String.ofList (cs.drop (word.length + 1)))

/-- The texts of values behind each other. -/
def concat (args : List Value) (h : Heap) : String :=
  String.join (args.map fun v => v.toText h)

/-- The sum of values as signed integers, reduced to 64 bits. -/
def sum (args : List Value) (h : Heap) : Except Error Int64 :=
  args.foldlM (fun n v => return n + (← v.toInt64 h)) 0

/-- The first argument. -/
def first (args : List Value) : Value := args.headD .invalid

/-- The second argument. -/
def second (args : List Value) : Value := first args.tail

/-- Logs a line. -/
def logLine (line : String) : Action Unit :=
  modify fun w => { w with log := w.log ++ [line] }

/-- The routine of a function. Roots are found by the names that `rootNamed` knows. -/
def plain (rootNamed : String → Option RootId) (body : String) (args : List Value) :
    Action Value := do
  let h := (← get).heap
  let (word, arg) := splitBody body
  match word with
  | "echo" => return first args
  | "list" => return .list .any (args.map Value.boxed)
  | "argc" => return .int .word (.ofNat args.length)
  | "concat" => return .string (concat args h)
  | "nil" => return .invalid
  | "sum" => return .int .word (← MonadExcept.ofExcept (sum args h))
  | "fail" => throw (.host (concat args h))
  | "tick" =>
    let n := (← get).tally + 1
    modify fun w => { w with tally := n }
    logLine ("tick " ++ toString n)
    return .int .word (.ofNat n)
  | "log" =>
    logLine (concat args h)
    return first args
  | "const" => return .string arg
  | "curry" => modifyGet fun w => w.newCallable "curried" none (.plain "list") args
  | "pointer" =>
    let (h, a) := h.alloc (first args)
    modify fun w => { w with heap := h }
    return .pointer (first args).ty (some a)
  | "store" =>
    match (first args).peel with
    | .pointer e cell =>
      modify fun w => { w with heap := ((Value.pointer e cell).store (second args) w.heap).heap }
      return .bool true
    | v => throw (.unexpectedType "pointer" v.typeName)
  | "bind_top" =>
    match rootNamed arg with
    | some r =>
      modify fun w => w.modifyTop r fun top => top.bind ((first args).toText h) (second args) w.heap
      return .bool true
    | none => return .bool false
  | _ => return .invalid

/-- The routine of a method of a record. -/
def method (rootNamed : String → Option RootId) (body : String) (receiver : Value)
    (args : List Value) : Action Value := do
  let h := (← get).heap
  let (word, arg) := splitBody body
  match word with
  | "self" => return receiver
  | "get" => return (receiver.propById? arg h).getD .invalid
  | "hello" =>
    let name := ((receiver.propById? arg h).getD .invalid).toText h
    return .string ("hello " ++ name ++ concat args h)
  | "put" =>
    let r := receiver.setById (first args) arg h
    modify fun w => { w with heap := r.heap }
    return .bool (← MonadExcept.ofExcept r.result)
  | _ => plain rootNamed body args

/-- The host of the stock. -/
def host (rootNamed : String → Option RootId) : Host
  | .plain body, held, args => plain rootNamed body (held ++ args)
  | .method body, held, args => method rootNamed body (first held) args

end DynamicEval.Stock

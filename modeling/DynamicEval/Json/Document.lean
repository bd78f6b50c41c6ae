import DynamicEval.Path.Read

/-!
# Documents

Exchange with documents of objects, lists, texts and numbers. A document becomes a tree of maps from
texts to slots and of lists of slots; a value is rendered by its base, without fields that are not
exported and with null for what a document cannot hold.

## Main definitions

* `Document`: a document.
* `Value.ofDocument`: the value of a document.
* `Value.toDocument`: the document of a value.
-/

namespace DynamicEval

/-- A document. -/
inductive Document where
  | null
  | bool (b : Bool)
  /-- An integer that 64 bits hold with or without a sign. -/
  | integer (n : Int)
  | float (x : Binary64)
  | string (s : String)
  | list (items : List Document)
  | object (members : List (String × Document))

/-- The value of an integer of a document: signed if it fits, else unsigned. -/
def Value.ofInteger (n : Int) : Value :=
  if n ≤ Int64.maxValue.toInt then .int .word (.ofInt n) else .uint .word (.ofNat n.toNat)

mutual

/-- The value of a document. -/
def Value.ofDocument : Document → Value
  | .null => .invalid
  | .bool b => .bool b
  | .integer n => .ofInteger n
  | .float x => .float .double x
  | .string s => .string s
  | .list items => .list .any (Value.ofDocuments items)
  | .object members => .map .string .any (Value.ofMembers members [])
termination_by structural d => d

/-- The slots of the items of a document. -/
def Value.ofDocuments : List Document → List Value
  | [] => []
  | d :: ds => (Value.ofDocument d).boxed :: Value.ofDocuments ds
termination_by structural ds => ds

/-- The entries of the members of a document, added to others; a later member replaces an earlier
one of the same name. -/
def Value.ofMembers : List (String × Document) → List (Key × Value) → List (Key × Value)
  | [], entries => entries
  | (name, d) :: ms, entries =>
    Value.ofMembers ms (Entries.put (.string name) (Value.ofDocument d).boxed entries)
termination_by structural ms => ms

end

mutual

/-- One step of rendering, where `deref` renders the content of a cell. -/
def Value.documentStep (deref : Addr → Document) : Value → Document
  | .invalid | .func _ | .emptySlot | .pointer _ none => .null
  | .bool b => .bool b
  | .int _ n => .integer n.toInt
  | .uint _ n => .integer n.toNat
  | .float _ x => if x.isFinite then .float x else .null
  | .string s => .string s
  | .list _ items | .array _ items => .list (Value.documentsStep deref items)
  | .map _ _ entries => .object (Value.entryMembersStep deref entries [])
  | .record r fields => .object (Value.fieldMembersStep deref fields r.fields [])
  | .pointer _ (some a) => deref a
  | .slot v => v.documentStep deref
termination_by structural v => v

/-- The documents of several values. -/
def Value.documentsStep (deref : Addr → Document) : List Value → List Document
  | [] => []
  | v :: vs => v.documentStep deref :: Value.documentsStep deref vs
termination_by structural vs => vs

/-- The members of the entries of a map, added to others; keys are rendered as they are shown. -/
def Value.entryMembersStep (deref : Addr → Document) :
    List (Key × Value) → List (String × Document) → List (String × Document)
  | [], members => members
  | (k, v) :: es, members =>
    Value.entryMembersStep deref es (Assoc.put k.text (v.documentStep deref) members)
termination_by structural es => es

/-- The members of the exported fields of a record, added to others. -/
def Value.fieldMembersStep (deref : Addr → Document) :
    List Value → List Field → List (String × Document) → List (String × Document)
  | v :: vs, f :: fs, members =>
    Value.fieldMembersStep deref vs fs
      (if f.exported then Assoc.put f.name (v.documentStep deref) members else members)
  | _, _, members => members
termination_by structural vs => vs

end

/-- The document of a value. -/
def Value.toDocument (v : Value) (h : Heap) : Document :=
  h.follow .null Value.documentStep v

end DynamicEval

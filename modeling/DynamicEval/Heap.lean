import DynamicEval.Value

/-!
# Heaps

The content of the cells that pointers share. A property of a value that looks behind pointers is
given by a step, which reads one value and is told what to make of the cells it meets. Unrolling
the step once for each cell follows every chain of pointers to its end, as long as no cell is
behind itself.

## Main definitions

* `Heap`: the cells.
* `Heap.alloc`, `Heap.get`, `Heap.set`.
* `Heap.follow`: a step unrolled over the heap.
-/

namespace DynamicEval

/-- The content of cells, by address. -/
structure Heap where
  /-- The contents. -/
  cells : Array Value

namespace Heap

/-- A heap without cells. -/
def empty : Heap := ⟨#[]⟩

/-- The number of cells. -/
def size (h : Heap) : Nat := h.cells.size

/-- The content of a cell. -/
def get (h : Heap) (a : Addr) : Value := h.cells.getD a .invalid

/-- The heap with the content of a cell replaced. -/
def set (h : Heap) (a : Addr) (v : Value) : Heap := ⟨h.cells.setIfInBounds a v⟩

/-- A new cell with the given content. -/
def alloc (h : Heap) (v : Value) : Heap × Addr := (⟨h.cells.push v⟩, h.size)

variable {α : Type}

/-- Reads a value by `step` and the cells behind it likewise, for so many pointers in a row; beyond
them a cell reads as `stop`. -/
def unroll (h : Heap) (stop : α) (step : (Addr → α) → Value → α) : Nat → Value → α
  | 0 => step fun _ => stop
  | n + 1 => step fun a => h.unroll stop step n (h.get a)

/-- Reads a value by `step` and the cells behind it likewise. -/
def follow (h : Heap) (stop : α) (step : (Addr → α) → Value → α) (v : Value) : α :=
  h.unroll stop step h.size v

end Heap

end DynamicEval

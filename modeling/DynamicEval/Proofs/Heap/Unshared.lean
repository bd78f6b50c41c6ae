import DynamicEval.Proofs.Heap.Leads
import DynamicEval.Proofs.Heap.Region

/-!
# Values that share no cells

A cell may be behind a value along several routes: a route goes from part to part and then through a
pointer, again and again. If there is one route at most to every cell, then the value is a tree as
far as its cells go: no cell is behind itself, and what is behind one part is not behind another.

## Main definitions

* `Value.partAt?`: the parts of a list, a map or a record by their position.
* `Value.PointsAt`, `Heap.Route`: pointers and the routes through them by positions.
* `Heap.Unshared`: no cell behind a value is reached along two routes.

## Main results

* `Heap.Unshared.acyclicBehind`: no cell behind such a value is behind itself.
* `Heap.Unshared.of_leads`, `Heap.Unshared.part`: bases and parts share no cells either.
* `Heap.Unshared.apart`: no cell is behind two parts.
-/

namespace DynamicEval

/-! ### Routes -/

/-- The part of a list, an array, a map or a record at a position. -/
def Value.partAt? : Value → Nat → Option Value
  | .list _ items, i | .array _ items, i => items[i]?
  | .map _ _ entries, i => entries[i]?.map Prod.snd
  | .record _ fields, i => fields[i]?
  | _, _ => none

/-- The pointer at a position in a value names a cell. The position tells which parts to go through;
a slot is passed through without a mention. -/
inductive Value.PointsAt : Value → List Nat → Addr → Prop where
  | pointer (e : Ty) (a : Addr) : PointsAt (.pointer e (some a)) [] a
  | slot {v : Value} {is : List Nat} {a : Addr} (hv : PointsAt v is a) : PointsAt (.slot v) is a
  | part {v w : Value} {i : Nat} {is : List Nat} {a : Addr} (hw : v.partAt? i = some w)
      (ha : PointsAt w is a) : PointsAt v (i :: is) a

/-- A route from a value to a cell: the position of a pointer in the value, then of one in the cell
that this pointer names, and so on. -/
inductive Heap.Route (h : Heap) : Value → List (List Nat) → Addr → Prop where
  | direct {v : Value} {is : List Nat} {a : Addr} (hv : v.PointsAt is a) : Route h v [is] a
  | behind {v : Value} {is : List Nat} {route : List (List Nat)} {a b : Addr}
      (hv : v.PointsAt is b) (hb : Route h (h.get b) route a) : Route h v (is :: route) a

/-- No cell behind a value is reached along two routes. -/
def Heap.Unshared (h : Heap) (v : Value) : Prop :=
  ∀ ⦃a route route'⦄, h.Route v route a → h.Route v route' a → route = route'

namespace Value

variable {h : Heap} {v w : Value} {a : Addr} {is : List Nat} {k : Nat}

theorem wellFormed_of_partAt? (hv : v.WellFormed h) (hw : v.partAt? k = some w) :
    w.WellFormed h := by
  cases v with
  | list e items => exact (wellFormed_list.mp hv w (List.mem_of_getElem? hw)).wellFormed
  | array e items => exact (wellFormed_array.mp hv w (List.mem_of_getElem? hw)).wellFormed
  | map kt et entries =>
    obtain ⟨entry, hentry, rfl⟩ := Option.map_eq_some_iff.mp hw
    exact ((wellFormed_map.mp hv).values entry (List.mem_of_getElem? hentry)).wellFormed
  | record r fields =>
    obtain ⟨f, -, hfits⟩ := exists_fits_of_mem (wellFormed_record.mp hv) (List.mem_of_getElem? hw)
    exact hfits.wellFormed
  | _ => cases hw

theorem sizeOf_of_partAt? (hw : v.partAt? k = some w) : sizeOf w < sizeOf v := by
  cases v with
  | list e items =>
    have hlt := List.sizeOf_lt_of_mem (List.mem_of_getElem? hw)
    rw [list.sizeOf_spec]
    omega
  | array e items =>
    have hlt := List.sizeOf_lt_of_mem (List.mem_of_getElem? hw)
    rw [array.sizeOf_spec]
    omega
  | map kt et entries =>
    obtain ⟨⟨key, u⟩, hentry, rfl⟩ := Option.map_eq_some_iff.mp hw
    have hlt := List.sizeOf_lt_of_mem (List.mem_of_getElem? hentry)
    rw [Prod.mk.sizeOf_spec] at hlt
    rw [map.sizeOf_spec]
    dsimp only
    omega
  | record r fields =>
    have hlt := List.sizeOf_lt_of_mem (List.mem_of_getElem? hw)
    rw [record.sizeOf_spec]
    omega
  | _ => cases hw

/-- Every pointer in a value has a position. -/
theorem Points.exists_pointsAt (hp : v.Points a) : ∃ is, v.PointsAt is a := by
  induction hp with
  | pointer e a => exact ⟨[], .pointer e a⟩
  | slot _ ih =>
    obtain ⟨is, his⟩ := ih
    exact ⟨is, .slot his⟩
  | list hmem _ ih | array hmem _ ih | record hmem _ ih =>
    obtain ⟨is, his⟩ := ih
    obtain ⟨i, hi⟩ := List.mem_iff_getElem?.mp hmem
    exact ⟨i :: is, .part hi his⟩
  | map hmem _ ih =>
    obtain ⟨is, his⟩ := ih
    obtain ⟨i, hi⟩ := List.mem_iff_getElem?.mp hmem
    exact ⟨i :: is, .part (congrArg (Option.map Prod.snd) hi) his⟩

theorem pointsAt_slot : (slot v).PointsAt is a ↔ v.PointsAt is a := by
  refine ⟨fun hp => ?_, .slot⟩
  cases hp with
  | slot hv => exact hv
  | part hw _ => cases hw

theorem pointsAt_pointer {e : Ty} {b : Addr} :
    (pointer e (some b)).PointsAt is a ↔ is = [] ∧ a = b := by
  constructor
  · rintro (_ | _ | ⟨hw, _⟩)
    · exact ⟨rfl, rfl⟩
    · cases hw
  · rintro ⟨rfl, rfl⟩
    exact .pointer e a

end Value

namespace Heap

variable {h : Heap} {v w u : Value} {a b : Addr} {i j : Nat} {as : List Addr}
  {route route' : List (List Nat)}

/-- To every cell behind a value there is a route. -/
theorem Reaches.exists_route (hr : h.Reaches v a) : ∃ route, h.Route v route a := by
  induction hr with
  | direct hp =>
    obtain ⟨is, his⟩ := hp.exists_pointsAt
    exact ⟨[is], .direct his⟩
  | behind hp _ ih =>
    obtain ⟨is, his⟩ := hp.exists_pointsAt
    obtain ⟨route, hroute⟩ := ih
    exact ⟨is :: route, .behind his hroute⟩

theorem Route.ne_nil (hr : h.Route v route a) : route ≠ [] := by
  cases hr <;> exact List.cons_ne_nil _ _

/-- A route to a cell goes on with a route from its content. -/
theorem Route.append (hr : h.Route v route b) (hb : h.Route (h.get b) route' a) :
    h.Route v (route ++ route') a := by
  induction hr with
  | direct hp => exact .behind hp hb
  | behind hp _ ih => exact .behind hp (ih hb)

theorem Route.slot (hr : h.Route v route a) : h.Route (.slot v) route a := by
  cases hr with
  | direct hp => exact .direct (.slot hp)
  | behind hp hb => exact .behind (.slot hp) hb

/-- A route from a part is one from the whole, with the position of the part first. -/
theorem Route.part (hw : v.partAt? i = some w) (hr : h.Route w route a) :
    ∃ is route', route = is :: route' ∧ h.Route v ((i :: is) :: route') a := by
  cases hr with
  | direct hp => exact ⟨_, [], rfl, .direct (.part hw hp)⟩
  | behind hp hb => exact ⟨_, _, rfl, .behind (.part hw hp) hb⟩

namespace Unshared

/-- No cell is behind itself: otherwise a route to it could take another turn. -/
theorem acyclicBehind (hv : h.Unshared v) : h.AcyclicBehind v := by
  intro a ha hself
  obtain ⟨route, hroute⟩ := ha.exists_route
  obtain ⟨turn, hturn⟩ := hself.exists_route
  have heq := hv hroute (hroute.append hturn)
  exact hturn.ne_nil (List.self_eq_append_right.mp heq)

theorem of_slot (hv : h.Unshared (.slot v)) : h.Unshared v :=
  fun _ _ _ hr hr' => hv hr.slot hr'.slot

theorem of_pointer {e : Ty} (hv : h.Unshared (.pointer e (some a))) : h.Unshared (h.get a) :=
  fun _ _ _ hr hr' =>
    (List.cons.inj (hv (.behind (.pointer e a) hr) (.behind (.pointer e a) hr'))).2

/-- What a value leads to shares no cells if the value does not. -/
theorem of_leads (hv : h.Unshared v) (hlead : h.Leads v as u) : h.Unshared u := by
  induction hlead with
  | base => exact hv
  | slot _ ih => exact ih hv.of_slot
  | pointer _ _ _ ih => exact ih hv.of_pointer

/-- The base shares no cells if the value does not. -/
theorem base (hv : h.Unshared v) (hne : v.base h ≠ .invalid) : h.Unshared (v.base h) := by
  obtain ⟨as, has⟩ := exists_leads hne
  exact hv.of_leads has

/-- A part shares no cells if the whole does not. -/
theorem part (hv : h.Unshared v) (hw : v.partAt? i = some w) : h.Unshared w := by
  intro a route route' hr hr'
  obtain ⟨is, rest, rfl, hwhole⟩ := hr.part hw
  obtain ⟨is', rest', rfl, hwhole'⟩ := hr'.part hw
  cases hv hwhole hwhole'
  rfl

/-- No cell is behind two parts. -/
theorem apart (hv : h.Unshared v) (hij : i ≠ j) (hu : v.partAt? i = some u)
    (hw : v.partAt? j = some w) : h.Apart u w := by
  intro a hau haw
  obtain ⟨route, hroute⟩ := hau.exists_route
  obtain ⟨route', hroute'⟩ := haw.exists_route
  obtain ⟨is, rest, -, hr⟩ := hroute.part hu
  obtain ⟨is', rest', -, hr'⟩ := hroute'.part hw
  cases hv hr hr'
  exact hij rfl

end Unshared

end Heap

end DynamicEval

import EVdeSwitch.Io.Port
import EVdeSwitch.Lib.LinkedList

/-!
# EndpointHeap — the endpoints as linked records

`endpoints` of `src/io/port_manager.c` points to the newest endpoint, and the field `next` leads
from there to the others.  `add_port` writes these links; that they spell out the list of
endpoints is proved, not assumed.
-/

namespace EVdeSwitch
namespace Io

open EVdeSwitch.Lib

/-- The records that `alloc_endpoint` has allocated: which are live, and their links. -/
structure EndpointHeap where
  endpoints : Option Endpoint
  next : Endpoint → Option Endpoint
  live : Endpoint → Bool

namespace EndpointHeap

def empty : EndpointHeap :=
  { endpoints := none
    next := fun _ => none
    live := fun _ => false }

/-- `alloc_endpoint` clears the link of the new record. -/
def alloc (heap : EndpointHeap) (ep : Endpoint) : EndpointHeap :=
  { heap with
    next := Function.update heap.next ep none
    live := Function.update heap.live ep true }

/-- `add_port`, from `alloc_endpoint` to the new list. -/
def add (heap : EndpointHeap) (ep : Endpoint) : EndpointHeap :=
  let heap := heap.alloc ep
  match heap.endpoints with
  | none => { heap with endpoints := some ep }
  | some head =>
      { heap with
        endpoints := some ep
        next := Function.update heap.next ep (some head) }

/-- The links spell out the list, and its records are live. -/
structure Holds (heap : EndpointHeap) (endpoints : List Endpoint) : Prop where
  linked : Linked heap.next heap.endpoints endpoints
  live : ∀ ep ∈ endpoints, heap.live ep = true

variable {heap : EndpointHeap} {endpoints : List Endpoint} {ep : Endpoint}

theorem holds_empty : empty.Holds [] where
  linked := rfl
  live := by simp

/-- The two cases of `add_port` come to the same. -/
theorem add_eq (heap : EndpointHeap) (ep : Endpoint) :
    heap.add ep =
      { endpoints := some ep
        next := Function.update heap.next ep heap.endpoints
        live := Function.update heap.live ep true } := by
  cases hhead : heap.endpoints <;> simp [add, alloc, hhead]

theorem Holds.add (h : heap.Holds endpoints) (hnew : ep ∉ endpoints) :
    (heap.add ep).Holds (ep :: endpoints) := by
  rw [add_eq]
  refine
    { linked := h.linked.cons hnew
      live := ?_ }
  intro other hother
  rcases List.mem_cons.1 hother with rfl | hold
  · exact Function.update_self _ _ _
  · have hne : other ≠ ep := by
      rintro rfl
      exact hnew hold
    simpa [Function.update_of_ne hne] using h.live other hold

end EndpointHeap

end Io
end EVdeSwitch

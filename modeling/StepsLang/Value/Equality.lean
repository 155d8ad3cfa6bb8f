import StepsLang.Value.Basic
import StepsLang.Value.Unseen

/-!
Equality of values by content. Two containers under comparison count as equal when they meet again
inside themselves: any difference shows on the path that is still being walked.
-/

namespace StepsLang.Heap

def refPairs (h : Heap) : List (Ref × Ref) := h.refs.flatMap fun r => h.refs.map (r, ·)

theorem mem_refPairs {h : Heap} {r s : Ref} (hr : r ∈ h.refs) (hs : s ∈ h.refs) :
    (r, s) ∈ h.refPairs := by
  simp [refPairs, hr, hs]

/-- Compares two values met while the pairs on `path` are under comparison. Lists compare item by
item, tables by key, whatever the order of their entries. -/
def equalOn (h : Heap) (path : List (Ref × Ref)) : Value → Value → Bool
  | .nothing, .nothing => true
  | .number m, .number n => m.equals n
  | .text s, .text t => s == t
  | .boolean b, .boolean c => b == c
  | .list i, .list j =>
    if i = j then true
    else if hp : (Ref.list i, Ref.list j) ∈ path then true
    else
      (h.items i).size == (h.items j).size &&
        ((h.items i).toList.zip (h.items j).toList).attach.all fun ⟨(v, w), hvw⟩ =>
          have hz := List.of_mem_zip hvw
          have := unseen_cons_lt (mem_refPairs (list_mem_refs (Array.mem_toList_iff.1 hz.1))
            (list_mem_refs (Array.mem_toList_iff.1 hz.2))) hp
          h.equalOn ((.list i, .list j) :: path) v w
  | .table i, .table j =>
    if i = j then true
    else if hp : (Ref.table i, Ref.table j) ∈ path then true
    else
      (h.entries i).length == (h.entries j).length &&
        (h.entries i).attach.all fun ⟨(key, v), hv⟩ =>
          match hw : (h.entries j).find? (·.1 == key) with
          | none => false
          | some (_, w) =>
            have := unseen_cons_lt (mem_refPairs (table_mem_refs hv)
              (table_mem_refs (List.mem_of_find?_eq_some hw))) hp
            h.equalOn ((.table i, .table j) :: path) v w
  | _, _ => false
termination_by (unseen h.refPairs path).length

def equal (h : Heap) (a b : Value) : Bool := h.equalOn [] a b

end StepsLang.Heap

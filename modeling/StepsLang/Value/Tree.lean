import StepsLang.Value.Basic
import StepsLang.Value.Unseen

namespace StepsLang

/-- A value with the contents of its containers. `cycle` stands for a container inside itself. -/
inductive Tree
  | leaf (v : Value)
  | cycle
  | list (items : List Tree)
  | table (entries : List (Bytes × Tree))
  deriving Repr, Inhabited

namespace Heap

def unfold (h : Heap) (path : List Ref) : Value → Tree
  | .list id =>
    if hp : Ref.list id ∈ path then .cycle
    else
      .list ((h.items id).toList.attach.map fun ⟨v, hv⟩ =>
        have := unseen_cons_lt (list_mem_refs (Array.mem_toList_iff.1 hv)) hp
        h.unfold (.list id :: path) v)
  | .table id =>
    if hp : Ref.table id ∈ path then .cycle
    else
      .table ((h.entries id).attach.map fun ⟨(key, v), he⟩ =>
        have := unseen_cons_lt (table_mem_refs he) hp
        (key, h.unfold (.table id :: path) v))
  | v => .leaf v
termination_by (unseen h.refs path).length

def tree (h : Heap) (v : Value) : Tree := h.unfold [] v

end Heap

end StepsLang

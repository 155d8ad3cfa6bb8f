import StepsLang.Routine.Basic

namespace StepsLang

namespace Expression

def operands : Expression → List Expression
  | list _ items => items
  | table _ entries => entries.flatMap fun (key, e) => [key, e]
  | binary _ _ a b | word _ _ a b | decimal _ a b | index _ a b => [a, b]
  | negate _ e | not _ e | convert _ _ e | typeOf _ e | isA _ _ e | lengthOf _ e => [e]
  | _ => []

inductive Part : Expression → Expression → Prop
  | whole (e) : Part e e
  | operand {e inner part : Expression} : inner ∈ e.operands → Part inner part → Part e part

theorem operands_table {l : Location} {entries : List (Expression × Expression)}
    {entry : Expression × Expression} (h : entry ∈ entries) :
    entry.1 ∈ (table l entries).operands ∧ entry.2 ∈ (table l entries).operands := by
  simp only [operands, List.mem_flatMap]
  exact ⟨⟨entry, h, by simp⟩, ⟨entry, h, by simp⟩⟩

end Expression

namespace Statement

def blocks : Statement → List (List Statement)
  | branch _ arms otherwise => arms.map (·.2.2) ++ otherwise.toList
  | repeatTimes _ _ body | repeatForEach _ _ _ body | repeatWhile _ _ body => [body]
  | attempt _ body unsuccessful continuation =>
    body :: (unsuccessful.toList ++ continuation.toList)
  | _ => []

theorem mem_blocks_branch {l : Location} {arms : List (Location × Expression × List Statement)}
    {otherwise : Option (List Statement)} {body : List Statement} :
    body ∈ (branch l arms otherwise).blocks ↔
      (∃ arm ∈ arms, arm.2.2 = body) ∨ otherwise = some body := by
  simp only [blocks, List.mem_append, List.mem_map, Option.mem_toList]

theorem mem_blocks_attempt {l : Location} {unsuccessful continuation : Option (List Statement)}
    {body ss : List Statement} :
    ss ∈ (attempt l body unsuccessful continuation).blocks ↔
      ss = body ∨ unsuccessful = some ss ∨ continuation = some ss := by
  simp only [blocks, List.mem_cons, List.mem_append, Option.mem_toList]

def expressions : Statement → List Expression
  | display _ e | set _ _ e | addToList _ e _ | removeFromList _ e _ => [e]
  | repeatTimes _ e _ | repeatForEach _ _ e _ | repeatWhile _ e _ => [e]
  | setIndex _ _ index e => [index, e]
  | call _ _ arguments _ => arguments
  | giveBack _ e => e.toList
  | branch _ arms _ => arms.map (·.2.1)
  | exit _ | attempt .. | note .. => []

inductive Within (body : List Statement) : Statement → Prop
  | here : st ∈ body → Within body st
  | deeper {inner : List Statement} : Within body st → inner ∈ st.blocks → st' ∈ inner →
    Within body st'

end Statement

/-- There is a statement or an expression of a body at a place. -/
inductive NodeAt (body : List Statement) : Location → Prop
  | statement {st : Statement} : st.Within body → NodeAt body st.location
  | expression {st : Statement} {e : Expression} : st.Within body → e ∈ st.expressions →
    e.Part part → NodeAt body part.location

def Step.routines (owner : Step) : List Routine := owner.toRoutine :: owner.risers

theorem Step.riser_mem {owner : Step} {x : Bytes} {r : Routine} (h : owner.riser? x = some r) :
    r ∈ owner.routines :=
  List.mem_cons_of_mem _ (List.mem_of_find?_eq_some h)

end StepsLang

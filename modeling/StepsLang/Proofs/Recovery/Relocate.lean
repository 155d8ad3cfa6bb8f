import Mathlib.Logic.Basic
import StepsLang.Statement.Basic

namespace StepsLang

namespace Expression

mutual
def relocate (f : Location → Location) : Expression → Expression
  | number l n => number (f l) n
  | text l s => text (f l) s
  | boolean l b => boolean (f l) b
  | nothing l => nothing (f l)
  | input l => input (f l)
  | name l x => name (f l) x
  | list l es => list (f l) (relocateItems f es)
  | table l es => table (f l) (relocateEntries f es)
  | binary l op a b => binary (f l) op (a.relocate f) (b.relocate f)
  | word l op a b => word (f l) op (a.relocate f) (b.relocate f)
  | negate l e => negate (f l) (e.relocate f)
  | not l e => not (f l) (e.relocate f)
  | convert l type e => convert (f l) type (e.relocate f)
  | decimal l e places => decimal (f l) (e.relocate f) (places.relocate f)
  | typeOf l e => typeOf (f l) (e.relocate f)
  | isA l type e => isA (f l) type (e.relocate f)
  | index l e key => index (f l) (e.relocate f) (key.relocate f)
  | lengthOf l e => lengthOf (f l) (e.relocate f)
termination_by structural e => e

def relocateItems (f : Location → Location) : List Expression → List Expression
  | [] => []
  | e :: es => e.relocate f :: relocateItems f es
termination_by structural es => es

def relocateEntries (f : Location → Location) :
    List (Expression × Expression) → List (Expression × Expression)
  | [] => []
  | (key, e) :: es => (key.relocate f, e.relocate f) :: relocateEntries f es
termination_by structural es => es
end

theorem relocateItems_eq (f : Location → Location) (es : List Expression) :
    relocateItems f es = es.map (relocate f) := by
  induction es with
  | nil => rfl
  | cons e es ih => rw [relocateItems, ih, List.map_cons]

mutual
@[simp] theorem relocate_id : ∀ e : Expression, e.relocate id = e
  | number .. | text .. | boolean .. | nothing .. | input .. | name .. => rfl
  | list l es => congrArg (list l) (relocateItems_id es)
  | table l es => congrArg (table l) (relocateEntries_id es)
  | binary l op a b => congrArg₂ (binary l op) (relocate_id a) (relocate_id b)
  | word l op a b => congrArg₂ (word l op) (relocate_id a) (relocate_id b)
  | negate l e => congrArg (negate l) (relocate_id e)
  | not l e => congrArg (not l) (relocate_id e)
  | convert l type e => congrArg (convert l type) (relocate_id e)
  | decimal l e places => congrArg₂ (decimal l) (relocate_id e) (relocate_id places)
  | typeOf l e => congrArg (typeOf l) (relocate_id e)
  | isA l type e => congrArg (isA l type) (relocate_id e)
  | index l e key => congrArg₂ (index l) (relocate_id e) (relocate_id key)
  | lengthOf l e => congrArg (lengthOf l) (relocate_id e)
termination_by structural e => e

theorem relocateItems_id : ∀ es : List Expression, relocateItems id es = es
  | [] => rfl
  | e :: es => congrArg₂ List.cons (relocate_id e) (relocateItems_id es)
termination_by structural es => es

theorem relocateEntries_id :
    ∀ es : List (Expression × Expression), relocateEntries id es = es
  | [] => rfl
  | (key, e) :: es =>
    congrArg₂ List.cons (congrArg₂ Prod.mk (relocate_id key) (relocate_id e))
      (relocateEntries_id es)
termination_by structural es => es
end

section Comp
variable (f g : Location → Location)

mutual
theorem relocate_comp : ∀ e : Expression, (e.relocate f).relocate g = e.relocate (g ∘ f)
  | number .. | text .. | boolean .. | nothing .. | input .. | name .. => rfl
  | list _ es => congrArg (list _) (relocateItems_comp es)
  | table _ es => congrArg (table _) (relocateEntries_comp es)
  | binary _ op a b => congrArg₂ (binary _ op) (relocate_comp a) (relocate_comp b)
  | word _ op a b => congrArg₂ (word _ op) (relocate_comp a) (relocate_comp b)
  | negate _ e => congrArg (negate _) (relocate_comp e)
  | not _ e => congrArg (not _) (relocate_comp e)
  | convert _ type e => congrArg (convert _ type) (relocate_comp e)
  | decimal _ e places => congrArg₂ (decimal _) (relocate_comp e) (relocate_comp places)
  | typeOf _ e => congrArg (typeOf _) (relocate_comp e)
  | isA _ type e => congrArg (isA _ type) (relocate_comp e)
  | index _ e key => congrArg₂ (index _) (relocate_comp e) (relocate_comp key)
  | lengthOf _ e => congrArg (lengthOf _) (relocate_comp e)
termination_by structural e => e

theorem relocateItems_comp : ∀ es : List Expression,
    relocateItems g (relocateItems f es) = relocateItems (g ∘ f) es
  | [] => rfl
  | e :: es => congrArg₂ List.cons (relocate_comp e) (relocateItems_comp es)
termination_by structural es => es

theorem relocateEntries_comp : ∀ es : List (Expression × Expression),
    relocateEntries g (relocateEntries f es) = relocateEntries (g ∘ f) es
  | [] => rfl
  | (key, e) :: es =>
    congrArg₂ List.cons (congrArg₂ Prod.mk (relocate_comp key) (relocate_comp e))
      (relocateEntries_comp es)
termination_by structural es => es
end

end Comp

end Expression

namespace Statement

mutual
def relocate (f : Location → Location) : Statement → Statement
  | display l e => display (f l) (e.relocate f)
  | set l x e => set (f l) x (e.relocate f)
  | setIndex l x i e => setIndex (f l) x (i.relocate f) (e.relocate f)
  | call l x args into => call (f l) x (args.map (·.relocate f)) into
  | giveBack l e => giveBack (f l) (e.map (·.relocate f))
  | exit l => exit (f l)
  | branch l arms otherwise => branch (f l) (relocateArms f arms) (relocatePart f otherwise)
  | repeatTimes l e body => repeatTimes (f l) (e.relocate f) (relocateAll f body)
  | repeatForEach l x e body => repeatForEach (f l) x (e.relocate f) (relocateAll f body)
  | repeatWhile l e body => repeatWhile (f l) (e.relocate f) (relocateAll f body)
  | attempt l body unsuccessful continuation =>
    attempt (f l) (relocateAll f body) (relocatePart f unsuccessful) (relocatePart f continuation)
  | addToList l e x => addToList (f l) (e.relocate f) x
  | removeFromList l e x => removeFromList (f l) (e.relocate f) x
  | note l s => note (f l) s
termination_by structural s => s

def relocateAll (f : Location → Location) : List Statement → List Statement
  | [] => []
  | s :: ss => s.relocate f :: relocateAll f ss
termination_by structural ss => ss

def relocateArms (f : Location → Location) : List (Location × Expression × List Statement) →
    List (Location × Expression × List Statement)
  | [] => []
  | (l, e, body) :: arms => (f l, e.relocate f, relocateAll f body) :: relocateArms f arms
termination_by structural arms => arms

def relocatePart (f : Location → Location) : Option (List Statement) → Option (List Statement)
  | none => none
  | some body => some (relocateAll f body)
termination_by structural body => body
end

theorem relocateAll_eq (f : Location → Location) (ss : List Statement) :
    relocateAll f ss = ss.map (relocate f) := by
  induction ss with
  | nil => rfl
  | cons s ss ih => rw [relocateAll, ih, List.map_cons]

def relocateArm (f : Location → Location) (arm : Location × Expression × List Statement) :
    Location × Expression × List Statement :=
  (f arm.1, arm.2.1.relocate f, relocateAll f arm.2.2)

theorem relocateArms_eq (f : Location → Location)
    (arms : List (Location × Expression × List Statement)) :
    relocateArms f arms = arms.map (relocateArm f) := by
  induction arms with
  | nil => rfl
  | cons arm arms ih => rw [relocateArms, ih, List.map_cons, relocateArm]

mutual
@[simp] theorem relocate_id : ∀ s : Statement, s.relocate id = s
  | display l e => congrArg (display l) e.relocate_id
  | set l x e => congrArg (set l x) e.relocate_id
  | setIndex l x i e => congrArg₂ (setIndex l x) i.relocate_id e.relocate_id
  | call l x args into => by simp [relocate]
  | giveBack l e => by cases e <;> simp [relocate]
  | exit _ | note .. => rfl
  | branch l arms otherwise =>
    congrArg₂ (branch l) (relocateArms_id arms) (relocatePart_id otherwise)
  | repeatTimes l e body => congrArg₂ (repeatTimes l) e.relocate_id (relocateAll_id body)
  | repeatForEach l x e body => congrArg₂ (repeatForEach l x) e.relocate_id (relocateAll_id body)
  | repeatWhile l e body => congrArg₂ (repeatWhile l) e.relocate_id (relocateAll_id body)
  | attempt l body unsuccessful continuation =>
    (congrArg₂ (attempt l · · _) (relocateAll_id body) (relocatePart_id unsuccessful)).trans
      (congrArg (attempt l body unsuccessful) (relocatePart_id continuation))
  | addToList l e x => congrArg (addToList l · x) e.relocate_id
  | removeFromList l e x => congrArg (removeFromList l · x) e.relocate_id
termination_by structural s => s

theorem relocateAll_id : ∀ ss : List Statement, relocateAll id ss = ss
  | [] => rfl
  | s :: ss => congrArg₂ List.cons (relocate_id s) (relocateAll_id ss)
termination_by structural ss => ss

theorem relocateArms_id :
    ∀ arms : List (Location × Expression × List Statement), relocateArms id arms = arms
  | [] => rfl
  | (l, e, body) :: arms =>
    congrArg₂ List.cons
      (congrArg₂ (fun e body => (l, e, body)) e.relocate_id (relocateAll_id body))
      (relocateArms_id arms)
termination_by structural arms => arms

theorem relocatePart_id : ∀ body : Option (List Statement), relocatePart id body = body
  | none => rfl
  | some body => congrArg some (relocateAll_id body)
termination_by structural body => body
end

section Comp
variable (f g : Location → Location)

mutual
theorem relocate_comp : ∀ s : Statement, (s.relocate f).relocate g = s.relocate (g ∘ f)
  | display _ e => congrArg (display _) (e.relocate_comp f g)
  | set _ x e => congrArg (set _ x) (e.relocate_comp f g)
  | setIndex _ x i e => congrArg₂ (setIndex _ x) (i.relocate_comp f g) (e.relocate_comp f g)
  | call _ x args into => by simp [relocate, Expression.relocate_comp]
  | giveBack _ e => by cases e <;> simp [relocate, Expression.relocate_comp]
  | exit _ | note .. => rfl
  | branch _ arms otherwise =>
    congrArg₂ (branch _) (relocateArms_comp arms) (relocatePart_comp otherwise)
  | repeatTimes _ e body =>
    congrArg₂ (repeatTimes _) (e.relocate_comp f g) (relocateAll_comp body)
  | repeatForEach _ x e body =>
    congrArg₂ (repeatForEach _ x) (e.relocate_comp f g) (relocateAll_comp body)
  | repeatWhile _ e body =>
    congrArg₂ (repeatWhile _) (e.relocate_comp f g) (relocateAll_comp body)
  | attempt _ body unsuccessful continuation =>
    (congrArg₂ (attempt _ · · _) (relocateAll_comp body) (relocatePart_comp unsuccessful)).trans
      (congrArg (attempt _ _ _) (relocatePart_comp continuation))
  | addToList _ e x => congrArg (addToList _ · x) (e.relocate_comp f g)
  | removeFromList _ e x => congrArg (removeFromList _ · x) (e.relocate_comp f g)
termination_by structural s => s

theorem relocateAll_comp : ∀ ss : List Statement,
    relocateAll g (relocateAll f ss) = relocateAll (g ∘ f) ss
  | [] => rfl
  | s :: ss => congrArg₂ List.cons (relocate_comp s) (relocateAll_comp ss)
termination_by structural ss => ss

theorem relocateArms_comp : ∀ arms : List (Location × Expression × List Statement),
    relocateArms g (relocateArms f arms) = relocateArms (g ∘ f) arms
  | [] => rfl
  | (l, e, body) :: arms =>
    congrArg₂ List.cons
      (congrArg₂ (fun e body => (g (f l), e, body)) (e.relocate_comp f g) (relocateAll_comp body))
      (relocateArms_comp arms)
termination_by structural arms => arms

theorem relocatePart_comp : ∀ body : Option (List Statement),
    relocatePart g (relocatePart f body) = relocatePart (g ∘ f) body
  | none => rfl
  | some body => congrArg some (relocateAll_comp body)
termination_by structural body => body
end

end Comp

end Statement

end StepsLang

import StepsLang.Proofs.Debug.Stepping
import StepsLang.Proofs.List

namespace StepsLang.Debug

abbrev Spot := Bytes × Nat

def spotOf (file : Bytes) (line : Nat) : Spot := (normalFile file, line)

def Breakpoint.spot (b : Breakpoint) : Spot := spotOf b.file b.line

theorem Breakpoint.isAt_eq (b : Breakpoint) (file : Bytes) (line : Nat) :
    b.isAt file line = (b.spot == spotOf file line) := by
  rw [isAt, Bool.and_comm]
  rfl

namespace Command

def added? : Command → Option Breakpoint
  | add b => some b
  | _ => none

def clears (p : Spot) : Command → Bool
  | remove file line => p == spotOf file line
  | clear => true
  | _ => false

/-- What a command makes of the breakpoints. -/
def edit (bs : List Breakpoint) : Command → List Breakpoint
  | add b => if bs.any (·.isAt b.file b.line) then bs else bs ++ [b]
  | remove file line => bs.eraseP (·.isAt file line)
  | clear => []
  | _ => bs

end Command

def stands (p : Spot) : List Command → Bool
  | [] => false
  | c :: after =>
    (c.added?.any (·.spot == p) && after.all (!·.clears p)) || stands p after

/-- The breakpoint that the `n`-th command adds, if nothing stands at its spot by then and no later
command takes it away. -/
def insertion? (cs : List Command) (n : Nat) : Option Breakpoint :=
  (cs[n]?.bind Command.added?).filter fun b =>
    !stands b.spot (cs.take n) && (cs.drop (n + 1)).all (!·.clears b.spot)

def insertions (cs : List Command) : List Breakpoint :=
  (List.range cs.length).filterMap (insertion? cs)

theorem stands_concat (p : Spot) (cs : List Command) (c : Command) :
    stands p (cs ++ [c]) = (c.added?.any (·.spot == p) || (stands p cs && !c.clears p)) := by
  induction cs with
  | nil => simp [stands]
  | cons first cs ih =>
    have last : [c].all (!·.clears p) = !c.clears p := Bool.and_true _
    rw [List.cons_append, stands, ih, stands, List.all_append, last]
    cases c.clears p with
    | true => simp
    | false => simp [Bool.or_left_comm]

theorem insertion?_concat {cs : List Command} {n : Nat} (earlier : n < cs.length) (c : Command) :
    insertion? (cs ++ [c]) n = (insertion? cs n).filter (!c.clears ·.spot) := by
  unfold insertion?
  rw [List.getElem?_append_left earlier, List.take_append_of_le_length earlier.le,
    List.drop_append_of_le_length earlier, Option.filter_filter]
  simp [Bool.and_assoc]

theorem insertions_concat (cs : List Command) (c : Command) :
    insertions (cs ++ [c]) =
      (insertions cs).filter (!c.clears ·.spot) ++
        (c.added?.filter (!stands ·.spot cs)).toList := by
  have earlier : (List.range cs.length).filterMap (insertion? (cs ++ [c])) =
      (List.range cs.length).filterMap fun n => (insertion? cs n).filter (!c.clears ·.spot) :=
    List.filterMap_congr fun n hn => insertion?_concat (List.mem_range.1 hn) c
  have last : insertion? (cs ++ [c]) cs.length = c.added?.filter (!stands ·.spot cs) := by
    simp [insertion?]
  unfold insertions
  rw [List.length_append, List.length_singleton, List.range_succ, List.filterMap_append, earlier,
    List.filter_filterMap, List.filterMap_cons, last, List.filterMap_nil]
  cases c.added?.filter (!stands ·.spot cs) <;> rfl

theorem insertions_add (cs : List Command) (b : Breakpoint) :
    insertions (cs ++ [.add b]) =
      if stands b.spot cs then insertions cs else insertions cs ++ [b] := by
  have kept : (insertions cs).filter (!(Command.add b).clears ·.spot) = insertions cs :=
    List.filter_eq_self.2 fun _ _ => rfl
  rw [insertions_concat, kept, Command.added?, Option.filter_some]
  cases stands b.spot cs <;> simp

structure Kept (cs : List Command) (bs : List Breakpoint) : Prop where
  listed : bs = insertions cs
  distinct : (bs.map Breakpoint.spot).Nodup
  mem_iff : ∀ p, p ∈ bs.map Breakpoint.spot ↔ stands p cs = true

namespace Kept

variable {cs : List Command} {bs : List Breakpoint}

theorem new : Kept [] [] := ⟨rfl, .nil, by simp [stands]⟩

theorem any_isAt (h : Kept cs bs) (file : Bytes) (line : Nat) :
    bs.any (·.isAt file line) = stands (spotOf file line) cs := by
  rw [Bool.eq_iff_iff, ← h.mem_iff]
  simp [Breakpoint.isAt_eq]

theorem added (h : Kept cs bs) (b : Breakpoint) :
    Kept (cs ++ [.add b]) ((Command.add b).edit bs) := by
  have after (p : Spot) : stands p (cs ++ [.add b]) = (b.spot == p || stands p cs) := by
    rw [stands_concat]
    simp [Command.added?, Command.clears]
  have edit : (Command.add b).edit bs = if stands b.spot cs then bs else bs ++ [b] := by
    rw [Command.edit, h.any_isAt]
    rfl
  rw [edit]
  cases stood : stands b.spot cs with
  | true =>
    refine ⟨?_, h.distinct, fun p => ?_⟩
    · rw [insertions_add, stood, h.listed]
    · rw [if_pos rfl, h.mem_iff, after, Bool.or_eq_true, beq_iff_eq]
      exact ⟨.inr, fun now => now.elim (· ▸ stood) id⟩
  | false =>
    have new : b.spot ∉ bs.map Breakpoint.spot := by
      rw [h.mem_iff, stood]
      exact Bool.false_ne_true
    rw [if_neg Bool.false_ne_true]
    refine ⟨?_, ?_, fun p => ?_⟩
    · rw [insertions_add, stood, h.listed]
      rfl
    · rw [List.map_append]
      exact List.nodup_append.2 ⟨h.distinct, by simp, by simpa using new⟩
    · rw [after, Bool.or_eq_true, beq_iff_eq, ← h.mem_iff, List.map_append, List.mem_append,
        or_comm]
      simp [eq_comm]

end Kept

namespace Debugger

end Debugger

end StepsLang.Debug

import StepsLang.Proofs.Execution.Loops
import StepsLang.Proofs.Native.Split

namespace StepsLang
open Environment

/-- All that takes the text `t` apart gives the parts `ps`. -/
structure TakenApart (t : Bytes) (ps : List Bytes) : Prop where
  characters (l : Location) (w : World) :
    ∃ id heap, Native.Text.characters (.text t) l w = (.ok (.list id), { w with heap }) ∧
      (heap.items id).toList = ps.map .text
  splitBy (h : Heap) (l : Location) :
    ∃ id heap, Value.splitBy h (.text t) (.text []) l = .ok (.list id, heap) ∧
      (heap.items id).toList = ps.map .text
  characterAt (index v : Value) (l : Location) :
    Value.characterAt index (.text t) l = .ok v ↔
      ∃ (i : Number) (k : Nat) (p : Bytes), index = .number i ∧ i.toIndex = k ∧ ps[k]? = some p ∧
        v = .text p
  repeatForEach {σ : Type} (ob : Observer σ) (limits : Limits) (l : Location) (x : Bytes)
    (collection : Expression) (body : List Statement) (rest : List Task) (s : Session σ)
    (w : World) : collection.eval s.env s.world = (.ok (.text t), w) →
    Machine.Counted ob limits rest s (.repeatForEach l x collection body) body fun opened ended =>
      ended.1 = .normal ∧
        List.Forall₂ (fun p m => Topped (some (x, .text p)) s.env m.session.env) ps opened

theorem characterAt_iff (t : Bytes) (index v : Value) (l : Location) :
    Value.characterAt index (.text t) l = .ok v ↔
      ∃ (i : Number) (k : Nat) (p : Bytes), index = .number i ∧ i.toIndex = k ∧
        (Utf8.characters t)[k]? = some p ∧ v = .text p := by
  cases index with
  | number i =>
    simp only [Value.characterAt, Heap.position?]
    by_cases inside : 0 ≤ i.toIndex ∧ i.toIndex < (Utf8.characters t).length
    · have small : i.toIndex.toNat < (Utf8.characters t).length := by omega
      rw [if_pos inside]
      constructor
      · intro same
        refine ⟨i, i.toIndex.toNat, _, rfl, by omega, List.getElem?_eq_getElem small, ?_⟩
        rw [← Except.ok.inj same]
        simp [List.getD, small]
      · rintro ⟨_, k, p, ⟨⟩, index, there, rfl⟩
        simp [index, there]
    · rw [if_neg inside]
      constructor
      · intro same
        cases same
      · rintro ⟨_, k, p, ⟨⟩, index, there, rfl⟩
        have small := (List.getElem?_eq_some_iff.1 there).1
        exact absurd ⟨by omega, by omega⟩ inside
  | _ =>
    constructor
    · intro same
      cases same
    · rintro ⟨_, _, _, ⟨⟩, _⟩

theorem repeatForEach_text {σ : Type} (ob : Observer σ) (limits : Limits) (l : Location) (x : Bytes)
    (collection : Expression) (body : List Statement) (rest : List Task) (s : Session σ) {t : Bytes}
    {w : World} (value : collection.eval s.env s.world = (.ok (.text t), w)) :
    Machine.Counted ob limits rest s (.repeatForEach l x collection body) body fun opened ended =>
      ended.1 = .normal ∧ List.Forall₂
        (fun p m => Topped (some (x, .text p)) s.env m.session.env) (Utf8.characters t) opened := by
  have known : (Value.text t).items? w.heap = some ((Utf8.characters t).map .text) := rfl
  have depth : limits.depth - s.env.depth = s.callsLeft limits := rfl
  refine Machine.Goes.counted ?begun ?done
    ((Machine.each_goes x ((Utf8.characters t).map .text) { s with world := w } depth).imp ?_)
  case begun => simp only [Machine.start, value, known]
  case done =>
    simp only [Statement.perform, Action.evaluating, Action.obtaining, value, Action.repeatForEach,
      known]
  rintro opened ended ⟨normal, turns⟩
  have each := turns.topped (fun item t => Machine.kept_inFresh item body t) (.refl s.env)
  rw [List.map_map] at each
  exact ⟨normal, List.forall₂_map_left_iff.1 each⟩

theorem takenApart_characters (t : Bytes) : TakenApart t (Utf8.characters t) where
  characters l w := by
    obtain ⟨id, heap, made, items⟩ :=
      Native.Text.items_newList w.heap ((Utf8.characters t).map .text)
    exact ⟨id, heap, by rw [Native.Text.characters_eq, made], items⟩
  splitBy h l := by
    obtain ⟨id, heap, made, items⟩ := Native.Text.items_newList h ((Utf8.characters t).map .text)
    exact ⟨id, heap, congrArg Except.ok made, items⟩
  characterAt := characterAt_iff t
  repeatForEach ob limits l x collection body rest s _ value :=
    repeatForEach_text ob limits l x collection body rest s value

/-- Whatever takes a text apart gives the same parts, which join to the text.  There is one for each
character that the length counts, and one more if the text begins amid a character. -/
theorem parts_and_length (t : Bytes) : ∃ ps, TakenApart t ps ∧ ps.flatten = t ∧
    ps.length = Utf8.length t + Utf8.stray t ∧
    ∀ h l, Value.lengthOf h (.text t) l = .ok (.number (Number.ofNat (Utf8.length t))) :=
  ⟨_, takenApart_characters t, Utf8.flatten_characters t, Utf8.length_characters t,
    fun _ _ => rfl⟩

/-- A text of one byte that starts no character has no length, and has a part. -/
theorem parts_exceed_length :
    Value.lengthOf {} (.text [0x80]) {} = .ok (.number 0) ∧
      Value.characterAt (.number 0) (.text [0x80]) {} = .ok (.text [0x80]) ∧
      ∃ id heap, Value.splitBy {} (.text [0x80]) (.text []) {} = .ok (.list id, heap) ∧
        heap.items id = #[.text [0x80]] :=
  ⟨by decide +kernel, by decide +kernel, _, _, rfl, by decide +kernel⟩

end StepsLang

import StepsLang.Proofs.Recovery.Expression
import StepsLang.Statement.Parser

namespace StepsLang

namespace Tandem

def Agree (T : Tandem) (a b : Option Statement) : Prop := b = a.map (Statement.relocate T.move)

def Lines (T : Tandem) (n : Nat) (p q : Reader (Option Statement)) : Prop :=
  ∀ d, T.Moves n (fun _ => 1) (Opening d) T.Agree (fun _ => Outside d) p q

abbrev Ending (T : Tandem) (n d : Nat) (p q : Reader (Option Statement)) : Prop :=
  T.Moves n (fun _ => 0) (Inside d) T.Agree (fun _ => Outside d) p q

abbrev Worded (T : Tandem) (n : Nat) (p q : Reader (Option Statement)) : Prop :=
  ∀ x t, t.kind.isContent = true →
    T.Moves n (fun _ => 1) (Ahead x [t]) T.Agree (fun _ => Outside x.depth) p q

theorem Lines.within {T : Tandem} {m n : Nat} {p q : Reader (Option Statement)}
    (h : T.Lines n p q) (hm : m ≤ n) : T.Lines m p q :=
  fun d => (h d).within hm

end Tandem

namespace Statement.Parser
open Reader Expression.Parser Tandem

variable {T : Tandem} {n d : Nat}

theorem giveUp_broken {α : Type} {r : Option α → Option α → Prop} (hr : r none none) :
    T.Moves n (fun _ => 1) (Broken d 0) r (fun _ => Outside d) giveUp giveUp := by
  unfold giveUp
  exact .bind (Moves.resync (d := d)) fun _ _ _ => .pure hr rfl fun _ _ h => h

theorem giveUp_inside : T.Ending n d giveUp giveUp :=
  Moves.broken_of_inside (m := 0) ((giveUp_broken rfl).slower fun _ => Nat.zero_le 1)

theorem endOfLine (what : Bytes) {a b : Option Statement} (h : T.Agree a b) :
    T.Ending n d (do discard (expectEndOfLine what); return a)
      (do discard (expectEndOfLine what); return b) := by
  refine .andThen (.discard (k := 0) (R := Outside d) ((Moves.expectEndOfLine what).post
    fun b x zs h => ?_) fun _ => Nat.zero_le 1) fun _ _ _ => .pure h rfl fun _ _ h => h
  cases b with
  | false => exact h
  | true => exact ⟨congrArg Place.depth h.1, .inl (congrArg Place.spot h.1)⟩

theorem orGiveUp {α : Type} {f : α → α} {i : Option α → Nat} {p q : Reader (Option α)}
    {g h : Option α → Reader (Option Statement)}
    (one : T.Moves n i (Inside d) (fun a b => b = a.map f) (fun _ => Inside d) p q)
    (stop : g none = giveUp ∧ h none = giveUp)
    (go : ∀ a, T.Ending (n - i (some a)) d (g (some a)) (h (some (f a)))) :
    T.Ending n d (p >>= g) (q >>= h) := by
  refine .andThen one fun a b hab => ?_
  subst hab
  cases a with
  | none =>
    rw [stop.1, Option.map_none, stop.2]
    exact giveUp_inside
  | some a => exact go a

theorem worded {l : Token → Reader (Option Statement)} {l' : Token → Reader (Option Statement)}
    (h : ∀ (d : Nat) (t : Token), T.Ending (n - 1) d (l t) (l' (t.relocate T.move))) :
    T.Worded n (advance >>= l) (advance >>= l') := by
  intro x t ht
  refine .bind (.advance_content ht) fun a b ⟨ha, hb⟩ => ?_
  subst ha hb
  exact h x.depth a

theorem display_worded : T.Worded n display display :=
  worded fun d t => .andThen (expression_inline d) fun e e' same => endOfLine _ (by rw [same]; rfl)

theorem indexed_inline :
    T.Inline n (fun a b => b = a.map (Option.map (Expression.relocate T.move))) indexed
      indexed := by
  intro d
  unfold indexed
  refine .skip_inside rfl ?_ (.pure rfl rfl fun _ _ h => h)
  refine .andThen (expression_inline d) fun e e' same => ?_
  refine .andThen (.expect rfl _) fun a b hab => ?_
  subst same hab
  cases a <;> exact .pure rfl rfl fun _ _ h => h

theorem set_worded : T.Worded n set set := by
  refine worded fun d t => orGiveUp .expectName ⟨rfl, rfl⟩ fun name => ?_
  refine orGiveUp (indexed_inline d) ⟨rfl, rfl⟩ fun index => ?_
  refine orGiveUp (.expect rfl _) ⟨rfl, rfl⟩ fun link => ?_
  refine .andThen (expression_inline d) fun e e' same => ?_
  subst same
  cases index <;> exact endOfLine _ rfl

theorem arguments_inline : T.Inline n (List.Forall₂ T.Same) arguments arguments := by
  intro d
  unfold arguments
  refine .skip_inside rfl ?_ (.pure .nil rfl fun _ _ h => h)
  refine .andThen (expression_inline d) fun e e' same => ?_
  refine .andThen (.manyInside (r := T.Same) ?_) fun es es' sames =>
    .pure (.cons same sames) rfl fun _ _ h => h
  refine .bind (.skip? rfl) fun a b hab => ?_
  subst hab
  cases a with
  | false => exact .pure .none rfl fun _ _ h => h
  | true =>
    refine .bind (expression_inline d) fun e e' same => ?_
    exact .pure (.some same) rfl fun _ _ h => h

theorem target_inline :
    T.Inline n (fun a b : Option (Option Bytes) => b = a.map id) target target := by
  intro d
  unfold target
  refine .skip_inside rfl ?_ (.pure rfl rfl fun _ _ h => h)
  refine .andThen .expectName fun name _ hname => ?_
  subst hname
  cases name <;> exact .pure rfl rfl fun _ _ h => h

theorem call_worded : T.Worded n call call := by
  refine worded fun d t => orGiveUp .expectName ⟨rfl, rfl⟩ fun name => ?_
  refine .andThen (arguments_inline d) fun args args' sames => ?_
  refine orGiveUp (target_inline d) ⟨rfl, rfl⟩ fun into => endOfLine _ ?_
  rw [same_items sames, Expression.relocateItems_eq]
  rfl

theorem giveBack_worded : T.Worded n giveBack giveBack := by
  refine worded fun d t => .inside (fun u hu => ?_) fun u hu => ?_
  · refine .check_ahead (.atBlockEnd_ahead ?_)
    rw [beq_false_of_ne (Place.ne_of_content hu rfl), Moves.not_blockEnd (.inl hu),
      if_neg (by decide), if_neg (by decide), if_neg (by decide), if_neg (by decide)]
    have value : T.Moves (n - 1) (fun _ => 0) (Inside d)
        (fun a b => b = a.map (Expression.relocate T.move)) (fun _ => Inside d)
        (some <$> expression) (some <$> expression) :=
      .map (expression_inline d) (fun _ _ same => congrArg some same) (fun _ => Nat.le_refl 0)
        fun _ _ _ h => h
    refine .forget (.andThen value fun e _ same => ?_)
    subst same
    exact endOfLine _ rfl
  · refine .check_ahead (.atBlockEnd_ahead ?_)
    rw [hu, beq_self_eq_true, if_pos rfl, if_pos rfl]
    exact .forget (endOfLine _ rfl)

theorem exit_worded : T.Worded n exit exit :=
  worded fun _ _ => endOfLine _ rfl

theorem note_worded : T.Worded n note note :=
  worded fun _ _ => endOfLine _ rfl

theorem listChange_worded {make : Location → Expression → Bytes → Statement} {link : Kind}
    {linkText statement : Bytes} (hk : link.isContent = true)
    (hm : ∀ l e x, make (T.move l) (e.relocate T.move) x = (make l e x).relocate T.move) :
    T.Worded n (listChange make link linkText statement)
      (listChange make link linkText statement) := by
  refine worded fun d t => .andThen (expression_inline d) fun e e' same => ?_
  subst same
  refine orGiveUp (.expect hk _) ⟨rfl, rfl⟩ fun _ => ?_
  refine orGiveUp .expectName ⟨rfl, rfl⟩ fun name => endOfLine _ ?_
  exact congrArg some (hm t.location e name.text)

def AgreeAll (T : Tandem) : List Statement → List Statement → Prop :=
  List.Forall₂ fun a b => b = a.relocate T.move

theorem eq_map_of_forall₂ {α : Type} {f : α → α} {as bs : List α}
    (h : List.Forall₂ (fun a b => b = f a) as bs) : bs = as.map f := by
  induction h with
  | nil => rfl
  | cons same _ ih => rw [ih, same, List.map_cons]

theorem agreeAll_eq {a b : List Statement} (h : AgreeAll T a b) :
    b = relocateAll T.move a := by
  rw [relocateAll_eq]
  exact eq_map_of_forall₂ h

section Blocks

variable {inner inner' : Inner}

theorem block_moves (hi : T.Lines (n - 1) inner inner') (keyword : Bytes) :
    T.Moves n (fun _ => 0) (Ahead ⟨d, .fresh⟩ []) (AgreeAll T) (fun _ => Outside d)
      (block inner keyword) (block inner' keyword) := by
  unfold block
  refine .andThen ((Moves.skipNewlines (G := (· = ⟨d, .fresh⟩)) ?_ ?_).pre fun x zs h => h.1)
    fun _ _ _ => ?_
  · rintro x y rfl one
    cases one
  · exact congrArg Place.spot
  refine (Moves.skip_outer (P := (· = ⟨d, .fresh⟩)) (by decide) ?_ ?_).pre fun x zs h => h.1
  · rintro x y rfl one
    cases one
    refine ((Moves.lines (d := d) ?_).pre fun x zs h => ?_).post fun _ x zs h => ?_
    · refine .map (hi _ |>.within (by omega)) (fun a b same => ?_) (fun _ => Nat.le_refl 1)
        fun _ _ _ h => h
      subst same
      cases a with
      | none => exact .nil
      | some a => exact .cons rfl .nil
    · obtain ⟨rfl, -⟩ := h
      exact ⟨rfl, fun h => nomatch h⟩
    · obtain ⟨rfl, -⟩ := h
      exact ⟨rfl, .inr rfl⟩
  · refine .andThen (.expectedBlock _) fun _ _ _ => .pure .nil rfl fun x zs h => ?_
    subst h
    exact ⟨rfl, .inl rfl⟩

theorem endOfHeader {α : Type} {r : α → α → Prop} {Q : α → Place → List Token → Prop}
    {g h : Bool → Reader α} (what : Bytes)
    (go : T.Moves (n - 1) (fun _ => 0) (Ahead ⟨d, .fresh⟩ []) r Q (g true) (h true))
    (stop : T.Moves (n - 1) (fun _ => 0) (Outside d) r Q (g false) (h false)) :
    T.Moves n (fun _ => 0) (Inside d) r Q (expectEndOfLine what >>= g)
      (expectEndOfLine what >>= h) := by
  refine .andThen (.expectEndOfLine _) fun b _ hb => ?_
  subst hb
  cases b with
  | false => exact stop
  | true => exact go

theorem part_moves (hT : T.BeginsLines) (hi : T.Lines (n - 1) inner inner') {k : Kind}
    (hk : k ∈ attached) (content : k.isContent = true) (keyword : Bytes) :
    T.Moves n (fun _ => 0) (Outside d) (Option.Rel (AgreeAll T)) (fun _ => Outside d)
      (part inner k keyword) (part inner' k keyword) := by
  unfold part
  refine .check_outer (P := (Outside d · [])) hk (fun x t y hx kind one => ?_)
    (.pure .none rfl fun _ _ h => h)
  obtain rfl := hx.1
  refine .andThen (Moves.beginLine hT hx.not_inside) fun _ _ _ => ?_
  refine .andThen (.discard (k := 1) (.advance_content (kind ▸ content)) fun _ => Nat.le_refl 1)
    fun _ _ _ => ?_
  refine endOfHeader _ ?_ (.pure .none rfl fun _ _ h => h)
  exact .andThen (block_moves (hi.within (by omega)) _) fun a b hab =>
    .pure (.some hab) rfl fun _ _ h => h

theorem otherwiseIf_moves (hT : T.BeginsLines) (hi : T.Lines (n - 1) inner inner') :
    T.Moves n taken (Outside d)
      (Option.Rel (List.Forall₂ fun a b => b = relocateArm T.move a)) (fun _ => Outside d)
      (otherwiseIf inner) (otherwiseIf inner') := by
  unfold otherwiseIf
  refine .check_outer (P := (Outside d · [])) (by decide) (fun x t y hx kind one => ?_)
    (.pure .none rfl fun _ _ h => h)
  obtain rfl := hx.1
  refine .bind (Moves.beginLine hT hx.not_inside) fun _ _ _ => ?_
  refine .bind (.advance_content (kind ▸ rfl)) fun a b ⟨ha, hb⟩ => ?_
  subst ha hb
  refine Moves.slower (j := fun _ => 0) ?_ fun o => by cases o <;> exact Nat.le_refl 0
  refine .andThen (expression_inline x.depth) fun e e' same => ?_
  subst same
  refine endOfHeader _ ?_ (.pure (.some .nil) rfl fun _ _ h => h)
  refine .andThen (block_moves (hi.within (by omega)) _) fun body body' agree => ?_
  refine .pure (.some (.cons ?_ .nil)) rfl fun _ _ h => h
  rw [agreeAll_eq agree]
  rfl

theorem part_eq {a b : Option (List Statement)} (h : Option.Rel (AgreeAll T) a b) :
    b = relocatePart T.move a := by
  cases h with
  | none => rfl
  | some agree => rw [agreeAll_eq agree, relocatePart]

theorem branch_worded (hT : T.BeginsLines) (hi : T.Lines (n - 1) inner inner') :
    T.Worded n (branch inner) (branch inner') := by
  refine worded fun d t => .andThen (expression_inline d) fun e e' same => endOfHeader _ ?_ ?_
  · refine .andThen (block_moves (hi.within (by omega)) _) fun body body' agree => ?_
    refine .andThen (.many (R := Outside d) ((otherwiseIf_moves hT (hi.within (by omega))).post
      fun o x zs h => by cases o <;> exact h)) fun more more' arms => ?_
    refine .andThen (part_moves hT (hi.within (by omega)) (by decide) rfl _) fun o o' last => ?_
    refine .pure ?_ rfl fun _ _ h => h
    have parts : more'.flatten = relocateArms T.move more.flatten := by
      rw [relocateArms_eq]
      exact eq_map_of_forall₂ (List.rel_flatten arms)
    rw [agreeAll_eq agree, part_eq last, parts, same]
    rfl
  · exact .pure rfl rfl fun _ _ h => h

theorem item_inline : T.Inline n (fun a b : Option Bytes => b = a.map id) item item := by
  intro d
  unfold item
  refine .andThen .expectName fun name _ hname => ?_
  subst hname
  cases name with
  | none => exact .pure rfl rfl fun _ _ h => h
  | some name =>
    refine .andThen (.expect rfl _) fun link _ hlink => ?_
    subst hlink
    cases link <;> exact .pure rfl rfl fun _ _ h => h

theorem loop_worded (hi : T.Lines (n - 1) inner inner') :
    T.Worded n (loop inner) (loop inner') := by
  have body : ∀ {m d : Nat} {keyword : Bytes} {k k' : List Statement → Statement},
      m ≤ n - 1 → (∀ b, k' (relocateAll T.move b) = (k b).relocate T.move) →
      T.Moves m (fun _ => 0) (Ahead ⟨d, .fresh⟩ []) T.Agree (fun _ => Outside d)
        (do return some (k (← block inner keyword)))
        (do return some (k' (← block inner' keyword))) := fun hm hk =>
    .andThen (block_moves (hi.within (by omega)) _) fun _ _ agree => by
      rw [agreeAll_eq agree]
      exact .pure (congrArg some (hk _)) rfl fun _ _ h => h
  refine worded fun d t => ?_
  refine .skip_inside rfl ?_ (.skip_inside rfl ?_ ?_)
  · refine orGiveUp (item_inline d) ⟨rfl, rfl⟩ fun name => ?_
    refine .andThen (expression_inline d) fun e e' same => ?_
    subst same
    refine endOfHeader _ (body (by omega) fun _ => rfl) (.pure rfl rfl fun _ _ h => h)
  · refine .andThen (expression_inline d) fun e e' same => ?_
    subst same
    refine endOfHeader _ (body (by omega) fun _ => rfl) (.pure rfl rfl fun _ _ h => h)
  · refine .andThen (expression_inline d) fun e e' same => ?_
    subst same
    refine orGiveUp (.expect rfl _) ⟨rfl, rfl⟩ fun _ => ?_
    refine endOfHeader _ (body (by omega) fun _ => rfl) (.pure rfl rfl fun _ _ h => h)

theorem attempt_worded (hT : T.BeginsLines) (hi : T.Lines (n - 1) inner inner') :
    T.Worded n (attempt inner) (attempt inner') := by
  refine worded fun d t => ?_
  refine endOfHeader _ ?_ (.pure rfl rfl fun _ _ h => h)
  refine .andThen (block_moves (hi.within (by omega)) _) fun body body' agree => ?_
  refine .andThen (part_moves hT (hi.within (by omega)) (by decide) rfl _) fun o o' first => ?_
  refine .andThen (part_moves hT (hi.within (by omega)) (by decide) rfl _) fun _ _ second => ?_
  refine .pure ?_ rfl fun _ _ h => h
  rw [agreeAll_eq agree, part_eq first, part_eq second]
  rfl

theorem misplacedName_moves {P : Place → List Token → Prop} (t : Token) :
    T.Moves n (fun _ => 0) P Eq (fun _ => P) (misplacedName t)
      (misplacedName (t.relocate T.move)) := by
  unfold misplacedName
  dsimp only [Token.relocate]
  split
  · exact .report _ _
  · exact .unexpected _

theorem misplaced_moves {P : Place → List Token → Prop} (t : Token) :
    T.Moves n (fun _ => 0) P Eq (fun _ => P) (misplaced t) (misplaced (t.relocate T.move)) := by
  unfold misplaced
  dsimp only [Token.relocate]
  split
  all_goals first
    | exact .unexpected _
    | exact .report _ _
    | exact misplacedName_moves t

theorem dispatch_eq {x : Place} {t : Token}
    (h : t.kind = .indent ∨ T.BeginsLines ∧ T.Lines (n - 1) inner inner')
    (ht : t.kind.isContent = true ∨ t.kind = .indent) :
    ∃ p q, dispatch inner = beginLine >>= (fun _ => p) ∧
      dispatch inner' = beginLine >>= (fun _ => q) ∧
      T.Moves n (fun _ => 1) (Ahead x [t]) T.Agree (fun _ => Outside x.depth) p q := by
  refine ⟨_, _, rfl, rfl, ?_⟩
  have block : t.kind ≠ .dedent := fun h => by rw [h] at ht; rcases ht with h | h <;> cases h
  refine .peek_ahead block ?_
  dsimp only [Token.relocate]
  split
  · next kind => exact display_worded _ _ (kind ▸ rfl)
  · next kind => exact set_worded _ _ (kind ▸ rfl)
  · next kind => exact call_worded _ _ (kind ▸ rfl)
  · next kind => exact giveBack_worded _ _ (kind ▸ rfl)
  · next kind => exact exit_worded _ _ (kind ▸ rfl)
  · next kind =>
    obtain ⟨hT, hi⟩ := h.resolve_left (kind ▸ Kind.noConfusion)
    exact branch_worded hT hi _ _ (kind ▸ rfl)
  · next kind =>
    exact loop_worded (h.resolve_left (kind ▸ Kind.noConfusion)).2 _ _ (kind ▸ rfl)
  · next kind =>
    obtain ⟨hT, hi⟩ := h.resolve_left (kind ▸ Kind.noConfusion)
    exact attempt_worded hT hi _ _ (kind ▸ rfl)
  · next kind => exact listChange_worded rfl (fun _ _ _ => rfl) _ _ (kind ▸ rfl)
  · next kind => exact listChange_worded rfl (fun _ _ _ => rfl) _ _ (kind ▸ rfl)
  · next kind => exact note_worded _ _ (kind ▸ rfl)
  · refine .bind (misplaced_moves t) fun _ _ _ => (giveUp_broken rfl).pre fun y zs h => ?_
    exact ⟨t, ⟨congrArg Place.depth h.1, fun _ => block⟩, h.2⟩

end Blocks

theorem nested_lines (hT : T.BeginsLines) {bound : List β} {bound' : List γ}
    (hb : n ≤ bound.length) (hb' : n ≤ bound'.length) :
    T.Lines n (nested bound) (nested bound') := by
  induction bound generalizing n bound' with
  | nil =>
    obtain rfl : n = 0 := Nat.le_zero.1 hb
    exact fun _ => .exhausted fun _ => Nat.not_lt_zero _
  | cons _ bound ih =>
    cases bound' with
    | nil =>
      obtain rfl : n = 0 := Nat.le_zero.1 hb'
      exact fun _ => .exhausted fun _ => Nat.not_lt_zero _
    | cons _ bound' =>
      have inner := ih (n := n - 1) (Nat.sub_le_of_le_add hb) (Nat.sub_le_of_le_add hb')
      intro d
      refine .of_ahead (G := fun x t => Margin d x ∧ (t.kind.isContent = true ∨ t.kind = .indent))
        fun x t y ⟨hx, ht⟩ _ => ?_
      obtain ⟨rfl, out⟩ := hx
      obtain ⟨p, q, hp, hq, same⟩ := dispatch_eq (x := x) (.inr ⟨hT, inner⟩) ht
      rw [Statement.Parser.nested, Statement.Parser.nested, hp, hq]
      exact .bind (Moves.beginLine hT out) fun _ _ _ => same

theorem statement_lines (hT : T.BeginsLines) : T.Lines n statement statement :=
  fun d => .bounded fun _ _ _ _ hb hb' => nested_lines hT hb hb' d

end Statement.Parser

end StepsLang

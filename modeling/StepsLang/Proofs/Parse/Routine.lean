import StepsLang.Routine.Parser
import StepsLang.Proofs.Parse.Statement
import StepsLang.Proofs.Print.Routine

namespace StepsLang

namespace Routine.Parser
open Reader
open Expression.Parser (Any tokens_word tokens_blank tokens_name)
open Statement.Parser (nameToken)

theorem typeName_reads (type : TypeName) :
    Reads id typeName [.word type.kind] (some type) Any := by
  cases type <;> exact .peek fun _ => .discard (.advance (by decide) fun _ => .pure rfl)

def typeTokens : Option TypeName → List Token
  | none => []
  | some type => [.word .as, .word type.kind]

theorem optionalType_reads (type : Option TypeName) :
    Reads id optionalType (typeTokens type) type (· ≠ .as) := by
  cases type with
  | none => exact .skip?_not (fun _ hx => hx) (.pure rfl)
  | some type =>
    refine .skip? rfl (by decide) ?_
    exact (typeName_reads type).weaken fun _ _ => trivial

@[simp] theorem tokens_typed (x : TypedName) :
    tokens x.pieces = nameToken x.name :: typeTokens x.type := by
  rw [TypedName.pieces]
  cases x.type <;> rfl

theorem typed_reads (x : TypedName) (l : Location) :
    Reads TypedName.unlocated (typed ((nameToken x.name).at l)) (typeTokens x.type) x.unlocated
      (· ≠ .as) := by
  apply Reads.last (optionalType_reads x.type) fun _ hx => hx
  rintro type rfl
  exact .pure rfl

theorem tokens_listed_cons (ps : List Piece) (rows : List (List Piece)) :
    tokens (listed (ps :: rows)) = .word .comma :: tokens (ps ++ listed rows) := by
  simp [listed]

theorem listed_next (rows : List (List Piece)) :
    Next (· ≠ .as) (tokens (listed rows)) (· = .newline) := by
  cases rows with
  | nil => exact fun x hx => by simp [hx]
  | cons ps rows =>
    rw [tokens_listed_cons]
    exact .cons (by decide)

theorem names_reads (x : TypedName) (xs : List TypedName) (bound : List Heard)
    (hb : (tokens (x.pieces ++ listed (xs.map (·.pieces)))).length ≤ bound.length) :
    Reads (List.map TypedName.unlocated) (names bound)
      (tokens (x.pieces ++ listed (xs.map (·.pieces)))) ((x :: xs).map (·.unlocated))
      (· = .newline) := by
  induction bound generalizing x xs with
  | nil => simp at hb
  | cons _ bound ih =>
    rw [tokens_append, tokens_typed] at hb ⊢
    apply Reads.check (r := false) rfl
    apply Reads.check (r := false) rfl
    apply Reads.expectName
    intro l
    apply Reads.bind (typed_reads x l) (listed_next _)
    intro a ha
    cases xs with
    | nil =>
      apply Reads.skip?_not fun x hx => by simp [hx]
      exact .pure (by simp [ha])
    | cons y ys =>
      rw [List.map_cons, tokens_listed_cons] at hb ⊢
      simp only [List.length_append, List.length_cons] at hb
      refine .skip? rfl (by decide) ?_
      apply Reads.last (ih y ys (by omega)) fun _ hx => hx
      intro as has
      exact .pure (by simp [ha, has])

theorem parameters_reads (x : TypedName) (xs : List TypedName) :
    Reads (List.map TypedName.unlocated) parameters
      (tokens (x.pieces ++ listed (xs.map (·.pieces)))) ((x :: xs).map (·.unlocated))
      (· = .newline) := by
  apply Reads.skip?_not (.cons (by simp))
  rw [if_neg (by simp)]
  exact .bounded fun bound hb => names_reads x xs bound (Nat.le_of_lt hb)

theorem returned_reads (x : TypedName) :
    Reads (Option.map TypedName.unlocated) returned (tokens x.pieces) (some x.unlocated)
      (· = .newline) := by
  rw [tokens_typed]
  apply Reads.skip?_not (.cons (by simp))
  apply Reads.expectName
  intro l
  apply Reads.last (typed_reads x l) fun x hx => by simp [hx]
  intro a ha
  exact .pure (by simp [ha])

def fixedTokens (fixed : Bool) : List Token := if fixed then [.word .fixed] else []

theorem tokens_declaration (d : Declaration) :
    tokens d.pieces =
      nameToken d.name :: .word .as :: .word d.type.kind :: fixedTokens d.fixed := by
  rw [Declaration.pieces]
  cases d.fixed <;> rfl

theorem declaration_reads (d : Declaration) :
    Reads (List.map Declaration.unlocated) declaration (tokens d.pieces ++ [.newline])
      [d.unlocated] Any := by
  rw [tokens_declaration]
  apply Reads.beginLine
  apply Reads.skip?_not (.cons (by simp))
  apply Reads.expectName
  intro l
  refine .expect rfl (by decide) fun l' => ?_
  apply Reads.bind (u := [.word d.type.kind]) (typeName_reads d.type) (Reads.next_any _ _)
  rintro type rfl
  obtain ⟨here, name, type, fixed⟩ := d
  cases fixed with
  | false =>
    apply Reads.skip?_not (.cons (by decide))
    exact .endLine rfl
  | true =>
    refine .skip? rfl (by decide) ?_
    exact .endLine rfl

theorem declarations_reads (ds : List Declaration) :
    Reads (List.map Declaration.unlocated) declarations
      (.indent :: (Outline.tokensAll (ds.map fun d => .line d.pieces []) ++ [.dedent]))
      (ds.map (·.unlocated)) Any := by
  let items := ds.map fun d => (tokens d.pieces ++ [Token.newline], [d.unlocated])
  have rows : Reads (List.map Declaration.unlocated) (Reader.lines declaration)
      (items.flatMap (·.1) ++ [.dedent]) (items.flatMap (·.2)) Any := by
    refine Reads.lines items (fun i hi => ?_) (fun i hi => ?_) (show Any _ from trivial)
    · obtain ⟨d, -, rfl⟩ := List.mem_map.1 hi
      exact declaration_reads d
    · obtain ⟨d, -, rfl⟩ := List.mem_map.1 hi
      exact ⟨_, _, rfl, trivial, by simp [Reads.Opens]⟩
  rw [List.flatMap_map, List.flatMap_map, ← List.map_eq_flatMap] at rows
  rw [Outline.tokensAll_eq, List.flatMap_map]
  apply Reads.skipNewlines (.cons (by decide))
  refine .skip? rfl (by decide) ?_
  exact rows

def meaning (change : Amendment) (r : Routine) : Routine := (change r).unlocated

def openers : List Kind := [.expects, .returns, .declare, .doWord]

structure IsSection (ts : List Token) (effect : Routine → Routine) : Prop where
  opens : ∃ w us, ts = w :: us ∧ w.kind ∈ openers
  reads : Reads (Option.map meaning) section? ts (some fun r => effect r.unlocated) Any

theorem section_expects (x : TypedName) (xs : List TypedName) :
    IsSection (.word .expects :: (tokens (x.pieces ++ listed (xs.map (·.pieces))) ++ [.newline]))
      ({ · with parameters := (x :: xs).map (·.unlocated) }) := by
  refine ⟨⟨_, _, rfl, by decide⟩, .peek fun _ => .discard (.advance (by decide) fun _ => ?_)⟩
  apply Reads.bind (parameters_reads x xs) rfl
  intro ps hps
  refine .endLine ?_
  rw [← hps]
  rfl

theorem section_returns (x : TypedName) :
    IsSection (.word .returns :: (tokens x.pieces ++ [.newline]))
      ({ · with returns := some x.unlocated }) := by
  refine ⟨⟨_, _, rfl, by decide⟩, .peek fun _ => .discard (.advance (by decide) fun _ => ?_)⟩
  apply Reads.bind (returned_reads x) rfl
  intro r hr
  refine .endLine ?_
  rw [← hr]
  rfl

theorem section_declare (ds : List Declaration) :
    IsSection (.word .declare :: .newline :: .indent ::
        (Outline.tokensAll (ds.map fun d => .line d.pieces []) ++ [.dedent]))
      ({ · with declarations := ds.map (·.unlocated) }) := by
  refine ⟨⟨_, _, rfl, by decide⟩, .peek fun _ => .discard (.advance (by decide) fun _ => ?_)⟩
  apply Reads.expectEndOfLine
  apply Reads.last (declarations_reads ds) fun _ _ => trivial
  intro found hfound
  refine .pure ?_
  rw [← hfound]
  rfl

variable {spell : Expression.Numerals} {body : List Statement}

theorem section_do (h : Statement.Parser.Block spell Statement.Parser.statement body) :
    IsSection (.word .doWord :: Statement.Parser.under spell body)
      ({ · with hasDo := true, body := Statement.unlocatedAll body }) := by
  refine ⟨⟨_, _, rfl, by decide⟩, .peek fun _ => .discard (.advance (by decide) fun _ => ?_)⟩
  apply Reads.expectEndOfLine
  apply Reads.last (h.reads _) fun _ _ => trivial
  intro found hfound
  refine .pure ?_
  rw [← hfound]
  rfl

inductive Effects {σ : Type} (item : List Token → (σ → σ) → Prop) :
    List Outline → (σ → σ) → Prop
  | nil : Effects item [] id
  | cons {o : Outline} {os : List Outline} {f g : σ → σ} (first : item o.tokens f)
      (rest : Effects item os g) : Effects item (o :: os) (g ∘ f)

namespace Effects

variable {σ τ γ : Type} {item : List Token → (σ → σ) → Prop} {os us : List Outline} {f g : σ → σ}

theorem one {o : Outline} (h : item o.tokens f) : Effects item [o] f :=
  Effects.cons (g := id) h .nil

theorem append (h : Effects item os f) (h' : Effects item us g) :
    Effects item (os ++ us) (g ∘ f) := by
  induction h with
  | nil => exact h'
  | @cons o os f₁ f₂ first _ ih =>
    have both : Effects item (o :: (os ++ us)) ((g ∘ f₂) ∘ f₁) := .cons first ih
    exact both

theorem of_eq (h : Effects item os f) (same : ∀ s, f s = g s) : Effects item os g :=
  funext same ▸ h

theorem lift {item' : List Token → (τ → τ) → Prop} (on : (σ → σ) → τ → τ) (id_ : on id = id)
    (comp : ∀ f g, on (g ∘ f) = on g ∘ on f) (each : ∀ ts f, item ts f → item' ts (on f))
    (h : Effects item os f) : Effects item' os (on f) := by
  induction h with
  | nil =>
    rw [id_]
    exact .nil
  | cons first _ ih =>
    rw [comp]
    exact .cons (each _ _ first) ih

structure IsLine (line : Reader (List γ)) (apply : σ → γ → σ) (erase : σ → σ) (ts : List Token)
    (effect : σ → σ) : Prop where
  opens : ∃ w us, ts = w :: us ∧ Reads.Opens w.kind
  reads : Reads (List.map fun c s => erase (apply s c)) line ts [fun s => effect (erase s)] Any

theorem lines {line : Reader (List γ)} {apply : σ → γ → σ} {erase : σ → σ}
    (h : Effects (IsLine line apply erase) os f) :
    Reads (fun cs s => erase (cs.foldl apply s)) (Reader.lines line)
      (Outline.tokensAll os ++ [.dedent]) (fun s => f (erase s)) Any := by
  have split : ∃ items : List (List Token × List (σ → σ)),
      Outline.tokensAll os = items.flatMap (·.1) ∧
      (∀ i ∈ items, Reads (List.map fun c s => erase (apply s c)) line i.1 i.2 Any) ∧
      (∀ i ∈ items, ∃ w us, i.1 = w :: us ∧ Any w.kind ∧ Reads.Opens w.kind) ∧
      ∀ cs : List γ, (cs.map fun c s => erase (apply s c)) = items.flatMap (·.2) →
        ∀ s, erase (cs.foldl apply s) = f (erase s) := by
    -- One induction for the rows and their effect, since the effect is about the same rows.
    induction h with
    | nil => exact ⟨[], rfl, by simp, by simp, fun cs hc s => by simp_all⟩
    | @cons o os f g first _ ih =>
      obtain ⟨items, same, reads, opens, whole⟩ := ih
      obtain ⟨w, us, e, starts⟩ := first.opens
      refine ⟨(o.tokens, [fun s => f (erase s)]) :: items, ?_, ?_, ?_, fun cs hc s => ?_⟩
      · rw [Outline.tokensAll, same, List.flatMap_cons]
      · exact List.forall_mem_cons.2 ⟨first.reads, reads⟩
      · exact List.forall_mem_cons.2 ⟨⟨w, us, e, trivial, starts⟩, opens⟩
      · rw [List.flatMap_cons, List.singleton_append, List.map_eq_cons_iff] at hc
        obtain ⟨c, cs, rfl, hc, rest⟩ := hc
        rw [List.foldl_cons, whole cs rest, show erase (apply s c) = f (erase s) from congrFun hc s]
        rfl
  obtain ⟨items, same, reads, opens, whole⟩ := split
  rw [same]
  exact (Reads.lines items reads opens trivial).change fun cs hc => funext (whole cs hc)

end Effects

def expecting (xs : List TypedName) (r : Routine) : Routine :=
  if xs.isEmpty then r else { r with parameters := xs.map (·.unlocated) }

def returning (x : Option TypedName) (r : Routine) : Routine :=
  if x.isNone then r else { r with returns := x.map (·.unlocated) }

def declaring (ds : List Declaration) (r : Routine) : Routine :=
  if ds.isEmpty then r else { r with declarations := ds.map (·.unlocated) }

def doing (body : List Statement) (r : Routine) : Routine :=
  { r with hasDo := true, body := Statement.unlocatedAll body }

def heading (r : Routine) : Routine → Routine :=
  (declaring r.declarations ∘ returning r.returns) ∘ expecting r.parameters

def filling (r : Routine) : Routine → Routine := doing r.body ∘ heading r

theorem filling_eq {r : Routine} (h : r.hasDo = true) :
    filling r { name := r.name } = r.unlocated := by
  obtain ⟨l, name, parameters, returns, declarations, hasDo, body⟩ := r
  cases parameters <;> cases returns <;> cases declarations <;>
    simp_all [filling, heading, doing, declaring, returning, expecting, Routine.unlocated,
      Statement.unlocatedAll_eq]

theorem expects_effects (xs : List TypedName) :
    Effects IsSection (expectsOutlines xs) (expecting xs) := by
  cases xs with
  | nil => exact .nil
  | cons x xs =>
    apply Effects.one
    exact section_expects x xs

theorem returns_effects (x : Option TypedName) :
    Effects IsSection (returnsOutlines x) (returning x) := by
  cases x with
  | none => exact .nil
  | some x =>
    apply Effects.one
    exact section_returns x

theorem declare_effects (ds : List Declaration) :
    Effects IsSection (declareOutlines ds) (declaring ds) := by
  cases ds with
  | nil => exact .nil
  | cons d ds =>
    apply Effects.one
    rw [Outline.tokens_block _ (by simp)]
    exact section_declare (d :: ds)

theorem head_effects (r : Routine) : Effects IsSection r.headOutlines (heading r) :=
  (expects_effects r.parameters).append
    ((returns_effects r.returns).append (declare_effects r.declarations))

theorem do_effects {r : Routine} (h : Printed spell r) :
    Effects IsSection (doOutlines spell r.body) (doing r.body) := by
  have block_ := Statement.Parser.block_of_each h.filled h.body fun s hs =>
    Statement.Parser.statement_reads (h.body s hs)
  apply Effects.one
  rw [Outline.tokens_block _ block_.filled]
  exact section_do block_

theorem opens_of_opener {x : Kind} (h : x ∈ openers) : Reads.Opens x := by
  have all : ∀ x ∈ openers, x ≠ .newline ∧ (x == .dedent || x == .endOfFile) = false := by decide
  exact all x h

theorem riserLine_reads {ts : List Token} {f : Routine → Routine} (h : IsSection ts f) :
    Effects.IsLine riserLine (fun r change => change r) unlocated ts f := by
  obtain ⟨⟨w, us, rfl, first⟩, reads⟩ := h
  refine ⟨⟨w, us, rfl, opens_of_opener first⟩, ?_⟩
  apply Reads.beginLine
  apply Reads.last reads fun _ hx => hx
  intro o ho
  obtain ⟨change, rfl, made⟩ := Option.map_eq_some_iff.1 ho
  exact .pure (by rw [← made]; rfl)

theorem missingDo_reads {α : Type} {β : Sort u} {m : α → β} {g : Unit → Reader α} {ts : List Token}
    {b : β} {k : Kind → Prop} {r : Routine} (hr : r.hasDo = true)
    (h : Reads m (g ()) ts b k) : Reads m (missingDo r >>= g) ts b k := by
  have nothing_ : missingDo r = pure () := by simp [missingDo, hr]
  rw [nothing_, pure_bind]
  exact h

theorem riser_reads {r : Routine} (l : Location) (h : r.printable spell = true) :
    Reads (Option.map unlocated) (riser l)
      (nameToken r.name :: .newline :: .indent ::
        (Outline.tokensAll (r.headOutlines ++ doOutlines spell r.body) ++ [.dedent]))
      (some r.unlocated) Any := by
  have rows : Effects (Effects.IsLine riserLine (fun r change => change r) unlocated)
      (r.headOutlines ++ doOutlines spell r.body) (filling r) :=
    ((head_effects r).append (do_effects (printed h))).lift id rfl (fun _ _ => rfl) fun _ _ =>
      riserLine_reads
  have hasDo := (printed h).hasDo
  apply Reads.expectName
  intro l'
  apply Reads.expectEndOfLine
  apply Reads.skipNewlines (.cons (by decide))
  refine .skip? rfl (by decide) ?_
  apply Reads.last rows.lines fun _ hx => hx
  intro changes made
  let found : Routine := changes.foldl (fun r change => change r) { location := l, name := r.name }
  have same : found.unlocated = r.unlocated := (congrFun made _).trans (filling_eq hasDo)
  have done_ : found.hasDo = true := (congrArg Routine.hasDo same).trans hasDo
  exact missingDo_reads done_ (.pure (congrArg some same))

def extend (p : Step × Bool) (part : StepPart) : Step × Bool :=
  (part.apply p.1, p.2 || part.namesFloor)

def bare (p : Step × Bool) : Step × Bool := (p.1.unlocated, p.2)

theorem foldl_extend (parts : List StepPart) (p : Step × Bool) :
    parts.foldl extend p =
      (parts.foldl StepPart.apply p.1, p.2 || parts.any StepPart.namesFloor) := by
  induction parts generalizing p with
  | nil => simp
  | cons part parts ih => simp [ih, extend, Bool.or_assoc]

def onStep (f : Routine → Routine) (p : Step × Bool) : Step × Bool :=
  ({ p.1 with toRoutine := f p.1.toRoutine }, p.2)

theorem bare_amend {change : Amendment} {f : Routine → Routine}
    (made : meaning change = fun r => f r.unlocated) (p : Step × Bool) :
    bare (extend p (.amend change)) = onStep f (bare p) := by
  have same : (change p.1.toRoutine).unlocated = f p.1.toRoutine.unlocated :=
    congrFun made p.1.toRoutine
  simp [bare, extend, onStep, StepPart.apply, StepPart.namesFloor, Step.unlocated, same]

theorem stepLine_section {ts : List Token} {f : Routine → Routine} (h : IsSection ts f) :
    Effects.IsLine stepLine extend bare ts (onStep f) := by
  obtain ⟨⟨w, us, rfl, first⟩, reads⟩ := h
  refine ⟨⟨w, us, rfl, opens_of_opener first⟩, ?_⟩
  apply Reads.beginLine
  apply Reads.peek
  intro l
  split
  · next e => simp [show w.kind = .belongsTo from e, openers] at first
  · next e => simp [show w.kind = .riser from e, openers] at first
  · apply Reads.last reads fun _ hx => hx
    intro o ho
    obtain ⟨change, rfl, made⟩ := Option.map_eq_some_iff.1 ho
    exact .pure (congrArg ([·]) (funext (bare_amend made)))

theorem stepLine_floor (x : Bytes) :
    Effects.IsLine stepLine extend bare [.word .belongsTo, nameToken x, .newline]
      fun p => ({ p.1 with floor := x, floorLocation := {} }, true) := by
  refine ⟨⟨_, _, rfl, by simp [Reads.Opens, Token.word]⟩, ?_⟩
  apply Reads.beginLine
  apply Reads.peek
  intro l
  apply Reads.advance (by decide)
  intro l'
  apply Reads.expectName
  intro l''
  refine .endLine ?_
  refine congrArg ([·]) (funext fun p => ?_)
  simp [bare, extend, StepPart.apply, StepPart.namesFloor, Step.unlocated]

theorem stepLine_riser {r : Routine} (h : r.printable spell = true) :
    Effects.IsLine stepLine extend bare (r.riserOutline spell).tokens
      fun p => ({ p.1 with risers := p.1.risers ++ [r.unlocated] }, p.2) := by
  have same : (r.riserOutline spell).tokens = .word .riser :: nameToken r.name :: .newline ::
      .indent :: (Outline.tokensAll (r.headOutlines ++ doOutlines spell r.body) ++ [.dedent]) := by
    rw [riserOutline, Outline.tokens_block _ (by simp [doOutlines])]
    rfl
  rw [same]
  refine ⟨⟨_, _, rfl, by simp [Reads.Opens, Token.word]⟩, ?_⟩
  apply Reads.beginLine
  apply Reads.peek
  intro l
  apply Reads.advance (by decide)
  intro l'
  apply Reads.last (riser_reads _ h) fun _ _ => trivial
  intro o ho
  obtain ⟨found, rfl, made⟩ := Option.map_eq_some_iff.1 ho
  refine .pure (congrArg ([·]) (funext fun p => ?_))
  simp [bare, extend, StepPart.apply, StepPart.namesFloor, Step.unlocated, made]

theorem risers_effects (rs : List Routine) (h : ∀ r ∈ rs, r.printable spell = true) :
    Effects (Effects.IsLine stepLine extend bare) (rs.map (·.riserOutline spell))
      fun p => ({ p.1 with risers := p.1.risers ++ rs.map (·.unlocated) }, p.2) := by
  induction rs with
  | nil => exact Effects.nil.of_eq fun p => by simp
  | cons r rs ih =>
    have both := Effects.cons (stepLine_riser (h r (by simp))) (ih fun r hr => h r (by simp [hr]))
    exact both.of_eq fun p => by simp

def fillingStep (s : Step) (p : Step × Bool) : Step × Bool :=
  ({ toRoutine := filling s.toRoutine p.1.toRoutine, floor := s.floor, floorLocation := {},
     risers := p.1.risers ++ s.risers.map (·.unlocated) }, true)

theorem step_effects {s : Step} (h : s.printable spell = true) :
    Effects (Effects.IsLine stepLine extend bare)
      (.line (clause .belongsTo [.name s.floor]) [] ::
        (s.headOutlines ++ (s.risers.map (·.riserOutline spell) ++ doOutlines spell s.body)))
      (fillingStep s) := by
  simp only [Step.printable, Bool.and_eq_true, List.all_eq_true] at h
  have head : Effects (Effects.IsLine stepLine extend bare) s.headOutlines
      (onStep (heading s.toRoutine)) :=
    (head_effects s.toRoutine).lift onStep rfl (fun _ _ => rfl) fun _ _ => stepLine_section
  have body : Effects (Effects.IsLine stepLine extend bare) (doOutlines spell s.body)
      (onStep (doing s.body)) :=
    (do_effects (printed h.1.1)).lift onStep rfl (fun _ _ => rfl) fun _ _ => stepLine_section
  have all := Effects.cons (o := .line (clause .belongsTo [.name s.floor]) [])
    (stepLine_floor s.floor) (head.append ((risers_effects s.risers h.2).append body))
  exact all.of_eq fun p => rfl

theorem header_reads {k : Kind} {keyword : Bytes} (x : Bytes) (hk : k ≠ .endOfFile)
    (hn : k ≠ .newline) :
    Reads (Option.map fun h => (h.2.1, h.2.2)) (header k keyword)
      [.word k, nameToken x, .newline] (some (x, true)) Any := by
  apply Reads.beginLine
  apply Reads.skipNewlines (.cons hn)
  refine .expect rfl hk fun l => ?_
  apply Reads.expectName
  intro l'
  apply Reads.expectEndOfLine
  exact .pure rfl

theorem openFile_reads {keyword : Bytes} : Reads id (openFile keyword) [.indent] true Any := by
  apply Reads.skipNewlines (.cons (by decide))
  refine .skip? rfl (by decide) ?_
  exact .pure rfl

theorem fillingStep_eq {s : Step} (h : s.hasDo = true) :
    fillingStep s ({ name := s.name }, false) = (s.unlocated, true) := by
  have same := filling_eq h
  simp only [fillingStep, same]
  rfl

theorem step_reads {s : Step} (h : s.printable spell = true) :
    Reads (Option.map Step.unlocated) step (Outline.tokensAll (s.outlines spell))
      (some s.unlocated) Any := by
  have effects := step_effects h
  have hasDo : s.hasDo = true := by
    simp only [Step.printable, Bool.and_eq_true] at h
    exact (printed h.1.1).hasDo
  have same : Outline.tokensAll (s.outlines spell) =
      [.word .step, nameToken s.name, .newline] ++ ([.indent] ++
        (Outline.tokensAll (.line (clause .belongsTo [.name s.floor]) [] ::
          (s.headOutlines ++ (s.risers.map (·.riserOutline spell) ++
            doOutlines spell s.body))) ++ [.dedent])) := by
    rw [Step.outlines, Outline.tokensAll, Outline.tokens_block _ (by simp)]
    simp [clause, Outline.tokensAll]
  rw [same]
  apply Reads.bind (header_reads s.name (by decide) (by decide)) (Reads.next_any _ _)
  intro o ho
  obtain ⟨⟨l, name, whole⟩, rfl, made⟩ := Option.map_eq_some_iff.1 ho
  obtain ⟨rfl, rfl⟩ := Prod.mk.inj made
  apply Reads.bind openFile_reads (Reads.next_any _ _)
  rintro r rfl
  apply Reads.last effects.lines fun _ hx => hx
  intro parts made
  let found : Step := parts.foldl StepPart.apply { location := l, name := s.name }
  have whole : bare (found, parts.any StepPart.namesFloor) = (s.unlocated, true) :=
    calc bare (found, parts.any StepPart.namesFloor)
        = bare (parts.foldl extend ({ location := l, name := s.name }, false)) := by
          rw [foldl_extend, Bool.false_or]
      _ = fillingStep s ({ name := s.name }, false) := congrFun made _
      _ = (s.unlocated, true) := fillingStep_eq hasDo
  obtain ⟨step_, floor⟩ := Prod.mk.inj whole
  have done_ : found.hasDo = true := by
    have there := congrArg (fun t : Step => t.hasDo) step_
    exact there.trans hasDo
  have last : Reads (Option.map Step.unlocated)
      (missingDo found.toRoutine >>= fun _ => pure (some found)) [] (some s.unlocated) Any :=
    missingDo_reads done_ (.pure (congrArg some step_))
  have floor_ : (!parts.any StepPart.namesFloor) = false := by
    rw [show parts.any StepPart.namesFloor = true from floor]
    rfl
  simp only [floor_]
  exact last

end Routine.Parser

end StepsLang

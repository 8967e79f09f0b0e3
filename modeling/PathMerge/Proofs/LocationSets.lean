/-
  PathMerge.Proofs.LocationSets — sets of locations, where a summary may be any of its branches.

  `Context.Chooses` is about evaluations that take a summary for one of its branches, whatever the guards are.
  Evaluation by the guards is one of them (`chooses_eval`), but simplification is right for the guards only: it
  may drop a branch that another evaluation takes. What it does to a union of single locations is looked at term
  by term instead. The objects and fields of the locations are simplified before, so they stay; and no law of
  unions drops a part that has elements (`LocationSet.simplify`).
-/

import PathMerge.Proofs.Uniform

namespace PathMerge

open Context ContextM

variable {ctx ctx' : Context} {I : Interpretation} {v : Valuation} {ev : Handle → Option Value}

/-! ## Taking any branch -/

/-- The value of an expression, where a summary may have the value of any of its branches. -/
structure Context.Chooses (ctx : Context) (I : Interpretation) (v : Valuation) (ev : Handle → Option Value) : Prop where
  node : ∀ {h n}, ctx.pool.node? h = some n → h.negated = false → (∀ bs, n ≠ .summary bs) →
    ev h = n.value (ctx.meaning I v) ev
  summary : ∀ {h bs x}, ctx.pool.node? h = some (.summary bs) → h.negated = false → ev h = some x →
    ∃ b ∈ bs, ev b.2 = some x
  negated : ∀ {h}, ctx.Has h → h.negated = false → ev (-h) = complement? (ev h)

/-- The guards choose, too. -/
theorem Context.chooses_eval (hc : ctx.Sound) (I : Interpretation) (v : Valuation) :
    ctx.Chooses I v (ctx.eval I v) where
  node hn sign _ := Pool.eval_node hc.pool hn sign
  summary {h bs x} hn sign value := by
    unfold Context.eval at value
    rw [Pool.eval_summary hc.pool hn sign] at value
    obtain ⟨l, r, split, _⟩ := pick_eq_some.mp value
    obtain ⟨b, hb, same⟩ := List.mem_map.mp (split ▸ List.mem_append_right l List.mem_cons_self)
    exact ⟨b, hb, congrArg Prod.snd same⟩
  negated has sign := Pool.eval_negated hc.pool has sign

namespace Context.Chooses

variable {op : Operation} {args : List Handle} {h : Handle}

theorem applies (chooses : ctx.Chooses I v ev) (app : ctx.Applies op args h) :
    ev h = (args.mapM ev).bind (op.apply I) := by
  obtain ⟨f, names, node⟩ := app.node
  rw [chooses.node node app.sign (fun bs same => by cases same)]
  show (args.mapM ev).bind ((ctx.meaning I v).apply f) = _
  rw [funext names.apply]

theorem symbol (chooses : ctx.Chooses I v ev) {x : SymbolId} (stands : Stands ctx x h) : ev h = some (v x) :=
  chooses.node stands.node stands.sign fun bs same => by cases same

end Context.Chooses

/-- An application is one of one operation only. -/
theorem Context.Applies.same {op op' : Operation} {args args' : List Handle} {h : Handle} (a : ctx.Applies op args h)
    (b : ctx.Applies op' args' h) : op = op' ∧ args = args' := by
  obtain ⟨f, names, node⟩ := a.node
  obtain ⟨g, names', node'⟩ := b.node
  obtain ⟨rfl, rfl⟩ := Node.app.inj (Option.some.inj (node.symm.trans node'))
  have same := Option.some.inj (Eq.trans (Eq.symm names) names')
  simp only [Symbol.mk.injEq, SymbolKind.function.injEq] at same
  have found := operationOf?_decl op
  rw [same.1, same.2.2.2, operationOf?_decl] at found
  exact ⟨(Option.some.inj found).symm, rfl⟩

/-! ## Unions of single locations -/

/-- A location set built from single locations with simplified objects and fields. -/
inductive Context.LocationSet (ctx : Context) : Handle → Prop
  | empty {h : Handle} (app : ctx.Applies (.location .empty) [] h) : LocationSet ctx h
  | all {h : Handle} (app : ctx.Applies (.location .allLocs) [] h) : LocationSet ctx h
  | single {h object field : Handle} (app : ctx.Applies (.location .singleton) [object, field] h)
      (simple : ctx.Normal object)
      (simple' : ctx.Normal field) : LocationSet ctx h
  | union {h a b : Handle} (app : ctx.Applies (.location .union) [a, b] h) (left : LocationSet ctx a)
      (right : LocationSet ctx b) : LocationSet ctx h

/-- The location is an element of the set. -/
inductive Context.Element (ctx : Context) (ev : Handle → Option Value) (o : Scalar) (f : Selector) : Handle → Prop
  | all {h : Handle} (app : ctx.Applies (.location .allLocs) [] h) : Element ctx ev o f h
  | single {h object field : Handle} (app : ctx.Applies (.location .singleton) [object, field] h)
      (atObject : ev object = some (.scalar o)) (atField : ev field = some (.selector f)) : Element ctx ev o f h
  | left {h a b : Handle} (app : ctx.Applies (.location .union) [a, b] h) (inside : Element ctx ev o f a) :
      Element ctx ev o f h
  | right {h a b : Handle} (app : ctx.Applies (.location .union) [a, b] h) (inside : Element ctx ev o f b) :
      Element ctx ev o f h

def Context.Gathers (ctx : Context) (h : Handle) (ctx' : Context) (k : Handle) : Prop :=
  ∀ ev o f, ctx.Element ev o f h → ctx'.Element ev o f k

section

variable {h k : Handle} {o : Scalar} {f : Selector}

theorem Context.LocationSet.later (later : ctx.Later ctx') (tidy : ctx'.pool.Tidy) (set : ctx.LocationSet h) :
    ctx'.LocationSet h := by
  induction set with
  | empty app => exact .empty (app.extends later.extends)
  | all app => exact .all (app.extends later.extends)
  | single app simple simple' =>
    exact .single (app.extends later.extends) (simple.later later tidy) (simple'.later later tidy)
  | union app _ _ left right => exact .union (app.extends later.extends) left right

theorem Context.LocationSet.has (set : ctx.LocationSet h) : ctx.Has h := by
  cases set <;> exact Applies.has (by assumption)

theorem Context.Element.extends (e : ctx.Extends ctx') (element : ctx.Element ev o f h) : ctx'.Element ev o f h := by
  induction element with
  | all app => exact .all (app.extends e)
  | single app atObject atField => exact .single (app.extends e) atObject atField
  | left app _ ih => exact .left (app.extends e) ih
  | right app _ ih => exact .right (app.extends e) ih

theorem Context.Gathers.trans {c c' : Context} {x : Handle} (into : ctx.Gathers h c k) (into' : c.Gathers k c' x) :
    ctx.Gathers h c' x :=
  fun ev o f inside => into' ev o f (into ev o f inside)

theorem Context.Later.gathers (later : ctx.Later ctx') (h : Handle) : ctx.Gathers h ctx' h :=
  fun _ _ _ inside => inside.extends later.extends

theorem Context.Element.not_empty (app : ctx.Applies (.location .empty) [] h) : ¬ ctx.Element ev o f h := by
  rintro (other | ⟨other, _, _⟩ | ⟨other, _⟩ | ⟨other, _⟩) <;> cases (app.same other).1

theorem Context.element_single {object field : Handle} (app : ctx.Applies (.location .singleton) [object, field] h) :
    ctx.Element ev o f h ↔ ev object = some (.scalar o) ∧ ev field = some (.selector f) := by
  constructor
  · rintro (other | ⟨other, atObject, atField⟩ | ⟨other, _⟩ | ⟨other, _⟩)
    · cases (app.same other).1
    · cases (app.same other).2
      exact ⟨atObject, atField⟩
    · cases (app.same other).1
    · cases (app.same other).1
  · exact fun ⟨atObject, atField⟩ => .single app atObject atField

theorem Context.element_union {a b : Handle} (app : ctx.Applies (.location .union) [a, b] h) :
    ctx.Element ev o f h ↔ ctx.Element ev o f a ∨ ctx.Element ev o f b := by
  constructor
  · rintro (other | ⟨other, _, _⟩ | ⟨other, inside⟩ | ⟨other, inside⟩)
    · cases (app.same other).1
    · cases (app.same other).1
    · cases (app.same other).2
      exact .inl inside
    · cases (app.same other).2
      exact .inr inside
  · exact fun inside => inside.elim (.left app) (.right app)

/-- Wherever both parts of a union go, the union goes. -/
theorem Context.Gathers.union {a b : Handle} (app : ctx.Applies (.location .union) [a, b] h)
    (left : ctx.Gathers a ctx' k) (right : ctx.Gathers b ctx' k) : ctx.Gathers h ctx' k :=
  fun ev o f inside => ((element_union app).mp inside).elim (left ev o f) (right ev o f)

theorem mapM_pair {a b : Handle} {x y : Value} (h : [a, b].mapM ev = some [x, y]) : ev a = some x ∧ ev b = some y := by
  obtain ⟨_, _, here, rest, same⟩ := mapM_cons_eq_some.mp h
  obtain ⟨_, _, there, _, same'⟩ := mapM_cons_eq_some.mp rest
  cases same
  cases same'
  exact ⟨here, there⟩

theorem LocFunction.of_singleton {xs : List Value} {x : Value} (h : singleton.apply xs = some x) :
    ∃ o s, xs = [.scalar o, .selector s] ∧ x = .locations fun o' s' => o' = o ∧ s' = s := by
  unfold apply at h
  split at h <;> first | cases h; done | (cases h; exact ⟨_, _, rfl, rfl⟩) | contradiction

/-- The elements are those of the set that the expression denotes, if it denotes one. -/
theorem Context.LocationSet.mem_iff (chooses : ctx.Chooses I v ev) (set : ctx.LocationSet h)
    {member : Scalar → Selector → Bool} (value : ev h = some (.locations member)) :
    member o f = true ↔ ctx.Element ev o f h := by
  induction set generalizing member with
  | empty app =>
    rw [chooses.applies app] at value
    cases value
    exact ⟨fun no => absurd no Bool.false_ne_true, fun inside => absurd inside (Element.not_empty app)⟩
  | all app =>
    rw [chooses.applies app] at value
    cases value
    exact ⟨fun _ => .all app, fun _ => rfl⟩
  | single app =>
    rw [chooses.applies app] at value
    obtain ⟨xs, operands, value⟩ := Option.bind_eq_some_iff.mp value
    obtain ⟨o', s', rfl, same⟩ := LocFunction.of_singleton value
    cases same
    obtain ⟨atObject, atField⟩ := mapM_pair operands
    rw [element_single app, atObject, atField, decide_eq_true_iff]
    constructor
    · rintro ⟨rfl, rfl⟩
      exact ⟨rfl, rfl⟩
    · rintro ⟨same, same'⟩
      cases same
      cases same'
      exact ⟨rfl, rfl⟩
  | union app _ _ left right =>
    rw [chooses.applies app] at value
    obtain ⟨xs, operands, value⟩ := Option.bind_eq_some_iff.mp value
    obtain ⟨m, m', rfl, same⟩ := LocFunction.of_union value
    cases same
    obtain ⟨here, there⟩ := mapM_pair operands
    rw [element_union app, ← left here, ← right there, Bool.or_eq_true]

end

/-! ## Simplification -/

/-- The operands are simplified, a law is tried if the context has any, and what it yields is simplified in turn. -/
theorem Context.Applies.returns_plain {g : LocFunction} {args : List Handle} {h k : Handle} {depth : Nat}
    (app : ctx.Applies (.location g) args h) (ret : Returns (plainWithin (depth + 1) h) ctx k ctx') :
    ∃ f args' c₁ r c₂, ctx.Names (.location g) f ∧ ctx.pool.node? h = some (.app f args) ∧
      Returns (args.mapM (plainWithin depth)) ctx args' c₁ ∧ Returns (ContextM.rewrite f args') c₁ r c₂ ∧
      Returns (match r with | some x => plainWithin depth x | none => ContextM.apply f args') c₂ k ctx' := by
  obtain ⟨f, names, node⟩ := app.node
  have regular : h.regular = h := by
    conv => rhs; rw [eq_signed_regular h, app.sign]
    rfl
  obtain ⟨n, c, asked, ret⟩ := returns_of_bind ret
  obtain ⟨found, rfl⟩ := Prod.mk.inj ((asking_run _ ctx).symm.trans asked)
  have found : ctx.pool.node? h.regular = some n := InternTable.value_eq_ok.mp found
  rw [regular, node] at found
  cases found
  obtain ⟨result, c, rebuilt, ret⟩ := returns_of_bind ret
  cases ret
  obtain ⟨args', c₁, operands, rebuilt⟩ := returns_of_bind rebuilt
  obtain ⟨r, c₂, rewritten, rebuilt⟩ := returns_of_bind rebuilt
  refine ⟨f, args', c₁, r, c₂, names, node, operands, rewritten, ?_⟩
  rw [app.sign]
  cases r <;> exact rebuilt

/-- A location operation is either left alone or rewritten by the law of its theory. -/
theorem Context.Names.returns_rewrite {g : LocFunction} {f : SymbolId} {args : List Handle} {r : Option Handle}
    (names : ctx.Names (.location g) f) (ret : Returns (ContextM.rewrite f args) ctx r ctx') :
    r = none ∧ ctx' = ctx ∨ Returns (Theory.Locations.law (some g) args) ctx r ctx' := by
  have named : ctx.symbolName f = .ok g.decl.name := symbolName_eq names
  have theory : ctx.theoryOf? f = .ok (ctx.theory? Theory.locations.name) := theoryOf?_eq names rfl
  obtain ⟨name, c, asked, ret⟩ := returns_of_bind ret
  obtain ⟨found, rfl⟩ := Prod.mk.inj ((asking_run _ ctx).symm.trans asked)
  cases named.symm.trans found
  obtain ⟨owner, c, asked, ret⟩ := returns_of_bind ret
  obtain ⟨found, rfl⟩ := Prod.mk.inj ((asking_run _ ctx).symm.trans asked)
  cases theory.symm.trans found
  cases installed : ctx.theory? Theory.locations.name with
  | none =>
    rw [installed] at ret
    cases ret
    exact .inl ⟨rfl, rfl⟩
  | some t =>
    have called := List.find?_some (p := fun t : Theory => t.name == Theory.locations.name) installed
    rw [installed] at ret
    cases t with
    | locations =>
      have known : LocFunction.ofName? g.decl.name = some g := by cases g <;> rfl
      have law : Returns (Theory.Locations.law (LocFunction.ofName? g.decl.name) args) ctx r ctx' := ret
      rw [known] at law
      exact .inr law
    | integers => exact absurd called (by decide)
    | heap => exact absurd called (by decide)

/-- The two constant sets are there when a law is tried. -/
theorem Theory.Locations.returns_law (hc : ctx.Sound) (provided : ctx.symbols.Provides .locations) {g : LocFunction}
    {args : List Handle} {r : Option Handle} (ret : Returns (law (some g) args) ctx r ctx') :
    ∃ empty all c, ctx.Later c ∧ c.Sound ∧ c.Applies (.location .empty) [] empty ∧
      c.Applies (.location .allLocs) [] all ∧
      Returns (match g with
        | .union => unionLaw empty all args
        | .elementOf => elementLaw empty all args
        | _ => pure none) c r ctx' := by
  obtain ⟨empty, c₁, none, ret⟩ := returns_of_bind ret
  obtain ⟨all, c₂, every, ret⟩ := returns_of_bind ret
  obtain ⟨e₁, hc₁, noLocations⟩ :=
    (call_yields hc (.location .empty) provided [] rfl (List.forall_mem_nil _)).of_returns none
  obtain ⟨e₂, hc₂, allLocations⟩ := (call_yields hc₁ (.location .allLocs) (provided.extends e₁.symbols) [] rfl
    (List.forall_mem_nil _)).of_returns every
  refine ⟨empty, all, c₂, ?_, hc₂, noLocations.extends e₂, allLocations, ?_⟩
  · exact ((call_straight _ _).of_returns none).later.trans ((call_straight _ _).of_returns every).later
  · cases g <;> exact ret

theorem plain_settles {depth : Nat} {h k : Handle} (hc : ctx.Sound) (has : ctx.Has h)
    (ret : Returns (plainWithin depth h) ctx k ctx') : ctx.Later ctx' ∧ ctx'.Sound ∧ ctx'.Normal k := by
  obtain ⟨later, sound, normal, _⟩ := simplifyWithin_settles depth ctx h hc has k ctx' ret
  exact ⟨later, sound, normal⟩

theorem Context.Normal.plain_unique {depth : Nat} {h k : Handle} (hc : ctx.Sound) (normal : ctx.Normal h)
    (ret : Returns (plainWithin depth h) ctx k ctx') : k = h ∧ ctx' = ctx :=
  plainWithin_unique ret (normal.plain hc (Nat.le_refl _))

theorem plain_operands {depth : Nat} {args args' : List Handle} (hc : ctx.Sound) (normal : ∀ a ∈ args, ctx.Normal a)
    (ret : Returns (args.mapM (plainWithin depth)) ctx args' ctx') : args' = args ∧ ctx' = ctx := by
  induction args generalizing args' ctx' with
  | nil =>
    cases ret
    exact ⟨rfl, rfl⟩
  | cons a args ih =>
    rw [List.mapM_cons] at ret
    obtain ⟨a', c, first, ret₁⟩ := returns_of_bind ret
    obtain ⟨rest, c', others, ret₂⟩ := returns_of_bind ret₁
    obtain ⟨rfl, rfl⟩ := (normal a List.mem_cons_self).plain_unique hc first
    obtain ⟨rfl, rfl⟩ := ih (fun b hb => normal b (List.mem_cons_of_mem _ hb)) others
    cases ret₂
    exact ⟨rfl, rfl⟩

namespace Context.LocationSet

variable {h k : Handle} {depth : Nat}

/-- No law is about a constant set or a single location, so nothing happens to it. -/
theorem plain_leaf (hc : ctx.Sound) (provided : ctx.symbols.Provides .locations) {g : LocFunction} {args : List Handle}
    (leaf : g ≠ .union ∧ g ≠ .elementOf) (app : ctx.Applies (.location g) args h) (normal : ∀ a ∈ args, ctx.Normal a)
    (ret : Returns (plainWithin (depth + 1) h) ctx k ctx') : k = h := by
  obtain ⟨f, args', c₁, r, c₂, names, node, operands, rewritten, ret⟩ := app.returns_plain ret
  obtain ⟨rfl, rfl⟩ := plain_operands hc normal operands
  have untouched : r = none ∧ c₁.Extends c₂ ∧ c₂.Sound := by
    rcases names.returns_rewrite rewritten with ⟨rfl, rfl⟩ | law
    · exact ⟨rfl, .refl _, hc⟩
    · obtain ⟨empty, all, c, later, hc', _, _, law⟩ := Theory.Locations.returns_law hc provided law
      cases g with
      | union => exact absurd rfl leaf.1
      | elementOf => exact absurd rfl leaf.2
      | empty | allLocs | singleton =>
        cases law
        exact ⟨rfl, later.extends, hc'⟩
  obtain ⟨rfl, e, hc₂⟩ := untouched
  exact (returns_unique ret (apply_found hc₂ (e.pool node) app.sign)).1

/-- A union is left alone, or one of its parts takes its place: the other one is empty, or the same, or all locations
are in this one. -/
theorem union_law (hc : ctx.Sound) (provided : ctx.symbols.Provides .locations) {f : SymbolId} {a b : Handle}
    {r : Option Handle} (names : ctx.Names (.location .union) f) (ha : ctx.LocationSet a) (hb : ctx.LocationSet b)
    (ret : Returns (ContextM.rewrite f [a, b]) ctx r ctx') :
    ctx.Later ctx' ∧ ctx'.Sound ∧ ∀ x, r = some x → ctx'.LocationSet x ∧ ctx.Gathers a ctx' x ∧
      ctx.Gathers b ctx' x := by
  rcases names.returns_rewrite ret with ⟨rfl, rfl⟩ | law
  · exact ⟨.refl _, hc, fun x made => by cases made⟩
  obtain ⟨empty, all, c, later, hc', none, every, law⟩ := Theory.Locations.returns_law hc provided law
  have ha := ha.later later hc'.pool.tidy
  have hb := hb.later later hc'.pool.tidy
  have keeps : ∀ x, ctx.Gathers x c x := later.gathers
  have vanishes : ∀ x, ctx.Gathers empty c x := fun x ev o f inside =>
    absurd (inside.extends later.extends) (Element.not_empty none)
  have absorbs : ∀ x, ctx.Gathers x c all := fun x ev o f _ => .all every
  have law : Returns (if a = empty ∨ a = b then pure (some b) else if b = empty then pure (some a)
    else if a = all ∨ b = all then pure (some all) else pure Option.none) c r ctx' := law
  split at law
  · rename_i left
    cases law
    refine ⟨later, hc', fun x made => ?_⟩
    cases made
    refine ⟨hb, ?_, keeps b⟩
    rcases left with rfl | rfl
    · exact vanishes b
    · exact keeps a
  · split at law
    · rename_i right
      cases law
      refine ⟨later, hc', fun x made => ?_⟩
      cases made
      exact ⟨ha, keeps a, right ▸ vanishes a⟩
    · split at law
      · cases law
        refine ⟨later, hc', fun x made => ?_⟩
        cases made
        exact ⟨.all every, absorbs a, absorbs b⟩
      · cases law
        exact ⟨later, hc', fun x made => by cases made⟩

/-- Simplifying a location set gives a location set with every element it had. -/
theorem plain (hc : ctx.Sound) (provided : ctx.symbols.Provides .locations) (set : ctx.LocationSet h)
    (ret : Returns (plainWithin depth h) ctx k ctx') : ctx'.LocationSet k ∧ ctx.Gathers h ctx' k := by
  induction depth generalizing ctx ctx' h k with
  | zero => cases ret
  | succ depth ih =>
    obtain ⟨later, hc', _⟩ := plain_settles hc set.has ret
    have same : k = h → ctx'.LocationSet k ∧ ctx.Gathers h ctx' k := by
      rintro rfl
      exact ⟨set.later later hc'.pool.tidy, later.gathers _⟩
    cases set with
    | empty app => exact same (plain_leaf hc provided (by decide) app (List.forall_mem_nil _) ret)
    | all app => exact same (plain_leaf hc provided (by decide) app (List.forall_mem_nil _) ret)
    | single app simple simple' => exact same (plain_leaf hc provided (by decide) app (by simp [simple, simple']) ret)
    | @union _ a b app left right =>
      obtain ⟨f, args', c₂, r, c₃, names, node, operands, rewritten, ret⟩ := app.returns_plain ret
      rw [List.mapM_cons, List.mapM_cons, List.mapM_nil] at operands
      obtain ⟨a', c₁, first, operands₁⟩ := returns_of_bind operands
      obtain ⟨rest, c, operands₂, returned⟩ := returns_of_bind operands₁
      obtain ⟨b', c', second, returned'⟩ := returns_of_bind operands₂
      cases returned'
      cases returned
      obtain ⟨later₁, hc₁, _⟩ := plain_settles hc left.has first
      obtain ⟨setA, gathersA⟩ := ih hc provided left first
      have right := right.later later₁ hc₁.pool.tidy
      obtain ⟨later₂, hc₂, _⟩ := plain_settles hc₁ right.has second
      obtain ⟨setB, gathersB⟩ := ih hc₁ (provided.extends later₁.symbols) right second
      have setA := setA.later later₂ hc₂.pool.tidy
      have provided₂ := (provided.extends later₁.symbols).extends later₂.symbols
      have names₂ := later₂.symbols.get (later₁.symbols.get names)
      obtain ⟨later₃, hc₃, made⟩ := union_law hc₂ provided₂ names₂ setA setB rewritten
      have gathers : ∀ {c : Context} {x : Handle}, c₂.Gathers a' c x → c₂.Gathers b' c x → ctx.Gathers h c x :=
        fun intoA intoB => .union app ((gathersA.trans (later₂.gathers _)).trans intoA)
          (((later₁.gathers _).trans gathersB).trans intoB)
      cases r with
      | some x =>
        obtain ⟨setX, intoA, intoB⟩ := made x rfl
        obtain ⟨result, gathersX⟩ := ih hc₃ (provided₂.extends later₃.symbols) setX ret
        exact ⟨result, (gathers intoA intoB).trans gathersX⟩
      | none =>
        have names₃ := later₃.symbols.get names₂
        obtain ⟨e₄, hc₄, sign, symbols, node⟩ := (apply_yields hc₃ names₃ rfl fun x hx => by
          rcases List.mem_cons.mp hx with rfl | hx
          · exact later₃.extends.has setA.has
          · exact List.mem_singleton.mp hx ▸ later₃.extends.has setB.has).of_returns ret
        have app' : ctx'.Applies (.location .union) [a', b'] k := ⟨sign, f, e₄.symbols.get names₃, node⟩
        have later₄ := later₃.trans ((apply_straight f [a', b']).of_returns ret).later
        refine ⟨.union app' (setA.later later₄ hc₄.pool.tidy) (setB.later later₄ hc₄.pool.tidy), gathers ?_ ?_⟩
        · exact fun ev o f inside => .left app' (inside.extends later₄.extends)
        · exact fun ev o f inside => .right app' (inside.extends later₄.extends)

/-- Simplification keeps a set one, and its elements in it. -/
theorem simplify (hc : ctx.Reliable) (provided : ctx.symbols.Provides .locations) (set : ctx.LocationSet h) :
    Uniform (ContextM.simplify h) ctx fun k c => c.LocationSet k ∧ ctx.Gathers h c k := by
  refine (simplify_uniform hc set.has).returned.mono ?_
  rintro k c _ hc' ⟨ret, _⟩
  obtain ⟨k', ref, plain, _, _, settled⟩ := simplify_settled hc set.has
  obtain ⟨c', ret', _, alike⟩ := settled ctx hc ⟨⟨rfl, rfl⟩, rfl, rfl⟩
  obtain ⟨rfl, rfl⟩ := returns_unique ret ret'
  obtain ⟨set', gathers⟩ := set.plain hc.sound provided plain
  have later := alike.symm.later
  exact ⟨set'.later later hc'.sound.pool.tidy, gathers.trans (later.gathers _)⟩

end Context.LocationSet

end PathMerge

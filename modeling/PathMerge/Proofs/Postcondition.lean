/-
  PathMerge.Proofs.Postcondition — the states after a statement, symbol by symbol.

  A state gives every symbol a value, not only the heap and the variables that a machine has. Here the values
  of all symbols are one whole: those in a machine, and beside them those of every other symbol
  (`Registry.values`). A statement takes such a whole to the next (`Statement.post`). At a return with a value the
  result symbol is overwritten, even where a variable shares it, so no symbol has to be left out.

  The rule of a statement does exactly that to the states it is carried out on (`Rule.apply_exact`). What the
  registry of a method names stays what it was when the context has grown meanwhile, and the states may bind
  symbols that were added since (`Registry.among`).
-/

import PathMerge.Proofs.Decided.Merge
import PathMerge.Proofs.Registered
import PathMerge.Proofs.Trail

namespace PathMerge

open Context

/-! ## The values of all symbols -/

namespace Registry

variable {r r' : Registry} {m : Machine} {σ : Valuation} {y : SymbolId} {x : String}

def localName? (r : Registry) (y : SymbolId) : Option String :=
  (r.locals.map (·.1)).find? fun x => r.locals.lookup x == some y

theorem localName?_eq_none : r.localName? y = none ↔ ∀ x, r.locals.lookup x ≠ some y := by
  unfold localName?
  rw [List.find?_eq_none]
  constructor
  · intro none x found
    obtain ⟨l, k, split, _⟩ := List.lookup_eq_some_iff.mp found
    exact none x (List.mem_map_of_mem (f := Prod.fst) (a := (x, y)) (by simp [split])) (by simp [found])
  · intro none x _ found
    exact none x (by simpa using found)

theorem Sound.localName?_eq_some (hr : r.Sound) (found : r.locals.lookup x = some y) : r.localName? y = some x := by
  cases named : r.localName? y with
  | none => exact absurd found (localName?_eq_none.mp named x)
  | some z =>
    have found' : r.locals.lookup z = some y := by simpa using List.find?_some named
    rw [hr.local_injective found found']

/-- The heap and the variables as they are in the machine, and every other symbol as it is in `σ`. -/
def values (r : Registry) (m : Machine) (σ : Valuation) : Valuation := fun y =>
  if y = Registry.heap then .heap m.heap else (r.localName? y).elim (σ y) fun x => .scalar (m.locals x)

theorem Sound.values_local (hr : r.Sound) (found : r.locals.lookup x = some y) :
    r.values m σ y = .scalar (m.locals x) := by
  obtain ⟨_, _, _, _, notHeap⟩ := hr.locals found
  unfold values
  rw [if_neg notHeap, hr.localName?_eq_some found, Option.elim_some]

theorem values_other (notHeap : y ≠ Registry.heap) (nameless : ∀ x, r.locals.lookup x ≠ some y) :
    r.values m σ y = σ y := by
  unfold values
  rw [if_neg notHeap, localName?_eq_none.mpr nameless, Option.elim_none]

def among (r r' : Registry) : Registry := { r' with locals := r.locals, result? := r.result? }

theorem Extends.among_sound (e : r.Extends r') (hr' : r'.Sound) : (r.among r').Sound :=
  ⟨hr'.heap, hr'.functions, fun found => hr'.locals (e.locals found), fun found => hr'.result (e.result found)⟩

theorem Extends.to_among (e : r.Extends r') : r.Extends (r.among r') := ⟨e.get, id, e.functions, id⟩

theorem Extends.from_among (e : r.Extends r') : (r.among r').Extends r' := ⟨id, e.locals, id, e.result⟩

end Registry

namespace State

variable {r : Registry} {ctx ctx' : Context} {I : Interpretation} {v σ : Valuation} {s : State} {m : Machine}

/-- The state gives every symbol its value in `σ`. -/
def Shows (ctx : Context) (I : Interpretation) (v : Valuation) (s : State) (σ : Valuation) : Prop :=
  ∀ y, s.store.eval ctx I v y = some (σ y)

theorem shows_extends (hc : ctx.Sound) (e : ctx.Extends ctx') (valid : s.Valid ctx) (shows : s.Shows ctx I v σ) :
    s.Shows ctx' I v σ := by
  intro y
  rw [eval_extends hc e valid]
  exact shows y

theorem shows_values_iff (hr : r.Sound) : s.Shows ctx I v (r.values m σ) ↔ s.Represents r ctx I v m ∧
    ∀ y, y ≠ Registry.heap → (∀ x, r.locals.lookup x ≠ some y) → s.store.eval ctx I v y = some (σ y) := by
  constructor
  · refine fun shows => ⟨⟨shows Registry.heap, fun {x id} found => ?_⟩, fun y notHeap nameless => ?_⟩
    · rw [shows id, hr.values_local found]
    · rw [shows y, Registry.values_other notHeap nameless]
  · rintro ⟨rep, others⟩ y
    by_cases isHeap : y = Registry.heap
    · subst isHeap
      exact rep.heap
    · by_cases named : ∃ x, r.locals.lookup x = some y
      · obtain ⟨x, found⟩ := named
        rw [rep.locals found, hr.values_local found]
      · have nameless := not_exists.mp named
        rw [others y isHeap nameless, Registry.values_other isHeap nameless]

end State

/-! ## Statements -/

namespace Statement

variable {r : Registry} {I : Interpretation} {e : Effect} {m : Machine} {σ σ' : Valuation} {stmt : Statement}
  {y : SymbolId}

/-- The values of all symbols after the statement. -/
def post (r : Registry) (I : Interpretation) (e : Effect) (m : Machine) (σ : Valuation) : Statement → Option Valuation
  | ret (some a) => r.result?.map fun y => Function.update (r.values m σ) y (.scalar (a.value m))
  | ret none | raise _ => some (r.values m σ)
  | stmt => (stmt.perform I e m).map (r.values · σ)

/-- Where a method goes on, at a return with a value, or at another end. -/
theorem post_eq_some (h : stmt.post r I e m σ = some σ') :
    (stmt.isTerminal = false ∧ ∃ m', stmt.perform I e m = some m' ∧ r.values m' σ = σ') ∨
      (∃ a y, stmt = .ret (some a) ∧ r.result? = some y ∧ Function.update (r.values m σ) y (.scalar (a.value m)) = σ') ∨
      (stmt.isTerminal = true ∧ (∀ a, stmt ≠ .ret (some a)) ∧ r.values m σ = σ') := by
  cases stmt with
  | ret value? =>
    cases value? with
    | some a =>
      obtain ⟨y, result, same⟩ := Option.map_eq_some_iff.mp h
      exact .inr (.inl ⟨a, y, rfl, result, same⟩)
    | none => exact .inr (.inr ⟨rfl, by simp, Option.some.inj h⟩)
  | raise value => exact .inr (.inr ⟨rfl, by simp, Option.some.inj h⟩)
  | _ => exact .inl ⟨rfl, Option.map_eq_some_iff.mp h⟩

theorem Binds.named_or_heap (goesOn : stmt.isTerminal = false) (binds : stmt.Binds r y) :
    y = Registry.heap ∨ ∃ x, r.locals.lookup x = some y := by
  rcases binds with ⟨x, _, found⟩ | ⟨_, isHeap⟩ | ⟨⟨a, rfl⟩, _⟩
  · exact .inr ⟨x, found⟩
  · exact .inl isHeap
  · cases goesOn

theorem Binds.result (terminal : stmt.isTerminal = true) (binds : stmt.Binds r y) :
    (∃ a, stmt = .ret (some a)) ∧ r.result? = some y := by
  cases stmt with
  | ret value? => simpa [Binds, defined?, changesHeap, isImpure] using binds
  | raise value => simp [Binds, defined?, changesHeap, isImpure] at binds
  | _ => cases terminal

theorem not_binds_branch {cond : Condition} {goal : Nat} : ¬ (branch cond goal).Binds r y := by
  simp [Binds, defined?, changesHeap, isImpure]

theorem edge_eq_zero (plain : ∀ cond goal, stmt ≠ .branch cond goal) (m : Machine) : stmt.edge m = 0 := by
  cases stmt with
  | branch cond goal => exact absurd rfl (plain cond goal)
  | _ => rfl

theorem successors_length_le (plain : ∀ cond goal, stmt ≠ .branch cond goal) (i : Nat) :
    (stmt.successors i).length ≤ 1 := by
  cases stmt with
  | branch cond goal => exact absurd rfl (plain cond goal)
  | _ => simp [successors]

end Statement

/-! ## Outcomes -/

section Outcomes

variable {r : Registry} {ctx ctx' : Context} {stmt : Statement} {ins outs : List State} {edges : Nat} {u : Unknowns}
  {I : Interpretation} {v σ σ' : Valuation} {s : State} {m : Machine} {e : Effect}

/-- What the statement does not bind has the value it had before. -/
theorem Transfers.shows_unbound (transfers : Transfers r ctx stmt ins u outs) (sole : State.Sole ctx I v s ins)
    (shows : s.Shows ctx I v σ) {o : State} (ho : o ∈ outs) {y : SymbolId} (unbound : ¬ stmt.Binds r y) :
    o.store.eval ctx I v y = some (σ y) :=
  transfers.keeps sole o ho unbound _ (shows y)

/-- From the one state that shows the machine's values, every outgoing state shows the values after the statement. -/
theorem Transfers.shows_post (hr : r.Sound) (transfers : Transfers r ctx stmt ins u outs) (one : outs.length = 1)
    (plain : ∀ cond goal, stmt ≠ .branch cond goal) (sole : State.Sole ctx I v s ins)
    (shows : s.Shows ctx I v (r.values m σ)) (grants : Grants v u e stmt) (post : stmt.post r I e m σ = some σ') :
    ∀ o ∈ outs, o.Applies ctx I v ∧ o.Shows ctx I v σ' := by
  obtain ⟨o, rfl⟩ := List.length_eq_one_iff.mp one
  obtain ⟨rep, others⟩ := (State.shows_values_iff hr).mp shows
  refine List.forall_mem_singleton.mpr ?_
  rcases Statement.post_eq_some post with ⟨goesOn, m', performed, rfl⟩ | ⟨a, id, rfl, result, rfl⟩ |
    ⟨terminal, nothing, rfl⟩
  · obtain ⟨o', at_, applies, after, _⟩ := transfers.moves sole rep grants performed
    rw [Statement.edge_eq_zero plain] at at_
    cases at_
    refine ⟨applies, (State.shows_values_iff hr).mpr ⟨after, fun y notHeap nameless => ?_⟩⟩
    rw [transfers.shows_unbound sole shows List.mem_cons_self, Registry.values_other notHeap nameless]
    exact fun binds => (binds.named_or_heap goesOn).elim notHeap fun ⟨x, found⟩ => nameless x found
  · obtain ⟨_, same, applies, concludes⟩ := transfers.ends sole rep rfl
    cases same
    refine ⟨applies, fun y => ?_⟩
    -- The result symbol may be that of a variable, whose value is then lost; all others keep theirs.
    by_cases isResult : y = id
    · obtain ⟨id', result', value⟩ := concludes.result rfl
      rw [result] at result'
      cases result'
      rw [isResult, value, Function.update_self]
    · rw [Function.update_of_ne isResult]
      refine transfers.shows_unbound sole shows List.mem_cons_self fun binds => isResult ?_
      exact Option.some.inj ((binds.result rfl).2.symm.trans result)
  · obtain ⟨_, same, applies, _⟩ := transfers.ends sole rep terminal
    cases same
    refine ⟨applies, fun y => transfers.shows_unbound sole shows List.mem_cons_self fun binds => ?_⟩
    obtain ⟨⟨a, returns⟩, _⟩ := binds.result terminal
    exact nothing a returns

/-- A branch sends the machine along the edge of its condition's value and along no other. -/
theorem Transfers.shows_branch {cond : Condition} {goal : Nat} {b : Bool} (hr : r.Sound)
    (transfers : Transfers r ctx (.branch cond goal) ins u outs) (two : outs.length = 2)
    (sole : State.Sole ctx I v s ins) (shows : s.Shows ctx I v (r.values m σ)) (value : cond.value m = some b) :
    ∃ o₀ o₁, outs = [o₀, o₁] ∧ (o₀.Applies ctx I v ↔ b = false) ∧ (o₁.Applies ctx I v ↔ b = true) ∧
      o₀.Shows ctx I v (r.values m σ) ∧ o₁.Shows ctx I v (r.values m σ) := by
  obtain ⟨o₀, o₁, rfl⟩ := List.length_eq_two.mp two
  have unchanged : ∀ o ∈ [o₀, o₁], o.Shows ctx I v (r.values m σ) := fun o ho y =>
    transfers.shows_unbound sole shows ho Statement.not_binds_branch
  have performed : (Statement.branch cond goal).perform I ⟨m.heap, .int 0⟩ m = some m := by
    show (cond.value m).map _ = _
    rw [value, Option.map_some]
  obtain ⟨o, at_, applies, _, others⟩ :=
    transfers.moves sole ((State.shows_values_iff hr).mp shows).1 (fun impure => by cases impure) performed
  rw [Statement.edge_branch value] at at_ others
  refine ⟨o₀, o₁, rfl, ?_, ?_, unchanged o₀ (by simp), unchanged o₁ (by simp)⟩
  · cases b with
    | false =>
      cases at_
      exact iff_of_true applies rfl
    | true => exact iff_of_false (fun applies => applies.not_refuted (others 0 o₀ rfl (by simp))) (by simp)
  · cases b with
    | false => exact iff_of_false (fun applies => applies.not_refuted (others 1 o₁ rfl (by simp))) (by simp)
    | true =>
      cases at_
      exact iff_of_true applies rfl

end Outcomes

/-! ## Unknowns -/

/-- A symbol whose value a registered symbol always has is registered. -/
theorem State.Valid.registered {ctx : Context} {s : State} (hc : ctx.Sound) (valid : s.Valid ctx) {x y : SymbolId}
    (lt : x.number < ctx.symbols.size) (stands : ∀ I v, s.store.eval ctx I v x = some (v y)) :
    y.number < ctx.symbols.size := by
  -- An unregistered symbol could be given two values without a change to what `x` has.
  by_contra beyond
  let zero : Valuation := fun _ => .int 0
  let I : Interpretation := ⟨id, id, fun _ => 0, fun _ _ => .int 0⟩
  have agree : ∀ z : SymbolId, z.number < ctx.symbols.size → zero z = Function.update zero y (.int 1) z := by
    intro z hz
    rw [Function.update_of_ne]
    rintro rfl
    exact beyond hz
  have same := State.eval_agree (I := I) hc agree valid lt
  rw [stands, stands, Function.update_self] at same
  cases same

/-- The unknowns of the statement are symbols that were added between the two contexts. -/
structure Unknowns.Added (stmt : Statement) (ctx : Context) (u : Unknowns) (ctx' : Context) : Prop where
  distinct : u.heap ≠ u.result
  heap : stmt.isImpure = true → ctx.symbols.size ≤ u.heap.number ∧ u.heap.number < ctx'.symbols.size
  result : stmt.isImpure = true → stmt.defined?.isSome = true →
    ctx.symbols.size ≤ u.result.number ∧ u.result.number < ctx'.symbols.size

/-- The unknowns of a statement are symbols that were added while it was carried out. -/
theorem Outcome.added {r : Registry} {ctx ctx' : Context} {stmt : Statement} {ins outs : List State} {edges : Nat}
    {u : Unknowns} (out : Outcome r ctx stmt ins edges u outs ctx') (hr : r.Sound) (sup : stmt.Supported r)
    (hc' : ctx'.Sound) (size : r.size ≤ ctx'.symbols.size) : u.Added stmt ctx ctx' := by
  obtain ⟨o, ho⟩ : ∃ o, o ∈ outs := by
    refine List.exists_mem_of_length_pos ?_
    have := out.length
    omega
  refine ⟨out.unknowns.distinct, fun impure => ⟨out.unknowns.heap_new, ?_⟩,
    fun impure target => ⟨out.unknowns.result_new, ?_⟩⟩
  · have lt := Registry.get?_eq_some_lt hr.heap
    exact (out.valid o ho).registered hc' (Nat.lt_of_lt_of_le lt size) (out.unknowns.heap impure o ho)
  · obtain ⟨x, target⟩ := Option.isSome_iff_exists.mp target
    obtain ⟨id, found⟩ := sup.target target
    obtain ⟨_, get, _⟩ := hr.locals found
    have lt := Registry.get?_eq_some_lt get
    exact (out.valid o ho).registered hc' (Nat.lt_of_lt_of_le lt size) (out.unknowns.result impure target found o ho)

/-! ## Rules -/

/-- A client can come from one context to the other. -/
def Context.LeadsTo (ctx ctx' : Context) : Prop := ∃ requests, ctx.Allows requests ∧ ctx.after requests = ctx'

theorem Analysis.Created.reached {p : Method} {settings : Settings} {a : Analysis} (created : Created p settings a) :
    a.context.Reached := by
  obtain ⟨ctx, made, returned⟩ := created.context
  have answered : Returns (Request.declare p).run ctx .declared a.context := by
    show Returns ((fun _ => Answer.declared) <$> registerSymbols p) ctx _ _
    rw [map_eq_pure_bind]
    exact returns_bind returned (returns_pure _ _)
  have declared : ctx.after [.declare p] = a.context := congrArg Prod.snd answered
  exact declared ▸ .intro [.declare p] made ⟨trivial, trivial⟩

/-- Every statement of an accepted method, in every context that its analysis can come to, with the states that are
decided there. The rule of the statement returns one state for each edge. Where none of the states before it applies,
none after it does. Where one alone does, and it shows the machine `m` among the values of all symbols, then all
states after it apply and show the values after the statement, if that has an outcome; after a call that is not pure
these are the values of symbols just added. A branch leaves all values as they are, and the state on the edge to be
taken applies. -/
theorem Rule.apply_exact {p : Method} {settings : Settings} {a : Analysis}
    (created : Analysis.create p settings = .ok a) {i : Nat} {stmt : Statement} (here : p.body[i]? = some stmt)
    (fits : stmt.Fits a.context.symbols) {ctx : Context} (leads : a.context.LeadsTo ctx) {ins : List State}
    (ne : ins ≠ []) (valid : ∀ s ∈ ins, s.Valid ctx) :
    ∃ rule outs ctx' u, Rule.select stmt ins = .ok rule ∧
      Returns (rule.apply stmt ins (a.layout.flow.succs i).length) ctx outs ctx' ∧
      outs.length = max (a.layout.flow.succs i).length 1 ∧ u.Added stmt ctx ctx' ∧
      ∀ I v, (∀ s ∈ ins, s.Decided ctx I v) →
        ((∀ s ∈ ins, ¬ s.Applies ctx I v) → ∀ o ∈ outs, ¬ o.Applies ctx' I v) ∧
        ∀ before s after, ins = before ++ s :: after → s.Applies ctx I v →
          (∀ t ∈ before ++ after, ¬ t.Applies ctx I v) → ∀ m σ, s.Shows ctx I v (a.context.symbols.values m σ) →
            (∀ cond goal b, stmt = .branch cond goal → cond.value m = some b →
              a.layout.flow.succs i = [i + 1, goal] ∧ ∃ o₀ o₁, outs = [o₀, o₁] ∧
              (o₀.Applies ctx' I v ↔ b = false) ∧ (o₁.Applies ctx' I v ↔ b = true) ∧
              o₀.Shows ctx' I v (a.context.symbols.values m σ) ∧ o₁.Shows ctx' I v (a.context.symbols.values m σ)) ∧
            ∀ e σ', (∀ cond goal, stmt ≠ .branch cond goal) → Grants v u e stmt →
              stmt.post a.context.symbols I e m σ = some σ' → ∀ o ∈ outs, o.Applies ctx' I v ∧ o.Shows ctx' I v σ' := by
  have made := Analysis.created_of_create created
  obtain ⟨_, calls, registered⟩ := made.sound
  obtain ⟨requests, allowed, rfl⟩ := leads
  obtain ⟨later, reliable⟩ := after_later made.reached.reliable allowed
  generalize a.context.after requests = ctx at valid later reliable ⊢
  have hc := reliable.sound
  have ext : a.context.symbols.Extends ctx.symbols := later.symbols
  have hr := ext.among_sound hc.symbols
  have sup := ((Analysis.named_of_registered made.valid calls registered here).supported fits).extends ext.to_among
  have edges := Flow.succs_of_ofBody made.flow here
  obtain ⟨outs, ctx', ret, e, hc', u, out⟩ :=
    apply_yields sup i ne hr hc ext.from_among valid fun s hs _ _ bound => ((valid s hs).store bound).2
  rw [edges]
  refine ⟨stmt.rule, outs, ctx', u, select_eq ne stmt, ret, out.length, out.added hr sup hc' e.symbols.size_le,
    fun I v decided => ⟨fun none o ho applies => ?_, fun before s after split applies others m σ shows => ?_⟩⟩
  · refine applies.not_refuted (out.transfers.refuted (fun s hs => ?_) o ho)
    exact (State.refuted_extends hc e (valid s hs)).mpr ((decided s hs).applies_or_refuted.resolve_left (none s hs))
  · have sole : State.Sole ctx' I v s ins :=
      (State.sole_extends hc e valid).mpr (State.sole_of_decided decided split applies others)
    have shows : s.Shows ctx' I v ((a.context.symbols.among ctx.symbols).values m σ) :=
      State.shows_extends hc e (valid s sole.mem) shows
    refine ⟨fun cond goal b same value => ?_, fun effect σ' plain grants post => ?_⟩
    · subst same
      have branched := out.transfers.shows_branch hr out.length sole shows value
      exact ⟨rfl, branched⟩
    · have one : outs.length = 1 := by
        have := Statement.successors_length_le plain i
        have := out.length
        omega
      exact out.transfers.shows_post hr one plain sole shows grants post

def cellMethod : Method where
  owner := "Cell"
  name := "set"
  params := [("b", .boolean), ("x", .int), ("o", .object "Cell")]
  locals := []
  result? := none
  body := [.writeField (.var "o") ⟨"Cell", "value", .int⟩ (.var "x"), .ret none]

/-- Where `b` holds nothing is bound, and elsewhere `x` is one. -/
def oneUnless : List State := [⟨⟨[⟨2, false⟩]⟩, .empty⟩, ⟨⟨[⟨2, true⟩]⟩, .single ⟨19⟩ ⟨3, false⟩⟩]

section

variable {ctx : Context} {I : Interpretation} {v : Valuation}

theorem oneUnless_valid (b : ContextM.Stands ctx ⟨18⟩ ⟨2, false⟩)
    (one : ctx.pool.node? ⟨3, false⟩ = some (.literal (.int 1))) (size : 19 < ctx.symbols.size) :
    ∀ s ∈ oneUnless, s.Valid ctx := by
  refine List.forall_mem_cons.mpr ⟨⟨List.forall_mem_singleton.mpr b.has, fun bound => by cases bound⟩, ?_⟩
  refine List.forall_mem_singleton.mpr ⟨List.forall_mem_singleton.mpr (Pool.has_neg.mpr b.has), fun {x h} bound => ?_⟩
  obtain ⟨rfl, same⟩ := Option.ite_none_right_eq_some.mp bound
  cases same
  exact ⟨Pool.has_of_node one, size⟩

theorem holds_guards (hc : ctx.Sound) (b : ContextM.Stands ctx ⟨18⟩ ⟨2, false⟩) {t : Bool} (hv : v ⟨18⟩ = .bool t) :
    ctx.holds I v ⟨2, false⟩ = some t ∧ ctx.holds I v ⟨2, true⟩ = some (!t) := by
  have holds : ctx.holds I v ⟨2, false⟩ = some t := holds_eq_some.mpr ((b.eval hc I v).trans (by rw [hv]))
  exact ⟨holds, (Pool.holds_neg_eq_some hc.pool (h := ⟨2, false⟩) b.has).mpr (by rwa [Bool.not_not])⟩

theorem oneUnless_decided (hc : ctx.Sound) (b : ContextM.Stands ctx ⟨18⟩ ⟨2, false⟩)
    (one : ctx.pool.node? ⟨3, false⟩ = some (.literal (.int 1))) {t : Bool} (hv : v ⟨18⟩ = .bool t) :
    ∀ s ∈ oneUnless, s.Decided ctx I v := by
  have guard : ctx.Decided I v ⟨2, false⟩ := .intro b.node (by simp [Node.children]) (by simp)
  obtain ⟨holds, denied⟩ := holds_guards (I := I) hc b hv
  refine List.forall_mem_cons.mpr ⟨⟨List.forall_mem_singleton.mpr ⟨guard, t, holds⟩, fun bound => by cases bound⟩, ?_⟩
  refine List.forall_mem_singleton.mpr ⟨List.forall_mem_singleton.mpr ⟨guard.neg, !t, denied⟩, fun {x h} bound => ?_⟩
  obtain ⟨rfl, same⟩ := Option.ite_none_right_eq_some.mp bound
  cases same
  exact ⟨.intro one (by simp [Node.children]) (by simp), _, Pool.eval_node hc.pool one rfl⟩

/-- The second state gives `x` the value one and everything else the value it has. -/
theorem oneUnless_shows (hc : ctx.Sound) (one : ctx.pool.node? ⟨3, false⟩ = some (.literal (.int 1))) {r : Registry}
    (hr : r.Sound) (locals : r.locals = [("o", ⟨20⟩), ("x", ⟨19⟩), ("b", ⟨18⟩)]) {m : Machine}
    (heap : v Registry.heap = .heap m.heap) (object : v ⟨20⟩ = .scalar (m.locals "o")) (x : m.locals "x" = .int 1)
    (guard : v ⟨18⟩ = .scalar (m.locals "b")) :
    State.Shows ctx I v ⟨⟨[⟨2, true⟩]⟩, .single ⟨19⟩ ⟨3, false⟩⟩ (r.values m v) := by
  refine (State.shows_values_iff hr).mpr ⟨⟨?_, fun {z id} found => ?_⟩, fun y _ nameless => ?_⟩
  · rw [Store.eval_unbound rfl, heap]
  · have listed : (z, id) ∈ [("o", (⟨20⟩ : SymbolId)), ("x", ⟨19⟩), ("b", ⟨18⟩)] := by
      obtain ⟨_, _, split, _⟩ := List.lookup_eq_some_iff.mp found
      rw [← locals, split]
      simp
    simp only [List.mem_cons, Prod.mk.injEq, List.not_mem_nil, or_false] at listed
    rcases listed with ⟨rfl, rfl⟩ | ⟨rfl, rfl⟩ | ⟨rfl, rfl⟩
    · rw [Store.eval_unbound rfl, object]
    · rw [Store.eval_bound rfl, x]
      exact Pool.eval_node hc.pool one rfl
    · rw [Store.eval_unbound rfl, guard]
  · have other : (⟨19⟩ : SymbolId) ≠ y := by
      rintro rfl
      exact nameless "x" (by rw [locals]; rfl)
    exact Store.eval_unbound (if_neg other)

end

theorem Rule.apply_exact_cell : ∃ a ctx outs ctx', Analysis.create cellMethod ⟨0, []⟩ = .ok a ∧ a.context.LeadsTo ctx ∧
    Returns (Rule.fieldWrite.apply (.writeField (.var "o") ⟨"Cell", "value", .int⟩ (.var "x")) oneUnless 1)
      ctx outs ctx' ∧
    outs.length = 1 ∧ ∀ I v heap object, v Registry.heap = .heap heap → v ⟨20⟩ = .scalar object → v ⟨18⟩ = .bool false →
      ∀ o ∈ outs, o.Applies ctx' I v ∧
        o.store.eval ctx' I v Registry.heap = some (.heap (heap.write object (.field "Cell.value") (.int 1))) := by
  let requests : List Request := [.symbol ⟨18⟩, .integer 1]
  have shape : (Analysis.create cellMethod ⟨0, []⟩).map (fun a => (a.context.symbols.locals, a.context.symbols.size,
      (a.context.after requests).pool.node? ⟨2, false⟩, (a.context.after requests).pool.node? ⟨3, false⟩,
      (a.context.after requests).symbols.size, a.layout.flow.succs 0)) =
        .ok ([("o", ⟨20⟩), ("x", ⟨19⟩), ("b", ⟨18⟩)], 21, some (.symbol ⟨18⟩), some (.literal (.int 1)),
        21, [1]) := by cbv
  obtain ⟨a, created, shape⟩ := Analysis.exists_of_map shape
  simp only [Prod.mk.injEq] at shape
  obtain ⟨locals, size, guard, one, size', edges⟩ := shape
  have made := Analysis.created_of_create created
  have allowed : a.context.Allows requests := by
    refine ⟨?_, trivial, trivial⟩
    show 18 < _
    omega
  have hc := (after_later made.reached.reliable allowed).2.sound
  have b : ContextM.Stands (a.context.after requests) ⟨18⟩ ⟨2, false⟩ := ⟨rfl, guard⟩
  obtain ⟨rule, outs, ctx', u, chosen, ret, length, _, exact⟩ := Rule.apply_exact created (i := 0) rfl
    (fun applied => by cases applied) ⟨requests, allowed, rfl⟩ (List.cons_ne_nil _ _) (oneUnless_valid b one (by omega))
  cases chosen
  rw [edges] at ret length
  refine ⟨a, _, outs, ctx', created, ⟨requests, allowed, rfl⟩, ret, length,
    fun I v heap object hheap hobject hb o ho => ?_⟩
  obtain ⟨holds, denied⟩ := holds_guards (I := I) hc b hb
  have only : ∀ {k : Handle} {store : Store}, State.Applies (a.context.after requests) I v ⟨⟨[k]⟩, store⟩ ↔
      (a.context.after requests).holds I v k = some true :=
    PathCondition.truth_true.trans List.forall_mem_singleton
  have shows := oneUnless_shows hc one made.sound.1.symbols locals (I := I)
    (m := ⟨heap, fun z => if z = "o" then object else if z = "x" then .int 1 else .bool false⟩) hheap hobject rfl hb
  obtain ⟨_, after⟩ := exact I v (oneUnless_decided hc b one hb)
  obtain ⟨_, plain⟩ := after [_] _ [] rfl (only.mpr denied) (by simp [only, holds]) _ _ shows
  obtain ⟨applies, value⟩ := plain ⟨heap, .int 0⟩ _ (by simp) (fun impure => by cases impure) rfl o ho
  refine ⟨applies, (value Registry.heap).trans ?_⟩
  rfl

end PathMerge

/-
  PathMerge.Proofs.Requests — everything a client can ask of a context.

  A request builds, rewrites or simplifies an expression, registers or looks up a symbol, simplifies,
  merges or carries on states, or analyses a method. It is valid when the handles, states and symbols it
  names are those of the context. A valid request may still be refused (a function applied to the wrong number
  of arguments, a name that is taken or unknown, nothing to merge); then it leaves behind whatever was
  built before the refusal, and the client goes on from there.

  One request keeps a context reliable and is uniform (`Request.run_uniform`). So, by induction, is every
  sequence of requests (`after_later`, `requests_same`). What the client is told depends on the
  earlier answers and on nothing else, so a sequence stands for any client that chooses each request by the
  answers so far.
-/

import PathMerge.Proofs.Uniform.Walks

namespace PathMerge

open ContextM

inductive Request where
  | integer (n : Int)
  | null
  | field (name : String)
  | symbol (y : SymbolId)
  | apply (f : SymbolId) (args : List Handle)
  | call (name : String) (args : List Handle)
  | equation (a b : Handle)
  | join (c : Connective) (items : List Handle)
  | choice (branches : List Branch)
  | rewrite (f : SymbolId) (args : List Handle)
  | simplify (h : Handle)
  | addLocal (name : String) (sort : ValueSort)
  | addResult (sort : ValueSort)
  | addFunction (theory name : String) (arity : Nat) (sort : ValueSort)
  | fresh (base : String) (sort : ValueSort)
  | lookup (name : String)
  | formula (p : PathCondition)
  | simplifyPath (p : PathCondition)
  | equivalent (p q : PathCondition)
  | value (s : State) (x : SymbolId)
  | simplifyState (s : State)
  | merge (states : List State)
  | carryOut (rule : Rule) (stmt : Statement) (states : List State) (edges : Nat)
  | declare (m : Method)
  | walk (layout : Layout) (stops : List Nat)

inductive Answer where
  | handle (h : Handle)
  | handle? (h? : Option Handle)
  | symbol (y : SymbolId)
  | truth (b : Bool)
  | path (p : PathCondition)
  | state (s : State)
  | states (outs : List State)
  | declared
  | walk (w : Walk)

namespace Request

def run : Request → ContextM Answer
  | integer n => .handle <$> ContextM.integer n
  | null => .handle <$> ContextM.null
  | field name => .handle <$> ContextM.field name
  | symbol y => .handle <$> ContextM.symbol y
  | apply f args => .handle <$> ContextM.apply f args
  | call name args => .handle <$> ContextM.call name args
  | equation a b => .handle <$> ContextM.equation a b
  | join c items => .handle <$> onPool (PoolM.join c items)
  | choice branches => .handle <$> ContextM.choice branches
  | rewrite f args => .handle? <$> ContextM.rewrite f args
  | simplify h => .handle <$> ContextM.simplify h
  | addLocal name sort => .symbol <$> register (·.addLocal name sort)
  | addResult sort => .symbol <$> register (·.addResult sort)
  | addFunction theory name arity sort => .symbol <$> register (·.addFunction theory name arity sort)
  | fresh base sort => .symbol <$> ContextM.fresh base sort
  | lookup name => .symbol <$> ContextM.lookup name
  | formula p => .handle <$> p.formula
  | simplifyPath p => .path <$> p.simplify
  | equivalent p q => .truth <$> p.equivalent q
  | value s x => .handle <$> s.value x
  | simplifyState s => .state <$> s.simplify
  | merge states => .state <$> State.merge states
  | carryOut rule stmt states edges => .states <$> rule.apply stmt states edges
  | declare m => (fun _ => .declared) <$> Analysis.registerSymbols m
  | walk layout stops => .walk <$> Walk.ofMethod layout stops

/-- The handles, states and symbols that the request names are those of the context. -/
def Valid (ctx : Context) : Request → Prop
  | symbol y => y.number < ctx.symbols.size
  | apply _ args | call _ args => ∀ a ∈ args, ctx.Has a
  | equation a b => ctx.Has a ∧ ctx.Has b
  | join _ items => ∀ h ∈ items, ctx.Has h
  | choice branches => ∀ b ∈ branches, ctx.Has b.1 ∧ ctx.Has b.2
  | rewrite f args => (∀ a ∈ args, ctx.Has a) ∧
      ∃ name sort owner, ctx.symbols.get? f = some ⟨name, sort, .function args.length owner⟩
  | simplify h => ctx.Has h
  | formula p | simplifyPath p => p.Valid ctx
  | equivalent p q => p.Valid ctx ∧ q.Valid ctx
  | value s x => s.Valid ctx ∧ x.number < ctx.symbols.size
  | simplifyState s => s.Valid ctx
  | merge states | carryOut _ _ states _ => ∀ s ∈ states, s.Valid ctx
  | _ => True

def answer (r : Request) (ctx : Context) : Except Failure Answer := (r.run.run.run ctx).1

def after (r : Request) (ctx : Context) : Context := (r.run.run.run ctx).2

end Request

namespace Context

/-- The context after the requests, one after the other. -/
def after (ctx : Context) : List Request → Context
  | [] => ctx
  | r :: rest => (r.after ctx).after rest

def answers (ctx : Context) : List Request → List (Except Failure Answer)
  | [] => []
  | r :: rest => r.answer ctx :: (r.after ctx).answers rest

/-- Every request is valid when it is made. -/
def Allows (ctx : Context) : List Request → Prop
  | [] => True
  | r :: rest => r.Valid ctx ∧ (r.after ctx).Allows rest

/-- A client can have this context: it was created, of any size and with any theories, and then used. -/
inductive Reached : Context → Prop
  | intro {bits : Nat} {theories : List Theory} {start : Context} (requests : List Request)
      (created : Context.create bits theories = .ok start) (valid : start.Allows requests) :
      Reached (start.after requests)

end Context

/-! ## One request -/

variable {α : Type} {ctx ctx' : Context}

theorem Uniform.answered {x : ContextM α} {Q : α → Context → Prop} (hx : Uniform x ctx Q) (f : α → Answer) :
    Uniform (f <$> x) ctx fun _ _ => True :=
  Uniform.map (hx.mono fun _ _ _ _ _ => trivial)

/-- The answer to a valid request depends on what the context holds and not on how it is stored. -/
theorem Request.run_uniform (hc : ctx.Reliable) {r : Request} (valid : r.Valid ctx) :
    Uniform r.run ctx fun _ _ => True := by
  cases r with
  | integer n => exact (literal_uniform hc _).answered _
  | null => exact (literal_uniform hc _).answered _
  | field name => exact (literal_uniform hc _).answered _
  | symbol y => exact (symbol_uniform hc valid).answered _
  | apply f args => exact (apply_uniform hc f valid).answered _
  | call name args => exact (call_uniform hc name valid).answered _
  | equation a b => exact (equation_uniform hc valid.1 valid.2).answered _
  | join c items => exact (join_uniform hc c valid).answered _
  | choice branches => exact (choice_uniform hc valid).answered _
  | rewrite f args =>
    obtain ⟨has, name, sort, owner, hf⟩ := valid
    exact (Uniform.steady (rewrite_straight f args).toSteady hc (rewrite_yields hc.sound hf rfl has)).answered _
  | simplify h => exact (simplify_uniform hc valid).answered _
  | addLocal name sort =>
    exact (register_uniform hc fun added => (Registry.addLocal_ok hc.sound.symbols added).1).answered _
  | addResult sort =>
    exact (register_uniform hc fun added => (Registry.addResult_ok hc.sound.symbols added).1).answered _
  | addFunction theory name arity sort =>
    exact (register_uniform hc fun added => (Registry.addFunction_ok hc.sound.symbols added).1).answered _
  | fresh base sort => exact (fresh_uniform hc base sort).answered _
  | lookup name => exact (lookup_uniform hc name).answered _
  | formula p => exact (PathCondition.formula_uniform hc valid).answered _
  | simplifyPath p => exact (PathCondition.simplify_uniform hc valid).answered _
  | equivalent p q => exact (PathCondition.equivalent_uniform hc valid.1 valid.2).answered _
  | value s x => exact (State.value_uniform hc valid.1 valid.2).answered _
  | simplifyState s => exact (State.simplify_uniform hc valid).answered _
  | merge states => exact (State.merge_uniform hc valid).answered _
  | carryOut rule stmt states edges => exact (Rule.apply_uniform hc valid rule stmt edges).answered _
  | declare m => exact (Analysis.registerSymbols_uniform hc m).answered _
  | walk layout stops => exact (Walk.ofMethod_uniform hc stops).answered _

/-! ## Sequences of requests -/

namespace Context

theorem after_later {requests : List Request} (hc : ctx.Reliable) (valid : ctx.Allows requests) :
    ctx.Later (ctx.after requests) ∧ (ctx.after requests).Reliable := by
  induction requests generalizing ctx with
  | nil => exact ⟨.refl ctx, hc⟩
  | cons r rest ih =>
    have one := Request.run_uniform hc valid.1
    obtain ⟨later, reliable⟩ := ih one.reliable valid.2
    exact ⟨one.later.trans later, reliable⟩

/-- Contexts that look the same answer the same and look the same afterwards. -/
theorem requests_same {twin : Context} {requests : List Request} (hc : ctx.Reliable) (twin' : twin.Reliable)
    (alike : ctx.Alike twin) (valid : ctx.Allows requests) :
    ctx.answers requests = twin.answers requests ∧ (ctx.after requests).Alike (twin.after requests) := by
  induction requests generalizing ctx twin with
  | nil => exact ⟨rfl, alike⟩
  | cons r rest ih =>
    have one := Request.run_uniform hc valid.1
    obtain ⟨same, alike₁, twin₁⟩ := one.same alike twin'
    obtain ⟨answers, alike₂⟩ := ih one.reliable twin₁ alike₁ valid.2
    exact ⟨congrArg₂ List.cons same answers, alike₂⟩

theorem create_reliable {bits : Nat} {theories : List Theory} (created : Context.create bits theories = .ok ctx) :
    ctx.Reliable := by
  refine ⟨create_sound created, fun key k found => ?_⟩
  obtain ⟨_, r, _, rfl⟩ := create_ok created
  rw [Memo.find?_empty] at found
  cases found

theorem Reached.reliable (h : ctx.Reached) : ctx.Reliable := by
  obtain ⟨requests, created, valid⟩ := h
  exact (after_later (create_reliable created) valid).2

end Context

/-! ## A session -/

/-- A context with the laws of integers and heaps, and a memory with room for one entry. -/
def Context.oneSlot : Context :=
  ((Context.create 0 [.integers, .heap]).toOption).getD ⟨.initial 0, .initial, .empty 0, []⟩

/-- They build the field of `o` after `x + 0` has been written to it; the read is handle 9. -/
def readAfterWrite : List Request :=
  [.addLocal "x" .int, .addLocal "o" .object, .symbol Registry.heap, .symbol ⟨14⟩, .field "C.f", .symbol ⟨13⟩,
    .integer 0, .call "plus" [⟨5, false⟩, ⟨6, false⟩],
    .call "store" [⟨2, false⟩, ⟨3, false⟩, ⟨4, false⟩, ⟨7, false⟩],
    .call "select" [⟨8, false⟩, ⟨3, false⟩, ⟨4, false⟩]]

theorem Context.create_oneSlot : Context.create 0 [.integers, .heap] = .ok .oneSlot := rfl

theorem Context.oneSlot_allows : oneSlot.Allows readAfterWrite := by
  refine ⟨trivial, trivial, ?_, ?_, trivial, ?_, trivial, ?_, ?_, ?_, trivial⟩
  · show 0 < _
    decide +kernel
  · show 14 < _
    decide +kernel
  · show 13 < _
    decide +kernel
  · show ∀ a ∈ _, Pool.Has _ a
    decide +kernel
  · show ∀ a ∈ _, Pool.Has _ a
    decide +kernel
  · show ∀ a ∈ _, Pool.Has _ a
    decide +kernel

def Context.bare : Context := ((Context.create 0 []).toOption).getD ⟨.initial 0, .initial, .empty 0, []⟩

/-- They build `a || b` (6), `!a && b` (7) by absorption, `a && b` (8), `x == y` (9) and a choice between `x` and `y`
(11) in which two branches share the guard `!a || b` (10). -/
def sharedGuards : List Request :=
  [.addLocal "a" .bool, .addLocal "b" .bool, .addLocal "x" .int, .addLocal "y" .int, .symbol ⟨1⟩, .symbol ⟨2⟩,
    .symbol ⟨3⟩, .symbol ⟨4⟩, .join .disj [⟨2, false⟩, ⟨3, false⟩], .join .conj [⟨2, true⟩, ⟨6, false⟩],
    .join .conj [⟨3, false⟩, ⟨6, false⟩, ⟨2, false⟩], .equation ⟨4, false⟩ ⟨5, false⟩,
    .choice [(⟨2, false⟩, ⟨4, false⟩), (⟨3, false⟩, ⟨5, false⟩), (⟨2, true⟩, ⟨5, false⟩)]]

theorem Context.create_bare : Context.create 0 [] = .ok .bare := rfl

theorem Context.bare_reached : (bare.after sharedGuards).Reached := by
  refine .intro sharedGuards create_bare ?_
  refine ⟨trivial, trivial, trivial, trivial, ?_, ?_, ?_, ?_, ?_, ?_, ?_, ?_, ?_, trivial⟩
  · show 1 < _
    decide +kernel
  · show 2 < _
    decide +kernel
  · show 3 < _
    decide +kernel
  · show 4 < _
    decide +kernel
  · show ∀ h ∈ _, Pool.Has _ h
    decide +kernel
  · show ∀ h ∈ _, Pool.Has _ h
    decide +kernel
  · show ∀ h ∈ _, Pool.Has _ h
    decide +kernel
  · show Pool.Has _ _ ∧ Pool.Has _ _
    decide +kernel
  · show ∀ b ∈ _, Pool.Has _ _ ∧ Pool.Has _ _
    decide +kernel

end PathMerge

/-
  PathMerge.Proofs.Storage — the size of tables and memories is not seen.

  Two contexts that were created with the same theories, each with as many bits as it likes, look the same. Every
  request is uniform, so they answer every sequence of requests in the same way and look the same at its
  end. Creating and executing an analysis are two of these requests, with computations between them that do
  not touch the context.
-/

import PathMerge.Proofs.Requests

namespace PathMerge

open Context ContextM

variable {α β γ δ : Type} {ctx ctx' : Context}

/-- Both fail in the same way, or both succeed with results that `R` relates. -/
inductive SameOutcome (R : α → β → Prop) : Except Failure α → Except Failure β → Prop
  | failed (e : Failure) : SameOutcome R (.error e) (.error e)
  | succeeded {a : α} {b : β} (related : R a b) : SameOutcome R (.ok a) (.ok b)

namespace SameOutcome

theorem refl (x : Except Failure α) : SameOutcome Eq x x := by
  cases x with
  | error e => exact .failed e
  | ok a => exact .succeeded rfl

theorem mono {R S : α → β → Prop} {x : Except Failure α} {y : Except Failure β} (h : SameOutcome R x y)
    (imp : ∀ a b, R a b → S a b) : SameOutcome S x y := by
  cases h with
  | failed e => exact .failed e
  | succeeded related => exact .succeeded (imp _ _ related)

theorem bind {R : α → β → Prop} {S : γ → δ → Prop} {x : Except Failure α} {y : Except Failure β}
    {f : α → Except Failure γ} {g : β → Except Failure δ} (h : SameOutcome R x y)
    (rest : ∀ a b, R a b → SameOutcome S (f a) (g b)) : SameOutcome S (x >>= f) (y >>= g) := by
  cases h with
  | failed e => exact .failed e
  | succeeded related => exact rest _ _ related

end SameOutcome

/-! ## Contexts of different size -/

structure Twins (ctx twin : Context) : Prop where
  left : ctx.Reliable
  right : twin.Reliable
  alike : ctx.Alike twin

theorem Pool.initial_nodes (bits : Nat) :
    (Pool.initial bits).table.values = #[.truth] ∧ (Pool.initial bits).sizes = #[1] := by
  have new := InternTable.find?_empty bits Node.truth
  constructor
  · show ((InternTable.empty bits).put Node.truth).2.values = #[.truth]
    rw [InternTable.put_new_values new]
    rfl
  · unfold Pool.initial
    rw [put_sizes, InternTable.put_new_fst new]
    rfl

/-- Contexts created with tables of different sizes hold the same and answer alike. -/
theorem create_twins {b₁ b₂ : Nat} (small₁ : b₁ ≤ InternTable.maxBits) (small₂ : b₂ ≤ InternTable.maxBits)
    (theories : List Theory) : SameOutcome Twins (Context.create b₁ theories) (Context.create b₂ theories) := by
  have unfolded : ∀ {b : Nat}, b ≤ InternTable.maxBits → Context.create b theories =
      (theories.foldlM declare .initial).map fun r => ⟨.initial b, r, .empty (min b maxMemoBits), theories⟩ := by
    intro b small
    unfold Context.create
    rw [if_neg (Nat.not_lt.mpr small)]
    cases theories.foldlM declare Registry.initial <;> rfl
  cases declared : theories.foldlM declare Registry.initial with
  | error e =>
    rw [unfolded small₁, unfolded small₂, declared]
    exact .failed e
  | ok r =>
    have first := unfolded small₁
    have second := unfolded small₂
    rw [declared] at first second
    rw [first, second]
    obtain ⟨values₁, sizes₁⟩ := Pool.initial_nodes b₁
    obtain ⟨values₂, sizes₂⟩ := Pool.initial_nodes b₂
    exact .succeeded ⟨create_reliable first, create_reliable second,
      ⟨values₁.trans values₂.symm, sizes₁.trans sizes₂.symm⟩, rfl, rfl⟩

/-! ## Analyses -/

theorem within_twins {twin : Context} {x : ContextM α} {Q : α → Context → Prop} (uniform : Uniform x ctx Q)
    (twins : Twins ctx twin) :
    SameOutcome (fun p q => p.1 = q.1 ∧ Twins p.2 q.2) (Analysis.within ctx x) (Analysis.within twin x) := by
  obtain ⟨same, alike, right⟩ := uniform.same twins.alike twins.right
  have left := uniform.reliable
  unfold Analysis.within
  rcases run : x.run.run ctx with ⟨r, c⟩
  rcases run' : x.run.run twin with ⟨r', c'⟩
  rw [run] at same alike left
  rw [run'] at same alike right
  dsimp only at same
  subst same
  cases r with
  | error e => exact .failed e
  | ok a => exact .succeeded ⟨rfl, left, right, alike⟩

namespace Analysis

structure Alike (a₁ a₂ : Analysis) : Prop where
  stops : a₁.settings.stops = a₂.settings.stops
  layout : a₁.layout = a₂.layout
  walk : a₁.walk? = a₂.walk?
  contexts : Twins a₁.context a₂.context

theorem create_alike {b₁ b₂ : Nat} (small₁ : b₁ ≤ InternTable.maxBits) (small₂ : b₂ ≤ InternTable.maxBits)
    (m : Method) (stops : List Nat) : SameOutcome Alike (create m ⟨b₁, stops⟩) (create m ⟨b₂, stops⟩) := by
  refine (SameOutcome.refl _).bind fun _ _ _ => ?_
  refine (create_twins small₁ small₂ Theory.all).bind fun c₁ c₂ twins => ?_
  refine (within_twins (registerSymbols_uniform twins.left m) twins).bind ?_
  rintro ⟨_, c₁'⟩ ⟨_, c₂'⟩ ⟨_, twins⟩
  refine (SameOutcome.refl _).bind ?_
  rintro flow _ rfl
  refine (SameOutcome.refl _).bind ?_
  rintro loops _ rfl
  exact .succeeded ⟨rfl, rfl, rfl, twins⟩

theorem Alike.execute {a₁ a₂ : Analysis} (h : a₁.Alike a₂) : SameOutcome Alike a₁.execute a₂.execute := by
  obtain ⟨stops, layout, walk, contexts⟩ := h
  unfold Analysis.execute
  rw [← walk]
  cases walked : a₁.walk? with
  | some w => exact .succeeded ⟨stops, layout, walk, contexts⟩
  | none =>
    dsimp only
    rw [← layout, ← stops]
    refine (within_twins (Walk.ofMethod_uniform contexts.left _) contexts).bind ?_
    rintro ⟨w, c₁⟩ ⟨_, c₂⟩ ⟨rfl, twins⟩
    exact .succeeded ⟨stops, rfl, rfl, twins⟩

end Analysis

/-! ## Independence -/

/-- As many nodes, the same one at every index, and the same symbols. -/
structure SameNodes (ctx twin : Context) : Prop where
  nodes : ∀ h, ctx.node h = twin.node h
  count : ctx.pool.size = twin.pool.size
  symbols : ctx.symbols = twin.symbols

theorem Context.Alike.sameNodes {twin : Context} (alike : ctx.Alike twin) : SameNodes ctx twin :=
  ⟨fun h => Lasts.alike (.node h) alike, alike.pool.size, alike.symbols⟩

/-- With any two numbers of bits that are not refused, contexts are created or refused alike, and answer every
sequence of requests alike: the same handles and failures, the same nodes at the same indices. An analysis of one
method records the same states, summaries and symbols. -/
theorem storage_size_immaterial {b₁ b₂ : Nat} (small₁ : b₁ ≤ 31) (small₂ : b₂ ≤ 31) :
    (∀ theories, SameOutcome
      (fun c₁ c₂ => ∀ requests, c₁.Allows requests →
        c₁.answers requests = c₂.answers requests ∧ SameNodes (c₁.after requests) (c₂.after requests))
      (Context.create b₁ theories) (Context.create b₂ theories)) ∧
    (∀ m stops, SameOutcome
      (fun a₁ a₂ => (∀ i, a₁.inputs i = a₂.inputs i) ∧ (∀ i, a₁.outputs i = a₂.outputs i) ∧
        a₁.summaries = a₂.summaries ∧ SameNodes a₁.context a₂.context)
      (Analysis.create m ⟨b₁, stops⟩ >>= Analysis.execute) (Analysis.create m ⟨b₂, stops⟩ >>= Analysis.execute)) := by
  refine ⟨fun theories => ?_, fun m stops => ?_⟩
  · refine (create_twins small₁ small₂ theories).mono fun c₁ c₂ twins requests valid => ?_
    obtain ⟨answers, alike⟩ := requests_same twins.left twins.right twins.alike valid
    exact ⟨answers, alike.sameNodes⟩
  · refine (Analysis.create_alike small₁ small₂ m stops).bind fun a₁ a₂ created => created.execute.mono ?_
    rintro a₁ a₂ ⟨_, _, walk, contexts⟩
    unfold Analysis.inputs Analysis.outputs Analysis.summaries
    rw [walk]
    exact ⟨fun _ => rfl, fun _ => rfl, rfl, contexts.alike.sameNodes⟩

/-- One chain and one remembered entry do as well as the largest tables. -/
theorem storage_size_immaterial_extremes : ∃ c, Context.create 31 [.integers, .heap] = .ok c ∧
    oneSlot.Allows readAfterWrite ∧ oneSlot.answers readAfterWrite = c.answers readAfterWrite ∧
    SameNodes (oneSlot.after readAfterWrite) (c.after readAfterWrite) := by
  have same := (@storage_size_immaterial 0 31 (by decide) (by decide)).1 [.integers, .heap]
  rw [create_oneSlot] at same
  generalize large : Context.create 31 [.integers, .heap] = created at same
  cases same with
  | succeeded related => exact ⟨_, rfl, oneSlot_allows, related readAfterWrite oneSlot_allows⟩

end PathMerge

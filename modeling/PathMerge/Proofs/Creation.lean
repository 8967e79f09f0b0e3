/-
  PathMerge.Proofs.Creation — what a new context is.

  A context is created empty but for the functions of its theories, each registered as it was declared. It is sound,
  whatever its size and whichever theories it has (`Context.create_sound`).
-/

import PathMerge.Proofs.State

namespace PathMerge

theorem Memo.find?_empty (bits : Nat) (key : Handle) : (Memo.empty bits).find? key = none := by
  unfold Memo.find? Memo.empty
  rw [Slots.get?_vacant]

namespace Registry

/-- Registering one after the other keeps what each step establishes. -/
theorem foldlM_grown {α : Type} {f : Registry → α → Except Failure Registry} {P : α → Registry → Prop}
    (stable : ∀ {a r r'}, r.Extends r' → P a r → P a r')
    (step : ∀ {r r' a}, r.Sound → f r a = .ok r' → r.Grown r' ∧ P a r') :
    ∀ (l : List α) {r r' : Registry}, r.Sound → l.foldlM f r = .ok r' → r.Grown r' ∧ ∀ a ∈ l, P a r' := by
  intro l
  induction l with
  | nil =>
    intro r r' hr h
    cases h
    exact ⟨⟨hr, .refl r⟩, nofun⟩
  | cons a l ih =>
    intro r r' hr h
    rw [List.foldlM_cons] at h
    rcases hf : f r a with e | r₁
    · rw [hf] at h
      cases h
    · rw [hf] at h
      obtain ⟨grown₁, pa⟩ := step hr hf
      obtain ⟨grown₂, rest⟩ := ih grown₁.1 h
      refine ⟨grown₁.trans grown₂, fun b hb => ?_⟩
      rcases List.mem_cons.mp hb with rfl | hb
      · exact stable grown₂.2 pa
      · exact rest b hb

def Declares (t : Theory) (d : FunctionDecl) (r : Registry) : Prop :=
  ∃ f, r.get? f = some ⟨d.name, d.sort, .function d.arity t.name⟩

theorem Declares.extends {t : Theory} {d : FunctionDecl} {r r' : Registry} (e : r.Extends r')
    (h : Declares t d r) : Declares t d r' := by
  obtain ⟨f, hf⟩ := h
  exact ⟨f, e.get hf⟩

theorem declare_ok {r r' : Registry} {t : Theory} (hr : r.Sound) (h : Context.declare r t = .ok r') :
    r.Grown r' ∧ ∀ d ∈ t.functions, Declares t d r' := by
  refine foldlM_grown (P := Declares t) (fun e h => h.extends e) (fun {r r' d} hr h => ?_) t.functions hr h
  rcases added : r.addFunction t.name d.name d.arity d.sort with e | ⟨f, r₁⟩
  · rw [added] at h
    cases h
  · rw [added] at h
    cases h
    obtain ⟨grown, hf⟩ := addFunction_ok hr added
    exact ⟨grown, f, hf⟩

end Registry

theorem Theory.mem_all (t : Theory) : t ∈ Theory.all := by
  cases t <;> decide

theorem Context.create_ok {bits : Nat} {theories : List Theory} {ctx : Context}
    (created : Context.create bits theories = .ok ctx) : bits ≤ InternTable.maxBits ∧
      ∃ r, theories.foldlM declare .initial = .ok r ∧
        ctx = ⟨.initial bits, r, .empty (min bits maxMemoBits), theories⟩ := by
  unfold Context.create at created
  by_cases large : bits > InternTable.maxBits
  · rw [if_pos large] at created
    cases created
  · rw [if_neg large] at created
    rcases declared : theories.foldlM declare Registry.initial with e | r
    · rw [show (theories.foldlM declare .initial : Except Failure Registry) = _ from declared] at created
      cases created
    · rw [show (theories.foldlM declare .initial : Except Failure Registry) = _ from declared] at created
      cases created
      exact ⟨Nat.le_of_not_lt large, r, rfl, rfl⟩

theorem Context.create_sound {bits : Nat} {theories : List Theory} {ctx : Context}
    (created : Context.create bits theories = .ok ctx) : ctx.Sound := by
  obtain ⟨_, r, declared, rfl⟩ := create_ok created
  obtain ⟨grown, all⟩ := Registry.foldlM_grown
    (P := fun t r => ∀ d ∈ t.functions, Registry.Declares t d r)
    (fun e h d hd => (h d hd).extends e) Registry.declare_ok theories Registry.initial_sound declared
  refine ⟨Pool.initial_sound bits, grown.1, fun t ht op own => ?_, fun {h n} hn => ?_, fun hm => ?_⟩
  · subst own
    exact all op.theory ht op.decl (Theory.mem_functions op)
  · rw [(Pool.initial_node hn).2]
    exact trivial
  · rw [Memo.find?_empty] at hm
    cases hm

end PathMerge

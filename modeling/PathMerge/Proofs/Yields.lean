/-
  PathMerge.Proofs.Yields — what an action returns and what becomes of the state.

  The actions of this library fail or return, and whatever they do the state only grows: what it held
  stays as it was. `Growing` names these two notions for a type of states. `Yields x s Q` says that
  the action `x`, started in `s`, returns some `a` in a state `s'` that extends `s` and is sound, with
  `Q a s'`. `Yields.bind` chains such facts and `Yields.mapM` carries them through a list. `Attempts` allows
  the action to fail instead, in given ways.

  `Returns x s a s'` is the bare fact that `x` returns `a`, with nothing about the states, and `Fails x s e s'`
  that it fails.
-/

import Mathlib
import PathMerge.Failure

namespace PathMerge

/-- A type of states: which of them are well formed, and which of them continue which. -/
class Growing (σ : Type) where
  Sound : σ → Prop
  Extends : σ → σ → Prop
  refl : ∀ s, Extends s s
  trans : ∀ {s t u}, Extends s t → Extends t u → Extends s u

abbrev Action (σ α : Type) := ExceptT Failure (StateM σ) α

variable {σ α β : Type}

/-! ## Returning -/

def Returns (x : Action σ α) (s : σ) (a : α) (s' : σ) : Prop := x.run.run s = (.ok a, s')

theorem returns_pure (a : α) (s : σ) : Returns (pure a) s a s := rfl

theorem run_bind (x : Action σ α) (f : α → Action σ β) (s : σ) :
    (x >>= f).run.run s = match x.run.run s with
      | (.ok a, s') => (f a).run.run s'
      | (.error e, s') => (.error e, s') := by
  simp only [ExceptT.run, StateT.run, Bind.bind, ExceptT.bind, ExceptT.mk, StateT.bind]
  rcases x s with ⟨r, s'⟩
  cases r <;> rfl

theorem returns_bind {x : Action σ α} {f : α → Action σ β} {s s' s'' : σ} {a : α} {b : β}
    (hx : Returns x s a s') (hf : Returns (f a) s' b s'') : Returns (x >>= f) s b s'' := by
  unfold Returns at *
  rw [run_bind, hx]
  exact hf

/-- A chain of actions that returns has returned halfway. -/
theorem returns_of_bind {x : Action σ α} {f : α → Action σ β} {s s'' : σ} {b : β}
    (h : Returns (x >>= f) s b s'') : ∃ a s', Returns x s a s' ∧ Returns (f a) s' b s'' := by
  unfold Returns at *
  rw [run_bind] at h
  rcases hx : x.run.run s with ⟨_ | a, s'⟩
  · rw [hx] at h; cases h
  · rw [hx] at h; exact ⟨a, s', rfl, h⟩

theorem returns_unique {x : Action σ α} {s s' t' : σ} {a b : α} (h : Returns x s a s')
    (h' : Returns x s b t') : a = b ∧ s' = t' := by
  unfold Returns at *
  rw [h] at h'
  cases h'
  exact ⟨rfl, rfl⟩

/-! ## Failing -/

def Fails (x : Action σ α) (s : σ) (e : Failure) (s' : σ) : Prop := x.run.run s = (.error e, s')

theorem fails_throw (e : Failure) (s : σ) : Fails (throw e : Action σ α) s e s := rfl

theorem fails_bind_left {x : Action σ α} {f : α → Action σ β} {s s' : σ} {e : Failure} (h : Fails x s e s') :
    Fails (x >>= f) s e s' := by
  unfold Fails at *
  rw [run_bind, h]

theorem fails_bind_right {x : Action σ α} {f : α → Action σ β} {s s' s'' : σ} {a : α} {e : Failure}
    (hx : Returns x s a s') (hf : Fails (f a) s' e s'') : Fails (x >>= f) s e s'' := by
  unfold Returns at hx
  unfold Fails at *
  rw [run_bind, hx]
  exact hf

theorem fails_of_bind {x : Action σ α} {f : α → Action σ β} {s s'' : σ} {e : Failure} (h : Fails (x >>= f) s e s'') :
    Fails x s e s'' ∨ ∃ a s', Returns x s a s' ∧ Fails (f a) s' e s'' := by
  unfold Fails at *
  rw [run_bind] at h
  rcases hx : x.run.run s with ⟨_ | a, s'⟩
  · rw [hx] at h
    cases h
    exact .inl rfl
  · rw [hx] at h
    exact .inr ⟨a, s', hx, h⟩

/-- If going on in one way fails, so does going on in another that fails wherever the first one does. -/
theorem Fails.goOn {γ : Type} {x : Action σ α} {f : α → Action σ β} {g : α → Action σ γ} {s s' : σ} {e : Failure}
    (h : Fails (x >>= f) s e s') (rest : ∀ a t, Fails (f a) t e s' → Fails (g a) t e s') : Fails (x >>= g) s e s' := by
  rcases fails_of_bind h with failed | ⟨a, t, returned, failed⟩
  · exact fails_bind_left failed
  · exact fails_bind_right returned (rest a t failed)

/-! ## Returning in a sound state that extends the one before -/

variable [Growing σ]

open Growing

def Yields (x : Action σ α) (s : σ) (Q : α → σ → Prop) : Prop :=
  ∃ a s', Returns x s a s' ∧ Extends s s' ∧ Sound s' ∧ Q a s'

namespace Yields

variable {s : σ} {Q : α → σ → Prop} {R : β → σ → Prop}

theorem pure {a : α} (hs : Sound s) (h : Q a s) : Yields (Pure.pure a) s Q :=
  ⟨a, s, returns_pure a s, refl s, hs, h⟩

theorem bind {x : Action σ α} {f : α → Action σ β} (hx : Yields x s Q)
    (hf : ∀ a s', Extends s s' → Sound s' → Q a s' → Yields (f a) s' R) : Yields (x >>= f) s R := by
  obtain ⟨a, s', ra, ea, sa, qa⟩ := hx
  obtain ⟨b, s'', rb, eb, sb, qb⟩ := hf a s' ea sa qa
  exact ⟨b, s'', returns_bind ra rb, trans ea eb, sb, qb⟩

theorem mono {x : Action σ α} {Q' : α → σ → Prop} (hx : Yields x s Q)
    (h : ∀ a s', Extends s s' → Sound s' → Q a s' → Q' a s') : Yields x s Q' := by
  obtain ⟨a, s', ra, ea, sa, qa⟩ := hx
  exact ⟨a, s', ra, ea, sa, h a s' ea sa qa⟩

theorem map {x : Action σ α} {f : α → β} (hx : Yields x s fun a s' => R (f a) s') :
    Yields (f <$> x) s R := by
  rw [map_eq_pure_bind]
  exact hx.bind fun a s' _ hs h => Yields.pure hs h

/-- The fact about each element of a list, carried through `mapM`: it must survive whatever the later elements do to
the state. -/
theorem mapM {f : α → Action σ β} {P : α → β → σ → Prop} (l : List α)
    (stable : ∀ a b s' s'', Extends s s' → Sound s' → Extends s' s'' → Sound s'' → P a b s' → P a b s'')
    (hs : Sound s) (each : ∀ a ∈ l, ∀ s', Extends s s' → Sound s' → Yields (f a) s' (P a)) :
    Yields (l.mapM f) s fun bs s' => List.Forall₂ (fun a b => P a b s') l bs := by
  induction l generalizing s with
  | nil => exact Yields.pure hs .nil
  | cons a l ih =>
    rw [List.mapM_cons]
    refine (each a (by simp) s (refl s) hs).bind fun b s' he hs' hb => ?_
    have rest : Yields (l.mapM f) s' fun bs s'' => List.Forall₂ (fun a b => P a b s'') l bs := by
      refine ih (fun a b t t' ht st => stable a b t t' (trans he ht) st) hs' fun a' ha' t ht => ?_
      exact each a' (List.mem_cons_of_mem _ ha') t (trans he ht)
    refine rest.bind fun bs s'' he' hs'' hbs => Yields.pure hs'' ?_
    exact .cons (stable a b s' s'' he hs' he' hs'' hb) hbs

end Yields

/-! ## Yielding, or failing in a way that is allowed -/

/-- Started in `s`, the action yields what `Q` says, or it fails with a failure that `F` allows. -/
def Attempts (F : Failure → Prop) (x : Action σ α) (s : σ) (Q : α → σ → Prop) : Prop :=
  Yields x s Q ∨ ∃ e s', Fails x s e s' ∧ F e

namespace Attempts

variable {F : Failure → Prop} {x : Action σ α} {s s' : σ} {Q : α → σ → Prop} {R : β → σ → Prop}

theorem yields (h : Attempts (fun _ => False) x s Q) : Yields x s Q := by
  rcases h with h | ⟨_, _, _, no⟩
  · exact h
  · exact no.elim

theorem pure {a : α} (hs : Sound s) (h : Q a s) : Attempts F (Pure.pure a) s Q := .inl (Yields.pure hs h)

theorem throw {e : Failure} (allowed : F e) : Attempts F (MonadExcept.throw e : Action σ α) s Q :=
  .inr ⟨e, s, fails_throw e s, allowed⟩

theorem bind {f : α → Action σ β} (hx : Attempts F x s Q)
    (hf : ∀ a s', Extends s s' → Sound s' → Q a s' → Attempts F (f a) s' R) : Attempts F (x >>= f) s R := by
  rcases hx with ⟨a, s', ra, ea, sa, qa⟩ | ⟨e, s', failed, allowed⟩
  · rcases hf a s' ea sa qa with ⟨b, s'', rb, eb, sb, qb⟩ | ⟨e, s'', failed, allowed⟩
    · exact .inl ⟨b, s'', returns_bind ra rb, trans ea eb, sb, qb⟩
    · exact .inr ⟨e, s'', fails_bind_right ra failed, allowed⟩
  · exact .inr ⟨e, s', fails_bind_left failed, allowed⟩

theorem mono {Q' : α → σ → Prop} (hx : Attempts F x s Q)
    (h : ∀ a s', Extends s s' → Sound s' → Q a s' → Q' a s') : Attempts F x s Q' :=
  hx.imp_left fun hx => hx.mono h

/-- Whatever was returned is as the attempt says. -/
theorem of_returns {a : α} (hx : Attempts F x s Q) (ret : Returns x s a s') : Extends s s' ∧ Sound s' ∧ Q a s' := by
  rcases hx with ⟨b, t, rb, rest⟩ | ⟨e, t, failed, _⟩
  · obtain ⟨rfl, rfl⟩ := returns_unique rb ret
    exact rest
  · cases failed.symm.trans ret

end Attempts

end PathMerge

/-
  PathMerge.Proofs.State — what the symbols hold in a state.

  `Store.eval` is the value of a symbol in a store: that of the handle it is bound to, or what the
  valuation says of the symbol itself. Flattening a store and building one from bindings keep what is
  bound. Simplifying a state keeps the truth of its path condition and the value of every symbol
  (`State.simplify_yields`).
-/

import PathMerge.Proofs.PathCondition
import PathMerge.State

namespace PathMerge

open Context

/-! ## Bindings -/

namespace Bindings

def Increasing (m : Bindings) : Prop := m.Pairwise fun a b => a.1.number < b.1.number

theorem find?_cons (b : SymbolId × Handle) (m : Bindings) (y : SymbolId) :
    find? (b :: m) y = if y = b.1 then some b.2 else m.find? y := by
  unfold find?
  by_cases e : y = b.1
  · subst e
    rw [if_pos rfl]
    exact List.lookup_cons_self
  · rw [if_neg e, List.lookup_cons, beq_false_of_ne e]

/-- Binding a symbol changes what that symbol finds and nothing else. -/
theorem find?_insert (x : SymbolId) (h : Handle) (m : Bindings) (y : SymbolId) :
    (insert x h m).find? y = if y = x then some h else m.find? y := by
  induction m with
  | nil => exact find?_cons (x, h) [] y
  | cons b m ih =>
    obtain ⟨z, k⟩ := b
    unfold insert
    by_cases less : x.number < z.number
    · rw [if_pos less]
      exact find?_cons (x, h) _ y
    · rw [if_neg less]
      by_cases greater : z.number < x.number
      · rw [if_pos greater, find?_cons, ih, find?_cons]
        dsimp only
        by_cases e : y = z
        · subst e
          have : y ≠ x := by
            rintro rfl
            omega
          rw [if_pos rfl, if_neg this, if_pos rfl]
        · rw [if_neg e, if_neg e]
      · have same : x = z := by
          obtain ⟨i⟩ := x
          obtain ⟨j⟩ := z
          simp only [SymbolId.mk.injEq] at *
          omega
        subst same
        rw [if_neg greater, find?_cons, find?_cons]
        dsimp only
        split <;> rfl

theorem mem_insert {x : SymbolId} {h : Handle} {m : Bindings} {b : SymbolId × Handle} (hb : b ∈ insert x h m) :
    b = (x, h) ∨ b ∈ m := by
  induction m with
  | nil => exact .inl (List.mem_singleton.mp hb)
  | cons c m ih =>
    obtain ⟨z, k⟩ := c
    unfold insert at hb
    split at hb
    · exact List.mem_cons.mp hb
    · split at hb
      · rcases List.mem_cons.mp hb with rfl | hb
        · exact .inr List.mem_cons_self
        · exact (ih hb).imp id (List.mem_cons_of_mem _)
      · rcases List.mem_cons.mp hb with rfl | hb
        · exact .inl rfl
        · exact .inr (List.mem_cons_of_mem _ hb)

/-- Binding a symbol keeps the bindings in increasing order. -/
theorem insert_increasing {x : SymbolId} {h : Handle} {m : Bindings} (inc : m.Increasing) :
    (insert x h m).Increasing := by
  induction m with
  | nil => exact List.pairwise_singleton _ _
  | cons c m ih =>
    obtain ⟨z, k⟩ := c
    obtain ⟨first, rest⟩ := List.pairwise_cons.mp inc
    unfold insert
    split
    · rename_i less
      refine List.pairwise_cons.mpr ⟨fun b hb => ?_, inc⟩
      rcases List.mem_cons.mp hb with rfl | hb
      · exact less
      · exact Nat.lt_trans less (first b hb)
    · split
      · rename_i greater
        refine List.pairwise_cons.mpr ⟨fun b hb => ?_, ih rest⟩
        rcases mem_insert hb with rfl | hb
        · exact greater
        · exact first b hb
      · rename_i notLess notGreater
        refine List.pairwise_cons.mpr ⟨fun b hb => ?_, rest⟩
        have := first b hb
        simp only at *
        omega

theorem Increasing.nodup {m : Bindings} (inc : m.Increasing) : (m.map (·.1)).Nodup := by
  refine List.pairwise_map.mpr (inc.imp fun {a b} lt e => ?_)
  rw [e] at lt
  omega

theorem find?_of_mem {m : Bindings} (nodup : (m.map (·.1)).Nodup) {b : SymbolId × Handle} (hb : b ∈ m) :
    m.find? b.1 = some b.2 := by
  induction m with
  | nil => cases hb
  | cons c m ih =>
    rw [find?_cons]
    rcases List.mem_cons.mp hb with rfl | hb
    · exact if_pos rfl
    · have nodup := List.nodup_cons.mp nodup
      have : b.1 ≠ c.1 := fun e => nodup.1 (List.mem_map.mpr ⟨b, hb, e⟩)
      rw [if_neg this]
      exact ih nodup.2 hb

theorem mem_of_find? {m : Bindings} {x : SymbolId} {h : Handle} (found : m.find? x = some h) : (x, h) ∈ m := by
  induction m with
  | nil => cases found
  | cons c m ih =>
    rw [find?_cons] at found
    split at found
    · rename_i e
      cases found
      rw [e]
      exact List.mem_cons_self
    · exact List.mem_cons_of_mem _ (ih found)

theorem find?_foldl (bs : List (SymbolId × Handle)) (nodup : (bs.map (·.1)).Nodup) (m : Bindings) (x : SymbolId) :
    find? (bs.foldl (fun m b => insert b.1 b.2 m) m) x = (find? bs x).or (m.find? x) := by
  induction bs generalizing m with
  | nil => rfl
  | cons b bs ih =>
    obtain ⟨new, nodup⟩ := List.nodup_cons.mp nodup
    rw [List.foldl_cons, ih nodup, find?_insert, find?_cons]
    by_cases e : x = b.1
    · rw [if_pos e, if_pos e]
      rcases found : find? bs x with _ | k
      · rfl
      · exact absurd (List.mem_map.mpr ⟨(x, k), mem_of_find? found, e⟩) new
    · rw [if_neg e, if_neg e]

theorem find?_ofList {bs : List (SymbolId × Handle)} (nodup : (bs.map (·.1)).Nodup) (x : SymbolId) :
    (ofList bs).find? x = find? bs x :=
  (find?_foldl bs nodup [] x).trans Option.or_none

theorem foldl_increasing (bs : List (SymbolId × Handle)) {m : Bindings} (inc : m.Increasing) :
    Increasing (bs.foldl (fun m b => insert b.1 b.2 m) m) := by
  induction bs generalizing m with
  | nil => exact inc
  | cons b bs ih => exact ih (insert_increasing inc)

theorem ofList_increasing (bs : List (SymbolId × Handle)) : (ofList bs).Increasing := foldl_increasing bs .nil

theorem insert_last {acc : Bindings} {x : SymbolId} {v : Handle} (below : ∀ b ∈ acc, b.1.number < x.number) :
    insert x v acc = acc ++ [(x, v)] := by
  induction acc with
  | nil => rfl
  | cons b acc ih =>
    have first := below b List.mem_cons_self
    unfold insert
    rw [if_neg (Nat.not_lt.mpr (Nat.le_of_lt first)), if_pos first,
      ih fun c hc => below c (List.mem_cons_of_mem _ hc)]
    rfl

theorem ofList_of_increasing {bs : Bindings} (inc : bs.Increasing) : ofList bs = bs := by
  have fold : ∀ (bs acc : Bindings), Increasing (acc ++ bs) →
      bs.foldl (fun m b => insert b.1 b.2 m) acc = acc ++ bs := by
    intro bs
    induction bs with
    | nil => exact fun acc _ => (List.append_nil acc).symm
    | cons b bs ih =>
      intro acc inc
      have below := (List.pairwise_append.mp inc).2.2
      rw [List.foldl_cons, insert_last fun c hc => below c hc b List.mem_cons_self, ih, List.append_assoc]
      · rfl
      · rwa [List.append_assoc]
  exact fold bs [] inc

end Bindings

/-! ## Stores -/

namespace Store

variable {s t : Store} {x y : SymbolId} {h : Handle}

theorem get?_compose (s t : Store) (x : SymbolId) : (s.compose t).get? x = (t.get? x).or (s.get? x) := by
  cases s <;> cases t <;> simp [compose, get?]

theorem get?_assign (s : Store) (x : SymbolId) (h : Handle) (y : SymbolId) :
    (s.assign x h).get? y = if x = y then some h else s.get? y := by
  unfold assign
  rw [get?_compose]
  by_cases e : x = y <;> simp [get?, e]

theorem find?_flattenOnto (s : Store) (m : Bindings) (x : SymbolId) :
    (s.flattenOnto m).find? x = (s.get? x).or (m.find? x) := by
  induction s generalizing m with
  | empty => rfl
  | single y h =>
    show (Bindings.insert y h m).find? x = _
    rw [Bindings.find?_insert]
    by_cases e : y = x
    · simp [get?, e]
    · simp [get?, e, Ne.symm e]
  | parallel a b iha ihb =>
    show (b.flattenOnto (a.flattenOnto m)).find? x = _
    rw [ihb, iha]
    exact (Option.or_assoc).symm

theorem find?_flatten (s : Store) (x : SymbolId) : s.flatten.find? x = s.get? x :=
  (find?_flattenOnto s [] x).trans Option.or_none

theorem flatten_increasing (s : Store) : s.flatten.Increasing := by
  have onto : ∀ (s : Store) (m : Bindings), m.Increasing → (s.flattenOnto m).Increasing := by
    intro s
    induction s with
    | empty => exact fun _ h => h
    | single y k => exact fun _ h => Bindings.insert_increasing h
    | parallel a b iha ihb => exact fun m h => ihb _ (iha m h)
  exact onto s [] .nil

theorem mem_flatten {b : SymbolId × Handle} (hb : b ∈ s.flatten) : s.get? b.1 = some b.2 := by
  rw [← find?_flatten]
  exact Bindings.find?_of_mem s.flatten_increasing.nodup hb

theorem mem_flatten_keys {x : SymbolId} : x ∈ s.flatten.map (·.1) ↔ ∃ h, s.get? x = some h := by
  rw [List.mem_map]
  constructor
  · rintro ⟨b, hb, rfl⟩
    exact ⟨b.2, mem_flatten hb⟩
  · rintro ⟨h, bound⟩
    rw [← find?_flatten] at bound
    exact ⟨(x, h), Bindings.mem_of_find? bound, rfl⟩

theorem get?_foldr {m : Bindings} (nodup : (m.map (·.1)).Nodup) (x : SymbolId) :
    get? x (m.foldr (fun b later => compose (.single b.1 b.2) later) .empty) = m.find? x := by
  induction m with
  | nil => rfl
  | cons b m ih =>
    obtain ⟨new, nodup⟩ := List.nodup_cons.mp nodup
    rw [List.foldr_cons, get?_compose, ih nodup, Bindings.find?_cons]
    by_cases e : x = b.1
    · rw [if_pos e]
      rcases found : Bindings.find? m x with _ | k
      · simp [get?, e]
      · exact absurd (List.mem_map.mpr ⟨(x, k), Bindings.mem_of_find? found, e⟩) new
    · rw [if_neg e]
      simp [get?, Ne.symm e]

theorem get?_ofBindings {bs : List (SymbolId × Handle)} (nodup : (bs.map (·.1)).Nodup) (x : SymbolId) :
    (ofBindings bs).get? x = Bindings.find? bs x :=
  (get?_foldr (Bindings.ofList_increasing bs).nodup x).trans (Bindings.find?_ofList nodup x)

theorem flattenOnto_compose (s t : Store) (m : Bindings) :
    (s.compose t).flattenOnto m = t.flattenOnto (s.flattenOnto m) := by
  cases s <;> cases t <;> rfl

theorem flatten_ofBindings {bs : Bindings} (inc : bs.Increasing) : (ofBindings bs).flatten = bs := by
  have fold : ∀ (bs m : Bindings),
      (bs.foldr (fun b later => compose (.single b.1 b.2) later) .empty).flattenOnto m =
        bs.foldl (fun m b => Bindings.insert b.1 b.2 m) m := by
    intro bs
    induction bs with
    | nil => exact fun m => rfl
    | cons b bs ih =>
      intro m
      rw [List.foldr_cons, List.foldl_cons, flattenOnto_compose, ih]
      rfl
  have entered : (ofBindings bs).flatten = Bindings.ofList (Bindings.ofList bs) := fold _ []
  rw [entered, Bindings.ofList_of_increasing inc, Bindings.ofList_of_increasing inc]

noncomputable def eval (ctx : Context) (I : Interpretation) (v : Valuation) (s : Store) (x : SymbolId) :
    Option Value :=
  match s.get? x with
  | some h => ctx.eval I v h
  | none => some (v x)

theorem eval_bound {ctx : Context} {I : Interpretation} {v : Valuation} (bound : s.get? x = some h) :
    s.eval ctx I v x = ctx.eval I v h := by
  unfold eval
  rw [bound]

theorem eval_unbound {ctx : Context} {I : Interpretation} {v : Valuation} (unbound : s.get? x = none) :
    s.eval ctx I v x = some (v x) := by
  unfold eval
  rw [unbound]

theorem eval_congr {ctx : Context} {I : Interpretation} {v : Valuation} {t : Store} (same : s.get? x = t.get? x) :
    s.eval ctx I v x = t.eval ctx I v x := by
  unfold eval
  rw [same]

end Store

/-! ## States -/

namespace State

variable {ctx ctx' ctx'' : Context} {I : Interpretation} {v : Valuation} {s t u : State}

/-- The handles of the state are those of the context, and the symbols it binds are registered. -/
structure Valid (ctx : Context) (s : State) : Prop where
  path : s.path.Valid ctx
  store : ∀ {x h}, s.store.get? x = some h → ctx.Has h ∧ x.number < ctx.symbols.size

theorem Valid.extends (e : ctx.Extends ctx') (h : s.Valid ctx) : s.Valid ctx' :=
  ⟨h.path.extends e, fun bound => ⟨e.has (h.store bound).1, Nat.lt_of_lt_of_le (h.store bound).2 e.symbols.size_le⟩⟩

theorem initial_valid (ctx : Context) : initial.Valid ctx := ⟨nofun, nofun⟩

theorem eval_extends (hc : ctx.Sound) (e : ctx.Extends ctx') (h : s.Valid ctx) (x : SymbolId) :
    s.store.eval ctx' I v x = s.store.eval ctx I v x := by
  unfold Store.eval
  cases bound : s.store.get? x with
  | none => rfl
  | some k => exact Context.eval_extends hc e (h.store bound).1

theorem eval_agree {v' : Valuation} (hc : ctx.Sound)
    (agree : ∀ y : SymbolId, y.number < ctx.symbols.size → v y = v' y) (h : s.Valid ctx) {x : SymbolId}
    (registered : x.number < ctx.symbols.size) : s.store.eval ctx I v x = s.store.eval ctx I v' x := by
  unfold Store.eval
  cases bound : s.store.get? x with
  | none => exact congrArg some (agree x registered)
  | some k => exact Context.eval_agree hc agree (h.store bound).1

/-- The state `t` of `ctx'` has the path condition and the values of the state `s` of `ctx` where these have any, and
binds no other symbols. -/
structure Refined (ctx : Context) (s : State) (t : State) (ctx' : Context) : Prop where
  valid : t.Valid ctx'
  path : ∀ I v, Below (s.path.truth ctx I v) (t.path.truth ctx' I v)
  store : ∀ I v x, Below (s.store.eval ctx I v x) (t.store.eval ctx' I v x)
  bound : ∀ {x h}, t.store.get? x = some h → ∃ k, s.store.get? x = some k

theorem Refined.later {ctx'' : Context} (hc' : ctx'.Sound) (e : ctx'.Extends ctx'') {t : State}
    (h : Refined ctx s t ctx') :
    Refined ctx s t ctx'' := by
  refine ⟨h.valid.extends e, fun I v => ?_, fun I v x => ?_, h.bound⟩
  · rw [PathCondition.truth_extends hc' e h.valid.path]
    exact h.path I v
  · rw [eval_extends hc' e h.valid]
    exact h.store I v x

theorem Refined.earlier {ctx'' : Context} (hc : ctx.Sound) (e : ctx.Extends ctx') (valid : s.Valid ctx) {t : State}
    (h : Refined ctx' s t ctx'') : Refined ctx s t ctx'' := by
  refine ⟨h.valid, fun I v => ?_, fun I v x => ?_, h.bound⟩
  · rw [← PathCondition.truth_extends hc e valid.path]
    exact h.path I v
  · rw [← eval_extends hc e valid]
    exact h.store I v x

/-- What becomes of a binding: it goes if it binds the symbol to itself. -/
def Kept (ctx : Context) (b : SymbolId × Handle) (r : Option (SymbolId × Handle)) (ctx' : Context) : Prop :=
  match r with
  | some c => c.1 = b.1 ∧ ctx.Refined b.2 c.2 ctx'
  | none => ∀ I v, Below (ctx.eval I v b.2) (some (v b.1))

/-- A handle recognised as a symbol stands for that symbol. -/
theorem asSymbol?_yields (hc : ctx.Sound) {h : Handle} (hh : ctx.Has h) :
    Yields (ContextM.asking (·.asSymbol? h)) ctx fun r ctx' => ctx = ctx' ∧
      ∀ y, r = some y → ContextM.Stands ctx y h := by
  have answer : ∃ r, ctx.asSymbol? h = .ok r ∧ ∀ y, r = some y → ContextM.Stands ctx y h := by
    unfold asSymbol?
    by_cases sign : h.negated = true
    · rw [if_pos sign]
      exact ⟨none, rfl, nofun⟩
    · rw [if_neg sign]
      obtain ⟨n, hn⟩ := Pool.has_iff.mp hh
      have node : ctx.node h = .ok n := InternTable.value_eq_ok.mpr hn
      rw [node]
      cases n with
      | symbol y =>
        refine ⟨some y, rfl, fun z e => ?_⟩
        cases e
        exact ⟨by simpa using sign, hn⟩
      | _ => exact ⟨none, rfl, nofun⟩
  obtain ⟨r, hr, facts⟩ := answer
  refine (ContextM.asking_yields hc hr).mono ?_
  rintro _ _ _ _ ⟨rfl, rfl⟩
  exact ⟨rfl, facts⟩

theorem simplifyBinding_yields (hc : ctx.Sound) (b : SymbolId × Handle) (has : ctx.Has b.2) :
    Yields (simplifyBinding b) ctx (Kept ctx b) := by
  unfold simplifyBinding
  refine (PathMerge.simplify_yields hc has).bind fun k ctx₁ e₁ hc₁ refined => ?_
  refine (asSymbol?_yields hc₁ refined.has).bind ?_
  rintro r _ _ _ ⟨rfl, stands⟩
  by_cases self : r = some b.1
  · rw [if_pos self]
    refine Yields.pure hc₁ fun I v => ?_
    rw [← (stands b.1 self).eval hc₁ I v]
    exact refined.value I v
  · rw [if_neg self]
    exact Yields.pure hc₁ ⟨rfl, refined⟩

/-- Bindings that are kept under their symbols, or dropped, bind the same symbols, each as it was kept. -/
theorem find?_kept {P : SymbolId × Handle → Option (SymbolId × Handle) → Prop}
    (named : ∀ {b c}, P b (some c) → c.1 = b.1) {m : Bindings} {rs : List (Option (SymbolId × Handle))}
    (kept : List.Forall₂ P m rs) (x : SymbolId) (nodup : (m.map (·.1)).Nodup) :
    (m.find? x = none ∧ Bindings.find? (rs.filterMap id) x = none) ∨
      ∃ h r, m.find? x = some h ∧ P (x, h) r ∧ Bindings.find? (rs.filterMap id) x = r.map (·.2) := by
  induction kept with
  | nil => exact .inl ⟨rfl, rfl⟩
  | cons hb hrest ih =>
    rename_i b r m rs
    obtain ⟨new, nodup⟩ := List.nodup_cons.mp nodup
    have ih := ih nodup
    rw [Bindings.find?_cons]
    by_cases e : x = b.1
    · subst e
      rw [if_pos rfl]
      refine .inr ⟨b.2, r, rfl, hb, ?_⟩
      cases r with
      | some c =>
        rw [show (some c :: rs).filterMap id = c :: rs.filterMap id from rfl, Bindings.find?_cons,
          if_pos (named hb).symm]
        rfl
      | none =>
        rw [show (none :: rs).filterMap id = rs.filterMap id from rfl]
        rcases ih with ⟨_, h⟩ | ⟨h, _, found, _⟩
        · exact h
        · exact absurd (List.mem_map_of_mem (Bindings.mem_of_find? found)) new
    · rw [if_neg e]
      cases r with
      | some c =>
        have : ¬ x = c.1 := by
          rw [named hb]
          exact e
        rw [show (some c :: rs).filterMap id = c :: rs.filterMap id from rfl, Bindings.find?_cons, if_neg this]
        exact ih
      | none =>
        rw [show (none :: rs).filterMap id = rs.filterMap id from rfl]
        exact ih

/-- Dropping bindings of symbols to themselves leaves every other symbol bound once. -/
theorem kept_nodup {m : Bindings} {rs : List (Option (SymbolId × Handle))}
    (kept : List.Forall₂ (fun b r => Kept ctx b r ctx') m rs) (nodup : (m.map (·.1)).Nodup) :
    ((rs.filterMap id).map (·.1)).Nodup ∧ ∀ x ∈ (rs.filterMap id).map (·.1), x ∈ m.map (·.1) := by
  induction kept with
  | nil => exact ⟨.nil, fun _ h => h⟩
  | cons hb hrest ih =>
    rename_i b r m rs
    obtain ⟨new, nodup⟩ := List.nodup_cons.mp nodup
    obtain ⟨nodup', sub⟩ := ih nodup
    cases r with
    | some c =>
      rw [show (some c :: rs).filterMap id = c :: rs.filterMap id from rfl, List.map_cons, List.map_cons]
      have new' : c.1 ∉ (rs.filterMap id).map (·.1) := by
        intro hm
        have := sub _ hm
        rw [hb.1] at this
        exact new this
      refine ⟨List.nodup_cons.mpr ⟨new', nodup'⟩, fun x hx => ?_⟩
      rcases List.mem_cons.mp hx with rfl | hx
      · rw [hb.1]
        exact List.mem_cons_self
      · exact List.mem_cons_of_mem _ (sub x hx)
    | none =>
      rw [show (none :: rs).filterMap id = rs.filterMap id from rfl, List.map_cons]
      exact ⟨nodup', fun x hx => List.mem_cons_of_mem _ (sub x hx)⟩

theorem simplifyBindings_yields {ctx₀ : Context} (hc₀ : ctx₀.Sound) (hc : ctx.Sound) (e₀ : ctx₀.Extends ctx)
    (hs : s.Valid ctx₀) : Yields (s.store.flatten.mapM simplifyBinding) ctx fun rs ctx' =>
      List.Forall₂ (fun b r => Kept ctx₀ b r ctx') s.store.flatten rs := by
  refine Yields.mapM (P := fun b r c => Kept ctx₀ b r c) _ ?_ hc ?_
  · intro b r ctx₁ ctx₂ _ hc₁ e _ kept
    cases r with
    | some c => exact ⟨kept.1, kept.2.later hc₁ e⟩
    | none => exact kept
  · intro b hb ctx₁ e hc₁
    have has := (hs.store (Store.mem_flatten hb)).1
    refine (simplifyBinding_yields hc₁ b ((e₀.trans e).has has)).mono fun r ctx₂ _ _ kept => ?_
    cases r with
    | some c => exact ⟨kept.1, kept.2.earlier hc₀ (e₀.trans e) has⟩
    | none =>
      intro I v
      rw [← Context.eval_extends hc₀ (e₀.trans e) has]
      exact kept I v

/-- The store of the kept bindings: a symbol is bound nowhere, or as it was kept. -/
theorem get?_kept {rs : List (Option (SymbolId × Handle))}
    (kept : List.Forall₂ (fun b r => Kept ctx b r ctx') s.store.flatten rs) (x : SymbolId) :
    (s.store.get? x = none ∧ (Store.ofBindings (rs.filterMap id)).get? x = none) ∨
      ∃ h r, s.store.get? x = some h ∧ Kept ctx (x, h) r ctx' ∧
        (Store.ofBindings (rs.filterMap id)).get? x = r.map (·.2) := by
  have nodup := s.store.flatten_increasing.nodup
  rw [Store.get?_ofBindings (kept_nodup kept nodup).1, ← Store.find?_flatten]
  exact find?_kept (fun kept => kept.1) kept x nodup

/-- Simplifying a state keeps its path condition and its values wherever they are defined. -/
theorem simplify_yields (hc : ctx.Sound) (hs : s.Valid ctx) :
    Yields s.simplify ctx fun t ctx' => Refined ctx s t ctx' := by
  unfold simplify
  refine (PathCondition.simplify_yields hc hs.path).bind fun path ctx₁ e₁ hc₁ hpath => ?_
  refine (simplifyBindings_yields hc hc₁ e₁ hs).bind fun rs ctx₂ e₂ hc₂ kept => Yields.pure hc₂ ?_
  refine ⟨⟨hpath.1.extends e₂, fun {x h} bound => ?_⟩, fun I v => ?_, fun I v x => ?_, fun {x h} bound => ?_⟩
  · rcases get?_kept kept x with ⟨_, none⟩ | ⟨k, r, old, hr, new⟩
    · rw [none] at bound
      cases bound
    · rw [new] at bound
      obtain ⟨c, rfl, rfl⟩ := Option.map_eq_some_iff.mp bound
      exact ⟨hr.2.has, Nat.lt_of_lt_of_le (hs.store old).2 (e₁.trans e₂).symbols.size_le⟩
  · rw [PathCondition.truth_extends hc₁ e₂ hpath.1]
    exact hpath.2 I v
  · rcases get?_kept kept x with ⟨old, new⟩ | ⟨k, r, old, hr, new⟩
    · rw [Store.eval_unbound old, Store.eval_unbound new]
      exact Below.refl _
    · rw [Store.eval_bound old]
      cases r with
      | some c =>
        rw [Store.eval_bound (h := c.2) new]
        exact hr.2.value I v
      | none =>
        rw [Store.eval_unbound new]
        exact hr I v
  · rcases get?_kept kept x with ⟨_, none⟩ | ⟨k, r, old, _, _⟩
    · rw [none] at bound
      cases bound
    · exact ⟨k, old⟩

end State

end PathMerge

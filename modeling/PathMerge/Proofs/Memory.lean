/-
  PathMerge.Proofs.Memory — what is remembered is what would be computed.

  A memory is faithful when simplifying a key again, without any memory, returns what is remembered
  under it and makes no node. `Mirrors x y` compares an action with one that uses no memory: whatever `y`
  returns, `x` returns too, from every context that looks the same and has a faithful memory, and
  afterwards the contexts look the same again. The simplifier mirrors the simplification without a memory
  (`simplifyWithin_settles`), whatever its memory has kept and forgotten, and what both return is a
  normal form.
-/

import PathMerge.Proofs.Normal

namespace PathMerge

open Context ContextM

variable {α β : Type} {ctx ctx' ref ref' : Context}

/-- Simplifying a remembered key again returns what is remembered and changes nothing. -/
def Context.Faithful (ctx : Context) : Prop :=
  ∀ key k, ctx.memo.find? key = some k → ∃ depth, Returns (plainWithin depth key) ctx k ctx

theorem Context.Alike.later (h : ctx.Alike ctx') : ctx.Later ctx' := by
  refine ⟨⟨fun {k n} hn => ?_, fun k => ?_⟩, ?_, h.theories.symm⟩
  · rw [← h.pool.node? k]
    exact hn
  · rw [h.pool.treeSize]
  · rw [h.symbols]
    exact .refl _

theorem Context.Alike.symm (h : ctx.Alike ctx') : ctx'.Alike ctx :=
  ⟨⟨h.pool.values.symm, h.pool.sizes.symm⟩, h.symbols.symm, h.theories.symm⟩

theorem Context.Alike.trans {ctx'' : Context} (h : ctx.Alike ctx') (h' : ctx'.Alike ctx'') : ctx.Alike ctx'' :=
  ⟨⟨h.pool.values.trans h'.pool.values, h.pool.sizes.trans h'.pool.sizes⟩, h.symbols.trans h'.symbols,
    h.theories.trans h'.theories⟩

theorem Context.Alike.memo (h : ctx.Alike ctx') (m : Memo) : Context.Alike { ctx with memo := m } ctx' :=
  ⟨h.pool, h.symbols, h.theories⟩

/-- What is kept of a faithful memory stays faithful while the context grows. -/
theorem Context.Faithful.later (faithful : ctx.Faithful) (later : ctx.Later ctx') (tidy : ctx'.pool.Tidy)
    (kept : ∀ key k, ctx'.memo.find? key = some k → ctx.memo.find? key = some k) : ctx'.Faithful := by
  intro key k found
  obtain ⟨depth, ret⟩ := faithful key k (kept key k found)
  exact ⟨depth, (plainWithin_steady depth key).repeats ret tidy later⟩

structure Reflects (ctx ref : Context) : Prop where
  alike : ctx.Alike ref
  tidy : ctx.pool.Tidy
  faithful : ctx.Faithful

theorem Reflects.later_of (h : Reflects ctx ref) : ref.Later ctx := h.alike.symm.later

/-! ## Mirroring -/

/-- Whatever `y` returns from `ref`, `x` returns from every context that reflects `ref`. -/
def Mirrors (x y : ContextM α) (ref : Context) (Q : α → Context → Prop) : Prop :=
  ∀ a ref', Returns y ref a ref' → ref.Later ref' ∧ ref'.Sound ∧ Q a ref' ∧
    ∀ ctx, Reflects ctx ref → ∃ ctx', Returns x ctx a ctx' ∧ Reflects ctx' ref'

namespace Mirrors

variable {Q : α → Context → Prop} {R : β → Context → Prop}

theorem pure {a : α} (sound : ref.Sound) (h : Q a ref) : Mirrors (Pure.pure a) (Pure.pure a) ref Q := by
  intro b ref' ret
  cases ret
  exact ⟨.refl ref, sound, h, fun ctx reflects => ⟨ctx, rfl, reflects⟩⟩

theorem bind {x y : ContextM α} {f g : α → ContextM β} (hx : Mirrors x y ref Q)
    (hf : ∀ a ref', ref.Later ref' → ref'.Sound → Q a ref' → Mirrors (f a) (g a) ref' R) :
    Mirrors (x >>= f) (y >>= g) ref R := by
  intro b ref'' ret
  obtain ⟨a, ref', ra, rb⟩ := returns_of_bind ret
  obtain ⟨later, sound, qa, mirrored⟩ := hx a ref' ra
  obtain ⟨later', sound', rb, mirrored'⟩ := hf a ref' later sound qa b ref'' rb
  refine ⟨later.trans later', sound', rb, fun ctx reflects => ?_⟩
  obtain ⟨ctx', ra', reflects'⟩ := mirrored ctx reflects
  obtain ⟨ctx'', rb', reflects''⟩ := mirrored' ctx' reflects'
  exact ⟨ctx'', returns_bind ra' rb', reflects''⟩

/-- A steady action mirrors itself. -/
theorem steady {x : ContextM α} (hx : Steady x)
    (spec : ∀ a ref', Returns x ref a ref' → ref'.Sound ∧ Q a ref') (tidy : ref.pool.Tidy) : Mirrors x x ref Q := by
  intro a ref' ret
  obtain ⟨sound, qa⟩ := spec a ref' ret
  refine ⟨(hx.of_returns ret).later, sound, qa, fun ctx reflects => ?_⟩
  obtain ⟨same, alike⟩ := hx.blind reflects.tidy tidy reflects.alike
  have grown := hx.grows ctx
  have tidy' := hx.tidies reflects.tidy
  rw [show x.run.run ref = _ from ret] at same alike
  refine ⟨(x.run.run ctx).2, Prod.ext same rfl, alike, tidy', ?_⟩
  refine reflects.faithful.later grown.later tidy' fun key k found => ?_
  rwa [grown.memo] at found

theorem mapM {f g : α → ContextM β} {P : β → Context → Prop} (l : List α)
    (stable : ∀ {b c c'}, c.Later c' → c'.Sound → P b c → P b c') (sound : ref.Sound)
    (each : ∀ a ∈ l, ∀ c, ref.Later c → c.Sound → Mirrors (f a) (g a) c P) :
    Mirrors (l.mapM f) (l.mapM g) ref fun bs c => bs.length = l.length ∧ ∀ b ∈ bs, P b c := by
  induction l generalizing ref with
  | nil => exact Mirrors.pure sound ⟨rfl, List.forall_mem_nil _⟩
  | cons a l ih =>
    rw [List.mapM_cons, List.mapM_cons]
    refine (each a (by simp) ref (.refl ref) sound).bind fun b c later hc pb => ?_
    have rest := ih hc fun a' ha' c' later' => each a' (List.mem_cons_of_mem _ ha') c' (later.trans later')
    refine rest.bind fun bs c' later' hc' all => Mirrors.pure hc' ⟨?_, ?_⟩
    · rw [List.length_cons, List.length_cons, all.1]
    · exact List.forall_mem_cons.mpr ⟨stable later' hc' pb, all.2⟩

end Mirrors

/-! ## Building again -/

def Settles (s t : Handle → ContextM Handle) : Prop :=
  ∀ ref h, ref.Sound → ref.Has h → Mirrors (s h) (t h) ref fun k c => c.Normal k

theorem Settles.mapM {s t : Handle → ContextM Handle} (settles : Settles s t) (sound : ref.Sound) {args : List Handle}
    (has : ∀ a ∈ args, ref.Has a) :
    Mirrors (args.mapM s) (args.mapM t) ref fun ks c => ks.length = args.length ∧ ∀ k ∈ ks, c.Normal k :=
  Mirrors.mapM args (fun later sound normal => normal.later later sound.pool.tidy) sound
    fun a ha c later sound => settles c a sound (later.extends.has (has a ha))

/-- Rebuilding an application with the memo gives what rebuilding without it gives. -/
theorem rebuild_app_settles {s t : Handle → ContextM Handle} (settles : Settles s t) (sound : ref.Sound) {h : Handle}
    {f : SymbolId} {args : List Handle} (hn : ref.pool.node? h = some (.app f args)) :
    Mirrors (rebuild s h (.app f args)) (rebuild t h (.app f args)) ref fun k c => c.Normal k := by
  obtain ⟨name, sort, owner, hf⟩ := sound.registered hn
  have hasArgs : ∀ a ∈ args, ref.Has a := fun a ha => sound.pool.has_child hn ha
  refine (settles.mapM sound hasArgs).bind fun args' c₁ later₁ sound₁ normal => ?_
  have hf₁ := later₁.symbols.get hf
  rw [← normal.1] at hf₁
  have has : ∀ a ∈ args', c₁.Has a := fun a ha => (normal.2 a ha).has
  refine (Mirrors.steady (rewrite_straight f args').toSteady (fun r c₂ ret => ?_) sound₁.pool.tidy).bind
    (Q := fun r c₂ => Returns (rewrite f args') c₂ r c₂ ∧ ∀ k, r = some k → c₂.Has k)
    fun r c₂ later₂ sound₂ rewritten => ?_
  · obtain ⟨_, sound₂, replaced⟩ := (rewrite_yields sound₁ hf₁ rfl has).of_returns ret
    exact ⟨sound₂, (rewrite_straight f args').repeats ret sound₂.pool.tidy (.refl c₂), fun k hk => (replaced k hk).has⟩
  · cases r with
    | some result => exact settles c₂ result sound₂ (rewritten.2 result rfl)
    | none =>
      have hf₂ := later₂.symbols.get hf₁
      have has₂ : ∀ a ∈ args', c₂.Has a := fun a ha => later₂.extends.has (has a ha)
      refine Mirrors.steady (apply_straight f args').toSteady (fun k c₃ ret => ?_) sound₂.pool.tidy
      obtain ⟨_, sound₃, sign, _, hk⟩ := (apply_yields sound₂ hf₂ rfl has₂).of_returns ret
      have later₃ := ((apply_straight f args').of_returns ret).later
      refine ⟨sound₃, .intro hk (fun a ha => ?_) ?_⟩
      · exact (normal.2 a ha).later (later₂.trans later₃) sound₃.pool.tidy
      · rintro _ _ ⟨⟩
        exact (rewrite_straight f args').repeats rewritten.1 sound₃.pool.tidy later₃

theorem rebuild_summary_settles {s t : Handle → ContextM Handle} (settles : Settles s t) (sound : ref.Sound)
    {h : Handle} {bs : List Branch} (hn : ref.pool.node? h = some (.summary bs)) :
    Mirrors (rebuild s h (.summary bs)) (rebuild t h (.summary bs)) ref fun k c => c.Normal k := by
  have has : ∀ b ∈ bs, ref.Has b.1 ∧ ref.Has b.2 := fun b hb =>
    ⟨sound.pool.has_child hn (Node.mem_children_summary hb).1, sound.pool.has_child hn (Node.mem_children_summary hb).2⟩
  have nonempty : bs ≠ [] := sound.registered hn
  refine (Mirrors.mapM (P := fun (b : Branch) c => c.Normal b.1 ∧ c.Normal b.2) bs (fun later sound normal => ?_) sound
    fun b hb c later sound => ?_).bind fun bs' c₁ later₁ sound₁ normal => ?_
  · exact ⟨normal.1.later later sound.pool.tidy, normal.2.later later sound.pool.tidy⟩
  · refine (settles c b.1 sound (later.extends.has (has b hb).1)).bind fun g c' later' sound' hg => ?_
    refine (settles c' b.2 sound' ((later.trans later').extends.has (has b hb).2)).bind
      fun v c'' later'' sound'' hv => ?_
    exact Mirrors.pure sound'' ⟨hg.later later'' sound''.pool.tidy, hv⟩
  · have hasAll : c₁.pool.HasAll bs' := fun b hb => ⟨(normal.2 b hb).1.has, (normal.2 b hb).2.has⟩
    have nonempty' : bs' ≠ [] := by
      rintro rfl
      exact nonempty (List.length_eq_zero_iff.mp normal.1.symm)
    refine Mirrors.steady (choice_steady bs') (fun k c₂ ret => ?_) sound₁.pool.tidy
    obtain ⟨_, sound₂, _⟩ := (ContextM.choice_yields sound₁ hasAll nonempty').of_returns ret
    refine ⟨sound₂, ?_⟩
    obtain ⟨p, chosen, rfl⟩ := returns_onPool.mp ret
    rcases choice_nest (Normal.nest c₁) sound₁.pool normal.2 hasAll chosen with settled | ⟨made, hk, inside⟩
    · exact settled
    · refine .intro hk (fun c hc => ?_) (fun _ _ e => by cases e)
      obtain ⟨b, hb, hc⟩ := List.mem_flatMap.mp hc
      rcases List.mem_cons.mp hc with rfl | hc
      · exact (inside b hb).1
      · exact List.mem_singleton.mp hc ▸ (inside b hb).2

theorem rebuild_eq_settles {s t : Handle → ContextM Handle} (settles : Settles s t) (sound : ref.Sound) {h a b : Handle}
    (hn : ref.pool.node? h = some (.eq a b)) :
    Mirrors (rebuild s h (.eq a b)) (rebuild t h (.eq a b)) ref fun k c => c.Normal k := by
  have ha : ref.Has a := sound.pool.has_child hn (by simp [Node.children])
  have hb : ref.Has b := sound.pool.has_child hn (by simp [Node.children])
  refine (settles ref a sound ha).bind fun a' c₁ later₁ sound₁ na => ?_
  refine (settles c₁ b sound₁ (later₁.extends.has hb)).bind fun b' c₂ later₂ sound₂ nb => ?_
  have na := na.later later₂ sound₂.pool.tidy
  refine Mirrors.steady (ContextM.equation_straight a' b').toSteady (fun k c₃ ret => ?_) sound₂.pool.tidy
  obtain ⟨_, sound₃, _⟩ := (ContextM.equation_yields sound₂ na.has nb.has).of_returns ret
  have later₃ := ((ContextM.equation_straight a' b').of_returns ret).later
  have na := na.later later₃ sound₃.pool.tidy
  have nb := nb.later later₃ sound₃.pool.tidy
  refine ⟨sound₃, ?_⟩
  obtain ⟨p, equated, rfl⟩ := returns_onPool.mp ret
  rcases equation_cases equated with ⟨decided, _⟩ | made
  · simp only [List.mem_cons, List.not_mem_nil, or_false] at decided
    rcases decided with rfl | rfl | rfl | rfl | rfl | rfl
    exacts [.tt sound₃.pool, (Normal.tt sound₃.pool).neg, na, nb, na.neg, nb.neg]
  · obtain ⟨_, hk, _⟩ := returns_intern made
    refine .intro hk (fun c hc => ?_) (fun _ _ e => by cases e)
    rcases List.mem_cons.mp hc with rfl | hc
    · exact na
    · exact List.mem_singleton.mp hc ▸ nb

theorem rebuild_junction_settles {s t : Handle → ContextM Handle} (settles : Settles s t) (sound : ref.Sound)
    {h : Handle} {c : Connective} {items : List Handle} (hn : ref.pool.node? h = some (.junction c items)) :
    Mirrors (rebuild s h (.junction c items)) (rebuild t h (.junction c items)) ref fun k c => c.Normal k := by
  refine (settles.mapM sound fun a ha => sound.pool.has_child hn ha).bind fun items' c₁ later₁ sound₁ normal => ?_
  have has : ∀ a ∈ items', c₁.Has a := fun a ha => (normal.2 a ha).has
  refine Mirrors.steady (ContextM.join_straight c items').toSteady (fun k c₂ ret => ?_) sound₁.pool.tidy
  obtain ⟨_, sound₂, _⟩ := (ContextM.join_yields sound₁ c has).of_returns ret
  obtain ⟨p, joined, rfl⟩ := returns_onPool.mp ret
  exact ⟨sound₂, join_nest (Normal.nest c₁) sound₁.pool has normal.2 joined⟩

theorem rebuild_settles {s t : Handle → ContextM Handle} (settles : Settles s t) (sound : ref.Sound) {h : Handle}
    {n : Node} (hn : ref.pool.node? h = some n) :
    Mirrors (rebuild s h n) (rebuild t h n) ref fun k c => c.Normal k := by
  cases n with
  | truth | literal _ | symbol _ => exact Mirrors.pure sound (.intro hn (List.forall_mem_nil _) fun _ _ e => by cases e)
  | app f args => exact rebuild_app_settles settles sound hn
  | summary bs => exact rebuild_summary_settles settles sound hn
  | eq a b => exact rebuild_eq_settles settles sound hn
  | junction c items => exact rebuild_junction_settles settles sound hn

/-! ## The simplifier -/

theorem Reflects.fetch (reflects : Reflects ctx ref) (key : Handle) :
    ∃ ctx', Returns (ContextM.fetch key) ctx (ctx.memo.find? key) ctx' ∧ Reflects ctx' ref := by
  have same := ContextM.memo_fetch ctx.memo key
  refine ⟨{ ctx with memo := (ctx.memo.fetch key).2 }, ?_, ?_⟩
  · exact Prod.ext (congrArg Except.ok same.1) rfl
  · have later : ctx.Later { ctx with memo := (ctx.memo.fetch key).2 } := ⟨.refl _, .refl _, rfl⟩
    refine ⟨reflects.alike.memo _, reflects.tidy, reflects.faithful.later later reflects.tidy fun key' k found => ?_⟩
    rwa [← same.2]

/-- What the simplification without a memory finds may be remembered. -/
theorem Reflects.remember (reflects : Reflects ctx ref) {depth : Nat} {key k : Handle}
    (plain : Returns (plainWithin depth key) ref' k ref) :
    ∃ ctx', Returns (ContextM.remember key k) ctx () ctx' ∧ Reflects ctx' ref := by
  have later : ctx.Later { ctx with memo := ctx.memo.remember key k } := ⟨.refl _, .refl _, rfl⟩
  refine ⟨{ ctx with memo := ctx.memo.remember key k }, rfl, reflects.alike.memo _, reflects.tidy,
    fun key' k' found => ?_⟩
  rcases find?_remember found with ⟨rfl, rfl⟩ | old
  · exact ⟨depth, (plainWithin_steady depth key').repeats plain reflects.tidy (reflects.later_of.trans later)⟩
  · obtain ⟨depth', ret⟩ := reflects.faithful key' k' old
    exact ⟨depth', (plainWithin_steady depth' key').repeats ret reflects.tidy later⟩

/-- What is remembered is what the simplification without a memory returns. -/
theorem Reflects.known (reflects : Reflects ctx ref) (tidy : ref.pool.Tidy) {key known k : Handle} {depth : Nat}
    (found : ctx.memo.find? key = some known) (plain : Returns (plainWithin depth key) ref k ref') :
    k = known ∧ ctx.Alike ref' := by
  obtain ⟨depth', ret⟩ := reflects.faithful key known found
  obtain ⟨same, alike⟩ := (plainWithin_steady depth' key).blind reflects.tidy tidy reflects.alike
  rw [show (plainWithin depth' key).run.run ctx = _ from ret] at same alike
  have there : Returns (plainWithin depth' key) ref known ((plainWithin depth' key).run.run ref).2 :=
    Prod.ext same.symm rfl
  obtain ⟨rfl, rfl⟩ := plainWithin_unique plain there
  exact ⟨rfl, alike⟩

/-- Simplifying with the memo gives what simplifying without it gives, and the result is normal. -/
theorem simplifyWithin_settles (depth : Nat) : Settles (simplifyWithin depth) (plainWithin depth) := by
  induction depth with
  | zero =>
    intro ref h _ _ k ref' ret
    cases ret
  | succ depth ih =>
    intro ref h sound has k ref' ret
    obtain ⟨n, ref₀, asked, ret'⟩ := returns_of_bind ret
    obtain ⟨node, rfl⟩ := Prod.mk.inj ((asking_run _ ref).symm.trans asked)
    have hn : ref.pool.node? h.regular = some n := InternTable.value_eq_ok.mp node
    obtain ⟨result, ref₁, rebuilt, returned⟩ := returns_of_bind ret'
    cases returned
    obtain ⟨later, sound', normal, mirrored⟩ := rebuild_settles ih sound hn _ _ rebuilt
    have plain : Returns (plainWithin (depth + 1) h.regular) ref result ref' :=
      returns_bind asked (returns_bind rebuilt rfl)
    refine ⟨later, sound', normal.signed _, fun ctx reflects => ?_⟩
    obtain ⟨ctx₁, fetched, reflects₁⟩ := reflects.fetch h.regular
    unfold simplifyWithin
    cases found : ctx.memo.find? h.regular with
    | some known =>
      obtain ⟨rfl, alike⟩ := reflects.known sound.pool.tidy found plain
      rw [found] at fetched
      refine ⟨ctx₁, returns_bind fetched rfl, ?_, reflects₁.tidy, reflects₁.faithful⟩
      exact (reflects₁.alike.trans reflects.alike.symm).trans alike
    | none =>
      rw [found] at fetched
      have asked₁ : Returns (asking (·.node h.regular)) ctx₁ n ctx₁ := by
        unfold Returns
        rw [asking_run, Lasts.alike (.node _) reflects₁.alike]
        exact Prod.ext node rfl
      obtain ⟨ctx₂, rebuilt₂, reflects₂⟩ := mirrored ctx₁ reflects₁
      obtain ⟨ctx₃, noted₃, reflects₃⟩ := reflects₂.remember plain
      have fixed := normal.regular.plain sound' (Nat.le_refl _)
      obtain ⟨ctx₄, noted₄, reflects₄⟩ := reflects₃.remember fixed
      by_cases new : result ≠ h.regular
      · refine ⟨ctx₄, returns_bind fetched (returns_bind asked₁ (returns_bind rebuilt₂ (returns_bind noted₃ ?_))),
          reflects₄⟩
        rw [if_pos new]
        exact returns_bind noted₄ rfl
      · refine ⟨ctx₃, returns_bind fetched (returns_bind asked₁ (returns_bind rebuilt₂ (returns_bind noted₃ ?_))),
          reflects₃⟩
        rw [if_neg new]
        rfl

end PathMerge

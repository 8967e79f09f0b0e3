/-
  PathMerge.Proofs.HeapReads — a read finds the last write.

  The heap that is read is simplified first, so a chain of writes may be shorter by the time it is read: a write
  takes the place of an earlier one to the same location, also of one that was there before the chain, and a
  write of the value just read goes. What one write does to a simplified heap is said once (`becomes_write`):
  the heap it leaves is `b` with the value in its place (`Holds`), and the heap it found is `b`, or `b` with
  another value in that place (`Above`). A read of the place gives the value, and a read of another field gives
  what it gives in `b`, and so in the heap before. Along a chain the invariant is `Tracks`: the read of the
  field and the value written to it last become the same.
-/

import PathMerge.Proofs.Becomes

namespace PathMerge

open Context ContextM

variable {ctx ctx' : Context} {op : Operation} {h k s t : Handle} {args : List Handle}

/-! ## Heaps that are written and read -/

structure Context.HasHeap (ctx : Context) : Prop where
  reliable : ctx.Reliable
  installed : Theory.heap ∈ ctx.theories

namespace Context.HasHeap

theorem later (hh : ctx.HasHeap) (later : ctx.Later ctx') (hc : ctx'.Reliable) : ctx'.HasHeap :=
  ⟨hc, later.theories ▸ hh.installed⟩

theorem sound (hh : ctx.HasHeap) : ctx.Sound := hh.reliable.sound

theorem provided (hh : ctx.HasHeap) : ctx.symbols.Provides .heap := hh.sound.provides _ hh.installed

theorem rewrite (hh : ctx.HasHeap) {g : HeapFunction} {f : SymbolId} {r : Option Handle}
    (law : Returns (Theory.Heap.law g args) ctx r ctx) (names : ctx.Names (.memory g) f) :
    Returns (ContextM.rewrite f args) ctx r ctx := by
  have same : Theory.heap.rewrite g.decl.name args = Theory.Heap.law g args := by cases g <;> rfl
  exact (names.rewrite_run hh.installed args).trans (same ▸ law)

/-- What a law of reading or writing gives, the expression becomes. -/
theorem step (hh : ctx.HasHeap) {g : HeapFunction} (app : ctx.Applies (.memory g) args s)
    (normal : ∀ a ∈ args, ctx.Normal a) (law : Returns (Theory.Heap.law g args) ctx (some t) ctx)
    (rest : ctx.Becomes t k) : ctx.Becomes s k :=
  .step hh.sound app normal (fun _ names => hh.rewrite law names) rest

/-- No law of reading or writing applies to a normal form. -/
theorem not_law (hh : ctx.HasHeap) {g : HeapFunction} (app : ctx.Applies (.memory g) args s) (normal : ctx.Normal s) :
    ¬ Returns (Theory.Heap.law g args) ctx (some t) ctx := by
  intro law
  obtain ⟨f, names, node⟩ := app.node
  obtain ⟨node', _, settled⟩ := normal
  cases node.symm.trans node'
  cases (returns_unique (settled f args rfl) (hh.rewrite law names)).1

theorem exists_call (hh : ctx.HasHeap) (g : HeapFunction) (arity : args.length = g.decl.arity)
    (has : ∀ a ∈ args, ctx.Has a) :
    ∃ h c, Returns (call g.decl.name args) ctx h c ∧ ctx.Later c ∧ c.HasHeap ∧ c.Applies (.memory g) args h := by
  obtain ⟨h, c, ret, _, _, app⟩ := call_yields hh.sound (.memory g) hh.provided args arity has
  have uniform := call_uniform hh.reliable g.decl.name has
  have later := uniform.later_of_returns ret
  exact ⟨h, c, ret, later, hh.later later (uniform.of_returns ret).1, app⟩

end Context.HasHeap

def Context.Eventually (ctx : Context) (P : Context → Prop) : Prop := ∃ c, ctx.Later c ∧ c.HasHeap ∧ P c

namespace Context.Eventually

variable {P Q : Context → Prop}

theorem now (hh : ctx.HasHeap) (p : P ctx) : ctx.Eventually P := ⟨ctx, .refl ctx, hh, p⟩

theorem andThen (e : ctx.Eventually P) (next : ∀ c, ctx.Later c → c.HasHeap → P c → c.Eventually Q) :
    ctx.Eventually Q := by
  obtain ⟨c, later, hh, p⟩ := e
  obtain ⟨c', later', hh', q⟩ := next c later hh p
  exact ⟨c', later.trans later', hh', q⟩

theorem becomes (hh : ctx.HasHeap) (has : ctx.Has h) : ctx.Eventually fun c => ∃ k, c.Becomes h k := by
  obtain ⟨k, c, _, later, hc, b⟩ := Becomes.exists_simplify hh.reliable has
  exact ⟨c, later, hh.later later hc, k, b⟩

theorem applies (hh : ctx.HasHeap) (g : HeapFunction) (arity : args.length = g.decl.arity)
    (has : ∀ a ∈ args, ctx.Has a) : ctx.Eventually fun c => ∃ h, c.Applies (.memory g) args h := by
  obtain ⟨h, c, _, later, hh', app⟩ := hh.exists_call g arity has
  exact ⟨c, later, hh', h, app⟩

theorem operands (hh : ctx.HasHeap) (has : ∀ a ∈ args, ctx.Has a) :
    ctx.Eventually fun c => ∃ args', List.Forall₂ c.Becomes args args' := by
  induction args with
  | nil => exact .now hh ⟨[], .nil⟩
  | cons a args ih =>
    refine (ih fun x hx => has x (by simp [hx])).andThen fun c later hh' rest => ?_
    obtain ⟨args', rest⟩ := rest
    refine (becomes hh' (later.extends.has (has a (by simp)))).andThen fun c' later' hh'' first => ?_
    obtain ⟨a', first⟩ := first
    exact .now hh'' ⟨a' :: args', .cons first (rest.imp fun _ _ b => b.later later' hh''.reliable)⟩

/-- An application has a twin with simplified operands. -/
theorem twin (hh : ctx.HasHeap) {g : HeapFunction} (app : ctx.Applies (.memory g) args s) :
    ctx.Eventually fun c => ∃ args' s', List.Forall₂ c.Becomes args args' ∧ (∀ a ∈ args', c.Normal a) ∧
      c.Applies (.memory g) args' s' := by
  refine (operands hh (app.has_arg hh.sound)).andThen fun c later hh' all => ?_
  obtain ⟨args', all⟩ := all
  have has := (app.extends later.extends).has_arg hh'.sound
  have normal : ∀ a ∈ args', c.Normal a := by
    intro a ha
    obtain ⟨x, hx, becomes⟩ := Related.exists_left all ha
    exact becomes.normal hh'.sound (has x hx)
  have arity : args'.length = g.decl.arity := all.length_eq ▸ app.length hh.sound
  refine (applies hh' g arity fun a ha => (normal a ha).has).andThen fun c' later' hh'' made => ?_
  obtain ⟨s', made⟩ := made
  refine .now hh'' ⟨args', s', all.imp fun _ _ b => b.later later' hh''.reliable, ?_, made⟩
  exact fun a ha => (normal a ha).later later' hh''.sound.pool.tidy

end Context.Eventually

/-- A field name, or the slot of an array at a number. -/
inductive Context.FixedField (ctx : Context) : Handle → Prop
  | name {f : Handle} {name : String} (sign : f.negated = false)
      (node : ctx.pool.node? f = some (.literal (.field name))) : FixedField ctx f
  | slot {f i : Handle} {n : Int} (app : ctx.Applies (.memory .arr) [i] f) (sign : i.negated = false)
      (node : ctx.pool.node? i = some (.literal (.int n))) : FixedField ctx f

section Fields

variable {f g i : Handle}

theorem Context.FixedField.extends (e : ctx.Extends ctx') (fixed : ctx.FixedField f) : ctx'.FixedField f := by
  cases fixed with
  | name sign node => exact .name sign (e.pool node)
  | slot app sign node => exact .slot (app.extends e) sign (e.pool node)

theorem Context.FixedField.normal (hh : ctx.HasHeap) (fixed : ctx.FixedField f) : ctx.Normal f := by
  cases fixed with
  | name _ node => exact .intro node (List.forall_mem_nil _) fun _ _ e => by cases e
  | @slot i n app _ node =>
    obtain ⟨a, names, made⟩ := app.node
    refine .intro made ?_ fun f args e => ?_
    · intro c hc
      obtain rfl : c = i := by simpa [Node.children] using hc
      exact .intro node (List.forall_mem_nil _) fun _ _ e => by cases e
    · cases e
      exact hh.rewrite (g := .arr) rfl names

namespace Theory.Heap

theorem slotIndex?_slot (hh : ctx.HasHeap) (app : ctx.Applies (.memory .arr) [i] f) :
    Returns (slotIndex? f) ctx (some i) ctx := by
  obtain ⟨r, ret, known⟩ := exists_asApp? hh.sound (.memory .arr) hh.provided app.has
  obtain rfl := (known _).mpr app
  exact returns_bind ret rfl

theorem slotIndex?_literal (hh : ctx.HasHeap) {l : Literal} (node : ctx.pool.node? f = some (.literal l)) :
    Returns (slotIndex? f) ctx none ctx := by
  obtain ⟨r, ret, known⟩ := exists_asApp? hh.sound (.memory .arr) hh.provided (Pool.has_of_node node)
  cases r with
  | none => exact returns_bind ret rfl
  | some args =>
    obtain ⟨_, _, other⟩ := ((known args).mp rfl).node
    cases node.symm.trans other

theorem isFieldName_field {name : String} (sign : f.negated = false)
    (node : ctx.pool.node? f = some (.literal (.field name))) : Returns (isFieldName f) ctx true ctx := by
  unfold isFieldName
  rw [if_neg (by simp [sign])]
  have found : Returns (asking (·.node f)) ctx (.literal (.field name)) ctx := by
    unfold Returns
    rw [asking_run, show ctx.node f = _ from InternTable.value_eq_ok.mpr node]
  exact returns_bind found rfl

theorem isLiteral_literal {l : Literal} (sign : f.negated = false) (node : ctx.pool.node? f = some (.literal l)) :
    Returns (asking (·.isLiteral f)) ctx true ctx := by
  unfold Returns
  rw [asking_run]
  unfold Context.isLiteral
  rw [if_neg (by simp [sign]), show ctx.node f = _ from InternTable.value_eq_ok.mpr node]
  rfl

/-- Two fixed fields are told apart. -/
theorem distinctFields_fixed (hh : ctx.HasHeap) (hf : ctx.FixedField f) (hg : ctx.FixedField g) (ne : f ≠ g) :
    Returns (distinctFields f g) ctx true ctx := by
  unfold distinctFields
  rw [if_neg ne]
  cases hf with
  | name sign node =>
    refine returns_bind (slotIndex?_literal hh node) ?_
    cases hg with
    | name sign' node' =>
      refine returns_bind (slotIndex?_literal hh node') ?_
      exact returns_bind (isFieldName_field sign node) (isFieldName_field sign' node')
    | slot app' _ _ => exact returns_bind (slotIndex?_slot hh app') (isFieldName_field sign node)
  | slot app sign node =>
    refine returns_bind (slotIndex?_slot hh app) ?_
    cases hg with
    | name sign' node' => exact returns_bind (slotIndex?_literal hh node') (isFieldName_field sign' node')
    | slot app' sign' node' =>
      refine returns_bind (slotIndex?_slot hh app') ?_
      exact returns_bind (isLiteral_literal sign node) (isLiteral_literal sign' node')

end Theory.Heap

end Fields

/-! ## One step of reading or writing -/

section Laws

variable {m b t o f g v w : Handle}

namespace Theory.Heap

theorem exists_write? (hh : ctx.HasHeap) (has : ctx.Has m) :
    ∃ r, Returns (write? m) ctx r ctx ∧
      ∀ b o f w, r = some (b, o, f, w) ↔ ctx.Applies (.memory .store) [b, o, f, w] m := by
  obtain ⟨r, ret, known⟩ := exists_asApp? hh.sound (.memory .store) hh.provided has
  cases r with
  | none =>
    refine ⟨none, returns_bind ret rfl, fun b o f w => ?_⟩
    rw [← known]
    simp
  | some args =>
    match args, ((known args).mp rfl).length hh.sound with
    | [b, o, f, w], _ =>
      refine ⟨some (b, o, f, w), returns_bind ret rfl, fun b' o' f' w' => ?_⟩
      rw [← known]
      simp

theorem write?_store (hh : ctx.HasHeap) (app : ctx.Applies (.memory .store) [b, o, f, w] m) :
    Returns (write? m) ctx (some (b, o, f, w)) ctx := by
  obtain ⟨r, ret, known⟩ := exists_write? hh app.has
  obtain rfl := (known b o f w).mpr app
  exact ret

/-- A read of the location just written. -/
theorem select_written (hh : ctx.HasHeap) (app : ctx.Applies (.memory .store) [b, o, f, w] m) :
    Returns (law .select [m, o, f]) ctx (some w) ctx := by
  refine returns_bind (write?_store hh app) ?_
  show Returns (if o = o ∧ f = f then pure (some w) else _) ctx _ ctx
  rw [if_pos ⟨rfl, rfl⟩]
  rfl

/-- A read of another field skips the write. -/
theorem select_elsewhere (hh : ctx.HasHeap) (app : ctx.Applies (.memory .store) [b, o, g, w] m) (hf : ctx.FixedField f)
    (hg : ctx.FixedField g) (ne : f ≠ g) (read : ctx.Applies (.memory .select) [b, o, f] t) :
    Returns (law .select [m, o, f]) ctx (some t) ctx := by
  refine returns_bind (write?_store hh app) ?_
  show Returns (if o = o ∧ g = f then _ else _) ctx _ ctx
  rw [if_neg fun same => ne same.2.symm]
  refine returns_bind (distinctFields_fixed hh hf hg ne) ?_
  exact returns_bind (call_found hh.sound read) rfl

/-- The value just read is written back. -/
theorem store_back (hh : ctx.HasHeap) (read : ctx.Applies (.memory .select) [m, o, g] w) :
    Returns (law .store [m, o, g, w]) ctx (some m) ctx := by
  obtain ⟨r, ret, known⟩ := exists_asApp? hh.sound (.memory .select) hh.provided read.has
  obtain rfl := (known _).mpr read
  refine returns_bind ret ?_
  show Returns (if some [m, o, g] = some [m, o, g] then pure (some m) else _) ctx _ ctx
  rw [if_pos rfl]
  rfl

section

variable (hh : ctx.HasHeap) (has : ctx.Has w) (unread : ¬ ctx.Applies (.memory .select) [m, o, g] w)

include hh has unread

/-- The later of two writes to one location wins. -/
theorem store_over (app : ctx.Applies (.memory .store) [b, o, g, v] m)
    (made : ctx.Applies (.memory .store) [b, o, g, w] t) : Returns (law .store [m, o, g, w]) ctx (some t) ctx := by
  obtain ⟨r, ret, known⟩ := exists_asApp? hh.sound (.memory .select) hh.provided has
  refine returns_bind ret ?_
  show Returns (if r = some [m, o, g] then _ else _) ctx _ ctx
  rw [if_neg fun same => unread ((known _).mp same)]
  refine returns_bind (write?_store hh app) ?_
  show Returns (if o = o ∧ g = g then _ else _) ctx _ ctx
  rw [if_pos ⟨rfl, rfl⟩]
  exact returns_bind (call_found hh.sound made) rfl

/-- A store above anything but a store to the same place is kept as written. -/
theorem store_kept (memory : ctx.Has m) (first : ∀ b v, ¬ ctx.Applies (.memory .store) [b, o, g, v] m) :
    Returns (law .store [m, o, g, w]) ctx none ctx := by
  obtain ⟨r, ret, known⟩ := exists_asApp? hh.sound (.memory .select) hh.provided has
  obtain ⟨r', ret', known'⟩ := exists_write? hh memory
  refine returns_bind ret ?_
  show Returns (if r = some [m, o, g] then _ else _) ctx _ ctx
  rw [if_neg fun same => unread ((known _).mp same)]
  refine returns_bind ret' ?_
  cases r' with
  | none => rfl
  | some write =>
    obtain ⟨b, o', g', v⟩ := write
    have other : ¬ (o' = o ∧ g' = g) := by
      rintro ⟨rfl, rfl⟩
      exact first b v ((known' _ _ _ _).mp rfl)
    show Returns (if o' = o ∧ g' = g then _ else _) ctx _ ctx
    rw [if_neg other]
    rfl

end

end Theory.Heap

/-! ## What a heap becomes when it is written -/

def Context.Above (ctx : Context) (o g b m : Handle) : Prop := m = b ∨ ∃ v, ctx.Applies (.memory .store) [b, o, g, v] m

/-- The heap `m` is `b` with `w` in field `g` of `o`; nothing is written where it is found already. -/
def Context.Holds (ctx : Context) (o g w b m : Handle) : Prop :=
  m = b ∧ ctx.Applies (.memory .select) [b, o, g] w ∨ ctx.Applies (.memory .store) [b, o, g, w] m

theorem Context.Above.extends (e : ctx.Extends ctx') (c : ctx.Above o g b m) : ctx'.Above o g b m := by
  rcases c with same | ⟨v, app⟩
  · exact .inl same
  · exact .inr ⟨v, app.extends e⟩

theorem Context.Holds.above (holds : ctx.Holds o g w b m) : ctx.Above o g b m := by
  rcases holds with ⟨same, _⟩ | app
  · exact .inl same
  · exact .inr ⟨w, app⟩

theorem Context.Normal.operand {a : Handle} (normal : ctx.Normal h) (app : ctx.Applies op args h) (ha : a ∈ args) :
    ctx.Normal a := by
  obtain ⟨f, _, node⟩ := app.node
  obtain ⟨node', children, _⟩ := normal
  cases node.symm.trans node'
  exact children a ha

theorem Context.Normal.store (hh : ctx.HasHeap) (normal : ∀ a ∈ [m, o, g, w], ctx.Normal a)
    (app : ctx.Applies (.memory .store) [m, o, g, w] t) (unread : ¬ ctx.Applies (.memory .select) [m, o, g] w)
    (first : ∀ b v, ¬ ctx.Applies (.memory .store) [b, o, g, v] m) : ctx.Normal t := by
  obtain ⟨f, names, node⟩ := app.node
  refine .intro node normal fun f' args e => ?_
  cases e
  have kept := Theory.Heap.store_kept hh (normal w (by simp)).has unread (normal m (by simp)).has first
  exact hh.rewrite kept names

/-- A simplified heap is not written twice in a row in one place. -/
theorem Context.Normal.first_write (hh : ctx.HasHeap) (normal : ctx.Normal m)
    (app : ctx.Applies (.memory .store) [b, o, g, w] m) (b' v : Handle) :
    ¬ ctx.Applies (.memory .store) [b', o, g, v] b := by
  intro before
  have has : ∀ a ∈ [b', o, g, w], ctx.Has a := by
    have inner := before.has_arg hh.sound
    have outer := app.has_arg hh.sound
    simp only [List.forall_mem_cons] at inner outer ⊢
    exact ⟨inner.1, inner.2.1, inner.2.2.1, outer.2.2.2.1, List.forall_mem_nil _⟩
  -- in a context that has the shorter write, the law of writing would apply
  obtain ⟨c, later, hh', t, made⟩ := Eventually.applies hh .store rfl has
  have app := app.extends later.extends
  have normal := normal.later later hh'.sound.pool.tidy
  by_cases read : c.Applies (.memory .select) [b, o, g] w
  · exact hh'.not_law app normal (Theory.Heap.store_back hh' read)
  · have value := made.has_arg hh'.sound w (by simp)
    exact hh'.not_law app normal (Theory.Heap.store_over hh' value read (before.extends later.extends) made)

/-- A simplified value is not read where it was just written. -/
theorem Context.Normal.unread (hh : ctx.HasHeap) (normal : ctx.Normal w)
    (app : ctx.Applies (.memory .store) [b, o, g, v] m) : ¬ ctx.Applies (.memory .select) [m, o, g] w :=
  fun read => hh.not_law read normal (Theory.Heap.select_written hh app)

/-- A write that replaces none: it goes if it writes what was read, else it stays. -/
theorem Context.Applies.becomes_first (hh : ctx.HasHeap) (normal : ∀ a ∈ [b, o, g, w], ctx.Normal a)
    (app : ctx.Applies (.memory .store) [b, o, g, w] t)
    (first : ∀ b' v, ¬ ctx.Applies (.memory .store) [b', o, g, v] b) : ∃ m, ctx.Becomes t m ∧ ctx.Holds o g w b m := by
  by_cases read : ctx.Applies (.memory .select) [b, o, g] w
  · have becomes := Becomes.of_normal hh.sound (normal b (by simp))
    exact ⟨b, hh.step app normal (Theory.Heap.store_back hh read) becomes, .inl ⟨rfl, read⟩⟩
  · exact ⟨t, .of_normal hh.sound (.store hh normal app read first), .inr app⟩

/-- A write to a simplified heap may take the place of one that is there. -/
theorem Context.Applies.becomes_write (hh : ctx.HasHeap) (normal : ∀ a ∈ [m, o, g, w], ctx.Normal a)
    (app : ctx.Applies (.memory .store) [m, o, g, w] t) :
    ctx.Eventually fun c => ∃ b m', c.Above o g b m ∧ c.Becomes t m' ∧ c.Holds o g w b m' := by
  have memory := normal m (by simp)
  by_cases written : ∃ b v, ctx.Applies (.memory .store) [b, o, g, v] m
  · obtain ⟨b, v, before⟩ := written
    have below : ctx.Normal b := memory.operand before (by simp)
    have normal' : ∀ a ∈ [b, o, g, w], ctx.Normal a := by
      simp only [List.forall_mem_cons] at normal ⊢
      exact ⟨below, normal.2⟩
    refine (Eventually.applies hh .store rfl fun a ha => (normal' a ha).has).andThen ?_
    intro c later hh' made
    obtain ⟨t', made⟩ := made
    have tidy := hh'.sound.pool.tidy
    have before := before.extends later.extends
    obtain ⟨m', becomes, holds⟩ := made.becomes_first hh' (fun a ha => (normal' a ha).later later tidy)
      ((memory.later later tidy).first_write hh' before)
    have value := (normal w (by simp)).later later tidy
    have law := Theory.Heap.store_over hh' value.has (value.unread hh' before) before made
    have normal := fun a ha => (normal a ha).later later tidy
    exact .now hh' ⟨b, m', .inr ⟨v, before⟩, hh'.step (app.extends later.extends) normal law becomes, holds⟩
  · push Not at written
    obtain ⟨m', becomes, holds⟩ := app.becomes_first hh normal written
    exact .now hh ⟨m, m', .inl rfl, becomes, holds⟩

end Laws

/-! ## What is read after writes -/

section Reads

variable {m b o f g w e : Handle}

def Context.Reads (ctx : Context) (m o f k : Handle) : Prop :=
  ∃ s, ctx.Applies (.memory .select) [m, o, f] s ∧ ctx.Becomes s k

theorem Context.Reads.later (later : ctx.Later ctx') (hc : ctx'.Reliable) (reads : ctx.Reads m o f k) :
    ctx'.Reads m o f k := by
  obtain ⟨s, app, becomes⟩ := reads
  exact ⟨s, app.extends later.extends, becomes.later later hc⟩

/-- What has been written is read. -/
theorem Context.Holds.reads (hh : ctx.HasHeap) (normal : ∀ a ∈ [m, o, g, w], ctx.Normal a)
    (holds : ctx.Holds o g w b m) : ctx.Eventually fun c => c.Reads m o g w := by
  have value := normal w (by simp)
  rcases holds with ⟨rfl, read⟩ | app
  · exact .now hh ⟨w, read, .of_normal hh.sound value⟩
  · have operands : ∀ a ∈ [m, o, g], ctx.Normal a := fun a ha => normal a (by simp at ha ⊢; tauto)
    refine (Eventually.applies hh .select rfl fun a ha => (operands a ha).has).andThen ?_
    intro c later hh' made
    obtain ⟨s, made⟩ := made
    have tidy := hh'.sound.pool.tidy
    have law := Theory.Heap.select_written hh' (app.extends later.extends)
    have becomes := Becomes.of_normal hh'.sound (value.later later tidy)
    exact .now hh' ⟨s, made, hh'.step made (fun a ha => (operands a ha).later later tidy) law becomes⟩

/-- Reading another field is reading below the write. -/
theorem Context.Becomes.skip (hh : ctx.HasHeap) (normal : ∀ a ∈ [m, o, f], ctx.Normal a) (hf : ctx.FixedField f)
    (hg : ctx.FixedField g) (ne : f ≠ g) (app : ctx.Applies (.memory .store) [b, o, g, w] m)
    (read : ctx.Applies (.memory .select) [m, o, f] s) (below : ctx.Applies (.memory .select) [b, o, f] t)
    (becomes : ctx.Becomes t k) : ctx.Becomes s k :=
  hh.step read normal (Theory.Heap.select_elsewhere hh app hf hg ne below) becomes

section

variable (hh : ctx.HasHeap) (normal : ∀ a ∈ [m, o, f], ctx.Normal a) (hf : ctx.FixedField f) (hg : ctx.FixedField g)
  (ne : f ≠ g) (above : ctx.Above o g b m)

include hh normal hf hg ne above

theorem Context.Above.reads_above (reads : ctx.Reads b o f k) : ctx.Eventually fun c => c.Reads m o f k := by
  rcases above with rfl | ⟨v, app⟩
  · exact .now hh reads
  refine (Eventually.applies hh .select rfl fun a ha => (normal a ha).has).andThen ?_
  intro c later hh' made
  obtain ⟨s, made⟩ := made
  obtain ⟨t, below, becomes⟩ := reads.later later hh'.reliable
  refine .now hh' ⟨s, made, .skip hh' ?_ ?_ ?_ ne (app.extends later.extends) made below becomes⟩
  · exact fun a ha => (normal a ha).later later hh'.sound.pool.tidy
  · exact hf.extends later.extends
  · exact hg.extends later.extends

/-- A read through a write to another field reads what lies below the write. -/
theorem Context.Above.reads_below (reads : ctx.Reads m o f k) : ctx.Eventually fun c => c.Reads b o f k := by
  rcases above with rfl | ⟨v, app⟩
  · exact .now hh reads
  have has : ∀ a ∈ [b, o, f], ctx.Has a := by
    simp only [List.forall_mem_cons] at normal ⊢
    exact ⟨app.has_arg hh.sound b (by simp), normal.2.1.has, normal.2.2.1.has, List.forall_mem_nil _⟩
  refine (Eventually.applies hh .select rfl has).andThen ?_
  intro c later hh' made
  obtain ⟨t, made⟩ := made
  refine (Eventually.becomes hh' made.has).andThen ?_
  intro c' later' hh'' found
  obtain ⟨k', becomes⟩ := found
  have until_ := later.trans later'
  obtain ⟨s, read, becomes'⟩ := reads.later until_ hh''.reliable
  have below := made.extends later'.extends
  have skipped : c'.Becomes s k' := by
    refine .skip hh'' ?_ ?_ ?_ ne (app.extends until_.extends) read below becomes
    · exact fun a ha => (normal a ha).later until_ hh''.sound.pool.tidy
    · exact hf.extends until_.extends
    · exact hg.extends until_.extends
  obtain rfl := becomes'.unique skipped
  exact .now hh'' ⟨t, below, becomes⟩

end

/-- What is read once `w` is in field `g` of `o`, and not what was there in `m`. -/
theorem Context.Reads.write {m' : Handle} (hh : ctx.HasHeap) (normal : ∀ a ∈ [m, m', o, g, w], ctx.Normal a)
    (hf : ctx.FixedField f) (hg : ctx.FixedField g) (above : ctx.Above o g b m) (holds : ctx.Holds o g w b m')
    (reads : ctx.Reads m o f k) : ctx.Eventually fun c => c.Reads m' o f (if g = f then w else k) := by
  simp only [List.forall_mem_cons] at normal
  obtain ⟨before, after, object, field, value, _⟩ := normal
  by_cases same : g = f
  · subst same
    rw [if_pos rfl]
    exact holds.reads hh (by simp [after, object, field, value])
  · rw [if_neg same]
    have field' := hf.normal hh
    refine (above.reads_below hh (by simp [before, object, field']) hf hg (Ne.symm same) reads).andThen ?_
    intro c later hh' reads
    have normal' : ∀ a ∈ [m', o, f], c.Normal a := by
      have tidy := hh'.sound.pool.tidy
      simp [after.later later tidy, object.later later tidy, field'.later later tidy]
    exact (holds.above.extends later.extends).reads_above hh' normal' (hf.extends later.extends)
      (hg.extends later.extends) (Ne.symm same) reads

def Context.Tracks (ctx : Context) (o f h e : Handle) : Prop :=
  ∃ m o' k, ctx.Becomes h m ∧ ctx.Becomes o o' ∧ ctx.Reads m o' f k ∧ ctx.Becomes e k

namespace Context.Tracks

theorem later (later : ctx.Later ctx') (hc : ctx'.Reliable) (tracks : ctx.Tracks o f h e) : ctx'.Tracks o f h e := by
  obtain ⟨m, o', k, memory, object, reads, becomes⟩ := tracks
  exact ⟨m, o', k, memory.later later hc, object.later later hc, reads.later later hc, becomes.later later hc⟩

/-- What is read is what was tracked. -/
theorem select (hh : ctx.HasHeap) (hf : ctx.FixedField f) (tracks : ctx.Tracks o f h e)
    (read : ctx.Applies (.memory .select) [h, o, f] s) : ∃ k, ctx.Becomes s k ∧ ctx.Becomes e k := by
  obtain ⟨m, o', k, memory, object, ⟨t, read', becomes⟩, expected⟩ := tracks
  have field := hf.normal hh
  have has := read.has_arg hh.sound
  have normal : ∀ a ∈ [m, o', f], ctx.Normal a := by
    simp only [List.forall_mem_cons] at has ⊢
    exact ⟨memory.normal hh.sound has.1, object.normal hh.sound has.2.1, field, List.forall_mem_nil _⟩
  have all : List.Forall₂ ctx.Becomes [h, o, f] [m, o', f] :=
    .cons memory (.cons object (.cons (.of_normal hh.sound field) .nil))
  exact ⟨k, .congr hh.sound read read' all normal becomes, expected⟩

/-- Before any write, the read of the field is tracked. -/
theorem start (hh : ctx.HasHeap) (memory : ctx.Has h) (object : ctx.Has o) (hf : ctx.FixedField f) :
    ctx.Eventually fun c => ∃ s, c.Applies (.memory .select) [h, o, f] s ∧ c.Tracks o f h s := by
  have has : ∀ a ∈ [h, o, f], ctx.Has a := by
    simp only [List.forall_mem_cons]
    exact ⟨memory, object, (hf.normal hh).has, List.forall_mem_nil _⟩
  refine (Eventually.applies hh .select rfl has).andThen fun c later hh' made => ?_
  obtain ⟨s, made⟩ := made
  refine (Eventually.twin hh' made).andThen fun c₁ later₁ hh₁ twin => ?_
  obtain ⟨args', s', all, normal, read⟩ := twin
  refine (Eventually.becomes hh₁ read.has).andThen fun c₂ later₂ hh₂ found => ?_
  obtain ⟨k, becomes⟩ := found
  have until_ := later₁.trans later₂
  have all := all.imp fun _ _ b => b.later later₂ hh₂.reliable
  have normal := fun a ha => (normal a ha).later later₂ hh₂.sound.pool.tidy
  have made := made.extends until_.extends
  have read := read.extends later₂.extends
  have expected := Becomes.congr hh₂.sound made read all normal becomes
  obtain _ | ⟨memory', _ | ⟨object', _ | ⟨field', _ | _⟩⟩⟩ := all
  have field := (hf.extends (later.trans until_).extends).normal hh₂
  obtain rfl := field'.unique (.of_normal hh₂.sound field)
  exact .now hh₂ ⟨s, made, _, _, k, memory', object', ⟨s', read, becomes⟩, expected⟩

/-- One more write. -/
theorem write {h' v : Handle} (hh : ctx.HasHeap) (hf : ctx.FixedField f) (hg : ctx.FixedField g)
    (tracks : ctx.Tracks o f h e) (app : ctx.Applies (.memory .store) [h, o, g, v] h') :
    ctx.Eventually fun c => c.Tracks o f h' (if g = f then v else e) := by
  refine (Eventually.twin hh app).andThen fun c later hh₁ twin => ?_
  obtain ⟨args', t, all, normal, write⟩ := twin
  obtain ⟨m, o', k, memory, object, reads, expected⟩ := tracks.later later hh₁.reliable
  have field := (hg.extends later.extends).normal hh₁
  obtain ⟨w, rfl⟩ : ∃ w, args' = [m, o', g, w] := by
    obtain _ | ⟨memory', _ | ⟨object', _ | ⟨field', _ | ⟨_, _ | _⟩⟩⟩⟩ := all
    exact ⟨_, by rw [memory'.unique memory, object'.unique object, field'.unique (.of_normal hh₁.sound field)]⟩
  refine (write.becomes_write hh₁ normal).andThen fun c₂ later₂ hh₂ outcome => ?_
  obtain ⟨b, m', above, written, holds⟩ := outcome
  have made := write.extends later₂.extends
  have all := all.imp fun _ _ b => b.later later₂ hh₂.reliable
  have normal := fun a ha => (normal a ha).later later₂ hh₂.sound.pool.tidy
  have changed := Becomes.congr hh₂.sound (app.extends (later.trans later₂).extends) made all normal written
  have simple : ∀ a ∈ [m, m', o', g, w], c₂.Normal a := by
    simp only [List.forall_mem_cons] at normal ⊢
    exact ⟨normal.1, written.normal hh₂.sound made.has, normal.2⟩
  have until_ := (later.trans later₂).extends
  have read := (reads.later later₂ hh₂.reliable).write hh₂ simple (hf.extends until_) (hg.extends until_) above holds
  refine read.andThen fun c₃ later₃ hh₃ reads => ?_
  have all := all.imp fun _ _ b => b.later later₃ hh₃.reliable
  simp only [List.forall₂_cons] at all
  refine .now hh₃ ⟨m', o', _, changed.later later₃ hh₃.reliable, all.2.1, reads, ?_⟩
  split
  · exact all.2.2.2.1
  · exact expected.later (later₂.trans later₃) hh₃.reliable

end Context.Tracks

end Reads

/-! ## Chains of writes -/

/-- The heap `h'` is `h` after the writes to fields of `o`, one after the other. -/
inductive Context.Writes (ctx : Context) (o : Handle) : Handle → List (Handle × Handle) → Handle → Prop
  | nil {h : Handle} : Writes ctx o h [] h
  | cons {h n h' g v : Handle} {rest : List (Handle × Handle)} (app : ctx.Applies (.memory .store) [h, o, g, v] n)
      (more : Writes ctx o n rest h') : Writes ctx o h ((g, v) :: rest) h'

def ContextM.storeAll (o h : Handle) (writes : List (Handle × Handle)) : ContextM Handle :=
  writes.foldlM (fun m w => store m o w.1 w.2) h

section Chains

variable {o f e : Handle} {writes : List (Handle × Handle)}

theorem Context.Writes.extends {h' : Handle} (e : ctx.Extends ctx') (chain : ctx.Writes o h writes h') :
    ctx'.Writes o h writes h' := by
  induction chain with
  | nil => exact .nil
  | cons app _ ih => exact .cons (app.extends e) ih

/-- A run of stores on one object always succeeds and stacks its writes in order. -/
theorem ContextM.exists_storeAll (hh : ctx.HasHeap) (memory : ctx.Has h) (object : ctx.Has o)
    (has : ∀ w ∈ writes, ctx.Has w.1 ∧ ctx.Has w.2) :
    ∃ h' c, Returns (storeAll o h writes) ctx h' c ∧ ctx.Later c ∧ c.HasHeap ∧ c.Has h' ∧ c.Writes o h writes h' := by
  induction writes generalizing ctx h with
  | nil => exact ⟨h, ctx, rfl, .refl ctx, hh, memory, .nil⟩
  | cons w rest ih =>
    obtain ⟨g, v⟩ := w
    obtain ⟨first, others⟩ := List.forall_mem_cons.mp has
    have operands : ∀ a ∈ [h, o, g, v], ctx.Has a := by simp [memory, object, first.1, first.2]
    obtain ⟨n, c, ret, later, hh', app⟩ := hh.exists_call .store rfl operands
    have keeps := later.extends
    obtain ⟨h', c', ret', later', hh'', has', chain⟩ := ih hh' app.has (keeps.has object)
      fun w hw => ⟨keeps.has (others w hw).1, keeps.has (others w hw).2⟩
    refine ⟨h', c', ?_, later.trans later', hh'', has', .cons (app.extends later'.extends) chain⟩
    unfold storeAll
    rw [List.foldlM_cons]
    exact returns_bind ret ret'

theorem lookup_reverse_cons (f g v e : Handle) (rest : List (Handle × Handle)) :
    (((g, v) :: rest).reverse.lookup f).getD e = (rest.reverse.lookup f).getD (if g = f then v else e) := by
  rw [List.reverse_cons, List.lookup_append]
  cases rest.reverse.lookup f with
  | some found => rfl
  | none =>
    by_cases same : f = g
    · simp [same]
    · have other : (f == g) = false := by simpa using same
      simp [List.lookup_cons, other, Ne.symm same]

/-- The value written last is tracked. -/
theorem Context.Writes.tracks {h' : Handle} (hh : ctx.HasHeap) (hf : ctx.FixedField f)
    (fields : ∀ w ∈ writes, ctx.FixedField w.1) (chain : ctx.Writes o h writes h') (tracks : ctx.Tracks o f h e) :
    ctx.Eventually fun c => c.Tracks o f h' ((writes.reverse.lookup f).getD e) := by
  induction writes generalizing ctx h e with
  | nil =>
    cases chain
    exact .now hh tracks
  | cons w rest ih =>
    obtain ⟨g, v⟩ := w
    cases chain with
    | cons app more =>
      rw [lookup_reverse_cons]
      obtain ⟨first, others⟩ := List.forall_mem_cons.mp fields
      refine (tracks.write hh hf first app).andThen fun c later hh' tracks => ?_
      have keeps := later.extends
      exact ih hh' (hf.extends keeps) (fun w hw => (others w hw).extends keeps) (more.extends keeps) tracks

/-- What is read after the writes, and the value written last, become the same. -/
theorem Context.Writes.select {h' r : Handle} (hh : ctx.HasHeap) (memory : ctx.Has h) (object : ctx.Has o)
    (hf : ctx.FixedField f) (fields : ∀ w ∈ writes, ctx.FixedField w.1) (chain : ctx.Writes o h writes h')
    (read : ctx.Applies (.memory .select) [h', o, f] r) :
    ctx.Eventually fun c => ∃ s k, c.Applies (.memory .select) [h, o, f] s ∧ c.Becomes r k ∧
      c.Becomes ((writes.reverse.lookup f).getD s) k := by
  refine (Tracks.start hh memory object hf).andThen fun c later hh₁ start => ?_
  obtain ⟨s, first, tracks⟩ := start
  have keeps := later.extends
  refine ((chain.extends keeps).tracks hh₁ (hf.extends keeps) ?_ tracks).andThen fun c' later' hh₂ tracks => ?_
  · exact fun w hw => (fields w hw).extends keeps
  have until_ := (later.trans later').extends
  obtain ⟨k, becomes, expected⟩ := tracks.select hh₂ (hf.extends until_) (read.extends until_)
  exact .now hh₂ ⟨s, k, first.extends later'.extends, becomes, expected⟩

/-- What is expected of a read can be built; it is the tracked value, however the first read is called. -/
theorem ContextM.exists_expected (hh : ctx.HasHeap) (memory : ctx.Has h) (object : ctx.Has o) (field : ctx.Has f)
    (has : ∀ w ∈ writes, ctx.Has w.2) :
    ∃ e c, Returns ((writes.reverse.lookup f).elim (select h o f) pure) ctx e c ∧ ctx.Later c ∧ c.HasHeap ∧ c.Has e ∧
      ∀ d s, c.Later d → d.Sound → d.Applies (.memory .select) [h, o, f] s → (writes.reverse.lookup f).getD s = e := by
  cases found : writes.reverse.lookup f with
  | none =>
    have operands : ∀ a ∈ [h, o, f], ctx.Has a := by simp [memory, object, field]
    obtain ⟨e, c, ret, later, hh', app⟩ := hh.exists_call .select rfl operands
    exact ⟨e, c, ret, later, hh', app.has, fun d s later' hd read => read.unique hd (app.extends later'.extends)⟩
  | some v =>
    obtain ⟨before, after, split, _⟩ := List.lookup_eq_some_iff.mp found
    have member : (f, v) ∈ writes := List.mem_reverse.mp (split ▸ by simp)
    exact ⟨v, ctx, rfl, .refl ctx, hh, has _ member, fun _ _ _ _ _ => rfl⟩

/-- After any writes to fixed fields of `o`, a read of a fixed field of `o` is simplified to what the value written
to that field last is simplified to. If none is written to it, that is what the read of the heap before is simplified
to. -/
theorem reads_find_last_write (reached : ctx.Reached) (installed : Theory.heap ∈ ctx.theories) (memory : ctx.Has h)
    (object : ctx.Has o) (field : ctx.FixedField f) (writable : ∀ w ∈ writes, ctx.FixedField w.1 ∧ ctx.Has w.2) :
    ∃ h' ctx₁ r ctx₂ e ctx₃, Returns (storeAll o h writes) ctx h' ctx₁ ∧ Returns (select h' o f) ctx₁ r ctx₂ ∧
      Returns ((writes.reverse.lookup f).elim (select h o f) pure) ctx₂ e ctx₃ ∧ ctx₃.SimplifyAlike r e := by
  have hh : ctx.HasHeap := ⟨reached.reliable, installed⟩
  have name := (field.normal hh).has
  obtain ⟨h', ctx₁, stored, later₁, hh₁, written, chain⟩ := exists_storeAll hh memory object
    fun w hw => ⟨((writable w hw).1.normal hh).has, (writable w hw).2⟩
  have e₁ := later₁.extends
  have operands : ∀ a ∈ [h', o, f], ctx₁.Has a := by simp [written, e₁.has object, e₁.has name]
  obtain ⟨r, ctx₂, selected, later₂, hh₂, read⟩ := hh₁.exists_call .select rfl operands
  have e₂ := (later₁.trans later₂).extends
  obtain ⟨e, ctx₃, expected, later₃, hh₃, hasE, known⟩ := exists_expected hh₂ (e₂.has memory) (e₂.has object)
    (e₂.has name) fun w hw => e₂.has (writable w hw).2
  refine ⟨h', ctx₁, r, ctx₂, e, ctx₃, stored, selected, expected, ?_⟩
  -- wherever the two are simplified, the chain and its read are still there
  refine .of_agree hh₃.reliable (by simp [later₃.extends.has read.has, hasE]) fun c later hc => ?_
  have from₂ := (later₃.trans later).extends
  have e₄ := (later₁.trans (later₂.trans (later₃.trans later))).extends
  have chain := chain.extends (later₂.trans (later₃.trans later)).extends
  have fields := fun w hw => (writable w hw).1.extends e₄
  obtain ⟨d, later', hd, s, k, first, becomes, becomes'⟩ := chain.select (hh₃.later later hc) (e₄.has memory)
    (e₄.has object) (field.extends e₄) fields (read.extends from₂)
  rw [known d s (later.trans later') hd.sound first] at becomes'
  exact ⟨d, k, later', hd.reliable, by simp [becomes, becomes']⟩

end Chains

theorem Context.Allows.append {first second : List Request} (valid : ctx.Allows first)
    (valid' : (ctx.after first).Allows second) : ctx.Allows (first ++ second) := by
  induction first generalizing ctx with
  | nil => exact valid'
  | cons r rest ih => exact ⟨valid.1, ih valid.2 valid'⟩

/-- After the field `C.f` of `o` is read, they build the slot at 0, which is handle 10. -/
def slotAfterRead : List Request := readAfterWrite ++ [.call "arr" [⟨6, false⟩]]

theorem Context.oneSlot_allows_slot : oneSlot.Allows slotAfterRead := by
  refine oneSlot_allows.append ⟨?_, trivial⟩
  show ∀ a ∈ _, Pool.Has _ a
  decide +kernel

/-- What was read is written to the slot at 0 and then `x` to the field: the slot still has what was read. -/
theorem reads_find_last_write_slot : (oneSlot.after slotAfterRead).Reached ∧
    ∃ h' ctx₁ r ctx₂, Returns (storeAll ⟨3, false⟩ ⟨8, false⟩ [(⟨10, false⟩, ⟨9, false⟩), (⟨4, false⟩, ⟨5, false⟩)])
        (oneSlot.after slotAfterRead) h' ctx₁ ∧
      Returns (select h' ⟨3, false⟩ ⟨10, false⟩) ctx₁ r ctx₂ ∧ ctx₂.SimplifyAlike r ⟨9, false⟩ := by
  have reached : (oneSlot.after slotAfterRead).Reached := .intro slotAfterRead create_oneSlot oneSlot_allows_slot
  have installed : Theory.heap ∈ (oneSlot.after slotAfterRead).theories := by decide +kernel
  have has : ∀ h ∈ [(⟨8, false⟩ : Handle), ⟨3, false⟩, ⟨9, false⟩, ⟨5, false⟩],
      (oneSlot.after slotAfterRead).Has h := by decide +kernel
  have field : (oneSlot.after slotAfterRead).pool.node? ⟨4, false⟩ = some (.literal (.field "C.f")) := by decide +kernel
  have index : (oneSlot.after slotAfterRead).pool.node? ⟨6, false⟩ = some (.literal (.int 0)) := by decide +kernel
  have names : (oneSlot.after slotAfterRead).Names (.memory .arr) ⟨11⟩ := by
    unfold Names
    decide +kernel
  have slot : (oneSlot.after slotAfterRead).pool.node? ⟨10, false⟩ = some (.app ⟨11⟩ [⟨6, false⟩]) := by decide +kernel
  generalize oneSlot.after slotAfterRead = c at reached installed has field index names slot ⊢
  have fixed : c.FixedField ⟨10, false⟩ := .slot ⟨rfl, ⟨11⟩, names, slot⟩ rfl index
  simp only [List.forall_mem_cons] at has
  have writable : ∀ w ∈ [((⟨10, false⟩ : Handle), (⟨9, false⟩ : Handle)), (⟨4, false⟩, ⟨5, false⟩)],
      c.FixedField w.1 ∧ c.Has w.2 := by simp [fixed, FixedField.name rfl field, has]
  obtain ⟨h', ctx₁, r, ctx₂, e, ctx₃, stored, selected, expected, alike⟩ :=
    reads_find_last_write reached installed has.1 has.2.1 fixed writable
  obtain ⟨rfl, rfl⟩ := returns_unique (returns_pure _ _) expected
  exact ⟨reached, h', ctx₁, r, ctx₂, stored, selected, alike⟩

end PathMerge

/-
  PathMerge.Proofs.Laws.Heap — the laws of reading and writing hold.

  A read skips a write only where the two selectors differ under every valuation (`Distinct`): two
  field names, two slots with different literals for indices, a slot and a field name.
-/

import PathMerge.Proofs.Laws
import PathMerge.Theory.Heap

namespace PathMerge

open Context ContextM

variable {ctx ctx' ctx'' : Context} {I : Interpretation} {v : Valuation}

namespace Theory.Heap

/-! ## Questions about operands -/

/-- What is recognised as a write is a store, with its operands in order. -/
theorem write?_spec (h : Handle) :
    Asks (fun ctx => ctx.symbols.Provides .heap ∧ ctx.Has h) (write? h) fun r ctx =>
      ∀ b o f w, r = some (b, o, f, w) → ctx.Applies (.memory .store) [b, o, f, w] h := by
  refine (asApp?_spec (.memory .store) h).ask fun r => ?_
  split
  · rename_i b o f w rest
    refine .answer fun hc given _ _ _ _ e => ?_
    cases e
    have applies := given.2 _ rfl
    obtain rfl : rest = [] := List.eq_nil_of_length_eq_zero (Nat.add_right_cancel (m := 4) (applies.length hc))
    exact applies
  · rename_i args short
    refine .never _ fun hc given => ?_
    match args, (given.2 args rfl).length hc with
    | [b, o, f, w], _ => exact short b o f w [] rfl
  · exact .answer fun _ _ _ _ _ _ e => by cases e

theorem isFieldName_spec (h : Handle) :
    Asks (·.Has h) (isFieldName h) fun b ctx =>
      b = true → h.negated = false ∧ ∃ name, ctx.pool.node? h = some (.literal (.field name)) := by
  refine .ite (fun _ => .answer fun _ _ e => by cases e) fun sign => ?_
  have asked : Asks (·.Has h) (asking (·.node h)) fun n ctx => ctx.pool.node? h = some n := by
    refine .asking (.node h) fun {ctx} _ hh => ?_
    obtain ⟨n, hn⟩ := Pool.has_iff.mp hh
    exact ⟨n, InternTable.value_eq_ok.mpr hn, hn⟩
  refine asked.ask fun n => ?_
  split
  · rename_i name
    exact .answer fun _ given _ => ⟨by simpa using sign, name, given.2⟩
  · exact .answer fun _ _ e => by cases e

theorem isLiteral_spec (h : Handle) :
    Asks (·.Has h) (asking (·.isLiteral h)) fun b ctx =>
      b = true → h.negated = false ∧ ∃ l, ctx.pool.node? h = some (.literal l) := by
  refine .asking (.isLiteral h) fun {ctx} _ hh => ?_
  unfold Context.isLiteral
  by_cases sign : h.negated = true
  · rw [if_pos sign]
    exact ⟨false, rfl, fun e => by cases e⟩
  · rw [if_neg sign]
    obtain ⟨n, hn⟩ := Pool.has_iff.mp hh
    have node : ctx.node h = .ok n := InternTable.value_eq_ok.mpr hn
    rw [node]
    cases n with
    | literal l => exact ⟨true, rfl, fun _ => ⟨by simpa using sign, l, hn⟩⟩
    | _ => exact ⟨false, rfl, fun e => by cases e⟩

theorem slotIndex?_spec (h : Handle) :
    Asks (fun ctx => ctx.symbols.Provides .heap ∧ ctx.Has h) (slotIndex? h) fun r ctx =>
      ∀ i, r = some i → ctx.Applies (.memory .arr) [i] h := by
  refine (asApp?_spec (.memory .arr) h).ask fun r => ?_
  split
  · rename_i args
    refine .answer fun hc given i e => ?_
    have applies := given.2 args rfl
    obtain ⟨j, rfl⟩ := List.length_eq_one_iff.mp (applies.length hc)
    cases e
    exact applies
  · exact .answer fun _ _ _ e => by cases e

/-- The two terms denote different locations of an object, wherever they denote any. -/
def Distinct (ctx : Context) (f g : Handle) : Prop :=
  ∀ I v s t, ctx.eval I v f = some (.selector s) → ctx.eval I v g = some (.selector t) → s ≠ t

theorem Distinct.symm {f g : Handle} (h : Distinct ctx f g) : Distinct ctx g f :=
  fun I v s t hs ht => (h I v t s ht hs).symm

theorem eval_slot (hc : ctx.Sound) {h i : Handle} (applies : ctx.Applies (.memory .arr) [i] h) {x : Value}
    (hx : ctx.eval I v h = some x) :
    ∃ j, ctx.eval I v i = some (.scalar j) ∧ x = .selector (.element j) := by
  rw [applies.eval hc] at hx
  obtain ⟨ys, hys, hy⟩ := applied_eq_some.mp hx
  obtain ⟨y, hy', rfl⟩ := mapM_one hys
  obtain ⟨j, e, rfl⟩ := HeapFunction.of_arr hy
  cases e
  exact ⟨j, hy', rfl⟩

theorem distinct_literals (hc : ctx.Sound) {f g : Handle} {l m : Literal} (hf : ctx.pool.node? f = some (.literal l))
    (hg : ctx.pool.node? g = some (.literal m)) (sf : f.negated = false) (sg : g.negated = false) (ne : f ≠ g)
    (I : Interpretation) (v : Valuation) : ctx.eval I v f ≠ ctx.eval I v g := by
  intro e
  unfold Context.eval at e
  rw [Pool.eval_node hc.pool hf sf, Pool.eval_node hc.pool hg sg] at e
  have := Literal.value_injective (Option.some.inj e)
  subst this
  exact ne (hc.pool.eq_of_node hf hg (sf.trans sg.symm))

theorem distinct_slots (hc : ctx.Sound) {f g i j : Handle} (hf : ctx.Applies (.memory .arr) [i] f)
    (hg : ctx.Applies (.memory .arr) [j] g) {l m : Literal} (hi : ctx.pool.node? i = some (.literal l))
    (hj : ctx.pool.node? j = some (.literal m)) (si : i.negated = false) (sj : j.negated = false) (ne : f ≠ g) :
    Distinct ctx f g := by
  intro I v s t hs ht e
  obtain ⟨p, hp, ep⟩ := eval_slot hc hf hs
  obtain ⟨q, hq, eq⟩ := eval_slot hc hg ht
  cases ep
  cases eq
  cases e
  have different : i ≠ j := by
    rintro rfl
    exact ne (hf.unique hc hg)
  exact distinct_literals hc hi hj si sj different I v (hp.trans hq.symm)

/-- An array slot is no field. -/
theorem distinct_slot_field (hc : ctx.Sound) {f g i : Handle} (hf : ctx.Applies (.memory .arr) [i] f) {name : String}
    (hg : ctx.pool.node? g = some (.literal (.field name))) (sg : g.negated = false) : Distinct ctx f g := by
  intro I v s t hs ht
  obtain ⟨p, _, ep⟩ := eval_slot hc hf hs
  have : ctx.eval I v g = some (.selector (.field name)) := Pool.eval_node hc.pool hg sg
  rw [this] at ht
  cases ep
  cases ht
  exact nofun

/-- Selectors reported as distinct denote different locations: two field names, two array slots, or one of each. -/
theorem distinctFields_spec (f g : Handle) :
    Asks (fun ctx => ctx.symbols.Provides .heap ∧ ctx.Has f ∧ ctx.Has g) (distinctFields f g) fun b ctx =>
      b = true → Distinct ctx f g := by
  refine .ite (fun _ => .answer fun _ _ e => by cases e) fun differ => ?_
  refine ((slotIndex?_spec f).given fun _ given => ⟨given.1, given.2.1⟩).ask fun rf => ?_
  refine ((slotIndex?_spec g).given fun _ given => ⟨given.1.1, given.1.2.2⟩).ask fun rg => ?_
  split
  · rename_i i j
    refine Spec.found (.both ((isLiteral_spec i).given fun hc given => ?_)
      ((isLiteral_spec j).given fun hc given => ?_)) fun hc given found e => ?_
    · exact (given.1.2 i rfl).has_arg hc i (by simp)
    · exact (given.2 j rfl).has_arg hc j (by simp)
    · obtain ⟨⟨si, l, hl⟩, sj, m, hm⟩ := found e
      exact distinct_slots hc (given.1.2 i rfl) (given.2 j rfl) hl hm si sj differ
  · rename_i i
    refine ((isFieldName_spec g).given fun _ given => given.1.1.2.2).found fun hc given found e => ?_
    obtain ⟨sg, name, hn⟩ := found e
    exact distinct_slot_field hc (given.1.2 i rfl) hn sg
  · rename_i j
    refine ((isFieldName_spec f).given fun _ given => given.1.1.2.1).found fun hc given found e => ?_
    obtain ⟨sf, name, hn⟩ := found e
    exact (distinct_slot_field hc (given.2 j rfl) hn sf).symm
  · refine Spec.found (.both ((isFieldName_spec f).given fun _ given => given.1.1.2.1)
      ((isFieldName_spec g).given fun _ given => given.1.1.2.2)) fun hc given found e I v s t hs ht est => ?_
    obtain ⟨⟨sf, l, hl⟩, sg, m, hm⟩ := found e
    exact distinct_literals hc hl hm sf sg differ I v (by rw [hs, ht, est])

/-! ## Reads and writes -/

theorem of_select {m o f : Handle} {x : Value} (h : ctx.applied I v (.memory .select) [m, o, f] = some x) :
    ∃ mem obj s, ctx.eval I v m = some (.heap mem) ∧ ctx.eval I v o = some (.scalar obj) ∧
      ctx.eval I v f = some (.selector s) ∧ x = .scalar (mem obj s) := by
  obtain ⟨xs, hxs, hx⟩ := applied_eq_some.mp h
  obtain ⟨p, qs, hp, hqs, rfl⟩ := mapM_cons_eq_some.mp hxs
  obtain ⟨q, rs, hq, hrs, rfl⟩ := mapM_cons_eq_some.mp hqs
  obtain ⟨r, hr, rfl⟩ := mapM_one hrs
  obtain ⟨mem, obj, s, e, rfl⟩ := HeapFunction.of_select hx
  cases e
  exact ⟨mem, obj, s, hp, hq, hr, rfl⟩

theorem of_store {m o f w : Handle} {x : Value} (h : ctx.applied I v (.memory .store) [m, o, f, w] = some x) :
    ∃ mem obj s a, ctx.eval I v m = some (.heap mem) ∧ ctx.eval I v o = some (.scalar obj) ∧
      ctx.eval I v f = some (.selector s) ∧ ctx.eval I v w = some (.scalar a) ∧ x = .heap (mem.write obj s a) := by
  obtain ⟨xs, hxs, hx⟩ := applied_eq_some.mp h
  obtain ⟨p, qs, hp, hqs, rfl⟩ := mapM_cons_eq_some.mp hxs
  obtain ⟨q, rs, hq, hrs, rfl⟩ := mapM_cons_eq_some.mp hqs
  obtain ⟨r, ts, hr, hts, rfl⟩ := mapM_cons_eq_some.mp hrs
  obtain ⟨t, ht, rfl⟩ := mapM_one hts
  obtain ⟨mem, obj, s, a, e, rfl⟩ := HeapFunction.of_store hx
  cases e
  exact ⟨mem, obj, s, a, hp, hq, hr, ht, rfl⟩

/-- The value of an application whose operands have values. -/
theorem applied_select {m o f : Handle} {mem : PathMerge.Heap} {obj : Scalar} {s : Selector}
    (hm : ctx.eval I v m = some (.heap mem)) (ho : ctx.eval I v o = some (.scalar obj))
    (hf : ctx.eval I v f = some (.selector s)) :
    ctx.applied I v (.memory .select) [m, o, f] = some (.scalar (mem obj s)) := by
  refine applied_eq_some.mpr ⟨[.heap mem, .scalar obj, .selector s], ?_, rfl⟩
  simp [List.mapM_cons, hm, ho, hf]

theorem applied_store {m o f w : Handle} {mem : PathMerge.Heap} {obj : Scalar} {s : Selector} {a : Scalar}
    (hm : ctx.eval I v m = some (.heap mem)) (ho : ctx.eval I v o = some (.scalar obj))
    (hf : ctx.eval I v f = some (.selector s)) (hw : ctx.eval I v w = some (.scalar a)) :
    ctx.applied I v (.memory .store) [m, o, f, w] = some (.heap (mem.write obj s a)) := by
  refine applied_eq_some.mpr ⟨[.heap mem, .scalar obj, .selector s, .scalar a], ?_, rfl⟩
  simp [List.mapM_cons, hm, ho, hf, hw]

theorem write_same (m : PathMerge.Heap) (o : Scalar) (s : Selector) (a : Scalar) : m.write o s a o s = a :=
  if_pos ⟨rfl, rfl⟩

theorem write_other (m : PathMerge.Heap) {o o' : Scalar} {s s' : Selector} (a : Scalar) (ne : s' ≠ s) :
    m.write o s a o' s' = m o' s' :=
  if_neg fun h => ne h.2

/-- Writing back what is there changes nothing. -/
theorem write_read (m : PathMerge.Heap) (o : Scalar) (s : Selector) : m.write o s (m o s) = m := by
  funext o' s'
  by_cases h : o' = o ∧ s' = s
  · obtain ⟨rfl, rfl⟩ := h
    exact write_same ..
  · exact if_neg h

/-- The later of two writes to one location wins. -/
theorem write_write (m : PathMerge.Heap) (o : Scalar) (s : Selector) (a b : Scalar) :
    (m.write o s a).write o s b = m.write o s b := by
  funext o' s'
  unfold PathMerge.Heap.write
  split <;> rfl

section Written

variable {b m o f o' f' w w' h : Handle} (hc : ctx.Sound)

include hc

/-- A read of the location just written gives the written value. -/
theorem read_written (written : ctx.Applies (.memory .store) [b, o, f, w] m) :
    Rewritten ctx (.memory .select) [m, o, f] w ctx := by
  refine ⟨written.has_arg hc w (by simp), fun I v x hx => ?_, ?_, fun inside => ?_⟩
  · obtain ⟨mem, obj, s, hm, ho, hf, rfl⟩ := of_select hx
    rw [written.eval hc] at hm
    obtain ⟨mem', obj', s', a, _, ho', hf', hw, e⟩ := of_store hm
    rw [ho] at ho'
    rw [hf] at hf'
    cases ho'
    cases hf'
    cases e
    rw [hw, write_same]
  · have heavy := written.weight hc
    simp only [weights, List.map_cons, List.map_nil, List.sum_cons, List.sum_nil] at heavy ⊢
    omega
  · exact written.decided_arg (inside m (by simp)) w (by simp)

/-- Writing back what was read leaves the heap as it is. -/
theorem written_back (read : ctx.Applies (.memory .select) [m, o, f] w) :
    Rewritten ctx (.memory .store) [m, o, f, w] m ctx := by
  refine ⟨read.has_arg hc m (by simp), fun I v x hx => ?_, weight_le_weights (by simp), fun inside =>
    inside m (by simp)⟩
  obtain ⟨mem, obj, s, a, hm, ho, hf, hw, rfl⟩ := of_store hx
  rw [read.eval hc, applied_select hm ho hf] at hw
  cases hw
  rw [hm, write_read]

section

variable (hc' : ctx'.Sound) (e : ctx.Extends ctx')

include hc' e

/-- A read of another field skips the write. -/
theorem read_unwritten (written : ctx.Applies (.memory .store) [b, o', f', w] m) (other : Distinct ctx f f')
    (args : ∀ a ∈ [b, o, f], ctx.Has a) (applies : ctx'.Applies (.memory .select) [b, o, f] h) :
    Rewritten ctx (.memory .select) [m, o, f] h ctx' := by
  refine ⟨applies.has, fun I v x hx => ?_, ?_, fun inside => applies.decided ?_⟩
  · obtain ⟨mem, obj, s, hm, ho, hf, rfl⟩ := of_select hx
    rw [written.eval hc] at hm
    obtain ⟨mem', obj', s', a, hb, _, hf', _, e'⟩ := of_store hm
    cases e'
    rw [applies.eval hc', applied_extends hc e args, applied_select hb ho hf,
      write_other _ _ (other I v s s' hf hf')]
  · have heavy := written.weight hc
    rw [applies.weight hc', weights_extends hc e args]
    simp only [weights, List.map_cons, List.map_nil, List.sum_cons, List.sum_nil] at heavy ⊢
    omega
  · have before := written.decided_arg (inside m (by simp)) b (by simp)
    simp only [List.mem_cons, List.not_mem_nil, or_false]
    rintro a (rfl | rfl | rfl)
    exacts [before.extends hc e, (inside a (by simp)).extends hc e, (inside a (by simp)).extends hc e]

/-- The later of two writes to one location is left. -/
theorem written_twice (written : ctx.Applies (.memory .store) [b, o, f, w'] m)
    (args : ∀ a ∈ [b, o, f, w], ctx.Has a) (applies : ctx'.Applies (.memory .store) [b, o, f, w] h) :
    Rewritten ctx (.memory .store) [m, o, f, w] h ctx' := by
  refine ⟨applies.has, fun I v x hx => ?_, ?_, fun inside => applies.decided ?_⟩
  · obtain ⟨mem, obj, s, a, hm, ho, hf, hw, rfl⟩ := of_store hx
    rw [written.eval hc] at hm
    obtain ⟨mem', obj', s', a', hb, ho', hf', _, e'⟩ := of_store hm
    rw [ho] at ho'
    rw [hf] at hf'
    cases ho'
    cases hf'
    cases e'
    rw [applies.eval hc', applied_extends hc e args, applied_store hb ho hf hw, write_write]
  · have heavy := written.weight hc
    rw [applies.weight hc', weights_extends hc e args]
    simp only [weights, List.map_cons, List.map_nil, List.sum_cons, List.sum_nil] at heavy ⊢
    omega
  · have before := written.decided_arg (inside m (by simp)) b (by simp)
    intro a ha
    rcases List.mem_cons.mp ha with rfl | ha
    · exact before.extends hc e
    · exact (inside a (List.mem_cons_of_mem _ ha)).extends hc e

end

end Written

/-- Reading the location just written gives the value, and reading another skips the write. -/
theorem selectLaw_spec (args : List Handle) : LawSpec (.memory .select) args
    (fun ctx => ctx.symbols.Provides .heap ∧ args.length = HeapFunction.select.decl.arity) (selectLaw args) := by
  unfold selectLaw
  split
  · rename_i m o f rest
    refine .ask ((write?_spec m).given fun _ given => ⟨given.1.1, given.2 m (by simp)⟩) fun r => ?_
    split
    · exact .none
    · rename_i b o' f' w
      refine .ite (fun same => .some fun hc given _ => ?_) fun _ =>
        .ask ((distinctFields_spec f f').given fun hc given => ?_) fun d =>
        .ite (fun yes => .call (.memory .select) [b, o, f] rfl fun {ctx} hc given has => ?_) fun _ => .none
      · obtain ⟨rfl, rfl⟩ := same
        obtain rfl : rest = [] := List.eq_nil_of_length_eq_zero (Nat.add_right_cancel (m := 3) given.1.2)
        exact read_written hc (given.2 _ _ _ _ rfl)
      · have written := given.1.2 _ _ _ _ rfl
        exact ⟨given.1.1.1, given.2 f (by simp), written.has_arg hc f' (by simp)⟩
      · have written := given.1.2 _ _ _ _ rfl
        obtain rfl : rest = [] := List.eq_nil_of_length_eq_zero (Nat.add_right_cancel (m := 3) given.1.1.2)
        have args : ∀ a ∈ [b, o, f], ctx.Has a := by
          intro a ha
          rcases List.mem_cons.mp ha with rfl | ha
          · exact written.has_arg hc a (by simp)
          · exact has a (List.mem_cons_of_mem _ ha)
        refine ⟨given.1.1.1, args, fun hc' e applies => ?_⟩
        exact read_unwritten hc hc' e written (given.2 yes) args applies
  · rename_i short
    refine .never _ fun _ given => ?_
    match args, given.1.2 with
    | [m, o, f], _ => exact short m o f [] rfl

/-- Writing back what was read changes nothing, and a write to the location just written replaces the write below. -/
theorem storeLaw_spec (args : List Handle) : LawSpec (.memory .store) args
    (fun ctx => ctx.symbols.Provides .heap ∧ args.length = HeapFunction.store.decl.arity) (storeLaw args) := by
  unfold storeLaw
  split
  · rename_i m o f w rest
    refine .ask ((asApp?_spec (.memory .select) w).given fun _ given => ⟨given.1.1, given.2 w (by simp)⟩) fun read =>
      .ite (fun back => .some fun hc given _ => ?_) fun _ =>
      .ask ((write?_spec m).given fun _ given => ⟨given.1.1.1, given.2 m (by simp)⟩) fun r => ?_
    · obtain rfl : rest = [] := List.eq_nil_of_length_eq_zero (Nat.add_right_cancel (m := 4) given.1.2)
      exact written_back hc (given.2 _ back)
    split
    · rename_i b o' f' w'
      refine .ite (fun same => .call (.memory .store) [b, o, f, w] rfl fun {ctx} hc given has => ?_) fun _ => .none
      obtain ⟨rfl, rfl⟩ := same
      have written := given.2 _ _ _ _ rfl
      obtain rfl : rest = [] := List.eq_nil_of_length_eq_zero (Nat.add_right_cancel (m := 4) given.1.1.2)
      have args : ∀ a ∈ [b, o', f', w], ctx.Has a := by
        intro a ha
        rcases List.mem_cons.mp ha with rfl | ha
        · exact written.has_arg hc a (by simp)
        · exact has a (List.mem_cons_of_mem _ ha)
      exact ⟨given.1.1.1, args, fun hc' e applies => written_twice hc hc' e written args applies⟩
    · exact .none
  · rename_i short
    refine .never _ fun _ given => ?_
    match args, given.1.2 with
    | [m, o, f, w], _ => exact short m o f w [] rfl

theorem law_spec (f : HeapFunction) (args : List Handle) :
    LawSpec (.memory f) args (fun ctx => ctx.symbols.Provides .heap ∧ args.length = f.decl.arity) (law f args) := by
  cases f with
  | select => exact selectLaw_spec args
  | store => exact storeLaw_spec args
  | arr => exact .none
  | length => exact .none

end Theory.Heap

end PathMerge

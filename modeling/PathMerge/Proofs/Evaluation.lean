/-
  PathMerge.Proofs.Evaluation — the value of a handle.

  A `Meaning` gives the symbols their values and says what the application of a function symbol
  returns. `Pool.eval` is the value of a handle under it, if it has one, and `Pool.holds` its truth
  value. Both are readings of the tree of the handle, so they never change while the pool grows.
-/

import PathMerge.Proofs.Pool
import PathMerge.Proofs.Value

namespace PathMerge

structure Meaning where
  symbol : SymbolId → Value
  apply : SymbolId → List Value → Option Value

def Literal.value : Literal → Value
  | int n => .int n
  | null => .scalar (.ref .null)
  | field name => .selector (.field name)

theorem Literal.value_injective {a b : Literal} (h : a.value = b.value) : a = b := by
  cases a <;> cases b <;> simp_all [Literal.value]

noncomputable def Node.value (M : Meaning) (ev : Handle → Option Value) : Node → Option Value
  | truth => some (.bool true)
  | literal l => some l.value
  | symbol y => some (M.symbol y)
  | app f args => (args.mapM ev).bind (M.apply f)
  | summary branches => pick (branches.map fun b => (truth? (ev b.1), ev b.2))
  | eq a b => (ev a).bind fun x => (ev b).bind fun y => x.same? y
  | junction c operands => (c.value (operands.map fun h => truth? (ev h))).map .bool

theorem Node.mem_children_summary {branches : List (Handle × Handle)} {b : Handle × Handle}
    (hb : b ∈ branches) : b.1 ∈ (summary branches).children ∧ b.2 ∈ (summary branches).children := by
  constructor <;>
  · refine List.mem_flatMap.mpr ⟨b, hb, ?_⟩
    simp

theorem mapM_option_congr {α β : Type} {f g : α → Option β} {l : List α} (h : ∀ a ∈ l, f a = g a) :
    l.mapM f = l.mapM g := by
  induction l with
  | nil => rfl
  | cons a l ih =>
    rw [List.mapM_cons, List.mapM_cons, h a (by simp), ih fun b hb => h b (List.mem_cons_of_mem _ hb)]

theorem length_of_mapM {α β : Type} {f : α → Option β} {l : List α} {l' : List β}
    (h : l.mapM f = some l') : l'.length = l.length := by
  induction l generalizing l' with
  | nil =>
    cases h
    rfl
  | cons a l ih =>
    rw [List.mapM_cons] at h
    obtain ⟨b, _, h⟩ := Option.bind_eq_some_iff.mp h
    obtain ⟨bs, hbs, h⟩ := Option.bind_eq_some_iff.mp h
    cases h
    simp [ih hbs]

/-- A node's value depends on its operands, its own symbol and its own function only. -/
theorem Node.value_congr {M M' : Meaning} {f g : Handle → Option Value} {n : Node}
    (operands : ∀ c ∈ n.children, f c = g c) (symbol : ∀ y, n = symbol y → M.symbol y = M'.symbol y)
    (apply : ∀ k args, n = app k args → ∀ xs, xs.length = args.length → M.apply k xs = M'.apply k xs) :
    n.value M f = n.value M' g := by
  cases n with
  | truth => rfl
  | literal l => rfl
  | symbol y => exact congrArg some (symbol y rfl)
  | app k args =>
    show (args.mapM f).bind _ = (args.mapM g).bind _
    rw [mapM_option_congr (g := g) (l := args) operands]
    rcases h : args.mapM g with _ | xs
    · rfl
    · exact apply k args rfl xs (length_of_mapM h)
  | summary branches =>
    refine congrArg pick (List.map_congr_left fun b hb => ?_)
    rw [operands _ (mem_children_summary hb).1, operands _ (mem_children_summary hb).2]
  | eq a b =>
    show (f a).bind _ = (g a).bind _
    rw [operands a (by simp [children]), operands b (by simp [children])]
  | junction c items =>
    have : (items.map fun h => truth? (f h)) = items.map fun h => truth? (g h) :=
      List.map_congr_left fun h hh => by rw [operands h hh]
    show (c.value (items.map fun h => truth? (f h))).map _ = _
    rw [this]
    rfl

noncomputable def Meaning.reading (M : Meaning) : Reading (Option Value) where
  node := fun ev n => n.value M ev
  negated := complement?
  missing := none
  local_ := fun h => Node.value_congr h (fun _ _ => rfl) (fun _ _ _ _ _ => rfl)

namespace Pool

noncomputable def eval (p : Pool) (M : Meaning) (h : Handle) : Option Value := p.read M.reading h

noncomputable def holds (p : Pool) (M : Meaning) (h : Handle) : Option Bool := truth? (p.eval M h)

variable {p p' : Pool} {M : Meaning}

theorem eval_extends (hp : p.Sound) (e : p.Extends p') {h : Handle} (hh : p.Has h) :
    p'.eval M h = p.eval M h :=
  read_extends hp e hh

theorem holds_extends (hp : p.Sound) (e : p.Extends p') {h : Handle} (hh : p.Has h) :
    p'.holds M h = p.holds M h := by
  unfold holds
  rw [eval_extends hp e hh]

/-- The value of an unnegated handle is that of its node. -/
theorem eval_node (hp : p.Sound) {h : Handle} {n : Node} (hn : p.node? h = some n)
    (sign : h.negated = false) : p.eval M h = n.value M (p.eval M) := by
  unfold eval
  rw [read_eq hp hn]
  unfold signedReading
  rw [sign]
  rfl

theorem eval_negated (hp : p.Sound) {h : Handle} (hh : p.Has h) (sign : h.negated = false) :
    p.eval M (-h) = complement? (p.eval M h) := by
  obtain ⟨n, hn⟩ := has_iff.mp hh
  rw [eval_node hp hn sign]
  unfold eval
  rw [read_eq hp (h := -h) hn]
  unfold signedReading
  have : (-h).negated = true := by
    show (!h.negated) = true
    rw [sign]
    rfl
  rw [this]
  rfl

theorem holds_eq_some {h : Handle} {b : Bool} : p.holds M h = some b ↔ p.eval M h = some (.bool b) :=
  truth?_eq_some

theorem holds_neg (hp : p.Sound) {h : Handle} (hh : p.Has h) : p.holds M (-h) = (p.holds M h).map (!·) := by
  unfold holds
  rcases sign : h.negated with _ | _
  · rw [eval_negated hp hh sign, truth?_complement?]
  · have back : p.eval M h = complement? (p.eval M (-h)) := by
      have := eval_negated (M := M) hp (h := -h) (has_neg.mpr hh) (by show (!h.negated) = false; rw [sign]; rfl)
      rwa [Handle.neg_neg] at this
    rw [back, truth?_complement?]
    cases truth? (p.eval M (-h)) <;> simp

theorem holds_neg_eq_some (hp : p.Sound) {h : Handle} (hh : p.Has h) {b : Bool} :
    p.holds M (-h) = some b ↔ p.holds M h = some (!b) := by
  rw [holds_neg hp hh]
  cases p.holds M h with
  | none => simp
  | some c => cases b <;> cases c <;> simp

@[simp] theorem eval_tt (hp : p.Sound) : p.eval M .tt = some (.bool true) :=
  eval_node hp hp.truth rfl

@[simp] theorem holds_tt (hp : p.Sound) : p.holds M .tt = some true :=
  holds_eq_some.mpr (eval_tt hp)

@[simp] theorem holds_ff (hp : p.Sound) : p.holds M .ff = some false :=
  (holds_neg_eq_some hp hp.has_tt).mpr (holds_tt hp)

@[simp] theorem eval_ff (hp : p.Sound) : p.eval M .ff = some (.bool false) :=
  holds_eq_some.mp (holds_ff hp)

/-- The value of a negated handle is a boolean. -/
theorem isBool_of_negated (hp : p.Sound) {h : Handle} (hh : p.Has h) (sign : h.negated = true) {x : Value}
    (hx : p.eval M h = some x) : ∃ b, x = .bool b := by
  have back : p.eval M h = complement? (p.eval M (-h)) := by
    have := eval_negated (M := M) hp (h := -h) (has_neg.mpr hh) (by show (!h.negated) = false; rw [sign]; rfl)
    rwa [Handle.neg_neg] at this
  rw [back] at hx
  unfold complement? at hx
  obtain ⟨b, _, rfl⟩ := Option.map_eq_some_iff.mp hx
  exact ⟨_, rfl⟩

/-- What refines a handle refines its complement, signs taken off. -/
theorem below_neg {M' : Meaning} (hp : p.Sound) (hp' : p'.Sound) {h k : Handle} (hh : p.Has h) (hk : p'.Has k)
    (sign : h.negated = false) (le : Below (p.eval M h) (p'.eval M' k)) :
    Below (p.eval M (-h)) (p'.eval M' (-k)) := by
  intro x hx
  have neg : (-h).negated = true := by
    show (!h.negated) = true
    rw [sign]
    rfl
  obtain ⟨b, rfl⟩ := isBool_of_negated hp (has_neg.mpr hh) neg hx
  have : p.holds M h = some (!b) := (holds_neg_eq_some hp hh).mp (holds_eq_some.mpr hx)
  exact holds_eq_some.mp ((holds_neg_eq_some hp' hk).mpr (holds_eq_some.mpr (le _ (holds_eq_some.mp this))))

theorem holds_junction (hp : p.Sound) {h : Handle} {c : Connective} {items : List Handle}
    (hn : p.node? h = some (.junction c items)) (sign : h.negated = false) :
    p.holds M h = c.value (items.map (p.holds M)) := by
  have node : p.eval M h = (c.value (items.map (p.holds M))).map .bool := eval_node hp hn sign
  show truth? (p.eval M h) = _
  rw [node]
  cases c.value (items.map (p.holds M)) <;> rfl

theorem eval_summary (hp : p.Sound) {h : Handle} {branches : List (Handle × Handle)}
    (hn : p.node? h = some (.summary branches)) (sign : h.negated = false) :
    p.eval M h = pick (branches.map fun b => (p.holds M b.1, p.eval M b.2)) :=
  eval_node hp hn sign

end Pool

end PathMerge

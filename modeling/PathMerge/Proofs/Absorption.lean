/-
  PathMerge.Proofs.Absorption — what operands stand for, whatever has been absorbed.

  Below a junction of kind `c`, a handle stands for clauses, which are sets of alternatives: an atom stands for
  itself alone, a junction of the dual kind for its operands, a junction of kind `c` for whatever its operands
  stand for, and the absorbing handle for the empty clause (`Clause`). Absorption is unit resolution: an
  alternative goes once its complement is a clause, and a clause left with one alternative is opened
  (`Derives`). It also drops clauses that hold an alternative which is a clause by itself. `Subsumed` says which
  clauses are not needed, and operands are interchangeable when neither has a clause that the other needs.

  This is confluent: refuting alternatives of a clause that is not needed gives one that is not needed
  (`Subsumed.resolve`). In canonical form nothing is left to refute and nothing to drop, so two handles that are
  interchangeable are the same (`eq_of_interchangeable`).

  Negation has to stand on atoms alone. A negated junction is no operand that is ever taken apart, but it may be
  the complement of an alternative, and its operands may not.
-/

import PathMerge.Proofs.Canonical

namespace PathMerge

variable {c : Connective} {p q : Pool} {h : Handle}

namespace Connective

@[simp] theorem dual_dual (c : Connective) : c.dual.dual = c := by cases c <;> rfl

theorem dual_ne (c : Connective) : c.dual ≠ c := by cases c <;> decide

theorem dual_neutral (c : Connective) : c.dual.neutral = c.absorbing := by cases c <;> rfl

theorem eq_or_eq_dual (c d : Connective) : d = c ∨ d = c.dual := by cases c <;> cases d <;> decide

end Connective

namespace Pool

/-! ## Negation normal form -/

theorem node?_neutral (hp : p.Sound) (c : Connective) : p.node? c.neutral = some .truth := by
  cases c <;> exact hp.truth

structure Atom (p : Pool) (h : Handle) : Prop where
  not_tt : h ≠ .tt
  not_ff : h ≠ .ff
  plain : ∀ c items, p.node? h ≠ some (.junction c items)

theorem Atom.neg (a : p.Atom h) : p.Atom (-h) := by
  refine ⟨fun e => a.not_ff ?_, fun e => a.not_tt ?_, a.plain⟩
  · rw [← h.neg_neg, e]
    rfl
  · rw [← h.neg_neg, e]
    rfl

theorem Atom.of_neg (a : p.Atom (-h)) : p.Atom h := h.neg_neg ▸ a.neg

/-- Only handles whose node is no junction are negated, however deep below junctions. -/
inductive NegationNormal (p : Pool) : Handle → Prop
  | leaf {h : Handle} (plain : ∀ c items, p.node? h ≠ some (.junction c items)) : p.NegationNormal h
  | junction {h : Handle} {c : Connective} {items : List Handle} (hn : p.node? h = some (.junction c items))
      (sign : h.negated = false) (all : ∀ x ∈ items, p.NegationNormal x) : p.NegationNormal h

namespace NegationNormal

variable {items : List Handle}

theorem of_node {n : Node} (hn : p.node? h = some n) (plain : ∀ c items, n ≠ .junction c items) : p.NegationNormal h :=
  .leaf fun c items hn' => plain c items (Option.some.inj (hn.symm.trans hn'))

theorem sign (n : p.NegationNormal h) (hn : p.node? h = some (.junction c items)) : h.negated = false := by
  cases n with
  | leaf plain => exact absurd hn (plain c items)
  | junction _ sign _ => exact sign

theorem operands (n : p.NegationNormal h) (hn : p.node? h = some (.junction c items)) :
    ∀ x ∈ items, p.NegationNormal x := by
  cases n with
  | leaf plain => exact absurd hn (plain c items)
  | junction hn' _ all =>
    cases hn.symm.trans hn'
    exact all

theorem neutral (hp : p.Sound) (c : Connective) : p.NegationNormal c.neutral :=
  .of_node (node?_neutral hp c) (by simp)

theorem absorbing (hp : p.Sound) (c : Connective) : p.NegationNormal c.absorbing := c.dual_neutral ▸ neutral hp c.dual

theorem «extends» (hp : p.Sound) (e : p.Extends q) (hh : p.Has h) (n : p.NegationNormal h) : q.NegationNormal h := by
  induction n with
  | leaf plain => exact .leaf (by rwa [e.node? hh])
  | junction hn sign _ ih => exact .junction (e hn) sign fun x hx => ih x hx (hp.has_child hn hx)

/-- What stands as an operand of its own in junctions of either kind is an atom. -/
theorem atom (n : p.NegationNormal h) (a : p.Apart c h) (b : p.Apart c.dual h) : p.Atom h := by
  refine ⟨a.not_tt, a.not_ff, fun d items hn => ?_⟩
  rcases c.eq_or_eq_dual d with rfl | rfl
  · exact a.nested (n.sign hn) items hn
  · exact b.nested (n.sign hn) items hn

theorem atom_of_neg (n : p.NegationNormal h) (n' : p.NegationNormal (-h)) (a : p.Apart c h) : p.Atom h := by
  refine ⟨a.not_tt, a.not_ff, fun d items hn => ?_⟩
  have sign := n.sign hn
  have sign' := n'.sign (h := -h) hn
  simp [sign] at sign'

end NegationNormal

/-! ## Clauses -/

/-- The clauses that `h` stands for below a junction of kind `c`. -/
inductive Clause (p : Pool) (c : Connective) : Handle → Set Handle → Prop
  | absorbing : Clause p c c.absorbing ∅
  | atom {h : Handle} (a : p.Atom h) : Clause p c h {h}
  | dual {h : Handle} {inner : List Handle} (hn : p.node? h = some (.junction c.dual inner))
      (sign : h.negated = false) :
      Clause p c h {x | x ∈ inner}
  | nested {h x : Handle} {items : List Handle} {t : Set Handle} (hn : p.node? h = some (.junction c items))
      (sign : h.negated = false) (mem : x ∈ items) (part : Clause p c x t) : Clause p c h t

/-- There are two different operands at least. -/
theorem Flat.nontrivial {items : List Handle} (f : p.Flat c items) : {x | x ∈ items}.Nontrivial := by
  have many := f.many
  have sorted := f.sorted
  rcases items with _ | ⟨x, _ | ⟨y, rest⟩⟩
  · cases many
  · simp at many
  · refine ⟨x, by simp, y, by simp, fun same => ?_⟩
    have less := (List.pairwise_cons.mp sorted).1 y (by simp)
    rw [same, Handle.lt_irrefl] at less
    cases less

variable {t : Set Handle}

theorem not_clause_neutral (hp : p.Sound) : ¬ p.Clause c c.neutral t := by
  have node := node?_neutral hp c
  intro clause
  generalize e : c.neutral = h at clause node
  cases clause with
  | absorbing => exact c.absorbing_ne_neutral e.symm
  | atom a =>
    cases c
    · exact a.not_tt e.symm
    · exact a.not_ff e.symm
  | dual hn => cases node.symm.trans hn
  | nested hn => cases node.symm.trans hn

theorem clause_absorbing (hp : p.Sound) : p.Clause c c.absorbing t ↔ t = ∅ := by
  constructor
  · intro clause
    have node : p.node? c.absorbing = some .truth := node?_neutral hp c
    generalize e : c.absorbing = h at clause node
    cases clause with
    | absorbing => rfl
    | atom a =>
      cases c
      · exact absurd e.symm a.not_ff
      · exact absurd e.symm a.not_tt
    | dual hn => cases node.symm.trans hn
    | nested hn => cases node.symm.trans hn
  · rintro rfl
    exact .absorbing

theorem clause_atom (a : p.Atom h) : p.Clause c h t ↔ t = {h} := by
  constructor
  · intro clause
    cases clause with
    | absorbing => cases c <;> exact absurd rfl (by first | exact a.not_ff | exact a.not_tt)
    | atom => rfl
    | dual hn => exact absurd hn (a.plain _ _)
    | nested hn => exact absurd hn (a.plain _ _)
  · rintro rfl
    exact .atom a

/-- A junction of the dual connective is one clause of its operands. -/
theorem clause_dual (hp : p.Sound) {inner : List Handle} (hn : p.node? h = some (.junction c.dual inner))
    (sign : h.negated = false) : p.Clause c h t ↔ t = {x | x ∈ inner} := by
  constructor
  · intro clause
    cases clause with
    | absorbing => cases (node?_neutral hp c).symm.trans hn
    | atom a => exact absurd hn (a.plain _ _)
    | dual hn' =>
      cases hn.symm.trans hn'
      rfl
    | nested hn' =>
      injection hn.symm.trans hn' with same
      injection same with kind
      exact absurd kind c.dual_ne
  · rintro rfl
    exact .dual hn sign

/-- The clauses of a junction are those of its operands. -/
theorem clause_junction (hp : p.Sound) {items : List Handle} (hn : p.node? h = some (.junction c items))
    (sign : h.negated = false) : p.Clause c h t ↔ ∃ x ∈ items, p.Clause c x t := by
  constructor
  · intro clause
    cases clause with
    | absorbing => cases (node?_neutral hp c).symm.trans hn
    | atom a => exact absurd hn (a.plain _ _)
    | dual hn' =>
      injection hn'.symm.trans hn with same
      injection same with kind
      exact absurd kind c.dual_ne
    | nested hn' _ mem part =>
      cases hn.symm.trans hn'
      exact ⟨_, mem, part⟩
  · rintro ⟨x, mem, part⟩
    exact .nested hn sign mem part

inductive Lone (p : Pool) (c : Connective) : Handle → Set Handle → Prop
  | atom {h : Handle} (a : p.Atom h) : Lone p c h {h}
  | dual {h : Handle} {inner : List Handle} (hn : p.node? h = some (.junction c.dual inner))
      (sign : h.negated = false) :
      Lone p c h {x | x ∈ inner}

theorem Lone.clause (l : p.Lone c h t) : p.Clause c h t := by
  cases l with
  | atom a => exact .atom a
  | dual hn sign => exact .dual hn sign

theorem Clause.lone (clause : p.Clause c h t) (a : p.Apart c h) : p.Lone c h t := by
  cases clause with
  | absorbing => exact absurd rfl (a.ne_absorbing c)
  | atom a => exact .atom a
  | dual hn sign => exact .dual hn sign
  | nested hn sign => exact absurd hn (a.nested sign _)

theorem NegationNormal.lone (n : p.NegationNormal h) (a : p.Apart c h) : ∃ t, p.Lone c h t := by
  cases n with
  | leaf plain => exact ⟨_, .atom ⟨a.not_tt, a.not_ff, plain⟩⟩
  | @junction _ d items hn sign _ =>
    rcases c.eq_or_eq_dual d with rfl | rfl
    · exact absurd hn (a.nested sign items)
    · exact ⟨_, .dual hn sign⟩

theorem Lone.nonempty (hp : p.Sound) (l : p.Lone c h t) : t.Nonempty := by
  cases l with
  | atom => exact Set.singleton_nonempty h
  | dual hn => exact (Flat.nontrivial (hp.formed hn)).nonempty

/-- The clause of a single alternative is that of an atom. -/
theorem Lone.eq_of_singleton (hp : p.Sound) {z : Handle} (l : p.Lone c h {z}) : h = z ∧ p.Atom z := by
  generalize e : ({z} : Set Handle) = t at l
  cases l with
  | atom a =>
    obtain rfl := Set.singleton_injective e
    exact ⟨rfl, a⟩
  | dual hn => exact absurd e.symm (Flat.nontrivial (hp.formed hn)).ne_singleton

theorem Lone.unique (hp : p.Sound) {k : Handle} (l : p.Lone c h t) (l' : p.Lone c k t) : h = k := by
  cases l with
  | atom => exact (l'.eq_of_singleton hp).1.symm
  | @dual inner hn sign =>
    have flat : p.Flat c.dual inner := hp.formed hn
    generalize e : {x | x ∈ inner} = t at l'
    cases l' with
    | atom => exact absurd e flat.nontrivial.ne_singleton
    | @dual inner' hn' sign' =>
      have flat' : p.Flat c.dual inner' := hp.formed hn'
      obtain rfl := Handle.eq_of_sorted flat.sorted flat'.sorted fun x => Set.ext_iff.mp e x
      exact hp.eq_of_node hn hn' (sign.trans sign'.symm)

theorem Clause.atom_of_singleton (hp : p.Sound) {z : Handle} (clause : p.Clause c h {z}) : p.Atom z := by
  generalize e : ({z} : Set Handle) = t at clause
  induction clause with
  | absorbing => exact absurd e (Set.singleton_ne_empty z)
  | atom a => exact Set.singleton_injective e ▸ a
  | dual hn => exact absurd e.symm (Flat.nontrivial (hp.formed hn)).ne_singleton
  | nested _ _ _ _ ih => exact ih e

/-! ## Resolution -/

inductive Unfolds (p : Pool) (c : Connective) : Set Handle → Set Handle → Prop
  | single {z : Handle} {s : Set Handle} (opened : p.Clause c z s) : Unfolds p c {z} s
  | several {t : Set Handle} (open_ : ∀ z, t ≠ {z}) : Unfolds p c t t

/-- The clauses that follow from those of `items` by refuting alternatives. -/
inductive Derives (p : Pool) (c : Connective) (items : List Handle) : Set Handle → Prop
  | operand {h : Handle} {t : Set Handle} (mem : h ∈ items) (clause : p.Clause c h t) : Derives p c items t
  | resolve {t t' s : Set Handle} (whole : Derives p c items t) (part : t' ⊆ t)
      (refuted : ∀ y ∈ t, y ∉ t' → Derives p c items {-y}) (left : p.Unfolds c t' s) : Derives p c items s

/-- A clause that can be left out beside `items`: they decide all, or one of its alternatives is a clause, or it is
derived, or what is left of it once refuted alternatives are gone can be left out. -/
inductive Subsumed (p : Pool) (c : Connective) (items : List Handle) : Set Handle → Prop
  | decided {t : Set Handle} (none_ : p.Derives c items ∅) : Subsumed p c items t
  | unit {x : Handle} {t : Set Handle} (mem : x ∈ t) (alone : p.Derives c items {x}) : Subsumed p c items t
  | derived {t : Set Handle} (d : p.Derives c items t) : Subsumed p c items t
  | reduces {t t' : Set Handle} (part : t' ⊆ t) (refuted : ∀ y ∈ t, y ∉ t' → p.Derives c items {-y})
      (left : ∀ s, p.Unfolds c t' s → Subsumed p c items s) : Subsumed p c items t

variable {s t' : Set Handle} {x z : Handle} {items xs ys zs : List Handle}

theorem unfolds_empty : p.Unfolds c ∅ s ↔ s = ∅ := by
  constructor
  · intro u
    generalize e : (∅ : Set Handle) = t at u
    cases u with
    | single => exact absurd e.symm (Set.singleton_ne_empty _)
    | several => rfl
  · rintro rfl
    exact .several fun z => (Set.singleton_ne_empty z).symm

theorem unfolds_singleton : p.Unfolds c {z} s ↔ p.Clause c z s := by
  constructor
  · intro u
    generalize e : ({z} : Set Handle) = t at u
    cases u with
    | single opened => exact Set.singleton_injective e ▸ opened
    | several open_ => exact absurd e.symm (open_ z)
  · exact .single

theorem unfolds_atom (a : p.Atom z) : p.Unfolds c {z} s ↔ s = {z} := unfolds_singleton.trans (clause_atom a)

/-- A clause of an operand is open already. -/
theorem Clause.unfolds (hp : p.Sound) (clause : p.Clause c h t) : p.Unfolds c t s ↔ s = t := by
  by_cases single : ∃ z, t = {z}
  · obtain ⟨z, rfl⟩ := single
    exact unfolds_atom (clause.atom_of_singleton hp)
  · have open_ : ∀ z, t ≠ {z} := fun z e => single ⟨z, e⟩
    constructor
    · intro u
      cases u with
      | single => exact absurd rfl (open_ _)
      | several => rfl
    · rintro rfl
      exact .several open_

theorem Derives.atom (hp : p.Sound) (d : p.Derives c items {x}) : p.Atom x := by
  generalize e : ({x} : Set Handle) = t at d
  cases d with
  | operand _ clause => exact (e ▸ clause).atom_of_singleton hp
  | resolve _ _ _ left =>
    cases left with
    | single opened => exact (e ▸ opened).atom_of_singleton hp
    | several open_ => exact absurd e.symm (open_ x)

/-- An alternative whose complement is derived is an atom. -/
theorem Derives.atom_of_refuted (hp : p.Sound) (d : p.Derives c items {-x}) : p.Atom x := (d.atom hp).of_neg

theorem Derives.clash (d : p.Derives c items {x}) (d' : p.Derives c items {-x}) : p.Derives c items ∅ := by
  refine .resolve d (Set.empty_subset _) (fun y hy _ => ?_) (unfolds_empty.mpr rfl)
  obtain rfl := Set.mem_singleton_iff.mp hy
  exact d'

theorem Derives.mono (sub : ∀ h ∈ xs, h ∈ ys) (d : p.Derives c xs t) : p.Derives c ys t := by
  induction d with
  | operand mem clause => exact .operand (sub _ mem) clause
  | resolve _ part _ left ih refuted => exact .resolve ih part refuted left

theorem Subsumed.mono (sub : ∀ h ∈ xs, h ∈ ys) (d : p.Subsumed c xs t) : p.Subsumed c ys t := by
  induction d with
  | decided none_ => exact .decided (none_.mono sub)
  | unit mem alone => exact .unit mem (alone.mono sub)
  | derived d => exact .derived (d.mono sub)
  | reduces part refuted _ ih => exact .reduces part (fun y hy out => (refuted y hy out).mono sub) ih

/-! ## Subsumption is resolved along with the clauses -/

theorem Subsumed.derives_empty (d : p.Subsumed c items ∅) : p.Derives c items ∅ := by
  obtain ⟨t, e⟩ : ∃ t, t = (∅ : Set Handle) := ⟨_, rfl⟩
  rw [← e] at d
  induction d with
  | decided none_ => exact none_
  | unit mem => simp [e] at mem
  | derived d => exact e ▸ d
  | reduces part _ _ ih =>
    obtain rfl := Set.subset_empty_iff.mp (e ▸ part)
    exact ih ∅ (unfolds_empty.mpr rfl) rfl

theorem Subsumed.derives_atom (a : p.Atom x) (d : p.Subsumed c items {x}) :
    p.Derives c items {x} ∨ p.Derives c items ∅ := by
  obtain ⟨t, e⟩ : ∃ t, t = ({x} : Set Handle) := ⟨_, rfl⟩
  rw [← e] at d
  induction d with
  | decided none_ => exact .inr none_
  | unit mem alone =>
    obtain rfl := Set.mem_singleton_iff.mp (e ▸ mem)
    exact .inl alone
  | derived d => exact .inl (e ▸ d)
  | reduces part _ left ih =>
    rcases Set.subset_singleton_iff_eq.mp (e ▸ part) with rfl | rfl
    · exact .inr (left ∅ (unfolds_empty.mpr rfl)).derives_empty
    · exact ih {x} ((unfolds_atom a).mpr rfl) rfl

/-- A clause can be left out if what is left of it can, also if it was opened. -/
theorem Subsumed.of_unfolds (hp : p.Sound) (u : p.Unfolds c t s) (part : t' ⊆ t)
    (refuted : ∀ y ∈ t, y ∉ t' → p.Derives c items {-y}) (left : ∀ s, p.Unfolds c t' s → p.Subsumed c items s) :
    p.Subsumed c items s := by
  cases u with
  | several => exact .reduces part refuted left
  | @single z s opened =>
    rcases Set.subset_singleton_iff_eq.mp part with rfl | rfl
    · obtain rfl := (clause_atom ((refuted z rfl (Set.notMem_empty z)).atom_of_refuted hp)).mp opened
      exact .reduces part refuted left
    · exact left s (.single opened)

/-- Refuting alternatives of a clause that can be left out gives one that can be left out. -/
theorem Subsumed.resolve (hp : p.Sound) (d : p.Subsumed c items t) (part : t' ⊆ t)
    (refuted : ∀ y ∈ t, y ∉ t' → p.Derives c items {-y}) (u : p.Unfolds c t' s) : p.Subsumed c items s := by
  induction d generalizing t' s with
  | decided none_ => exact .decided none_
  | @unit x t mem alone =>
    by_cases kept : x ∈ t'
    · cases u with
      | several => exact .unit kept alone
      | single opened =>
        obtain rfl := Set.mem_singleton_iff.mp kept
        obtain rfl := (clause_atom (alone.atom hp)).mp opened
        exact .derived alone
    · exact .decided (alone.clash (refuted x mem kept))
  | derived d => exact .derived (.resolve d part refuted u)
  | @reduces t t₀ part₀ refuted₀ left₀ ih =>
    -- Both reductions of `t` are carried out together. What `t₀` was opened to loses the alternatives outside `t'`.
    have both : ∀ s, p.Unfolds c (t₀ ∩ t') s → p.Subsumed c items s := by
      intro s u
      have gone : ∀ y ∈ t₀, y ∉ t₀ ∩ t' → p.Derives c items {-y} := fun y hy out =>
        refuted y (part₀ hy) fun hy' => out ⟨hy, hy'⟩
      by_cases single : ∃ z, t₀ = {z}
      · obtain ⟨z, rfl⟩ := single
        rcases Set.subset_singleton_iff_eq.mp (Set.inter_subset_left (s := {z}) (t := t')) with e | e
        · have a := (gone z rfl (e ▸ Set.notMem_empty z)).atom_of_refuted hp
          exact ih {z} ((unfolds_atom a).mpr rfl) Set.inter_subset_left gone u
        · exact left₀ s (e ▸ u)
      · exact ih t₀ (.several fun z e => single ⟨z, e⟩) Set.inter_subset_left gone u
    exact .of_unfolds hp u Set.inter_subset_right (fun y hy out => refuted₀ y (part hy) fun hy₀ => out ⟨hy₀, hy⟩) both

/-! ## Operands that stand for the same -/

def Entails (p : Pool) (c : Connective) (xs ys : List Handle) : Prop :=
  ∀ h ∈ ys, ∀ t, p.Clause c h t → p.Subsumed c xs t

namespace Entails

theorem of_subset (sub : ∀ h ∈ ys, h ∈ xs) : p.Entails c xs ys := fun h hh _ clause =>
  .derived (.operand (sub h hh) clause)

theorem mono (e : p.Entails c xs ys) (sub : ∀ h ∈ xs, h ∈ zs) : p.Entails c zs ys := fun h hh t clause =>
  (e h hh t clause).mono sub

theorem append (e : p.Entails c zs xs) (e' : p.Entails c zs ys) : p.Entails c zs (xs ++ ys) := fun h hh =>
  (List.mem_append.mp hh).elim (e h) (e' h)

theorem derives (hp : p.Sound) (e : p.Entails c xs ys) (d : p.Derives c ys t) : p.Subsumed c xs t := by
  induction d with
  | operand mem clause => exact e _ mem _ clause
  | @resolve t t' s whole part refuted left ih ih' =>
    by_cases decided : p.Derives c xs ∅
    · exact .decided decided
    · refine ih.resolve hp part (fun y hy out => ?_) left
      exact ((ih' y hy out).derives_atom ((refuted y hy out).atom hp)).resolve_right decided

theorem subsumed (hp : p.Sound) (e : p.Entails c xs ys) (d : p.Subsumed c ys t) : p.Subsumed c xs t := by
  by_cases decided : p.Derives c xs ∅
  · exact .decided decided
  · have alone : ∀ x, p.Derives c ys {x} → p.Derives c xs {x} := fun x d =>
      ((e.derives hp d).derives_atom (d.atom hp)).resolve_right decided
    induction d with
    | decided none_ => exact .decided (e.derives hp none_).derives_empty
    | unit mem d => exact .unit mem (alone _ d)
    | derived d => exact e.derives hp d
    | reduces part refuted _ ih => exact .reduces part (fun y hy out => alone _ (refuted y hy out)) ih

theorem trans (hp : p.Sound) (e : p.Entails c xs ys) (e' : p.Entails c ys zs) : p.Entails c xs zs :=
  fun h hh t clause =>
  e.subsumed hp (e' h hh t clause)

end Entails

structure Interchangeable (p : Pool) (c : Connective) (xs ys : List Handle) : Prop where
  left : p.Entails c xs ys
  right : p.Entails c ys xs

namespace Interchangeable

theorem of_mem (same : ∀ h, h ∈ xs ↔ h ∈ ys) : p.Interchangeable c xs ys :=
  ⟨.of_subset fun h => (same h).mpr, .of_subset fun h => (same h).mp⟩

theorem symm (i : p.Interchangeable c xs ys) : p.Interchangeable c ys xs := ⟨i.right, i.left⟩

theorem trans (hp : p.Sound) (i : p.Interchangeable c xs ys) (j : p.Interchangeable c ys zs) :
    p.Interchangeable c xs zs :=
  ⟨i.left.trans hp j.left, j.right.trans hp i.right⟩

theorem append (i : p.Interchangeable c xs ys) (zs : List Handle) : p.Interchangeable c (xs ++ zs) (ys ++ zs) := by
  refine ⟨.append (i.left.mono ?_) (.of_subset ?_), .append (i.right.mono ?_) (.of_subset ?_)⟩
  all_goals
    intro h hh
    simp [hh]

/-- Operands with the same clauses. -/
theorem of_clauses (same : ∀ t, (∃ h ∈ xs, p.Clause c h t) ↔ ∃ h ∈ ys, p.Clause c h t) : p.Interchangeable c xs ys := by
  constructor
  · intro h hh t clause
    obtain ⟨k, hk, clause⟩ := (same t).mpr ⟨h, hh, clause⟩
    exact .derived (.operand hk clause)
  · intro h hh t clause
    obtain ⟨k, hk, clause⟩ := (same t).mp ⟨h, hh, clause⟩
    exact .derived (.operand hk clause)

end Interchangeable

/-! ## Canonical form -/

structure Settled (p : Pool) (c : Connective) (items : List Handle) : Prop where
  sorted : items.Pairwise (Handle.lt · · = true)
  apart : ∀ x ∈ items, p.Apart c x
  consistent : ∀ x ∈ items, -x ∉ items
  unabsorbed : ∀ x ∈ items, p.Unabsorbed c items x

theorem Flat.settled (f : p.Flat c items) : p.Settled c items := ⟨f.sorted, f.apart, f.consistent, f.unabsorbed⟩

namespace Settled

variable {y : Handle}

theorem filter (o : p.Settled c items) (f : Handle → Bool) : p.Settled c (items.filter f) := by
  have part : ∀ {x}, x ∈ items.filter f → x ∈ items := fun hx => (List.mem_filter.mp hx).1
  refine ⟨o.sorted.filter f, fun x hx => o.apart x (part hx), fun x hx hx' => ?_, fun x hx sign inner hn y hy => ?_⟩
  · exact o.consistent x (part hx) (part hx')
  · obtain ⟨out, out'⟩ := o.unabsorbed x (part hx) sign inner hn y hy
    exact ⟨fun there => out (part there), fun there => out' (part there)⟩

/-- No alternative of an operand's clause is refuted. -/
theorem not_refuted (o : p.Settled c items) (hx : x ∈ items) (l : p.Lone c x t) (hy : y ∈ t) : -y ∉ items := by
  cases l with
  | atom =>
    obtain rfl := Set.mem_singleton_iff.mp hy
    exact o.consistent y hx
  | dual hn sign => exact (o.unabsorbed x hx sign _ hn y hy).2

/-- An operand that is an alternative of an operand's clause is that operand. -/
theorem eq_singleton (o : p.Settled c items) (hx : x ∈ items) (l : p.Lone c x t) (hy : y ∈ t) (there : y ∈ items) :
    t = {y} := by
  cases l with
  | atom => rw [Set.mem_singleton_iff.mp hy]
  | dual hn sign => exact absurd there (o.unabsorbed x hx sign _ hn y hy).1

/-- Nothing is derived but the clauses of the operands. -/
theorem derives (o : p.Settled c items) (hp : p.Sound) (d : p.Derives c items t) : ∃ x ∈ items, p.Lone c x t := by
  induction d with
  | operand mem clause => exact ⟨_, mem, clause.lone (o.apart _ mem)⟩
  | @resolve t t' s _ part _ left ih ih' =>
    obtain ⟨x, hx, l⟩ := ih
    obtain rfl : t' = t := by
      refine part.antisymm fun y hy => by_contra fun out => ?_
      obtain ⟨k, hk, l'⟩ := ih' y hy out
      exact o.not_refuted hx l hy ((l'.eq_of_singleton hp).1 ▸ hk)
    obtain rfl := (l.clause.unfolds hp).mp left
    exact ⟨x, hx, l⟩

theorem mem_of_derives (o : p.Settled c items) (hp : p.Sound) (d : p.Derives c items {x}) : x ∈ items := by
  obtain ⟨k, hk, l⟩ := o.derives hp d
  exact (l.eq_of_singleton hp).1 ▸ hk

theorem not_derives_empty (o : p.Settled c items) (hp : p.Sound) : ¬ p.Derives c items ∅ := by
  intro d
  obtain ⟨x, _, l⟩ := o.derives hp d
  exact Set.not_nonempty_empty (l.nonempty hp)

/-- Beside operands that stand for the same, only clauses of operands can be left out. -/
theorem lone_of_subsumed (o : p.Settled c xs) (o' : p.Settled c ys) (hp : p.Sound) (e : p.Entails c ys xs) (hy : y ∈ ys)
    (l : p.Lone c y t) (d : p.Subsumed c xs t) : ∃ x ∈ xs, p.Lone c x t := by
  have shared : ∀ z, p.Derives c xs {z} → z ∈ ys := by
    intro z d
    rcases (e.derives hp d).derives_atom (d.atom hp) with d' | none_
    · exact o'.mem_of_derives hp d'
    · exact absurd none_ (o'.not_derives_empty hp)
  induction d with
  | decided none_ => exact absurd none_ (o.not_derives_empty hp)
  | unit mem alone =>
    obtain rfl := o'.eq_singleton hy l mem (shared _ alone)
    exact o.derives hp alone
  | derived d => exact o.derives hp d
  | @reduces t t' part refuted _ ih =>
    obtain rfl : t' = t := by
      refine part.antisymm fun y' hy' => by_contra fun out => ?_
      exact o'.not_refuted hy l hy' (shared _ (refuted y' hy' out))
    exact ih t' ((l.clause.unfolds hp).mpr rfl) l

theorem subset (o : p.Settled c xs) (o' : p.Settled c ys) (hp : p.Sound) (i : p.Interchangeable c xs ys)
    (normal : ∀ y ∈ ys, p.NegationNormal y) : ∀ y ∈ ys, y ∈ xs := by
  intro y hy
  obtain ⟨t, l⟩ := (normal y hy).lone (o'.apart y hy)
  obtain ⟨x, hx, l'⟩ := o.lone_of_subsumed o' hp i.right hy l (i.left y hy t l.clause)
  exact l'.unique hp l ▸ hx

end Settled

inductive Operands (p : Pool) (c : Connective) : Handle → List Handle → Prop
  | neutral : Operands p c c.neutral []
  | alone {h : Handle} (apart : p.Apart c h) : Operands p c h [h]
  | junction {h : Handle} {items : List Handle} (hn : p.node? h = some (.junction c items)) (sign : h.negated = false) :
      Operands p c h items

namespace Operands

variable {k : Handle}

theorem exists_of_ne (p : Pool) (ne : h ≠ c.absorbing) : ∃ items, p.Operands c h items := by
  by_cases neutral : h = c.neutral
  · exact ⟨[], neutral ▸ .neutral⟩
  by_cases nested : h.negated = false ∧ ∃ items, p.node? h = some (.junction c items)
  · obtain ⟨sign, items, hn⟩ := nested
    exact ⟨items, .junction hn sign⟩
  · refine ⟨[h], .alone (.of_ne neutral ne fun sign items hn => nested ⟨sign, items, hn⟩)⟩

theorem settled (hp : p.Sound) (o : p.Operands c h items) : p.Settled c items := by
  cases o with
  | neutral => exact ⟨.nil, List.forall_mem_nil _, List.forall_mem_nil _, List.forall_mem_nil _⟩
  | alone apart =>
    refine ⟨List.pairwise_singleton _ _, by simpa using apart, by simpa using h.neg_ne, ?_⟩
    intro x hx _ inner hn y hy
    -- Operands have smaller indices than their node.
    have below := (hp.below hn y hy).2
    rw [List.mem_singleton.mp hx] at below
    refine ⟨fun there => ?_, fun there => ?_⟩
    · rw [List.mem_singleton.mp there] at below
      exact Nat.lt_irrefl _ below
    · rw [← List.mem_singleton.mp there] at below
      exact Nat.lt_irrefl _ below
  | junction hn => exact Flat.settled (hp.formed hn)

theorem interchangeable (hp : p.Sound) (o : p.Operands c h items) : p.Interchangeable c [h] items := by
  refine .of_clauses fun t => ?_
  cases o with
  | neutral => simp [not_clause_neutral hp]
  | alone => rfl
  | junction hn sign => simp only [List.mem_singleton, exists_eq_left, clause_junction hp hn sign]

theorem normal (o : p.Operands c h items) (n : p.NegationNormal h) : ∀ x ∈ items, p.NegationNormal x := by
  cases o with
  | neutral => exact List.forall_mem_nil _
  | alone => simpa using n
  | junction hn => exact n.operands hn

/-- A formula is determined by its connective and its operands. -/
theorem unique (hp : p.Sound) (o : p.Operands c h items) (o' : p.Operands c k items) : h = k := by
  cases o with
  | neutral =>
    cases o' with
    | neutral => rfl
    | junction hn => exact absurd (Flat.many (hp.formed hn)) (by simp)
  | alone =>
    cases o' with
    | alone => rfl
    | junction hn => exact absurd (Flat.many (hp.formed hn)) (by simp)
  | junction hn sign =>
    have many := Flat.many (hp.formed hn)
    cases o' with
    | neutral => simp at many
    | alone => simp at many
    | junction hn' sign' => exact hp.eq_of_node hn hn' (sign.trans sign'.symm)

end Operands

/-- The absorbing handle is told apart by its clause. -/
theorem Interchangeable.eq_absorbing (hp : p.Sound) (i : p.Interchangeable c [h] [c.absorbing]) : h = c.absorbing := by
  by_contra ne
  obtain ⟨items, o⟩ := Operands.exists_of_ne p ne
  have none_ := ((o.interchangeable hp).symm.trans hp i).left c.absorbing (by simp) ∅ .absorbing
  exact (o.settled hp).not_derives_empty hp none_.derives_empty

/-- Handles that stand for the same are the same. -/
theorem eq_of_interchangeable (hp : p.Sound) {k : Handle} (n : p.NegationNormal h) (n' : p.NegationNormal k)
    (i : p.Interchangeable c [h] [k]) : h = k := by
  by_cases left : h = c.absorbing
  · subst left
    exact (i.symm.eq_absorbing hp).symm
  by_cases right : k = c.absorbing
  · subst right
    exact i.eq_absorbing hp
  obtain ⟨xs, o⟩ := Operands.exists_of_ne p left
  obtain ⟨ys, o'⟩ := Operands.exists_of_ne p right
  have same : p.Interchangeable c xs ys :=
    ((o.interchangeable hp).symm.trans hp i).trans hp (o'.interchangeable hp)
  have settled := o.settled hp
  have settled' := o'.settled hp
  obtain rfl : xs = ys := by
    refine Handle.eq_of_sorted settled.sorted settled'.sorted fun x => ⟨?_, ?_⟩
    · exact settled'.subset settled hp same.symm (o.normal n) x
    · exact settled.subset settled' hp same (o'.normal n') x
  exact o.unique hp o'

end Pool

end PathMerge

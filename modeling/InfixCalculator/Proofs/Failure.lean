import InfixCalculator.Expr

/-!
# The first failure

An evaluation goes through the subterms of an expression, parts first and left
parts before right ones, and stops at the first one that fails.  That subterm
is told here together with the place where it stands.

* `Expr.evaluationOrder`: the subterms in that order.
* `Expr.firstFailure?`: the first one without a value.
* `firstFailure?_eq_none_iff`: there is none exactly if the expression has a value.
* `eval_of_firstFailure?`: its error is the error of the expression.
* `FailsItself`: the operation at the root fails, on parts that have values.
* `exists_failsItself`: the first failure fails itself.
-/

namespace InfixCalculator

variable {α : Type}

/-- Where a subterm stands. -/
inductive Place (α : Type)
  | root
  | negated
  | leftOf (op : Operator α)
  | rightOf (op : Operator α)

namespace Expr

/-- The subterms of an expression, which stands at a place, in the order in which they are
evaluated. -/
def evaluationOrder (place : Place α) : Expr α → List (Place α × Expr α)
  | num x => [(place, num x)]
  | neg e => e.evaluationOrder .negated ++ [(place, neg e)]
  | bin l op r =>
      l.evaluationOrder (.leftOf op) ++ r.evaluationOrder (.rightOf op) ++ [(place, bin l op r)]

theorem mem_subterms_of_mem_evaluationOrder {e n : Expr α} {place p : Place α}
    (h : (p, n) ∈ e.evaluationOrder place) : n ∈ e.subterms := by
  induction e generalizing place with
  | num x =>
    cases List.mem_singleton.mp h
    exact List.mem_singleton.mpr rfl
  | neg e ih =>
    rcases List.mem_append.mp h with h | h
    · exact List.mem_cons_of_mem _ (ih h)
    · cases List.mem_singleton.mp h
      exact List.mem_cons_self
  | bin l op r ihl ihr =>
    rcases List.mem_append.mp h with h | h
    · rcases List.mem_append.mp h with h | h
      · exact List.mem_cons_of_mem _ (List.mem_append_left _ (ihl h))
      · exact List.mem_cons_of_mem _ (List.mem_append_right _ (ihr h))
    · cases List.mem_singleton.mp h
      exact List.mem_cons_self

theorem mem_operators_of_mem_subterms {e l r : Expr α} {op : Operator α}
    (h : bin l op r ∈ e.subterms) : op ∈ e.operators := by
  induction e with
  | num x => cases List.mem_singleton.mp h
  | neg e ih =>
    rcases List.mem_cons.mp h with h | h
    · cases h
    · exact ih h
  | bin l' op' r' ihl ihr =>
    rcases List.mem_cons.mp h with h | h
    · cases h
      exact List.mem_append_right _ List.mem_cons_self
    · rcases List.mem_append.mp h with h | h
      · exact List.mem_append_left _ (ihl h)
      · exact List.mem_append_right _ (List.mem_cons_of_mem _ (ihr h))

variable [Number α]

/-- Has the expression no value? -/
def fails (e : Expr α) : Bool :=
  match e.eval with
  | .ok _ => false
  | .error _ => true

/-- The first subterm without a value and the place where it stands. -/
def firstFailure? (place : Place α) (e : Expr α) : Option (Place α × Expr α) :=
  (e.evaluationOrder place).find? fun p => p.2.fails

theorem fails_eq_false_iff {e : Expr α} : e.fails = false ↔ ∃ x, e.eval = .ok x := by
  unfold fails
  cases e.eval with
  | ok x => simp
  | error error => simp

theorem fails_eq_true_iff {e : Expr α} : e.fails = true ↔ ∃ error, e.eval = .error error := by
  unfold fails
  cases e.eval with
  | ok x => simp
  | error error => simp

/-! ## Evaluation -/

theorem eval_ne_ok {e : Expr α} {error : Error} (h : e.eval = .error error) (x : α) :
    e.eval ≠ .ok x := by
  rw [h]
  intro hok
  cases hok

theorem eval_neg_eq_ok_iff {e : Expr α} {z : α} :
    (neg e).eval = .ok z ↔ ∃ x, e.eval = .ok x ∧ Number.neg x = .ok z := by
  rw [eval]
  cases e.eval with
  | ok x => simp [bind, Except.bind]
  | error error => simp [bind, Except.bind]

theorem eval_bin_eq_ok_iff {l r : Expr α} {op : Operator α} {z : α} :
    (bin l op r).eval = .ok z ↔
      ∃ x y, l.eval = .ok x ∧ r.eval = .ok y ∧ op.apply x y = .ok z := by
  rw [eval]
  cases l.eval with
  | ok x =>
    cases r.eval with
    | ok y => simp [bind, Except.bind]
    | error error => simp [bind, Except.bind]
  | error error => simp [bind, Except.bind]

theorem eval_binNeg_eq_ok_iff {l r : Expr α} {op : Operator α} {v : α} :
    (bin l op (neg r)).eval = .ok v ↔
      ∃ x y z, l.eval = .ok x ∧ r.eval = .ok y ∧ Number.neg y = .ok z ∧ op.apply x z = .ok v := by
  constructor
  · intro h
    obtain ⟨x, z, hx, hz, happly⟩ := eval_bin_eq_ok_iff.mp h
    obtain ⟨y, hy, hneg⟩ := eval_neg_eq_ok_iff.mp hz
    exact ⟨x, y, z, hx, hy, hneg, happly⟩
  · rintro ⟨x, y, z, hx, hy, hneg, happly⟩
    exact eval_bin_eq_ok_iff.mpr ⟨x, z, hx, eval_neg_eq_ok_iff.mpr ⟨y, hy, hneg⟩, happly⟩

theorem eval_neg_of_error {e : Expr α} {error : Error} (h : e.eval = .error error) :
    (neg e).eval = .error error := by
  rw [eval, h]
  rfl

theorem eval_neg_of_neg_error {e : Expr α} {x : α} {error : Error} (hx : e.eval = .ok x)
    (h : Number.neg x = .error error) : (neg e).eval = .error error := by
  rw [eval, hx]
  exact h

theorem eval_bin_of_left_error {l r : Expr α} {op : Operator α} {error : Error}
    (h : l.eval = .error error) : (bin l op r).eval = .error error := by
  rw [eval, h]
  rfl

theorem eval_bin_of_right_error {l r : Expr α} {op : Operator α} {x : α} {error : Error}
    (hl : l.eval = .ok x) (hr : r.eval = .error error) : (bin l op r).eval = .error error := by
  rw [eval, hl, hr]
  rfl

/-! ## Parts first -/

/-- The expression itself, if it has no value. -/
def ownFailure? (place : Place α) (e : Expr α) : Option (Place α × Expr α) :=
  if e.fails then some (place, e) else none

theorem ownFailure?_eq_none_iff {place : Place α} {e : Expr α} :
    e.ownFailure? place = none ↔ ∃ x, e.eval = .ok x := by
  rw [← fails_eq_false_iff, ownFailure?]
  cases e.fails with
  | false => simp
  | true => simp

theorem ownFailure?_of_error {e : Expr α} {error : Error} (h : e.eval = .error error)
    (place : Place α) : e.ownFailure? place = some (place, e) := by
  have hfails : e.fails = true := fails_eq_true_iff.mpr ⟨error, h⟩
  rw [ownFailure?, hfails]
  rfl

theorem eval_of_ownFailure? {place p : Place α} {e n : Expr α}
    (h : e.ownFailure? place = some (p, n)) :
    ∃ error, n.eval = .error error ∧ e.eval = .error error := by
  unfold ownFailure? at h
  split at h
  · rename_i hfails
    cases h
    obtain ⟨error, he⟩ := fails_eq_true_iff.mp hfails
    exact ⟨error, he, he⟩
  · cases h

theorem firstFailure?_num (place : Place α) (x : α) : (num x).firstFailure? place = none := rfl

theorem firstFailure?_neg (place : Place α) (e : Expr α) :
    (neg e).firstFailure? place =
      (e.firstFailure? .negated).or ((neg e).ownFailure? place) := by
  rw [firstFailure?, evaluationOrder, List.find?_append, List.find?_singleton]
  rfl

theorem firstFailure?_bin (place : Place α) (l r : Expr α) (op : Operator α) :
    (bin l op r).firstFailure? place =
      ((l.firstFailure? (.leftOf op)).or (r.firstFailure? (.rightOf op))).or
        ((bin l op r).ownFailure? place) := by
  rw [firstFailure?, evaluationOrder, List.find?_append, List.find?_append, List.find?_singleton]
  rfl

theorem firstFailure?_eq_none_iff {e : Expr α} {place : Place α} :
    e.firstFailure? place = none ↔ ∃ x, e.eval = .ok x := by
  induction e generalizing place with
  | num x => simp [firstFailure?_num, eval]
  | neg e ih =>
    rw [firstFailure?_neg, Option.or_eq_none_iff, ih, ownFailure?_eq_none_iff]
    constructor
    · intro h
      exact h.2
    · rintro ⟨z, hz⟩
      obtain ⟨x, hx, _⟩ := eval_neg_eq_ok_iff.mp hz
      exact ⟨⟨x, hx⟩, z, hz⟩
  | bin l op r ihl ihr =>
    rw [firstFailure?_bin, Option.or_eq_none_iff, Option.or_eq_none_iff, ihl, ihr,
      ownFailure?_eq_none_iff]
    constructor
    · intro h
      exact h.2
    · rintro ⟨z, hz⟩
      obtain ⟨x, y, hx, hy, _⟩ := eval_bin_eq_ok_iff.mp hz
      exact ⟨⟨⟨x, hx⟩, y, hy⟩, z, hz⟩

/-- **The error of an expression** is the error of its first failure. -/
theorem eval_of_firstFailure? {e n : Expr α} {place p : Place α}
    (h : e.firstFailure? place = some (p, n)) :
    ∃ error, n.eval = .error error ∧ e.eval = .error error := by
  induction e generalizing place with
  | num x => cases h
  | neg e ih =>
    rw [firstFailure?_neg] at h
    rcases Option.or_eq_some_iff.mp h with h | ⟨_, h⟩
    · obtain ⟨error, hn, he⟩ := ih h
      exact ⟨error, hn, eval_neg_of_error he⟩
    · exact eval_of_ownFailure? h
  | bin l op r ihl ihr =>
    rw [firstFailure?_bin] at h
    rcases Option.or_eq_some_iff.mp h with h | ⟨_, h⟩
    · rcases Option.or_eq_some_iff.mp h with h | ⟨hnone, h⟩
      · obtain ⟨error, hn, he⟩ := ihl h
        exact ⟨error, hn, eval_bin_of_left_error he⟩
      · obtain ⟨x, hx⟩ := firstFailure?_eq_none_iff.mp hnone
        obtain ⟨error, hn, he⟩ := ihr h
        exact ⟨error, hn, eval_bin_of_right_error hx he⟩
    · exact eval_of_ownFailure? h

/-! ## The operation that fails -/

/-- The parts of an expression have values, and its own operation fails on them. -/
inductive FailsItself : Expr α → Error → Prop
  | neg {e : Expr α} {x : α} {error : Error} : e.eval = .ok x → Number.neg x = .error error →
      FailsItself (neg e) error
  | bin {l r : Expr α} {op : Operator α} {x y : α} {error : Error} : l.eval = .ok x →
      r.eval = .ok y → op.apply x y = .error error → FailsItself (bin l op r) error

theorem FailsItself.eval_eq {e : Expr α} {error : Error} (h : e.FailsItself error) :
    e.eval = .error error := by
  cases h with
  | neg hx hneg => exact eval_neg_of_neg_error hx hneg
  | bin hx hy happly =>
    rw [eval, hx, hy]
    exact happly

theorem failsItself_neg {e : Expr α} {x : α} {error : Error} (hx : e.eval = .ok x)
    (h : (neg e).eval = .error error) : (neg e).FailsItself error := by
  rw [eval, hx] at h
  exact .neg hx h

theorem failsItself_bin {l r : Expr α} {op : Operator α} {x y : α} {error : Error}
    (hx : l.eval = .ok x) (hy : r.eval = .ok y) (h : (bin l op r).eval = .error error) :
    (bin l op r).FailsItself error := by
  rw [eval, hx, hy] at h
  exact .bin hx hy h

theorem eq_of_ownFailure? {place p : Place α} {e n : Expr α}
    (h : e.ownFailure? place = some (p, n)) : n = e := by
  unfold ownFailure? at h
  split at h
  · cases h
    rfl
  · cases h

/-- **The first failure fails itself**: the subterms before it have values, its parts among
them. -/
theorem exists_failsItself {e n : Expr α} {place p : Place α}
    (h : e.firstFailure? place = some (p, n)) : ∃ error, n.FailsItself error := by
  induction e generalizing place with
  | num x => cases h
  | neg e ih =>
    rw [firstFailure?_neg] at h
    rcases Option.or_eq_some_iff.mp h with h | ⟨hnone, h⟩
    · exact ih h
    · obtain ⟨x, hx⟩ := firstFailure?_eq_none_iff.mp hnone
      obtain ⟨error, _, he⟩ := eval_of_ownFailure? h
      rw [eq_of_ownFailure? h]
      exact ⟨error, failsItself_neg hx he⟩
  | bin l op r ihl ihr =>
    rw [firstFailure?_bin] at h
    rcases Option.or_eq_some_iff.mp h with h | ⟨hnone, h⟩
    · rcases Option.or_eq_some_iff.mp h with h | ⟨_, h⟩
      · exact ihl h
      · exact ihr h
    · obtain ⟨hnonel, hnoner⟩ := Option.or_eq_none_iff.mp hnone
      obtain ⟨x, hx⟩ := firstFailure?_eq_none_iff.mp hnonel
      obtain ⟨y, hy⟩ := firstFailure?_eq_none_iff.mp hnoner
      obtain ⟨error, _, he⟩ := eval_of_ownFailure? h
      rw [eq_of_ownFailure? h]
      exact ⟨error, failsItself_bin hx hy he⟩

theorem mem_subterms_of_firstFailure? {e n : Expr α} {place p : Place α}
    (h : e.firstFailure? place = some (p, n)) : n ∈ e.subterms :=
  mem_subterms_of_mem_evaluationOrder (List.mem_of_find?_eq_some h)

end Expr

end InfixCalculator

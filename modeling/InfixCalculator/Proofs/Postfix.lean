import Mathlib.Logic.Basic
import InfixCalculator.Number.Signed
import InfixCalculator.Proofs.Failure

/-!
# Evaluation by a stack machine

The postfix code of an expression is the code of its parts, left before right,
and then its own instruction.  A machine with a stack carries out the code from
left to right and stops at the first instruction that fails.  It computes exactly
what evaluation computes, from any stack and before any further code, and the
instruction that it stops at belongs to the first subterm without a value.

* `Machine.step`, `Machine.run`: one instruction, and a code.
* `run_append`: a code before another one.
* `run_take_append`: what comes after a failing instruction does not matter.
* `Expr.code`, `code_eq_map`: the code, one instruction for each subterm in the order
  of evaluation.
* `run_code_of_ok`, `run_code_of_error`: the machine does what evaluation does.
* `run_code_iff`: how the machine ends tells the value, or the error and where it arose.
-/

namespace InfixCalculator

variable {α : Type}

/-! ## The machine -/

namespace Machine

/-- An instruction of the machine. -/
inductive Instruction (α : Type)
  /-- Puts a number on the stack. -/
  | push (x : α)
  /-- Puts a negation in the place of the number on top. -/
  | negate
  /-- Takes the right and then the left operand from the stack and puts the result there. -/
  | combine (op : Operator α)

/-- How the machine ends. -/
inductive Outcome (α : Type)
  /-- All instructions have been carried out. -/
  | done (stack : List α)
  /-- An instruction has failed, after so many that have been carried out. -/
  | failed (carriedOut : Nat) (error : Error)
  /-- An instruction has found too few numbers on the stack. -/
  | stuck

namespace Outcome

/-- The outcome where more instructions have been carried out before. -/
def after (n : Nat) : Outcome α → Outcome α
  | done stack => done stack
  | failed k error => failed (n + k) error
  | stuck => stuck

/-- Goes on from the stack, where the `n` instructions so far have been carried out. -/
def andThen (n : Nat) (next : List α → Outcome α) : Outcome α → Outcome α
  | done stack => (next stack).after n
  | failed k error => failed k error
  | stuck => stuck

/-- The stack with a result, or the error of it. -/
def ofResult (stack : List α) : Except Error α → Outcome α
  | .ok x => done (x :: stack)
  | .error error => failed 0 error

@[simp] theorem after_done (n : Nat) (stack : List α) : (done stack).after n = done stack := rfl

@[simp] theorem after_failed (n k : Nat) (error : Error) :
    (failed k error : Outcome α).after n = failed (n + k) error := rfl

@[simp] theorem andThen_done (n : Nat) (next : List α → Outcome α) (stack : List α) :
    (done stack).andThen n next = (next stack).after n := rfl

theorem after_after (m n : Nat) (o : Outcome α) : (o.after n).after m = o.after (m + n) := by
  cases o with
  | done stack => rfl
  | failed k error => rw [after_failed, after_failed, after_failed, Nat.add_assoc]
  | stuck => rfl

theorem andThen_after (m n : Nat) (next : List α → Outcome α) (o : Outcome α) :
    (o.after m).andThen (m + n) next = (o.andThen n next).after m := by
  cases o with
  | done stack => exact (after_after m n _).symm
  | failed k error => rfl
  | stuck => rfl

theorem andThen_assoc (m n : Nat) (f g : List α → Outcome α) (o : Outcome α) :
    (o.andThen m f).andThen (m + n) g = o.andThen m fun stack => (f stack).andThen n g := by
  cases o with
  | done stack => exact andThen_after m n g (f stack)
  | failed k error => rfl
  | stuck => rfl

end Outcome

variable [Number α]

/-- Carries out an instruction. -/
def step : Instruction α → List α → Outcome α
  | .push x, stack => .done (x :: stack)
  | .negate, x :: stack => .ofResult stack (Number.neg x)
  | .combine op, y :: x :: stack => .ofResult stack (op.apply x y)
  | _, _ => .stuck

/-- Carries out a code from a stack. -/
def run : List (Instruction α) → List α → Outcome α
  | [], stack => .done stack
  | i :: code, stack => (step i stack).andThen 1 (run code)

theorem run_singleton (i : Instruction α) (stack : List α) : run [i] stack = step i stack := by
  rw [run]
  cases step i stack with
  | done stack' => rfl
  | failed k error => rfl
  | stuck => rfl

/-- **A code before another one** is carried out first. -/
theorem run_append (code more : List (Instruction α)) (stack : List α) :
    run (code ++ more) stack = (run code stack).andThen code.length (run more) := by
  induction code generalizing stack with
  | nil =>
    rw [List.nil_append, run, Outcome.andThen_done, List.length_nil]
    cases run more stack with
    | done stack' => rfl
    | failed k error => rw [Outcome.after_failed, Nat.zero_add]
    | stuck => rfl
  | cons i code ih =>
    rw [List.cons_append, run, run, List.length_cons, Nat.add_comm, Outcome.andThen_assoc]
    congr 1
    funext stack'
    exact ih stack'

/-- **What comes after a failing instruction does not matter.** -/
theorem run_take_append {code : List (Instruction α)} {stack : List α} {k : Nat} {error : Error}
    (h : run code stack = .failed k error) (more : List (Instruction α)) :
    run (code.take (k + 1) ++ more) stack = .failed k error := by
  induction code generalizing stack k with
  | nil => cases h
  | cons i code ih =>
    rw [run] at h
    rw [List.take_succ_cons, List.cons_append, run]
    cases hstep : step i stack with
    | done stack' =>
      rw [hstep, Outcome.andThen_done] at h
      rw [Outcome.andThen_done]
      cases hrun : run code stack' with
      | done stack'' => rw [hrun] at h; cases h
      | stuck => rw [hrun] at h; cases h
      | failed j error' =>
        rw [hrun, Outcome.after_failed] at h
        cases h
        rw [Nat.add_comm 1 j, ih hrun, Outcome.after_failed, Nat.add_comm]
    | failed j error' =>
      rw [hstep] at h
      exact h
    | stuck =>
      rw [hstep] at h
      cases h

end Machine

/-! ## The code of an expression -/

namespace Expr

open Machine

/-- The instruction of the operation at the root. -/
def instruction : Expr α → Instruction α
  | num x => .push x
  | neg _ => .negate
  | bin _ op _ => .combine op

/-- The postfix code. -/
def code : Expr α → List (Instruction α)
  | num x => [.push x]
  | neg e => e.code ++ [.negate]
  | bin l op r => l.code ++ r.code ++ [.combine op]

/-- The code has one instruction for each subterm in the order of evaluation. -/
theorem code_eq_map (place : Place α) (e : Expr α) :
    e.code = (e.evaluationOrder place).map fun p => p.2.instruction := by
  induction e generalizing place with
  | num x => rfl
  | neg e ih => rw [code, evaluationOrder, List.map_append, ← ih]; rfl
  | bin l op r ihl ihr =>
    rw [code, evaluationOrder, List.map_append, List.map_append, ← ihl, ← ihr]
    rfl

theorem length_code (place : Place α) (e : Expr α) :
    e.code.length = (e.evaluationOrder place).length := by
  rw [code_eq_map place, List.length_map]

/-! ## Evaluation -/

variable [Number α]

theorem run_code_of_ok {e : Expr α} {v : α} (h : e.eval = .ok v) (stack : List α) :
    run e.code stack = .done (v :: stack) := by
  induction e generalizing v stack with
  | num x =>
    cases h
    rfl
  | neg e ih =>
    obtain ⟨x, hx, hneg⟩ := eval_neg_eq_ok_iff.mp h
    rw [code, run_append, ih hx, Outcome.andThen_done, run_singleton, step, hneg]
    rfl
  | bin l op r ihl ihr =>
    obtain ⟨x, y, hx, hy, happly⟩ := eval_bin_eq_ok_iff.mp h
    rw [code, run_append, run_append, ihl hx, Outcome.andThen_done, ihr hy, Outcome.after_done,
      Outcome.andThen_done, run_singleton, step, happly]
    rfl

/-! ## The first failure -/

/-- How many subterms come before the first one without a value. -/
def failingIndex (place : Place α) (e : Expr α) : Nat :=
  (e.evaluationOrder place).findIdx fun p => p.2.fails

theorem getElem?_failingIndex (place : Place α) (e : Expr α) :
    (e.evaluationOrder place)[e.failingIndex place]? = e.firstFailure? place :=
  List.find?_eq_getElem?_findIdx.symm

theorem failingIndex_lt_iff {place : Place α} {e : Expr α} :
    e.failingIndex place < (e.evaluationOrder place).length ↔ e.fails = true := by
  rw [← not_iff_not, Nat.not_lt, ← List.getElem?_eq_none_iff, getElem?_failingIndex,
    firstFailure?_eq_none_iff, ← fails_eq_false_iff, Bool.not_eq_true]

/-- Where the expression has no value, nothing after it is looked at. -/
theorem findIdx_append_of_error {e : Expr α} {error : Error} (h : e.eval = .error error)
    (place : Place α) (more : List (Place α × Expr α)) :
    ((e.evaluationOrder place ++ more).findIdx fun p => p.2.fails) = e.failingIndex place := by
  rw [List.findIdx_append]
  exact if_pos (failingIndex_lt_iff.mpr (fails_eq_true_iff.mpr ⟨error, h⟩))

/-- Where it has one, it is passed over. -/
theorem findIdx_append_of_ok {e : Expr α} {x : α} (h : e.eval = .ok x) (place : Place α)
    (more : List (Place α × Expr α)) :
    ((e.evaluationOrder place ++ more).findIdx fun p => p.2.fails) =
      e.code.length + more.findIdx fun p => p.2.fails := by
  have hfails : e.fails = false := fails_eq_false_iff.mpr ⟨x, h⟩
  rw [List.findIdx_append, length_code place, Nat.add_comm]
  refine if_neg fun hlt => ?_
  rw [failingIndex_lt_iff.mp hlt] at hfails
  cases hfails

theorem findIdx_singleton_of_error {e : Expr α} {error : Error} (h : e.eval = .error error)
    (place : Place α) : ([(place, e)].findIdx fun p => p.2.fails) = 0 := by
  rw [List.findIdx_singleton]
  exact if_pos (fails_eq_true_iff.mpr ⟨error, h⟩)

/-- **The machine stops at the first subterm without a value**, with its error. -/
theorem run_code_of_error {e : Expr α} {error : Error} (h : e.eval = .error error)
    (place : Place α) (stack : List α) :
    run e.code stack = .failed (e.failingIndex place) error := by
  induction e generalizing place error stack with
  | num x => cases h
  | neg e ih =>
    rw [failingIndex, code, evaluationOrder, run_append]
    cases hx : e.eval with
    | error error' =>
      rw [eval_neg_of_error hx] at h
      cases h
      rw [ih hx .negated, findIdx_append_of_error hx]
      rfl
    | ok x =>
      cases failsItself_neg hx h with
      | neg hx' hneg =>
        cases hx.symm.trans hx'
        rw [run_code_of_ok hx, findIdx_append_of_ok hx, findIdx_singleton_of_error h,
          Outcome.andThen_done, run_singleton, step, hneg]
        rfl
  | bin l op r ihl ihr =>
    rw [failingIndex, code, evaluationOrder, List.append_assoc, List.append_assoc, run_append]
    cases hx : l.eval with
    | error error' =>
      rw [eval_bin_of_left_error hx] at h
      cases h
      rw [ihl hx (.leftOf op), findIdx_append_of_error hx]
      rfl
    | ok x =>
      rw [run_code_of_ok hx, findIdx_append_of_ok hx, Outcome.andThen_done, run_append]
      cases hy : r.eval with
      | error error' =>
        rw [eval_bin_of_right_error hx hy] at h
        cases h
        rw [ihr hy (.rightOf op), findIdx_append_of_error hy]
        rfl
      | ok y =>
        cases failsItself_bin hx hy h with
        | bin hx' hy' happly =>
          cases hx.symm.trans hx'
          cases hy.symm.trans hy'
          rw [run_code_of_ok hy, findIdx_append_of_ok hy, findIdx_singleton_of_error h,
            Outcome.andThen_done, run_singleton, step, happly]
          rfl

theorem run_code_eq_done_iff {e : Expr α} {v : α} (stack : List α) :
    run e.code stack = .done (v :: stack) ↔ e.eval = .ok v := by
  refine ⟨fun h => ?_, fun h => run_code_of_ok h stack⟩
  cases heval : e.eval with
  | ok x =>
    rw [run_code_of_ok heval] at h
    cases h
    rfl
  | error error =>
    rw [run_code_of_error heval .root] at h
    cases h

theorem run_code_eq_failed_iff {e : Expr α} {k : Nat} {error : Error} (stack : List α) :
    run e.code stack = .failed k error ↔ e.eval = .error error ∧ e.failingIndex .root = k := by
  constructor
  · intro h
    cases heval : e.eval with
    | ok x =>
      rw [run_code_of_ok heval] at h
      cases h
    | error error' =>
      rw [run_code_of_error heval .root] at h
      cases h
      exact ⟨rfl, rfl⟩
  · rintro ⟨heval, rfl⟩
    exact run_code_of_error heval .root stack

/-- The first subterm without a value fails itself, and all before it have values. -/
theorem failsItself_failingIndex {e : Expr α} {error : Error} (h : e.eval = .error error) :
    (∃ place n, (e.evaluationOrder .root)[e.failingIndex .root]? = some (place, n) ∧
        n.FailsItself error) ∧
      ∀ p ∈ (e.evaluationOrder .root).take (e.failingIndex .root), ∃ x, p.2.eval = .ok x := by
  constructor
  · cases hfirst : e.firstFailure? .root with
    | none =>
      obtain ⟨x, hx⟩ := firstFailure?_eq_none_iff.mp hfirst
      exact absurd hx (eval_ne_ok h x)
    | some p =>
      obtain ⟨error', hitself⟩ := exists_failsItself hfirst
      obtain ⟨_, hn, he⟩ := eval_of_firstFailure? hfirst
      cases hn.symm.trans hitself.eval_eq
      cases he.symm.trans h
      exact ⟨p.1, p.2, getElem?_failingIndex _ e ▸ hfirst, hitself⟩
  · intro p hp
    have hfails := List.false_of_mem_take_findIdx hp
    exact fails_eq_false_iff.mp hfails

/-- **Evaluation is what the stack machine does.**  From any stack the code of an expression ends
with its value on top exactly if it has that value, and stops with an error exactly if it has that
error.  It stops at the instruction of the first subterm that fails in the order of evaluation, with
the error of that subterm's own operation, and any expression whose code is the same up to that
instruction has the same error. -/
theorem run_code_iff (e : Expr α) (stack : List α) :
    e.code = (e.evaluationOrder .root).map (fun p => p.2.instruction) ∧
      (∀ v, run e.code stack = .done (v :: stack) ↔ e.eval = .ok v) ∧
      (∀ error, (∃ k, run e.code stack = .failed k error) ↔ e.eval = .error error) ∧
      ∀ k error, run e.code stack = .failed k error →
        (∃ place n, (e.evaluationOrder .root)[k]? = some (place, n) ∧ n.FailsItself error) ∧
          (∀ p ∈ (e.evaluationOrder .root).take k, ∃ x, p.2.eval = .ok x) ∧
          ∀ e' : Expr α, e.code.take (k + 1) <+: e'.code → e'.eval = .error error := by
  refine ⟨code_eq_map .root e, fun v => run_code_eq_done_iff stack, ?_, ?_⟩
  · intro error
    constructor
    · rintro ⟨k, h⟩
      exact ((run_code_eq_failed_iff stack).mp h).1
    · intro h
      exact ⟨_, run_code_of_error h .root stack⟩
  · intro k error h
    obtain ⟨heval, rfl⟩ := (run_code_eq_failed_iff stack).mp h
    obtain ⟨hitself, hbefore⟩ := failsItself_failingIndex heval
    refine ⟨hitself, hbefore, ?_⟩
    rintro e' ⟨more, hcode⟩
    have hrun := run_take_append h more
    rw [hcode] at hrun
    exact ((run_code_eq_failed_iff stack).mp hrun).1

/-- A sum over two binary digits whose left operand fails with an error of reading. -/
def clash (r : Expr (Signed 2)) : Expr (Signed 2) :=
  bin (bin (num (.wrap 1)) ⟨['#'], fun _ _ => .error (.parse "left"), 20, .left⟩ (num (.wrap 0)))
    ⟨['+'], Number.add, 10, .left⟩ r

/-- The machine stops at the third instruction, before a right operand that would overflow, so any
right operand gives the same error.  A negation that does not fail leaves its value on the stack. -/
theorem run_code_iff_clash :
    run (clash (neg (num (.wrap (-2))))).code [] = .failed 2 (.parse "left") ∧
      (∀ r, (clash r).eval = .error (.parse "left")) ∧
      run (neg (num (.wrap 1 : Signed 2))).code [.wrap 0] = .done [.minusOne, .wrap 0] := by
  have hrun : run (clash (neg (num (.wrap (-2))))).code [] = .failed 2 (.parse "left") := rfl
  refine ⟨hrun, ?_, ?_⟩
  · intro r
    obtain ⟨_, _, hsame⟩ := (run_code_iff _ []).2.2.2 2 _ hrun
    exact hsame (clash r) ⟨r.code ++ [.combine ⟨['+'], Number.add, 10, .left⟩], rfl⟩
  · exact ((run_code_iff _ _).2.1 _).mpr rfl

end Expr

end InfixCalculator

-- Integers are exact or there is an error. A sum, a difference, a product or
-- a negative that does not fit into 64 bits is an overflow. Quotients and
-- remainders are missing for two reasons only, and where there are both, a
-- program gets the dividend back from them.
import Mathlib
import Quill.Proofs.LargerBounds

namespace Quill

namespace Value

variable {i : Int} {a b c q r : Int64} {e : OpError}

/-! ## What fits into 64 bits -/

/-- An integer that fits into 64 bits is kept as it is. -/
theorem fit_eq_ok_iff : fit i = .ok c ↔ c.toInt = i := by
  have hmin := Int64.toInt_minValue
  have hmax := Int64.toInt_maxValue
  unfold fit
  constructor
  · intro hr
    split at hr
    · cases hr
      exact Int64.toInt_ofInt_of_le (by omega) (by omega)
    · cases hr
  · rintro rfl
    rw [if_pos ⟨Int64.minValue_le_toInt c, Int64.toInt_le c⟩, Int64.ofInt_toInt]
    rfl

theorem fit_toInt (n : Int64) : fit n.toInt = .ok n := fit_eq_ok_iff.mpr rfl

theorem fit_eq_error_iff : fit i = .error e ↔ (i < -2 ^ 63 ∨ 2 ^ 63 ≤ i) ∧ e = .overflow := by
  have hmin := Int64.toInt_minValue
  have hmax := Int64.toInt_maxValue
  unfold fit
  split_ifs with hfits
  · simp only [pure, Except.pure, reduceCtorEq, false_iff, not_and]
    omega
  · rw [Except.error.injEq, eq_comm, iff_and_self]
    omega

theorem exists_fit (hlow : -2 ^ 63 ≤ i) (hhigh : i < 2 ^ 63) : ∃ c, fit i = .ok c := by
  rcases hfit : fit i with e | c
  · have hout := fit_eq_error_iff.mp hfit
    omega
  · exact ⟨c, rfl⟩

/-- The result is the integer `i` itself if that fits into 64 bits, and else
the error that it is too large. -/
structure ExactOrOverflow {α : Type} (make : Int64 → α) (i : Int) (result : Except OpError α) :
    Prop where
  fits : -2 ^ 63 ≤ i → i < 2 ^ 63 → ∃ c : Int64, c.toInt = i ∧ result = .ok (make c)
  overflows : i < -2 ^ 63 ∨ 2 ^ 63 ≤ i → result = .error .overflow

theorem fit_exact {α : Type} (make : Int64 → α) (i : Int) :
    ExactOrOverflow make i ((fit i).map make) where
  fits hlow hhigh := by
    obtain ⟨c, hc⟩ := exists_fit hlow hhigh
    exact ⟨c, fit_eq_ok_iff.mp hc, by rw [hc, Except.map]⟩
  overflows hout := by rw [fit_eq_error_iff.mpr ⟨hout, rfl⟩, Except.map]

/-! ## Quotients and remainders -/

section Truncation

variable {x y : Int}

theorem natAbs_tmod_lt (x : Int) (hy : y ≠ 0) : (x.tmod y).natAbs < y.natAbs := by
  rw [Int.natAbs_tmod]
  exact Nat.mod_lt _ (Int.natAbs_pos.mpr hy)

/-- What is left over lies between zero and the dividend. -/
theorem tmod_between (x y : Int) : 0 ≤ x ∧ 0 ≤ x.tmod y ∧ x.tmod y ≤ x ∨
    x ≤ 0 ∧ x ≤ x.tmod y ∧ x.tmod y ≤ 0 := by
  have hsize : (x.tmod y).natAbs ≤ x.natAbs := by
    rw [Int.natAbs_tmod]
    exact Nat.mod_le _ _
  rcases Int.le_total 0 x with hx | hx
  · have hnonneg := Int.tmod_nonneg y hx
    omega
  · have hnonneg := Int.tmod_nonneg y (Int.neg_nonneg_of_nonpos hx)
    rw [Int.neg_tmod] at hnonneg
    omega

/-- The least integer divided by -1 is the only quotient that is too large. -/
theorem tdiv_fits_iff (hlow : -2 ^ 63 ≤ x) (hhigh : x < 2 ^ 63) (hy : y ≠ 0) :
    (-2 ^ 63 ≤ x.tdiv y ∧ x.tdiv y < 2 ^ 63) ↔ ¬ (x = -2 ^ 63 ∧ y = -1) := by
  constructor
  · rintro ⟨-, hlt⟩ ⟨rfl, rfl⟩
    exact absurd hlt (by decide)
  · intro hcorner
    have hsize := Int.natAbs_tdiv_le_natAbs x y
    have hrest := natAbs_tmod_lt x hy
    have hdivision := Int.tdiv_mul_add_tmod x y
    by_contra hout
    -- a quotient is never larger than the dividend, so this is all that is left
    have hquotient : x.tdiv y = 2 ^ 63 := by omega
    rw [hquotient] at hdivision
    omega

end Truncation

/-- Why there is no quotient and no remainder. -/
def Indivisible (a b : Int64) (e : OpError) : Prop :=
  b = 0 ∧ e = .divisionByZero ∨ (a.toInt = -2 ^ 63 ∧ b = -1) ∧ e = .overflow

theorem toInt_ne_zero (hb : b ≠ 0) : b.toInt ≠ 0 := fun h => hb (Int64.toInt_inj.mp h)

theorem quotient_eq_error_iff : quotient a b = .error e ↔ Indivisible a b e := by
  have hneg : b = -1 ↔ b.toInt = -1 := Int64.toInt_inj.symm
  unfold quotient Indivisible
  split_ifs with hb
  · simp [hb, eq_comm]
  · have hfits := tdiv_fits_iff (Int64.le_toInt a) (Int64.toInt_lt a) (toInt_ne_zero hb)
    rw [fit_eq_error_iff, hneg]
    simp only [hb, false_and, false_or]
    refine and_congr_left fun _ => ?_
    omega

theorem quotient_eq_ok_iff : quotient a b = .ok q ↔ b ≠ 0 ∧ q.toInt = a.toInt.tdiv b.toInt := by
  unfold quotient
  split_ifs with hb
  · simp [hb]
  · simp [hb, fit_eq_ok_iff]

/-- A remainder is missing only where the quotient is. -/
theorem remainder_eq_error_iff : remainder a b = .error e ↔ Indivisible a b e := by
  rw [← quotient_eq_error_iff]
  unfold remainder
  rcases quotient a b with e' | q
  · simp [bind, Except.bind]
  · have hbetween := tmod_between a.toInt b.toInt
    have hlow := Int64.le_toInt a
    have hhigh := Int64.toInt_lt a
    simp only [bind, Except.bind, fit_eq_error_iff, reduceCtorEq, iff_false, not_and]
    omega

theorem toInt_of_remainder (hr : remainder a b = .ok r) : r.toInt = a.toInt.tmod b.toInt := by
  rcases hq : quotient a b with e | q
  · simp [remainder, hq, bind, Except.bind] at hr
  · exact fit_eq_ok_iff.mp (by simpa [remainder, hq, bind, Except.bind] using hr)

/-- The remainder is smaller than the divisor and has the sign of the
dividend, and neither the product nor the sum that lead back to the dividend
is too large. -/
structure Division (a b q r : Int64) : Prop where
  smaller : |r.toInt| < |b.toInt|
  sign : r = 0 ∨ r.toInt.sign = a.toInt.sign
  back : ∃ c : Int64, fit (q.toInt * b.toInt) = .ok c ∧ fit (c.toInt + r.toInt) = .ok a

theorem division_of_ok (hq : quotient a b = .ok q) (hr : remainder a b = .ok r) :
    Division a b q r := by
  obtain ⟨hb, hquotient⟩ := quotient_eq_ok_iff.mp hq
  have hremainder := toInt_of_remainder hr
  have hdivision := Int.tdiv_mul_add_tmod a.toInt b.toInt
  rw [← hquotient, ← hremainder] at hdivision
  refine ⟨?_, ?_, ?_⟩
  · rw [hremainder, Int.abs_eq_natAbs, Int.abs_eq_natAbs, Int.ofNat_lt]
    exact natAbs_tmod_lt _ (toInt_ne_zero hb)
  · rw [hremainder, Int.sign_tmod]
    split_ifs with hdvd
    · left
      rw [← Int64.toInt_inj, hremainder, Int.tmod_eq_zero_of_dvd hdvd]
      rfl
    · right
      rfl
  · have hbetween := tmod_between a.toInt b.toInt
    have hlow := Int64.le_toInt a
    have hhigh := Int64.toInt_lt a
    obtain ⟨c, hc⟩ := exists_fit (i := q.toInt * b.toInt) (by omega) (by omega)
    refine ⟨c, hc, fit_eq_ok_iff.mpr ?_⟩
    rw [fit_eq_ok_iff.mp hc, hdivision]

/-! ## The operators -/

/-- An integer as what an operation makes. -/
def madeInt (n : Int64) : Made := .plain (.int n)

/-- What the arithmetic operators make of two integers. -/
def arithmetic? (a b : Int64) : BinaryOp → Option (Except OpError Int64)
  | .add => some (fit (a.toInt + b.toInt))
  | .sub => some (fit (a.toInt - b.toInt))
  | .mul => some (fit (a.toInt * b.toInt))
  | .div => some (quotient a b)
  | .mod => some (remainder a b)
  | _ => none

theorem binary_int (op : BinaryOp) {result : Except OpError Int64}
    (hop : arithmetic? a b op = some result) (h : Heap) :
    binary h op (.int a) (.int b) = result.map madeInt := by
  cases op with
  | add | sub | mul | div | mod =>
    cases hop
    exact bind_pure_comp madeInt _
  | _ => cases hop

theorem unary_neg_int (a : Int64) : unary .neg (.int a) = (fit (-a.toInt)).map .int :=
  bind_pure_comp _ _

end Value

/-! ## Evaluating again -/

namespace Run

variable {limit : Nat} {scope : ScopeId} {s : State} {e f : Expr} {u v w : Value}

/-- With enough fuel the expression has this value, and leaves the state as
it is. -/
def Denotes (limit : Nat) (scope : ScopeId) (s : State) (e : Expr) (v : Value) : Prop :=
  ∃ fuel, eval limit fuel scope e s = .ok v s

theorem eval_of_le {fuel fuel' : Nat} {t : State} (h : eval limit fuel scope e s = .ok v t)
    (hle : fuel ≤ fuel') : eval limit fuel' scope e s = .ok v t := by
  rcases (eval_exec_outlasts limit hle).1 scope e s with heq | ⟨t', hout⟩
  · rw [heq, h]
  · rw [h] at hout
    cases hout

theorem Denotes.binary {op : BinaryOp} (he : Denotes limit scope s e v)
    (hf : Denotes limit scope s f w) (hop : Value.binary s.heap op v w = .ok (.plain u))
    (span : Span) : Denotes limit scope s ⟨.binary e op f, span⟩ u := by
  obtain ⟨m, hm⟩ := he
  obtain ⟨n, hn⟩ := hf
  refine ⟨max m n + 1, ?_⟩
  have hheap : s.heap.extend #[] = s.heap := by simp [Heap.extend]
  have hm := eval_of_le hm (Nat.le_max_left m n)
  have hn := eval_of_le hn (Nat.le_max_right m n)
  rw [eval] at hm hn ⊢
  simp only [Mode.eval, plain_noting, plain_act, Run.binary, bind, EStateM.bind, hm, hn, withHeap,
    hop, orFail, pure, EStateM.pure, settle, Made.plain, hheap]

theorem Denotes.arithmetic {a b c : Int64} (he : Denotes limit scope s e (.int a)) (op : BinaryOp)
    (hf : Denotes limit scope s f (.int b)) (hop : Value.arithmetic? a b op = some (.ok c))
    (span : Span) : Denotes limit scope s ⟨.binary e op f, span⟩ (.int c) :=
  he.binary hf (Value.binary_int op hop s.heap) span

theorem denotes_var {name : String} (hname : (s.scopes.find? scope name).bind (·.value) = some v)
    (hv : v.kind ≠ .function) (span : Span) : Denotes limit scope s ⟨.var name, span⟩ v := by
  refine ⟨1, ?_⟩
  simp only [eval, Mode.eval, plain_noting, plain_look, variableValue, bind, EStateM.bind,
    valueOf?, hname]
  cases v with
  | function f id => exact absurd rfl hv
  | _ => rfl

/-- The expression is written `(x / y) * y + x % y`, where `x` is each time an
expression of one sort and `y` each time one of another. -/
inductive DividedBack (x y : Expr → Prop) : Expr → Prop
  | intro {e e' f f' f'' : Expr} (quotient product remainder span : Span) :
      x e → y f → y f' → x e' → y f'' →
      DividedBack x y ⟨.binary ⟨.binary ⟨.binary e .div f, quotient⟩ .mul f', product⟩ .add
        ⟨.binary e' .mod f'', remainder⟩, span⟩

open Value in
/-- Where there are a quotient and a remainder, the dividend is evaluated
again from them. -/
theorem DividedBack.denotes {a b q r : Int64}
    (h : DividedBack (Denotes limit scope s · (.int a)) (Denotes limit scope s · (.int b)) e)
    (hq : quotient a b = .ok q) (hr : remainder a b = .ok r) :
    Denotes limit scope s e (.int a) := by
  obtain ⟨c, hproduct, hsum⟩ := (division_of_ok hq hr).back
  cases h with
  | intro quotient product remainder span he hf hf' he' hf'' =>
    have hquotient := he.arithmetic .div hf (congrArg some hq) quotient
    have hproduct := hquotient.arithmetic .mul hf' (congrArg some hproduct) product
    have hremainder := he'.arithmetic .mod hf'' (congrArg some hr) remainder
    exact hproduct.arithmetic .add hremainder (congrArg some hsum) span

end Run

/-! ## The laws -/

namespace Value

open Run

theorem map_eq_error_iff {α β : Type} {g : α → β} {result : Except OpError α} {e : OpError} :
    result.map g = .error e ↔ result = .error e := by
  cases result <;> simp [Except.map]

/-- For all integers of 64 bits, sums, differences, products and negatives are
exact, or an overflow if they do not fit. A quotient or a remainder fails for
division by zero exactly if the divisor is 0, and for overflow exactly if the
least integer is divided by -1. In every other case there are both, the
remainder is smaller than the divisor and is 0 or has the sign of the dividend,
and wherever `x` and `y` have these values in a program, `(x / y) * y + x % y` is
evaluated without an error and gives `x`. -/
theorem integers_are_exact (h : Heap) (a b : Int64) :
    ExactOrOverflow madeInt (a.toInt + b.toInt) (binary h .add (.int a) (.int b)) ∧
    ExactOrOverflow madeInt (a.toInt - b.toInt) (binary h .sub (.int a) (.int b)) ∧
    ExactOrOverflow madeInt (a.toInt * b.toInt) (binary h .mul (.int a) (.int b)) ∧
    ExactOrOverflow .int (-a.toInt) (unary .neg (.int a)) ∧
    (∀ op ∈ [BinaryOp.div, .mod],
      (binary h op (.int a) (.int b) = .error .divisionByZero ↔ b = 0) ∧
      (binary h op (.int a) (.int b) = .error .overflow ↔ a.toInt = -2 ^ 63 ∧ b = -1)) ∧
    (b ≠ 0 → ¬ (a.toInt = -2 ^ 63 ∧ b = -1) → ∃ q r : Int64,
      binary h .div (.int a) (.int b) = .ok (madeInt q) ∧
      binary h .mod (.int a) (.int b) = .ok (madeInt r) ∧
      |r.toInt| < |b.toInt| ∧ (r = 0 ∨ r.toInt.sign = a.toInt.sign) ∧
      ∀ limit scope s e,
        DividedBack (Denotes limit scope s · (.int a)) (Denotes limit scope s · (.int b)) e →
        Denotes limit scope s e (.int a)) := by
  refine ⟨?_, ?_, ?_, ?_, ?_, ?_⟩
  · exact binary_int .add rfl h ▸ fit_exact madeInt _
  · exact binary_int .sub rfl h ▸ fit_exact madeInt _
  · exact binary_int .mul rfl h ▸ fit_exact madeInt _
  · exact unary_neg_int a ▸ fit_exact Value.int _
  · intro op hop
    have hmissing : ∀ e, binary h op (.int a) (.int b) = .error e ↔ Indivisible a b e := by
      intro e
      rcases List.mem_pair.mp hop with rfl | rfl
      · rw [binary_int .div rfl h, map_eq_error_iff, quotient_eq_error_iff]
      · rw [binary_int .mod rfl h, map_eq_error_iff, remainder_eq_error_iff]
    simp [hmissing, Indivisible]
  · intro hb hcorner
    have hdivisible : ∀ e, ¬ Indivisible a b e := by
      rintro e (⟨hzero, -⟩ | ⟨hleast, -⟩)
      · exact hb hzero
      · exact hcorner hleast
    rcases hq : quotient a b with e | q
    · exact absurd (quotient_eq_error_iff.mp hq) (hdivisible e)
    rcases hr : remainder a b with e | r
    · exact absurd (remainder_eq_error_iff.mp hr) (hdivisible e)
    have hdivision := division_of_ok hq hr
    refine ⟨q, r, ?_, ?_, hdivision.smaller, hdivision.sign, fun limit scope s e he =>
      he.denotes hq hr⟩
    · rw [binary_int .div rfl h, hq, Except.map]
    · rw [binary_int .mod rfl h, hr, Except.map]

/-- The least integer divided by 10 leaves -8 over, and is evaluated again from
variables. It has no remainder by -1, though that would be 0. -/
theorem integers_are_exact_least :
    let scopes := (ScopeTree.empty.insert 0 "x" (some (.int Int64.minValue))).insert 0 "y"
      (some (.int 10))
    let s : State := { State.initial (.replay []) with scopes }
    let x : Expr := ⟨.var "x", .origin⟩
    let y : Expr := ⟨.var "y", .origin⟩
    (10 : Int64) ≠ 0 ∧ ¬ (Int64.minValue.toInt = -2 ^ 63 ∧ (10 : Int64) = -1) ∧
    Denotes 10 0 s ⟨.binary ⟨.binary ⟨.binary x .div y, .origin⟩ .mul y, .origin⟩ .add
      ⟨.binary x .mod y, .origin⟩, .origin⟩ (.int Int64.minValue) ∧
    binary s.heap .mod (.int Int64.minValue) (.int (-1)) = .error .overflow := by
  intro scopes s x y
  have hx : Denotes 10 0 s x (.int Int64.minValue) := denotes_var (by rfl) (by simp [kind]) _
  have hy : Denotes 10 0 s y (.int 10) := denotes_var (by rfl) (by simp [kind]) _
  have hdivisible : ¬ (Int64.minValue.toInt = -2 ^ 63 ∧ (10 : Int64) = -1) := by decide
  obtain ⟨-, -, -, -, -, hdivision⟩ := integers_are_exact s.heap Int64.minValue 10
  obtain ⟨q, r, -, -, -, -, hback⟩ := hdivision (by decide) hdivisible
  obtain ⟨-, -, -, -, hmissing, -⟩ := integers_are_exact s.heap Int64.minValue (-1)
  exact ⟨by decide, hdivisible, hback 10 0 s _ (.intro _ _ _ _ hx hy hy hx hy),
    (hmissing .mod (by simp)).2.mpr ⟨rfl, rfl⟩⟩

end Value

end Quill

-- Ranges include both ends. They count by one, up or down, from the first
-- end to the second, also where an end is the least or the largest integer,
-- and the other way round they hold the same integers in reverse. This holds
-- as long as there can be so many elements: with more of them the program
-- crashes.
import Mathlib
import Quill.Proofs.ArrayStorage

namespace Quill

namespace Value

variable {a b : Int64} {d : Int} {n k : Nat} {xs ys : List Value}

/-! ## Counting by one -/

/-- The values count from `here` by steps of `d`, each an integer of 64 bits,
and end with the first that is `last`. -/
inductive Steps (d : Int) (last : Int64) : Int64 → List Value → Prop
  | stop : Steps d last last [.int last]
  | step {here next : Int64} {xs : List Value} : here ≠ last → next.toInt = here.toInt + d →
      Steps d last next xs → Steps d last here (.int here :: xs)

/-- Counting gets from one end to the other by as many steps as there are
values after the first. -/
theorem Steps.last_eq (h : Steps d b a xs) : b.toInt + d = a.toInt + d * xs.length := by
  induction h with
  | stop => simp
  | step _ hnext _ ih =>
    rw [ih, hnext, List.length_cons]
    push_cast
    ring

theorem Steps.getElem? (h : Steps d b a xs) (hk : k < xs.length) :
    ∃ i : Int64, xs[k]? = some (.int i) ∧ i.toInt = a.toInt + d * k := by
  induction h generalizing k with
  | stop =>
    obtain rfl : k = 0 := by simpa using hk
    exact ⟨b, rfl, by simp⟩
  | @step here next xs _ hnext _ ih =>
    cases k with
    | zero => exact ⟨here, rfl, by simp⟩
    | succ k =>
      obtain ⟨i, hi, hvalue⟩ := ih (Nat.lt_of_succ_lt_succ hk)
      refine ⟨i, hi, ?_⟩
      rw [hvalue, hnext]
      push_cast
      ring

theorem Steps.head? (h : Steps d b a xs) : xs.head? = some (.int a) := by
  cases h <;> rfl

theorem Steps.getLast? (h : Steps d b a xs) : xs.getLast? = some (.int b) := by
  induction h with
  | stop => rfl
  | step _ _ _ ih => rw [List.getLast?_cons, ih, Option.getD_some]

theorem Steps.eq_singleton (h : Steps d a a xs) : xs = [.int a] := by
  cases h with
  | stop => rfl
  | step hne _ _ => exact absurd rfl hne

/-- Counting back meets the same values in reverse. -/
theorem Steps.reverse_eq (h : Steps d b a xs) (h' : Steps (-d) a b ys) (hd : d ≠ 0) :
    ys = xs.reverse := by
  have hlength : ys.length = xs.length := by
    have hsum : d * (ys.length : Int) = d * xs.length := by
      linarith [h.last_eq, h'.last_eq]
    exact_mod_cast mul_left_cancel₀ hd hsum
  refine List.ext_getElem? fun k => ?_
  rcases Nat.lt_or_ge k xs.length with hk | hk
  · obtain ⟨i, hi, hvalue⟩ := h'.getElem? (hlength ▸ hk)
    obtain ⟨j, hj, hvalue'⟩ := h.getElem? (k := xs.length - 1 - k) (by omega)
    have hij : i.toInt = j.toInt := by
      have hplace : ((xs.length - 1 - k : Nat) : Int) = xs.length - 1 - k := by omega
      rw [hvalue, hvalue', hplace]
      linarith [h.last_eq]
    rw [List.getElem?_reverse hk, hi, hj, Int64.toInt_inj.mp hij]
  · rw [List.getElem?_eq_none (hlength ▸ hk), List.getElem?_eq_none (by simpa using hk)]

/-! ## The elements of a range -/

/-- Going up appends the integers one by one, and stops at the larger end. -/
theorem ascend_steps {low high : Int64} (hle : low ≤ high) (elements : Array Value) :
    ∃ xs, (ascend low high elements).toList = elements.toList ++ xs ∧ Steps 1 high low xs := by
  fun_induction ascend low high elements with
  | case1 low elements hlt ih =>
    have hnext := toInt_add_one hlt
    have hle' : low + 1 ≤ high := by
      rw [Int64.le_iff_toInt_le, hnext]
      exact Int64.lt_iff_toInt_lt.mp hlt
    obtain ⟨xs, hxs, hsteps⟩ := ih hle'
    refine ⟨.int low :: xs, ?_, .step (Int64.ne_of_lt hlt) hnext hsteps⟩
    rw [hxs, Array.toList_push, List.append_assoc, List.singleton_append]
  | case2 low elements hlt =>
    obtain rfl : low = high := Int64.le_antisymm hle (Int64.not_lt.mp hlt)
    exact ⟨[.int low], Array.toList_push .., .stop⟩

/-- Going down appends the integers one by one, and stops at the smaller
end. -/
theorem descend_steps {low high : Int64} (hle : low ≤ high) (elements : Array Value) :
    ∃ xs, (descend low high elements).toList = elements.toList ++ xs ∧ Steps (-1) low high xs := by
  fun_induction descend low high elements with
  | case1 high elements hlt ih =>
    have hnext := toInt_sub_one hlt
    have hle' : low ≤ high - 1 := by
      rw [Int64.le_iff_toInt_le, hnext]
      exact Int.le_sub_one_of_lt (Int64.lt_iff_toInt_lt.mp hlt)
    obtain ⟨xs, hxs, hsteps⟩ := ih hle'
    refine ⟨.int high :: xs, ?_, .step (Int64.ne_of_lt hlt).symm hnext hsteps⟩
    rw [hxs, Array.toList_push, List.append_assoc, List.singleton_append]
  | case2 high elements hlt =>
    obtain rfl : low = high := Int64.le_antisymm hle (Int64.not_lt.mp hlt)
    exact ⟨[.int low], Array.toList_push .., .stop⟩

/-- Whether a range counts up or down. -/
def direction (a b : Int64) : Int := if a.toInt ≤ b.toInt then 1 else -1

/-- The integers from `a` to `b` are not too many to be collected. -/
def Collectable (a b : Int64) : Prop := |b.toInt - a.toInt| + 1 ≤ maxCollected

theorem Collectable.symm (h : Collectable a b) : Collectable b a := by
  rw [Collectable, abs_sub_comm]
  exact h

theorem rangeElements_steps (h : Collectable a b) :
    ∃ xs, rangeElements a b = .ok xs ∧ Steps (direction a b) b a xs.toList := by
  unfold Collectable at h
  unfold rangeElements roomFor direction
  by_cases hle : a ≤ b
  · have htoInt := Int64.le_iff_toInt_le.mp hle
    rw [abs_of_nonneg (by omega)] at h
    have hroom : (b.toInt - a.toInt).toNat + 1 ≤ maxCollected := by omega
    obtain ⟨xs, hxs, hsteps⟩ := ascend_steps hle #[]
    simp only [hle, htoInt, hroom, ↓reduceIte]
    exact ⟨_, rfl, hxs ▸ hsteps⟩
  · have htoInt := Int64.lt_iff_toInt_lt.mp (Int64.not_le.mp hle)
    rw [abs_of_neg (by omega)] at h
    have hroom : (a.toInt - b.toInt).toNat + 1 ≤ maxCollected := by omega
    obtain ⟨xs, hxs, hsteps⟩ := descend_steps (Int64.le_of_lt (Int64.not_le.mp hle)) #[]
    simp only [hle, Int.not_le.mpr htoInt, hroom, ↓reduceIte]
    exact ⟨_, rfl, hxs ▸ hsteps⟩

/-- There is no room for too many elements, whichever way they go. -/
theorem rangeElements_eq_error (h : ¬ Collectable a b) : rangeElements a b = .error .capacity := by
  unfold Collectable at h
  unfold rangeElements roomFor
  by_cases hle : a ≤ b
  · have htoInt := Int64.le_iff_toInt_le.mp hle
    rw [abs_of_nonneg (by omega)] at h
    have hroom : ¬ (b.toInt - a.toInt).toNat + 1 ≤ maxCollected := by omega
    simp only [hle, hroom, ↓reduceIte]
    rfl
  · have htoInt := Int64.lt_iff_toInt_lt.mp (Int64.not_le.mp hle)
    rw [abs_of_neg (by omega)] at h
    have hroom : ¬ (a.toInt - b.toInt).toNat + 1 ≤ maxCollected := by omega
    simp only [hle, hroom, ↓reduceIte]
    rfl

/-- The same elements in reverse lead back. -/
theorem rangeElements_reverse {xs : Array Value} (h : Collectable a b)
    (hxs : rangeElements a b = .ok xs) : rangeElements b a = .ok xs.reverse := by
  obtain ⟨ys, hys, hsteps⟩ := rangeElements_steps h
  obtain ⟨zs, hzs, hback⟩ := rangeElements_steps h.symm
  obtain rfl : xs = ys := Except.ok.inj (hxs.symm.trans hys)
  rw [hzs]
  refine congrArg Except.ok (Array.toList_inj.mp ?_)
  rw [Array.toList_reverse]
  rcases eq_or_ne a b with rfl | hne
  · rw [hsteps.eq_singleton, hback.eq_singleton]
    rfl
  · have hdirection : direction b a = -direction a b := by
      have hends : a.toInt ≠ b.toInt := fun heq => hne (Int64.toInt_inj.mp heq)
      unfold direction
      split_ifs <;> omega
    rw [hdirection] at hback
    exact hsteps.reverse_eq hback (by unfold direction; split_ifs <;> decide)

/-- The elements are the integers from `a` to `b`, both included, in the order
in which they are met on the way. -/
structure Includes (a b : Int64) (xs : Array Value) : Prop where
  size : (xs.size : Int) = |b.toInt - a.toInt| + 1
  element : ∀ k < xs.size, ∃ i : Int64, xs[k]? = some (.int i) ∧
    i.toInt = if a ≤ b then a.toInt + k else a.toInt - k
  first : xs[0]? = some (.int a)
  last : xs.back? = some (.int b)
  steps : Steps (if a ≤ b then 1 else -1) b a xs.toList

theorem Steps.includes {xs : Array Value} (h : Steps (direction a b) b a xs.toList) :
    Includes a b xs := by
  have hle : a ≤ b ↔ a.toInt ≤ b.toInt := Int64.le_iff_toInt_le
  refine ⟨?_, fun k hk => ?_, ?_, ?_, ?_⟩
  · have hlast := h.last_eq
    rw [Array.length_toList, direction] at hlast
    split_ifs at hlast with hle
    · rw [abs_of_nonneg (by omega)]
      omega
    · rw [abs_of_neg (by omega)]
      omega
  · obtain ⟨i, hi, hvalue⟩ := h.getElem? (k := k) (by simpa using hk)
    refine ⟨i, by simpa using hi, ?_⟩
    rw [hvalue, direction]
    simp only [hle]
    split_ifs <;> ring
  · rw [← Array.getElem?_toList, ← List.head?_eq_getElem?, h.head?]
  · rw [← Array.getLast?_toList, h.getLast?]
  · simpa only [direction, ← hle] using h

theorem rangeElements_includes (h : Collectable a b) :
    ∃ xs, rangeElements a b = .ok xs ∧ Includes a b xs := by
  obtain ⟨xs, hxs, hsteps⟩ := rangeElements_steps h
  exact ⟨xs, hxs, hsteps.includes⟩

end Value

/-! ## Evaluating a range -/

namespace Run

/-- The value is an array with these elements that was not there in `s`, and
nothing else is different in `t`. -/
structure State.AddsArray (s : State) (xs : Array Value) (v : Value) (t : State) : Prop where
  value : v = .array s.heap.size
  elements : t.heap.get s.heap.size = xs
  others : ∀ id < s.heap.size, t.heap.get id = s.heap.get id
  rest : t = { s with heap := s.heap.extend #[xs] }

theorem newArray_adds (xs : Array Value) (s : State) :
    ∃ v t, newArray xs s = .ok v t ∧ s.AddsArray xs v t :=
  ⟨_, _, rfl, rfl, Heap.get_extend_size s.heap xs, fun _ => Heap.get_extend_of_lt _, rfl⟩

theorem eval_range {limit fuel : Nat} {scope : ScopeId} {s t u : State} {e f : Expr} {a b : Int64}
    (he : eval limit fuel scope e s = .ok (.int a) t)
    (hf : eval limit fuel scope f t = .ok (.int b) u) (span : Span) :
    eval limit (fuel + 1) scope ⟨.range e f, span⟩ s =
      (do newArray (← orCrash (Value.rangeElements a b))) u := by
  rw [eval] at he hf ⊢
  simp only [Mode.eval, plain_noting, plain_act, bind, EStateM.bind, he, hf]
  rfl

theorem range_adds {a b : Int64} {xs : Array Value} (hxs : Value.rangeElements a b = .ok xs)
    (s : State) : ∃ v t, (do newArray (← orCrash (Value.rangeElements a b))) s = .ok v t ∧
      s.AddsArray xs v t := by
  rw [hxs]
  exact newArray_adds xs s

open Value in
/-- For all integers of 64 bits that are not too far apart, a range from `a` to
`b` is evaluated to a new array of the integers from the one to the other, both
included, so that there is one more than their distance: they go up by one if
`a` is at most `b`, and else down by one. A range from `b` to `a` has the same
elements in reverse. Where there would be `2 ^ 59` elements or more, the
program crashes in place of it, in the state that the ends have led to. -/
theorem ranges_are_inclusive (a b : Int64) :
    (|b.toInt - a.toInt| + 1 < 2 ^ 59 →
      ∃ xs : Array Value, Includes a b xs ∧ Includes b a xs.reverse ∧
        ∀ limit fuel scope s t u e f span,
          (eval limit fuel scope e s = .ok (.int a) t →
            eval limit fuel scope f t = .ok (.int b) u →
            ∃ v u', eval limit (fuel + 1) scope ⟨.range e f, span⟩ s = .ok v u' ∧
              u.AddsArray xs v u') ∧
          (eval limit fuel scope e s = .ok (.int b) t →
            eval limit fuel scope f t = .ok (.int a) u →
            ∃ v u', eval limit (fuel + 1) scope ⟨.range e f, span⟩ s = .ok v u' ∧
              u.AddsArray xs.reverse v u')) ∧
    (2 ^ 59 ≤ |b.toInt - a.toInt| + 1 →
      ∀ limit fuel scope s t u e f span, eval limit fuel scope e s = .ok (.int a) t →
        eval limit fuel scope f t = .ok (.int b) u →
        eval limit (fuel + 1) scope ⟨.range e f, span⟩ s = .error (.crash .capacity) u) := by
  have hmax : (maxCollected : Int) + 1 = 2 ^ 59 := by decide
  refine ⟨fun hnear => ?_, fun hfar limit fuel scope s t u e f span he hf => ?_⟩
  · have hcollect : Collectable a b := by
      unfold Collectable
      omega
    obtain ⟨xs, hxs, hincludes⟩ := rangeElements_includes hcollect
    obtain ⟨ys, hys, hincludes'⟩ := rangeElements_includes hcollect.symm
    have hreverse := rangeElements_reverse hcollect hxs
    obtain rfl : ys = xs.reverse := Except.ok.inj (hys.symm.trans hreverse)
    refine ⟨xs, hincludes, hincludes',
      fun limit fuel scope s t u e f span => ⟨fun he hf => ?_, fun he hf => ?_⟩⟩
    · rw [eval_range he hf]
      exact range_adds hxs u
    · rw [eval_range he hf]
      exact range_adds hreverse u
  · have hcollect : ¬ Collectable a b := by
      unfold Collectable
      omega
    rw [eval_range he hf, rangeElements_eq_error hcollect]
    rfl

/-- A range up to the largest integer includes it, and so does the range that
begins with it and goes down. From the least integer to the largest one the
program crashes. -/
theorem ranges_are_inclusive_largest :
    let s := State.initial (.replay [])
    let d : Expr := ⟨.int Int64.minValue, .origin⟩
    let e : Expr := ⟨.int 9223372036854775805, .origin⟩
    let f : Expr := ⟨.int Int64.maxValue, .origin⟩
    eval 10 1 0 d s = .ok (.int Int64.minValue) s ∧
    eval 10 1 0 e s = .ok (.int 9223372036854775805) s ∧
    eval 10 1 0 f s = .ok (.int Int64.maxValue) s ∧
    (∃ xs : Array Value, xs.size = 3 ∧ xs.back? = some (.int Int64.maxValue) ∧
      (∃ v t, eval 10 2 0 ⟨.range e f, .origin⟩ s = .ok v t ∧ s.AddsArray xs v t) ∧
      ∃ v t, eval 10 2 0 ⟨.range f e, .origin⟩ s = .ok v t ∧ s.AddsArray xs.reverse v t) ∧
    eval 10 2 0 ⟨.range d f, .origin⟩ s = .error (.crash .capacity) s := by
  intro s d e f
  obtain ⟨xs, hincludes, -, hevals⟩ :=
    (ranges_are_inclusive 9223372036854775805 Int64.maxValue).1 (by decide)
  have hsize : (xs.size : Int) = 3 := hincludes.size.trans (by decide)
  refine ⟨rfl, rfl, rfl, ⟨xs, by omega, hincludes.last, (hevals 10 1 0 s s s e f .origin).1 rfl rfl,
    (hevals 10 1 0 s s s f e .origin).2 rfl rfl⟩, ?_⟩
  exact (ranges_are_inclusive Int64.minValue Int64.maxValue).2 (by decide) 10 1 0 s s s d f
    .origin rfl rfl

/-- An element of a range is not found where the range has too many, though it
would be the sixth. -/
theorem far_range_crashes :
    let source := "x <- (0..9223372036854775807)[5]"
    let s := State.initial (.replay [])
    ∃ p, (compile source Analysis.initialScopes).2 = .ok p ∧
      ∃ t, p.run 10 20 s = .error (.crash .capacity) t := by
  intro source s
  obtain ⟨p, hp, hrun⟩ := exists_of_toOption_any (r := (compile source Analysis.initialScopes).2)
    (P := fun p => crash? (p.run 10 20) s == some .capacity) (by decide +kernel)
  exact ⟨p, hp, eq_error_of_crash? (beq_iff_eq.mp hrun)⟩

end Run

end Quill

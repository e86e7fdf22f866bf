-- Operations on values fail with errors of the language only. A repetition
-- goes over its elements in turn, by remainders and indices that could be by
-- zero and past the end, and never are.
import Mathlib
import Quill.Value.Cast
import Quill.Value.Element

namespace Quill

/-! ## Lists over and over -/

theorem flatten_replicate_add {α : Type} (l : List α) (m n : Nat) :
    (List.replicate (m + n) l).flatten =
      (List.replicate m l).flatten ++ (List.replicate n l).flatten := by
  rw [← List.replicate_append_replicate, List.flatten_append]

theorem length_flatten_replicate {α : Type} (l : List α) (n : Nat) :
    (List.replicate n l).flatten.length = n * l.length := by
  rw [List.length_flatten, List.map_replicate, List.sum_replicate, smul_eq_mul]

theorem getElem?_flatten_replicate {α : Type} {l : List α} {n j i : Nat} (hj : j < n)
    (hi : i < l.length) : (List.replicate n l).flatten[j * l.length + i]? = l[i]? := by
  induction n generalizing j with
  | zero => cases hj
  | succ n ih =>
    rw [List.replicate_succ, List.flatten_cons]
    cases j with
    | zero => rw [Nat.zero_mul, Nat.zero_add, List.getElem?_append_left hi]
    | succ j =>
      rw [List.getElem?_append_right (by rw [Nat.succ_mul]; omega),
        ← ih (Nat.lt_of_succ_lt_succ hj)]
      congr 1
      rw [Nat.succ_mul]
      omega

/-- The elements come round again. -/
theorem getElem?_flatten_replicate_mod {α : Type} {l : List α} {n i : Nat}
    (hi : i < n * l.length) : (List.replicate n l).flatten[i]? = l[i % l.length]? := by
  have hpos : 0 < l.length := Nat.pos_of_lt_mul_left hi
  have hround : i / l.length < n := (Nat.div_lt_iff_lt_mul hpos).mpr hi
  rw [← getElem?_flatten_replicate hround (Nat.mod_lt i hpos), Nat.div_add_mod']

theorem mapM_of_forall {α β ε : Type} {f : α → Except ε β} {g : α → β} {xs : List α}
    (h : ∀ x ∈ xs, f x = .ok (g x)) : xs.mapM f = .ok (xs.map g) := by
  induction xs with
  | nil => rfl
  | cons x xs ih =>
    rw [List.mapM_cons, h x List.mem_cons_self, ih fun y hy => h y (List.mem_cons_of_mem x hy)]
    rfl

namespace Value

/-! ## Elements in turn -/

/-- Within so many rounds there is an element at every remainder: without
elements there is no place at all. -/
theorem elementAt_wrapped {elements : Array Value} {count i : Nat}
    (hi : i < count * elements.size) : ∃ v, elements[i % elements.size]? = some v ∧
      (do elementAt elements (← wrapped i elements.size)) = .ok v := by
  have hpos : 0 < elements.size := Nat.pos_of_lt_mul_left hi
  have hget := Array.getElem?_eq_getElem (Nat.mod_lt i hpos)
  refine ⟨_, hget, ?_⟩
  simp only [wrapped, Nat.ne_of_gt hpos, ↓reduceIte, bind, Except.bind, pure, Except.pure,
    elementAt, hget]

/-- The elements in turn for so many rounds are the elements so many times
over. -/
theorem cycled_mul (elements : Array Value) (count : Nat) :
    cycled elements (elements.size * count) =
      .ok (List.replicate count elements.toList).flatten := by
  let round (i : Nat) : Value := elements[i % elements.size]?.getD .void
  have hround : ∀ i ∈ List.range (elements.size * count),
      (do elementAt elements (← wrapped i elements.size)) = .ok (round i) := by
    intro i hi
    rw [List.mem_range, Nat.mul_comm] at hi
    obtain ⟨v, hget, hv⟩ := elementAt_wrapped hi
    rw [hv]
    simp only [round, hget, Option.getD_some]
  rw [cycled, mapM_of_forall hround]
  refine congrArg Except.ok (List.ext_getElem? fun i => ?_)
  by_cases hi : i < count * elements.size
  · obtain ⟨v, hget, -⟩ := elementAt_wrapped hi
    have hrow : (List.replicate count elements.toList).flatten[i]? = some v := by
      rw [getElem?_flatten_replicate_mod (by rwa [Array.length_toList]), Array.length_toList,
        Array.getElem?_toList, hget]
    rw [hrow, List.getElem?_map, List.getElem?_range (by rwa [Nat.mul_comm]), Option.map_some]
    simp only [round, hget, Option.getD_some]
  · rw [List.getElem?_eq_none, List.getElem?_eq_none]
    · rw [length_flatten_replicate, Array.length_toList]
      omega
    · rw [List.length_map, List.length_range, Nat.mul_comm]
      omega

/-- An array of deep copies of the elements, so many times over. -/
def copies (h : Heap) (elements : List Value) (count : Nat) : Made :=
  made do newArrayIn h (← (List.replicate count elements).flatten.mapM (copy h))

theorem replicate_mul (h : Heap) (elements : Array Value) (count : Nat) :
    replicate h elements (elements.size * count) = .ok (copies h elements.toList count) := by
  rw [replicate, cycled_mul]
  rfl

/-! ## When something is repeated -/

variable {h : Heap} {s : String} {id : ArrayId} {n : Int64} {size length count : Nat} {e : OpError}

/-- How often something of a size is repeated: not if the count is negative or
the result would be too large. -/
def repetitions (size : Nat) (n : Int64) : Except OpError Nat := do
  let count ← repeatCount n
  let _ ← repeatedLength size count
  return count

theorem repetitions_eq_ok_iff : repetitions size n = .ok count ↔
    (0 ≤ n.toInt ∧ size * n.toInt.toNat ≤ maxRepeated) ∧ count = n.toInt.toNat := by
  unfold repetitions repeatCount repeatedLength
  by_cases hneg : n.toInt < 0
  · rw [if_pos hneg]
    exact ⟨nofun, fun hc => absurd hc.1.1 (Int.not_le.mpr hneg)⟩
  · rw [if_neg hneg]
    by_cases hfits : size * n.toInt.toNat ≤ maxRepeated
    · simp only [bind, Except.bind, pure, Except.pure, hfits, ↓reduceIte, Except.ok.injEq,
        Int.not_lt.mp hneg, and_self, true_and, eq_comm]
    · simp only [bind, Except.bind, pure, Except.pure, hfits, ↓reduceIte, reduceCtorEq, and_false,
        false_and]

theorem repetitions_eq_error_iff : repetitions size n = .error e ↔
    n.toInt < 0 ∧ e = .negativeCount n ∨
      0 ≤ n.toInt ∧ 2 ^ 28 < size * n.toInt ∧ e = .overflow := by
  unfold repetitions repeatCount repeatedLength
  by_cases hneg : n.toInt < 0
  · simp [hneg, Int.not_le.mpr hneg, bind, Except.bind, eq_comm]
  · have hsign : 0 ≤ n.toInt := Int.not_lt.mp hneg
    have hfits : size * n.toInt.toNat ≤ maxRepeated ↔ ¬ 2 ^ 28 < size * n.toInt := by
      rw [Int.not_lt, ← Int.ofNat_le, Nat.cast_mul, Int.toNat_of_nonneg hsign]
      rfl
    rw [if_neg hneg]
    by_cases hlarge : 2 ^ 28 < size * n.toInt
    · simp only [bind, Except.bind, pure, Except.pure, hfits, hlarge, not_true_eq_false,
        ↓reduceIte, Except.error.injEq, hneg, hsign, false_and, false_or, true_and, eq_comm]
    · simp only [bind, Except.bind, pure, Except.pure, hfits, hlarge, not_false_eq_true,
        ↓reduceIte, reduceCtorEq, hneg, false_and, and_false, or_self]

/-- Something is made so often as it is to be repeated, unless the count is
negative or the result would be too large. -/
theorem map_repetitions_eq_ok_iff {f : Nat → Made} {m : Made} :
    (repetitions size n).map f = .ok m ↔
      (0 ≤ n.toInt ∧ size * n.toInt.toNat ≤ maxRepeated) ∧ m = f n.toInt.toNat := by
  constructor
  · intro hm
    rcases hcount : repetitions size n with e | count
    · simp [hcount, Except.map] at hm
    · obtain ⟨hfits, rfl⟩ := repetitions_eq_ok_iff.mp hcount
      rw [hcount] at hm
      exact ⟨hfits, (Except.ok.inj hm).symm⟩
  · rintro ⟨hfits, rfl⟩
    rw [repetitions_eq_ok_iff.mpr ⟨hfits, rfl⟩]
    rfl

/-- A string is repeated by its bytes. -/
theorem multiply_string (h : Heap) (s : String) (n : Int64) : multiply h (.string s) (.int n) =
    (repetitions s.utf8ByteSize n).map fun count => .plain (.string (repeatString s count)) := by
  simp only [multiply, repetitions]
  rcases repeatCount n with e | count
  · rfl
  · simp only [bind, Except.bind]
    rcases repeatedLength s.utf8ByteSize count with e | total <;> rfl

/-- An array is repeated by its elements, and all its places are there. -/
theorem multiply_array (h : Heap) (id : ArrayId) (n : Int64) : multiply h (.array id) (.int n) =
    (repetitions (h.get id).size n).map (copies h (h.get id).toList) := by
  simp only [multiply, repetitions]
  rcases repeatCount n with e | count
  · rfl
  · simp only [bind, Except.bind]
    unfold repeatedLength
    split_ifs with hfits
    · simp only [pure, Except.pure, replicate_mul]
      rfl
    · rfl

/-! ## Operations do not crash -/

variable {α β : Type} {r : Except OpError α} {f : α → Except OpError β} {a b v : Value}

/-- The operation does not crash. -/
def Uncrashed (r : Except OpError α) : Prop := ∀ cause, r ≠ .error (.crash cause)

namespace Uncrashed

theorem ok (x : α) : Uncrashed (.ok x : Except OpError α) := nofun

theorem error (he : ∀ cause, e ≠ .crash cause) : Uncrashed (.error e : Except OpError α) := by
  rintro cause ⟨⟩
  exact he cause rfl

theorem bind (hr : Uncrashed r) (hf : ∀ x, Uncrashed (f x)) : Uncrashed (r >>= f) := by
  cases r with
  | error e => exact error fun cause he => hr cause (he ▸ rfl)
  | ok x => exact hf x

theorem map (hr : Uncrashed r) (g : α → β) : Uncrashed (r.map g) := by
  cases r with
  | error e => exact error fun cause he => hr cause (he ▸ rfl)
  | ok x => exact ok (g x)

end Uncrashed

theorem fit_uncrashed (n : Int) : Uncrashed (fit n) := by
  unfold fit
  split
  · exact .ok _
  · exact .error nofun

theorem quotient_uncrashed (a b : Int64) : Uncrashed (quotient a b) := by
  unfold quotient
  split
  · exact .error nofun
  · exact fit_uncrashed _

theorem remainder_uncrashed (a b : Int64) : Uncrashed (remainder a b) :=
  (quotient_uncrashed a b).bind fun _ => fit_uncrashed _

theorem repetitions_uncrashed (size : Nat) (n : Int64) : Uncrashed (repetitions size n) := by
  intro cause hcrash
  rcases repetitions_eq_error_iff.mp hcrash with ⟨-, he⟩ | ⟨-, -, he⟩ <;> cases he

theorem onFloats_uncrashed (g : Float → Float → Float) (a b : Value) :
    Uncrashed (onFloats g a b) := by
  unfold onFloats
  split
  · exact .ok _
  · exact .error nofun

theorem onInts_uncrashed (g : Int64 → Int64 → Int64) (a b : Value) : Uncrashed (onInts g a b) := by
  unfold onInts
  split
  · exact .ok _
  · exact .error nofun

theorem onBools_uncrashed (g : Bool → Bool → Bool) (a b : Value) : Uncrashed (onBools g a b) := by
  unfold onBools
  split
  · exact .ok _
  · exact .error nofun

theorem add_uncrashed (h : Heap) (a b : Value) : Uncrashed (add h a b) := by
  unfold add
  split
  · exact (fit_uncrashed _).bind fun _ => .ok _
  · exact .ok _
  · exact .ok _
  · exact onFloats_uncrashed _ _ _

theorem subtract_uncrashed (a b : Value) : Uncrashed (subtract a b) := by
  unfold subtract
  split
  · exact (fit_uncrashed _).bind fun _ => .ok _
  · exact onFloats_uncrashed _ _ _

theorem multiply_uncrashed (h : Heap) (a b : Value) : Uncrashed (multiply h a b) := by
  unfold multiply
  split
  · exact (fit_uncrashed _).bind fun _ => .ok _
  · rename_i s n
    have hstring := (repetitions_uncrashed s.utf8ByteSize n).map fun count =>
      Made.plain (.string (repeatString s count))
    rwa [← multiply_string h] at hstring
  · rename_i id n
    have harray := (repetitions_uncrashed (h.get id).size n).map (copies h (h.get id).toList)
    rwa [← multiply_array] at harray
  · exact onFloats_uncrashed _ _ _

theorem divide_uncrashed (a b : Value) : Uncrashed (divide a b) := by
  unfold divide
  split
  · exact (quotient_uncrashed _ _).bind fun _ => .ok _
  · exact onFloats_uncrashed _ _ _

theorem modulo_uncrashed (a b : Value) : Uncrashed (modulo a b) := by
  unfold modulo
  split
  · exact (remainder_uncrashed _ _).bind fun _ => .ok _
  · exact .error nofun

theorem equalElements_uncrashed {eq : Value → Value → Except OpError Bool}
    (heq : ∀ a b, Uncrashed (eq a b)) (xs ys : List Value) :
    Uncrashed (equalElements eq xs ys) := by
  induction xs generalizing ys with
  | nil => exact .ok _
  | cons x xs ih =>
    cases ys with
    | nil => exact .ok _
    | cons y ys =>
      refine (heq x y).bind fun same => ?_
      split
      · exact ih ys
      · exact .ok _

theorem equalWithin_uncrashed (h : Heap) (depth : Nat) (a b : Value) :
    Uncrashed (equalWithin h depth a b) := by
  induction depth using Nat.strongRecOn generalizing a b with
  | ind depth ih =>
    fun_cases equalWithin h depth a b with
    | case6 depth => exact equalElements_uncrashed (ih depth depth.lt_succ_self) _ _
    | case8 => exact .error nofun
    | _ => exact .ok _

theorem equal_uncrashed (h : Heap) (a b : Value) : Uncrashed (equal h a b) :=
  equalWithin_uncrashed h _ a b

theorem ordered_uncrashed (test : Ordering → Bool) (a b : Value) :
    Uncrashed (ordered test a b) := by
  refine Uncrashed.bind ?_ fun _ => .ok _
  fun_cases order a b with
  | case1 | case2 | case3 => exact .ok _
  | case4 => exact .error nofun

theorem binary_uncrashed (h : Heap) (op : BinaryOp) (a b : Value) :
    Uncrashed (binary h op a b) := by
  cases op with
  | add => exact add_uncrashed h a b
  | sub => exact subtract_uncrashed a b
  | mul => exact multiply_uncrashed h a b
  | div => exact divide_uncrashed a b
  | mod => exact modulo_uncrashed a b
  | eq | ne => exact (equal_uncrashed h a b).bind fun _ => .ok _
  | bitAnd | bitOr | bitXor => exact onInts_uncrashed _ a b
  | lt | gt | le | ge => exact ordered_uncrashed _ a b
  | and | or => exact onBools_uncrashed _ a b

theorem unary_uncrashed (op : UnaryOp) (v : Value) : Uncrashed (unary op v) := by
  fun_cases unary op v with
  | case3 n => exact (fit_uncrashed _).bind fun _ => .ok _
  | case7 => exact .error nofun
  | _ => exact .ok _

theorem cast_uncrashed (h : Heap) (v : Value) (target : TypeName) :
    Uncrashed (cast h v target) := by
  unfold cast
  extract_lets convert
  have hconvert : ∀ {α : Type} (make : α → Value) (x : Option α), Uncrashed (convert make x) := by
    rintro α make (_ | x)
    · exact .error (by simp)
    · exact .ok _
  split <;> first | exact hconvert _ _ | exact .error (by simp) | exact .ok _

theorem place_uncrashed (index : Int64) (length : Nat) : Uncrashed (place index length) := by
  unfold place
  split
  · exact .ok _
  · exact .error nofun

theorem subscript_uncrashed (h : Heap) (v i : Value) : Uncrashed (subscript h v i) := by
  unfold subscript
  split
  · refine (place_uncrashed _ _).bind fun k => ?_
    split <;> first | exact .ok _ | exact .error nofun
  · refine (place_uncrashed _ _).bind fun k => ?_
    split <;> first | exact .ok _ | exact .error nofun
  · exact .error nofun

theorem slot_uncrashed (h : Heap) (a i : Value) : Uncrashed (slot h a i) := by
  unfold slot
  split
  · exact (place_uncrashed _ _).bind fun _ => .ok _
  · exact .error nofun

end Value

end Quill

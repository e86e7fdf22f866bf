-- The law of repetition. A string or an array is repeated unless the count is
-- negative or the result would be too large, and its items come round again
-- and again. So repeating so many times and some more is the sum of both.
import Mathlib
import Quill.Proofs.DeepCopies
import Quill.Proofs.ExactIntegers
import Quill.Proofs.Indexing

namespace Quill

/-- Values that stand for one tree are alike. -/
theorem Tree.Of.alike {t : Tree} {h h' : Heap} {v w : Value} (hv : t.Of h v) (hw : t.Of h' w) :
    v.Alike h h' w := fun _ => hv.face_follow.trans hw.face_follow.symm

namespace Value

variable {h : Heap} {x : Value} {s : String} {id : ArrayId} {size length count : Nat}
  {n : Int64} {e : OpError} {m : Made}

/-! ## When there is a result -/

/-- What counts for the bound on repetitions: the bytes of a string, or the
elements of an array. -/
def bulk? (h : Heap) : Value → Option Nat
  | string s => some s.utf8ByteSize
  | array id => some (h.get id).size
  | _ => none

/-- A string or an array so many times over. -/
def times (h : Heap) : Value → Nat → Made
  | string s, count => .plain (.string (repeatString s count))
  | array id, count => copies h (h.get id).toList count
  | v, _ => .plain v

theorem multiply_of_bulk (hx : x.bulk? h = some size) (n : Int64) :
    multiply h x (.int n) = (repetitions size n).map (times h x) := by
  cases x with
  | string s =>
    cases hx
    exact multiply_string h s n
  | array id =>
    cases hx
    exact multiply_array h id n
  | _ => cases hx

theorem multiply_eq_error_iff (hx : x.bulk? h = some size) : multiply h x (.int n) = .error e ↔
    n.toInt < 0 ∧ e = .negativeCount n ∨
      0 ≤ n.toInt ∧ 2 ^ 28 < size * n.toInt ∧ e = .overflow := by
  rw [multiply_of_bulk hx, ← repetitions_eq_error_iff]
  cases repetitions size n <;> simp [Except.map]

/-! ## Strings over and over -/

/-- Doubling gives a string so many times over. -/
theorem toList_repeatString (s : String) (count : Nat) :
    (repeatString s count).toList = (List.replicate count s.toList).flatten := by
  fun_induction repeatString s count with
  | case1 => simp
  | case2 count hpos half heven ih =>
    have hcount : count = count / 2 + count / 2 := by omega
    rw [String.toList_append, ih, ← flatten_replicate_add, ← hcount]
  | case3 count hpos half hodd ih =>
    have hcount : count = count / 2 + count / 2 + 1 := by omega
    rw [String.toList_append, String.toList_append, ih, ← flatten_replicate_add,
      hcount, flatten_replicate_add _ _ 1, ← hcount, List.replicate_one, List.flatten_singleton]

theorem repeatString_add (s : String) (j k : Nat) :
    repeatString s (j + k) = repeatString s j ++ repeatString s k := by
  apply String.toList_inj.mp
  simp only [String.toList_append, toList_repeatString, flatten_replicate_add]

theorem multiply_eq_ok_iff (hx : x.bulk? h = some size) : multiply h x (.int n) = .ok m ↔
    (0 ≤ n.toInt ∧ size * n.toInt.toNat ≤ maxRepeated) ∧ m = times h x n.toInt.toNat := by
  rw [multiply_of_bulk hx, map_repetitions_eq_ok_iff]

/-! ## Items over and over -/

/-- What was made has the items of `x`, which are so many, over and over. -/
structure Repeated (h : Heap) (x : Value) (length count : Nat) (m : Made) : Prop where
  kind_eq : m.value.kind = x.kind
  length_eq : m.value.length? (h.extend m.fresh) = some (count * length)
  items : ∀ i < count * length, ∃ v w, m.value.item? (h.extend m.fresh) i = some v ∧
    x.item? h (i % length) = some w ∧ v.Alike (h.extend m.fresh) h w

theorem alike_string {h h' : Heap} {t : String} (hst : s = t) :
    (string s).Alike h h' (.string t) := by
  have hleaf : (string s).kind ≠ .array := by simp [kind]
  rw [alike_leaf_iff hleaf, hst]

theorem repeated_string (h : Heap) (s : String) (count : Nat) :
    Repeated h (.string s) s.length count (times h (.string s) count) := by
  rw [← String.length_toList]
  refine ⟨rfl, ?_, fun i hi => ?_⟩
  · simp only [times, Made.plain, length?]
    rw [← String.length_toList, toList_repeatString, length_flatten_replicate]
  · have hpos : 0 < s.toList.length := Nat.pos_of_lt_mul_left hi
    have hlt : i % s.toList.length < s.toList.length := Nat.mod_lt i hpos
    have hchar := getElem?_flatten_replicate_mod hi
    rw [List.getElem?_eq_getElem hlt] at hchar
    refine ⟨.string (String.singleton s.toList[i % s.toList.length]), _, ?_, ?_, alike_string rfl⟩
    · simp only [times, Made.plain, item?, toList_repeatString, hchar, Option.map_some]
    · simp only [item?, List.getElem?_eq_getElem hlt, Option.map_some]

/-- Where lists stand for the same trees, their elements are alike. -/
theorem exists_alike {h h' : Heap} {ts us : List Tree} {vs ws : List Value} {i k : Nat}
    (hvs : Tree.EachOf h ts vs) (hws : Tree.EachOf h' us ws) (htrees : ts[i]? = us[k]?)
    (hk : k < us.length) : ∃ v w, vs[i]? = some v ∧ ws[k]? = some w ∧ v.Alike h h' w := by
  rcases hws.getElem? k with ⟨hnone, -⟩ | ⟨u, w, hu, hw, hof⟩
  · exact absurd hk (Nat.not_lt.mpr (List.getElem?_eq_none_iff.mp hnone))
  · rcases hvs.getElem? i with ⟨hnone, -⟩ | ⟨t, v, ht, hv, hof'⟩
    · rw [hnone, hu] at htrees
      cases htrees
    · rw [ht, hu] at htrees
      cases htrees
      exact ⟨v, w, hv, hw, hof'.alike hof⟩

/-- An array without cycles stands for trees no deeper than there are
arrays. -/
theorem exists_trees (hacyclic : (array id).Acyclic h) (hstored : (array id).Stored h) :
    ∃ ts, (Tree.array ts).Of h (.array id) ∧ Tree.heightAll ts ≤ h.size := by
  obtain ⟨t, ht, hheight⟩ := Tree.exists_tree hacyclic hstored
  cases t with
  | leaf u =>
    obtain ⟨rfl, hkind⟩ := ht
    exact absurd rfl hkind
  | array ts => exact ⟨ts, ht, (Nat.le_succ _).trans hheight⟩

section Arrays

variable {ts : List Tree} (ht : (Tree.array ts).Of h (.array id))
  (hheight : Tree.heightAll ts ≤ h.size)

include ht hheight

theorem times_array_of (count : Nat) : (Tree.array (List.replicate count ts).flatten).Of
    (h.extend (times h (.array id) count).fresh) (times h (.array id) count).value := by
  obtain ⟨_, hself, hid, hall⟩ := ht
  cases hself
  exact (copies_row hall hheight count).of

theorem repeated_array (count : Nat) :
    Repeated h (.array id) (h.get id).size count (times h (.array id) count) := by
  obtain ⟨id', hvalue, -, hall'⟩ := times_array_of ht hheight count
  obtain ⟨_, hself, -, hall⟩ := ht
  cases hself
  have hlength : (h.get id).size = ts.length := by rw [← hall.length_eq, Array.length_toList]
  refine ⟨by rw [hvalue]; rfl, ?_, fun i hi => ?_⟩
  · rw [hvalue, length?, ← Array.length_toList, hall'.length_eq, length_flatten_replicate, hlength]
  · rw [hlength] at hi ⊢
    have hpos : 0 < ts.length := Nat.pos_of_lt_mul_left hi
    obtain ⟨v, w, hv, hw, halike⟩ := exists_alike hall' hall (getElem?_flatten_replicate_mod hi)
      (Nat.mod_lt i hpos)
    rw [Array.getElem?_toList] at hv hw
    exact ⟨v, w, by rw [hvalue]; exact hv, hw, halike⟩

end Arrays

theorem times_repeated (hx : x.bulk? h = some size) (hacyclic : x.Acyclic h)
    (hstored : x.Stored h) :
    ∃ length, x.length? h = some length ∧ ∀ count, Repeated h x length count (times h x count) := by
  cases x with
  | string s => exact ⟨s.length, rfl, repeated_string h s⟩
  | array id =>
    obtain ⟨ts, ht, hheight⟩ := exists_trees hacyclic hstored
    exact ⟨(h.get id).size, rfl, repeated_array ht hheight⟩
  | _ => cases hx

theorem bulk_of_empty (hx : x.bulk? h = some size) (hempty : x.length? h = some 0) : size = 0 := by
  cases x with
  | string s =>
    cases hx
    rw [String.length_eq_zero_iff.mp (Option.some.inj hempty)]
    rfl
  | array id =>
    cases hx
    exact Option.some.inj hempty
  | _ => cases hx

/-! ## Sums of repetitions -/

theorem add_array_of {ts us : List Tree} {v w : Value} (hv : (Tree.array ts).Of h v)
    (hw : (Tree.array us).Of h w) (hm : add h v w = .ok m) :
    (Tree.array (ts ++ us)).Of (h.extend m.fresh) m.value := by
  obtain ⟨a, rfl, ha, hall⟩ := hv
  obtain ⟨b, rfl, hb, hall'⟩ := hw
  cases hm
  refine ⟨h.size, rfl, by simp [Heap.newArray], ?_⟩
  have hboth := (hall.append hall').extend #[h.get a ++ h.get b]
  rwa [Heap.newArray, Heap.get_extend_size, Array.toList_append]

theorem toInt_of_add {j k sum : Int64}
    (hsum : add h (.int j) (.int k) = .ok (.plain (.int sum))) : sum.toInt = j.toInt + k.toInt := by
  rcases hfit : fit (j.toInt + k.toInt) with e | r
  · simp [add, hfit, bind, Except.bind] at hsum
  · simp only [add, hfit, bind, Except.bind] at hsum
    cases hsum
    exact fit_eq_ok_iff.mp hfit

theorem bulk?_extend (hx : x.InStore h) (fresh : Array (Array Value)) :
    x.bulk? (h.extend fresh) = x.bulk? h := by
  cases x with
  | array id => rw [bulk?, bulk?, Heap.get_extend_of_lt fresh hx]
  | _ => rfl

/-- Repeating so many times and some more is the sum of both. All is made in
one store, first `x * (j + k)` and then `x * j + x * k`. -/
theorem times_add_alike (hx : x.bulk? h = some size) (hacyclic : x.Acyclic h)
    (hstored : x.Stored h) (j k : Nat) :
    let all := times h x (j + k)
    let h₁ := h.extend all.fresh
    let front := times h₁ x j
    let h₂ := h₁.extend front.fresh
    let back := times h₂ x k
    let h₃ := h₂.extend back.fresh
    ∀ m, add h₃ front.value back.value = .ok m →
      all.value.Alike (h₃.extend m.fresh) (h₃.extend m.fresh) m.value := by
  intro all h₁ front h₂ back h₃ m hm
  cases x with
  | string s =>
    cases hm
    exact alike_string (repeatString_add s j k)
  | array id =>
    obtain ⟨ts, ht, hheight⟩ := exists_trees hacyclic hstored
    have ht₁ := ht.extend all.fresh
    have ht₂ := ht₁.extend front.fresh
    have hheight₁ : Tree.heightAll ts ≤ h₁.size := hheight.trans (by simp [h₁])
    have hheight₂ : Tree.heightAll ts ≤ h₂.size := hheight₁.trans (by simp [h₂])
    have hall := times_array_of ht hheight (j + k)
    have hfront := times_array_of ht₁ hheight₁ j
    have hback := times_array_of ht₂ hheight₂ k
    have hsum := add_array_of (hfront.extend back.fresh) hback hm
    rw [← flatten_replicate_add] at hsum
    exact (((hall.extend front.fresh).extend back.fresh).extend m.fresh).alike hsum
  | _ => cases hx

/-! ## The law -/

/-- A string, or an array that is nowhere inside itself, is repeated `n` times
unless `n` is negative, or else the bytes or elements would be more than
2 ^ 28. No repetition crashes: the loop over the elements takes no remainder by
zero and no index past the end, also where there are none. The result is `n`
times as long and its items come round again: they are those of the operand, or
copies of them, at the indices modulo its length.
What is empty stays so for every count that is not negative. Where all of it
has a result, `x * (j + k)` and `x * j + x * k` are alike. -/
theorem repetition_law {h : Heap} {x : Value} {size : Nat} (hx : x.bulk? h = some size)
    (hacyclic : x.Acyclic h) (hstored : x.Stored h) :
    (∀ (n : Int64) e, multiply h x (.int n) = .error e ↔
      n.toInt < 0 ∧ e = .negativeCount n ∨
        0 ≤ n.toInt ∧ 2 ^ 28 < size * n.toInt ∧ e = .overflow) ∧
    (∀ (n : Int64) cause, multiply h x (.int n) ≠ .error (.crash cause)) ∧
    (∃ length, x.length? h = some length ∧
      ∀ (n : Int64) m, multiply h x (.int n) = .ok m → Repeated h x length n.toInt.toNat m) ∧
    (x.length? h = some 0 → ∀ n : Int64, 0 ≤ n.toInt → ∃ m, multiply h x (.int n) = .ok m ∧
      m.value.kind = x.kind ∧ m.value.length? (h.extend m.fresh) = some 0) ∧
    ∀ (j k sum : Int64) (all front back m : Made),
      let h₁ := h.extend all.fresh
      let h₂ := h₁.extend front.fresh
      let h₃ := h₂.extend back.fresh
      add h (.int j) (.int k) = .ok (.plain (.int sum)) → multiply h x (.int sum) = .ok all →
      multiply h₁ x (.int j) = .ok front → multiply h₂ x (.int k) = .ok back →
      add h₃ front.value back.value = .ok m →
      all.value.Alike (h₃.extend m.fresh) (h₃.extend m.fresh) m.value := by
  obtain ⟨length, hlength, hrepeated⟩ := times_repeated hx hacyclic hstored
  have hmade : ∀ (n : Int64) m, multiply h x (.int n) = .ok m →
      Repeated h x length n.toInt.toNat m := by
    intro n m hm
    obtain ⟨-, rfl⟩ := (multiply_eq_ok_iff hx).mp hm
    exact hrepeated _
  refine ⟨fun n e => multiply_eq_error_iff hx, fun n => multiply_uncrashed h x (.int n),
    ⟨length, hlength, hmade⟩, ?_, ?_⟩
  · intro hempty n hn
    obtain rfl : length = 0 := Option.some.inj (hlength.symm.trans hempty)
    rcases hm : multiply h x (.int n) with e | m
    · have herror := (multiply_eq_error_iff hx).mp hm
      rw [bulk_of_empty hx hempty] at herror
      omega
    · exact ⟨m, rfl, (hmade n m hm).kind_eq, (hmade n m hm).length_eq⟩
  · intro j k sum all front back m h₁ h₂ h₃ hsum hall hfront hback hm
    have hstore : x.InStore h := by
      cases x with
      | array id => exact hstored id .refl
      | _ => trivial
    have hx₁ : x.bulk? h₁ = some size := by rw [bulk?_extend hstore, hx]
    have hx₂ : x.bulk? h₂ = some size := by rw [bulk?_extend (hstore.extend _), hx₁]
    obtain ⟨-, rfl⟩ := (multiply_eq_ok_iff hx).mp hall
    obtain ⟨⟨hj, -⟩, rfl⟩ := (multiply_eq_ok_iff hx₁).mp hfront
    obtain ⟨⟨hk, -⟩, rfl⟩ := (multiply_eq_ok_iff hx₂).mp hback
    have hcounts : sum.toInt.toNat = j.toInt.toNat + k.toInt.toNat := by
      rw [toInt_of_add hsum, Int.toNat_add hj hk]
    have halike := times_add_alike hx hacyclic hstored j.toInt.toNat k.toInt.toNat m
    rw [← hcounts] at halike
    exact halike hm

/-- An array that holds another one twice is repeated, and not for a negative
count. One without elements is repeated as often as a count can say. A string
is not repeated if only its characters would be few enough. -/
theorem repetition_law_bounds :
    let h : Heap := ⟨#[#[.int 1], #[.array 0, .array 0], #[]], 0⟩
    (array 1).bulk? h = some 2 ∧ (array 1).Acyclic h ∧ (array 1).Stored h ∧
    multiply h (.array 1) (.int (-1)) = .error (.negativeCount (-1)) ∧
    (∃ m, multiply h (.array 1) (.int 2) = .ok m ∧ Repeated h (.array 1) 2 2 m) ∧
    (array 2).bulk? h = some 0 ∧ (array 2).Acyclic h ∧ (array 2).Stored h ∧
    (∃ m, multiply h (.array 2) (.int Int64.maxValue) = .ok m ∧
      m.value.length? (h.extend m.fresh) = some 0) ∧
    (string "é").bulk? h = some 2 ∧ (string "é").Acyclic h ∧ (string "é").Stored h ∧
    multiply h (.string "é") (.int 134217729) = .error .overflow := by
  intro h
  have hold : ∀ id k, Value.array k ∈ h.get id → k < id := by
    rintro (_ | _ | _ | id) k hk
    · simp [h, Heap.get] at hk
    · obtain rfl : k = 0 := by simpa [h, Heap.get] using hk
      exact Nat.one_pos
    · simp [h, Heap.get] at hk
    · simp [h, Heap.get] at hk
  have hacyclic : ∀ v, Acyclic h v := acyclic_of_older hold
  have harray : (array 1).Stored h := stored_of_older hold (by decide)
  have hempty : (array 2).Stored h := stored_of_older hold (by decide)
  have hstring : (string "é").Stored h := stored_of_older hold (by decide)
  have hbulk : (string "é").bulk? h = some 2 := by decide
  obtain ⟨herror, -, ⟨length, hlength, hmade⟩, -⟩ :=
    repetition_law rfl (hacyclic (.array 1)) harray
  obtain ⟨-, -, -, hnone, -⟩ := repetition_law rfl (hacyclic (.array 2)) hempty
  obtain ⟨herror', -⟩ := repetition_law hbulk (hacyclic (.string "é")) hstring
  cases hlength
  have htwo : multiply h (.array 1) (.int 2) = .ok (copies h (h.get 1).toList 2) :=
    multiply_array_eq_ok_iff.mpr ⟨by decide, rfl⟩
  obtain ⟨m, hm, -, hm'⟩ := hnone rfl Int64.maxValue (by decide)
  exact ⟨rfl, hacyclic _, harray, (herror (-1) _).mpr (.inl ⟨by decide, rfl⟩),
    ⟨_, htwo, hmade 2 _ htwo⟩, rfl, hacyclic _, hempty, ⟨m, hm, hm'⟩, hbulk, hacyclic _, hstring,
    (herror' 134217729 _).mpr (.inr ⟨by decide, by decide, rfl⟩)⟩

end Value

end Quill

-- Items and their indices. An array has its elements and a string has its
-- characters, however many bytes they take, and both are counted from 0.
-- Lengths, subscripts and sums all speak of the same list of items.
import Mathlib
import Quill.Proofs.ArrayStorage

namespace Quill

/-- A new array without elements is as good as none. -/
theorem Heap.get_extend_empty (h : Heap) (id : ArrayId) : (h.extend #[#[]]).get id = h.get id := by
  rcases Nat.lt_trichotomy id h.arrays.size with hid | rfl | hid
  · exact get_extend_of_lt _ hid
  · simp [get, extend]
  · rw [get, get, Array.getElem?_eq_none (by simpa [extend] using hid),
      Array.getElem?_eq_none hid.le]

namespace Value

variable {h h' : Heap} {v w x sum : Value} {xs ys : List Value} {n k : Nat} {i : Int64}

/-! ## Items -/

/-- What a value has at a place: an element of an array, or a character of a
string. -/
def item? (h : Heap) : Value → Nat → Option Value
  | array id, k => (h.get id)[k]?
  | string s, k => s.toList[k]?.map fun c => .string (String.singleton c)
  | _, _ => none

/-- All items of a value in order. -/
def items? (h : Heap) : Value → Option (List Value)
  | array id => some (h.get id).toList
  | string s => some (s.toList.map fun c => .string (String.singleton c))
  | _ => none

theorem item?_eq (h : Heap) (v : Value) (k : Nat) :
    v.item? h k = (v.items? h).bind (·[k]?) := by
  cases v <;> simp [item?, items?]

theorem length?_eq (h : Heap) (v : Value) : v.length? h = (v.items? h).map List.length := by
  cases v <;> simp [length?, items?, ← String.length_toList]

theorem exists_item (hn : v.length? h = some n) (hk : k < n) : ∃ w, v.item? h k = some w := by
  rw [length?_eq, Option.map_eq_some_iff] at hn
  obtain ⟨xs, hxs, rfl⟩ := hn
  exact ⟨xs[k], by rw [item?_eq, hxs, Option.bind_some, List.getElem?_eq_getElem hk]⟩

/-! ## Subscripts -/

theorem place_eq_error (hi : ¬ (0 ≤ i.toInt ∧ i.toInt < n)) :
    place i n = .error (.indexOutOfRange i n) := if_neg hi

/-- An index finds the item that it counts up to, and no other index finds
one. -/
theorem subscript_of_items (hv : v.items? h = some xs) (i : Int64) :
    subscript h v (.int i) = (place i xs.length).bind fun k =>
      (xs[k]?).elim (.error (.indexOutOfRange i xs.length)) .ok := by
  cases v with
  | array id =>
    cases hv
    simp only [subscript, Array.length_toList, Array.getElem?_toList]
    refine congrArg _ (funext fun k => ?_)
    cases (h.get id)[k]? <;> rfl
  | string s =>
    cases hv
    simp only [subscript, List.length_map, String.length_toList, List.getElem?_map]
    refine congrArg _ (funext fun k => ?_)
    rw [String.Slice.front?_eq, String.toList_copy_drop, List.head?_drop]
    cases s.toList[k]? <;> rfl
  | _ => cases hv

theorem subscript_eq_ok_iff (hv : v.items? h = some xs) :
    subscript h v (.int i) = .ok w ↔ ∃ k : Nat, i.toInt = k ∧ xs[k]? = some w := by
  rw [subscript_of_items hv]
  constructor
  · intro hw
    rcases hk : place i xs.length with e | k
    · simp [hk, Except.bind] at hw
    · obtain ⟨hi, hlt⟩ := place_eq_ok_iff.mp hk
      refine ⟨k, hi, ?_⟩
      simpa [hk, Except.bind, List.getElem?_eq_getElem hlt] using hw
  · rintro ⟨k, hi, hw⟩
    have hlt : k < xs.length := (List.getElem?_eq_some_iff.mp hw).1
    simp [place_eq_ok_iff.mpr ⟨hi, hlt⟩, Except.bind, hw]

theorem subscript_eq_error (hv : v.items? h = some xs)
    (hi : ¬ (0 ≤ i.toInt ∧ i.toInt < xs.length)) :
    subscript h v (.int i) = .error (.indexOutOfRange i xs.length) := by
  rw [subscript_of_items hv, place_eq_error hi, Except.bind]

/-- The index that counts up to a place finds the item there. -/
theorem subscript_ofNat (hk : k < 2 ^ 63) (hw : v.item? h k = some w) :
    subscript h v (.int (Int64.ofNat k)) = .ok w := by
  rw [item?_eq, Option.bind_eq_some_iff] at hw
  obtain ⟨xs, hxs, hw⟩ := hw
  exact (subscript_eq_ok_iff hxs).mpr ⟨k, Int64.toInt_ofNat_of_lt hk, hw⟩

/-- The value has `n` items: an index that is at least 0 and less than `n`
finds one of them, and every other index fails. -/
structure Indexed (h : Heap) (v : Value) (n : Nat) : Prop where
  length : v.length? h = some n
  found : ∀ i : Int64, (∃ w, subscript h v (.int i) = .ok w) ↔ 0 ≤ i.toInt ∧ i.toInt < n
  missed : ∀ (i : Int64) e, subscript h v (.int i) = .error e → e = .indexOutOfRange i n

theorem indexed_of_items (hv : v.items? h = some xs) : v.Indexed h xs.length := by
  have hfound : ∀ i : Int64,
      (∃ w, subscript h v (.int i) = .ok w) ↔ 0 ≤ i.toInt ∧ i.toInt < xs.length := by
    intro i
    constructor
    · rintro ⟨w, hw⟩
      obtain ⟨k, hi, hk⟩ := (subscript_eq_ok_iff hv).mp hw
      have := (List.getElem?_eq_some_iff.mp hk).1
      omega
    · rintro ⟨hlow, hhigh⟩
      have hlt : i.toInt.toNat < xs.length := by omega
      exact ⟨_, (subscript_eq_ok_iff hv).mpr
        ⟨i.toInt.toNat, (Int.toNat_of_nonneg hlow).symm, List.getElem?_eq_getElem hlt⟩⟩
  refine ⟨by rw [length?_eq, hv, Option.map_some], hfound, fun i e he => ?_⟩
  have hout : ¬ (0 ≤ i.toInt ∧ i.toInt < xs.length) := by
    rw [← hfound i, he]
    exact nofun
  rw [subscript_eq_error hv hout] at he
  exact (Except.error.inj he).symm

/-! ## Sums -/

/-- The value is no array, or one of the store. -/
def InStore (h : Heap) : Value → Prop
  | array id => id < h.size
  | _ => True

theorem InStore.extend (hv : v.InStore h) (fresh : Array (Array Value)) :
    v.InStore (h.extend fresh) := by
  cases v with
  | array id => exact Nat.lt_of_lt_of_le hv (by simp)
  | _ => trivial

/-- More arrays in the store change no items. -/
theorem items?_extend (hv : v.InStore h) (fresh : Array (Array Value)) :
    v.items? (h.extend fresh) = v.items? h := by
  cases v with
  | array id => rw [items?, items?, Heap.get_extend_of_lt fresh hv]
  | _ => rfl

theorem inStore_of_items (hv : v.items? h = some xs) (hx : x ∈ xs) : v.InStore h := by
  cases v with
  | array id =>
    cases hv
    exact Heap.lt_size_of_get (Array.size_pos_of_mem (Array.mem_toList_iff.mp hx))
  | _ => trivial

/-- What was made has these items and is of the same kind as a value. -/
structure Holding (h : Heap) (v : Value) (m : Made) (xs : List Value) : Prop where
  kind_eq : m.value.kind = v.kind
  inStore : m.value.InStore (h.extend m.fresh)
  items : m.value.items? (h.extend m.fresh) = some xs

theorem holding_newArray (h : Heap) (id : ArrayId) (elements : Array Value) :
    Holding h (.array id) (h.newArray elements) elements.toList where
  kind_eq := rfl
  inStore := by simp [Heap.newArray, InStore]
  items := by simp [Heap.newArray, items?, Heap.get_extend_size]

/-- The items of a sum are those of the first and then those of the second. -/
theorem add_of_items (hkind : v.kind = w.kind) (hv : v.items? h = some xs)
    (hw : w.items? h = some ys) : ∃ m, add h v w = .ok m ∧ Holding h v m (xs ++ ys) := by
  cases v with
  | array a =>
    cases w with
    | array b =>
      cases hv
      cases hw
      rw [← Array.toList_append]
      exact ⟨_, rfl, holding_newArray h a (h.get a ++ h.get b)⟩
    | _ => cases hkind
  | string s =>
    cases w with
    | string t =>
      cases hv
      cases hw
      exact ⟨_, rfl, rfl, trivial, by simp [Made.plain, items?]⟩
    | _ => cases hkind
  | _ => cases hv

/-- The sum of values with `n` and `n'` items has the items of the first, and
after them those of the second. -/
structure Joined (h : Heap) (v w : Value) (n n' : Nat) (m : Made) : Prop where
  length : m.value.length? (h.extend m.fresh) = some (n + n')
  front : ∀ i : Int64, i.toInt < n → ∀ x,
    subscript (h.extend m.fresh) m.value (.int i) = .ok x ↔ subscript h v (.int i) = .ok x
  back : ∀ i j : Int64, n ≤ i.toInt → j.toInt = i.toInt - n → ∀ x,
    subscript (h.extend m.fresh) m.value (.int i) = .ok x ↔ subscript h w (.int j) = .ok x

theorem add_joined (hkind : v.kind = w.kind) (hv : v.items? h = some xs)
    (hw : w.items? h = some ys) :
    ∃ m, add h v w = .ok m ∧ Joined h v w xs.length ys.length m := by
  obtain ⟨m, hm, -, -, hitems⟩ := add_of_items hkind hv hw
  refine ⟨m, hm, ?_, fun i hi x => ?_, fun i j hi hj x => ?_⟩
  · rw [length?_eq, hitems, Option.map_some, List.length_append]
  · rw [subscript_eq_ok_iff hitems, subscript_eq_ok_iff hv]
    refine exists_congr fun k => and_congr_right fun hk => ?_
    rw [List.getElem?_append_left (by omega)]
  · rw [subscript_eq_ok_iff hitems, subscript_eq_ok_iff hw]
    constructor
    · rintro ⟨k, hk, hx⟩
      rw [List.getElem?_append_right (by omega)] at hx
      exact ⟨k - xs.length, by omega, hx⟩
    · rintro ⟨k, hk, hx⟩
      refine ⟨xs.length + k, by omega, ?_⟩
      rwa [List.getElem?_append_right (Nat.le_add_right _ _), Nat.add_sub_cancel_left]

/-! ## Pieces -/

/-- The item at an index as a value of the kind that it is taken from: a
character of a string is a string, and an element of an array gets an array
of its own. -/
def piece (h : Heap) (v : Value) (i : Int64) : Except OpError Made := do
  let w ← subscript h v (.int i)
  return match v with
    | array _ => h.newArray #[w]
    | _ => .plain w

/-- Adds the pieces of `v` at some indices to a sum, one after the other. -/
def addPieces (v : Value) : List Int64 → Heap → Value → Except OpError (Heap × Value)
  | [], h, sum => return (h, sum)
  | i :: is, h, sum => do
    let one ← piece h v i
    let more ← add (h.extend one.fresh) sum one.value
    addPieces v is ((h.extend one.fresh).extend more.fresh) more.value

/-- The string or the array without items. -/
def noItems (h : Heap) : Value → Made
  | array _ => h.newArray #[]
  | _ => .plain (.string "")

/-- The sum of the pieces of `v` at the indices from 0 up to `n`. -/
def rejoin (h : Heap) (v : Value) (n : Nat) : Except OpError (Heap × Value) :=
  addPieces v ((List.range n).map Int64.ofNat) (h.extend (noItems h v).fresh) (noItems h v).value

theorem piece_of_items (hv : v.items? h = some xs) (hi : i.toInt = k) (hx : xs[k]? = some x) :
    ∃ m, piece h v i = .ok m ∧ Holding h v m [x] := by
  have hsubscript : subscript h v (.int i) = .ok x := (subscript_eq_ok_iff hv).mpr ⟨k, hi, hx⟩
  cases v with
  | array id =>
    exact ⟨_, by simp only [piece, hsubscript]; rfl, holding_newArray h id #[x]⟩
  | string s =>
    refine ⟨.plain x, by simp only [piece, hsubscript]; rfl, ?_⟩
    cases hv
    rw [List.getElem?_map, Option.map_eq_some_iff] at hx
    obtain ⟨c, -, rfl⟩ := hx
    exact ⟨rfl, trivial, by simp [Made.plain, items?]⟩
  | _ => cases hv

/-- A piece more makes the sum of the items one longer. -/
theorem addPieces_of_items (hv : v.items? h = some xs) (hbound : xs.length ≤ 2 ^ 63)
    (hkind : sum.kind = v.kind) (hstore : sum.InStore h) (hsum : sum.items? h = some (xs.take k))
    (hk : k + n = xs.length) :
    ∃ h' w, addPieces v ((List.range' k n).map Int64.ofNat) h sum = .ok (h', w) ∧
      w.kind = v.kind ∧ w.items? h' = some xs := by
  induction n generalizing k h sum with
  | zero =>
    rw [List.take_of_length_le (by omega)] at hsum
    exact ⟨h, sum, rfl, hkind, hsum⟩
  | succ n ih =>
    have hlt : k < xs.length := by omega
    have hx : xs[k]? = some xs[k] := List.getElem?_eq_getElem hlt
    obtain ⟨one, hone, hholds⟩ := piece_of_items hv (Int64.toInt_ofNat_of_lt (by omega)) hx
    have hsum' : sum.items? (h.extend one.fresh) = some (xs.take k) := by
      rw [items?_extend hstore, hsum]
    obtain ⟨more, hmore, hholds'⟩ :=
      add_of_items (hkind.trans hholds.kind_eq.symm) hsum' hholds.items
    have hv' : v.items? ((h.extend one.fresh).extend more.fresh) = some xs := by
      have hin : v.InStore h := inStore_of_items hv (List.mem_of_getElem? hx)
      rw [items?_extend (hin.extend _), items?_extend hin, hv]
    obtain ⟨h', w, hrest, hw⟩ := ih hv' (hholds'.kind_eq.trans hkind) hholds'.inStore
      (by rw [hholds'.items, List.take_add_one, hx]; rfl) (by omega)
    refine ⟨h', w, ?_, hw⟩
    simp only [List.range'_succ, List.map_cons, addPieces, hone, bind, Except.bind, hmore, hrest]

/-- The pieces of a value together have its items again. -/
theorem rejoin_of_items (hv : v.items? h = some xs) (hbound : xs.length ≤ 2 ^ 63) :
    ∃ h' w, rejoin h v xs.length = .ok (h', w) ∧ w.kind = v.kind ∧ w.items? h' = some xs := by
  rw [rejoin, List.range_eq_range']
  have hstart : Holding h v (noItems h v) [] := by
    cases v with
    | array id => exact holding_newArray h id #[]
    | string s => exact ⟨rfl, trivial, rfl⟩
    | _ => cases hv
  have hv' : v.items? (h.extend (noItems h v).fresh) = some xs := by
    cases v with
    | array id =>
      -- also an array that is not in the store yet has no elements then
      rwa [noItems, Heap.newArray, items?, Heap.get_extend_empty]
    | string s => exact hv
    | _ => cases hv
  exact addPieces_of_items hv' hbound hstart.kind_eq hstart.inStore hstart.items (Nat.zero_add _)

/-! ## Strings and arrays -/

section Texts

variable {s t : String}

theorem exists_items_string (h : Heap) (s : String) :
    ∃ xs, (string s).items? h = some xs ∧ xs.length = s.length :=
  ⟨_, rfl, by rw [List.length_map, String.length_toList]⟩

/-- The items of a string are strings of one character. -/
theorem exists_char_of_subscript (hw : subscript h (.string s) (.int i) = .ok w) :
    ∃ c : String, w = .string c ∧ c.length = 1 := by
  obtain ⟨k, -, hk⟩ := (subscript_eq_ok_iff (v := .string s) rfl).mp hw
  rw [List.getElem?_map, Option.map_eq_some_iff] at hk
  obtain ⟨c, -, rfl⟩ := hk
  exact ⟨String.singleton c, rfl, by simp⟩

/-- Strings with the same items are the same. -/
theorem string_of_items (hkind : w.kind = .string) (hw : w.items? h' = (string s).items? h) :
    w = .string s := by
  cases w with
  | string t =>
    have hinj : Function.Injective fun c => Value.string (String.singleton c) := by
      intro c d hcd
      simpa using hcd
    have htexts := List.map_injective_iff.mpr hinj (Option.some.inj hw)
    rw [String.toList_inj.mp htexts]
  | _ => cases hkind

theorem rejoin_string (hbound : s.length ≤ 2 ^ 63) :
    ∃ h', rejoin h (.string s) s.length = .ok (h', .string s) := by
  obtain ⟨xs, hxs, hlength⟩ := exists_items_string h s
  rw [← hlength] at hbound ⊢
  obtain ⟨h', w, hrejoin, hkind, hw⟩ := rejoin_of_items hxs hbound
  rw [string_of_items hkind (hw.trans hxs.symm)] at hrejoin
  exact ⟨h', hrejoin⟩

end Texts

theorem rejoin_array {a : ArrayId} (hbound : (h.get a).size ≤ 2 ^ 63) :
    ∃ h' b, rejoin h (.array a) (h.get a).size = .ok (h', .array b) ∧ h'.get b = h.get a := by
  rw [← Array.length_toList] at hbound ⊢
  obtain ⟨h', w, hrejoin, hkind, hw⟩ := rejoin_of_items (v := .array a) rfl hbound
  cases w with
  | array b => exact ⟨h', b, hrejoin, Array.toList_inj.mp (Option.some.inj hw)⟩
  | _ => cases hkind

/-- Strings are indexed by their characters, whatever bytes these take. An
index finds a string of one character exactly if it is at least 0 and less than
the length, and else the error names the index and the length. The characters
added up from the first to the last are the string again. The length of a sum
is the sum of the lengths, and its characters are those of the first string and
then those of the second. It is the same with the elements of arrays, which
are found as they are, so that arrays among them are shared. An index is an
integer of 64 bits, so that no more than 2 ^ 63 items can be counted. -/
theorem items_are_indexed (h : Heap) :
    (∀ s : String,
      Indexed h (.string s) s.length ∧
      (∀ i w, subscript h (.string s) (.int i) = .ok w →
        ∃ c : String, w = .string c ∧ c.length = 1) ∧
      (s.length ≤ 2 ^ 63 → ∃ h', rejoin h (.string s) s.length = .ok (h', .string s))) ∧
    (∀ s t : String, ∃ m, add h (.string s) (.string t) = .ok m ∧
      Joined h (.string s) (.string t) s.length t.length m) ∧
    (∀ a : ArrayId,
      Indexed h (.array a) (h.get a).size ∧
      (∀ (i : Int64) w, subscript h (.array a) (.int i) = .ok w →
        (h.get a)[i.toInt.toNat]? = some w) ∧
      ((h.get a).size ≤ 2 ^ 63 → ∃ h' b, rejoin h (.array a) (h.get a).size = .ok (h', .array b) ∧
        h'.get b = h.get a)) ∧
    ∀ a b : ArrayId, ∃ m, add h (.array a) (.array b) = .ok m ∧
      Joined h (.array a) (.array b) (h.get a).size (h.get b).size m := by
  refine ⟨fun s => ⟨?_, fun i w hw => exists_char_of_subscript hw, rejoin_string⟩, fun s t => ?_,
    fun a => ⟨?_, fun i w hw => ?_, rejoin_array⟩, fun a b => ?_⟩
  · obtain ⟨xs, hxs, hlength⟩ := exists_items_string h s
    rw [← hlength]
    exact indexed_of_items hxs
  · obtain ⟨xs, hxs, hlength⟩ := exists_items_string h s
    obtain ⟨ys, hys, hlength'⟩ := exists_items_string h t
    rw [← hlength, ← hlength']
    exact add_joined rfl hxs hys
  · rw [← Array.length_toList]
    exact indexed_of_items rfl
  · obtain ⟨k, hi, hk⟩ := (subscript_eq_ok_iff (v := .array a) rfl).mp hw
    rwa [hi, Int.toNat_natCast, ← Array.getElem?_toList]
  · rw [← Array.length_toList, ← Array.length_toList]
    exact add_joined rfl rfl rfl

/-- Characters of two and four bytes are two items, and so are two elements
that are one array. -/
theorem items_are_indexed_wide :
    let h : Heap := ⟨#[#[.int 1], #[.array 0, .array 0]], 0⟩
    "é😀".utf8ByteSize = 6 ∧ (∃ w, subscript h (.string "é😀") (.int 1) = .ok w) ∧
    (¬ ∃ w, subscript h (.string "é😀") (.int 2) = .ok w) ∧
    (∃ h', rejoin h (.string "é😀") 2 = .ok (h', .string "é😀")) ∧
    ∃ h' b, rejoin h (.array 1) 2 = .ok (h', .array b) ∧ h'.get b = #[.array 0, .array 0] := by
  intro h
  obtain ⟨hstrings, -, harrays, -⟩ := items_are_indexed h
  obtain ⟨hindexed, -, hrejoin⟩ := hstrings "é😀"
  obtain ⟨-, -, hrejoin'⟩ := harrays 1
  have hlength : "é😀".length = 2 := by decide
  rw [hlength] at hindexed hrejoin
  refine ⟨by decide, (hindexed.found 1).mpr (by decide), fun hfound => ?_, hrejoin (by decide),
    hrejoin' (by decide)⟩
  exact absurd ((hindexed.found 2).mp hfound) (by decide)

end Value

end Quill

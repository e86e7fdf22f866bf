-- Equality in programs against equality from outside. Both say whether two
-- values are alike at every place. Equality in programs has no answer only
-- where it meets values of unlike kinds before it meets a difference.
import Mathlib
import Quill.Proofs.ValuePlaces
import Quill.Value.Operator

namespace Quill

namespace Value

variable {h : Heap} {a b v x y : Value} {i j id : ArrayId} {depth k : Nat}

/-! ## Values that can be compared -/

/-- The kinds of values that are equal only to themselves. -/
def exactKinds : List Kind := [.int, .bool, .string, .array]

/-- The value is built from integers, truth values, strings and arrays, and
no array lies inside itself. -/
structure Comparable (h : Heap) (v : Value) : Prop where
  acyclic : v.Acyclic h
  exact : ∀ w, v.Reaches h w → w.kind ∈ exactKinds

theorem exists_array (hv : v.kind = .array) : ∃ id, v = .array id := by
  cases v with
  | array id => exact ⟨id, rfl⟩
  | _ => cases hv

theorem Comparable.kind_mem (hv : v.Comparable h) : v.kind ∈ exactKinds := hv.exact v .refl

theorem Comparable.element (hv : (array id).Comparable h) (hx : x ∈ h.get id) :
    x.Comparable h where
  acyclic := hv.acyclic.element (holds_array hx)
  exact w hw := hv.exact w (.head (holds_array hx) hw)

/-- Values are comparable where arrays hold only older arrays and values of
those kinds. -/
theorem comparable_of_older
    (hold : ∀ id, ∀ x ∈ h.get id, x.kind ∈ exactKinds ∧ x.age ≤ id) (hv : v.kind ∈ exactKinds) :
    v.Comparable h where
  acyclic := acyclic_of_older (fun id k hk => (hold id _ hk).2) v
  exact w hw := by
    rcases Relation.ReflTransGen.cases_tail hw with rfl | ⟨_, -, id, -, hmem⟩
    · exact hv
    · exact (hold id w hmem).1

/-- All places inside the value lie inside fewer than `depth` arrays. -/
def Shallow (h : Heap) (depth : Nat) (v : Value) : Prop :=
  ∀ path w, v.follow h path = some w → path.length < depth

theorem Comparable.shallow (hv : v.Comparable h) (hdepth : h.size < depth) : v.Shallow h depth :=
  fun _ _ hw => (hv.acyclic.length_le hw).trans_lt hdepth

theorem Shallow.element (hv : (array id).Shallow h (depth + 1)) (hx : x ∈ h.get id) :
    x.Shallow h depth := by
  intro path w hw
  obtain ⟨k, hk⟩ := Array.mem_iff_getElem?.mp hx
  exact Nat.lt_of_succ_lt_succ (hv (k :: path) w ((follow_of_getElem? hk).trans hw))

theorem not_shallow_zero : ¬ v.Shallow h 0 := fun hv => Nat.not_lt_zero _ (hv [] v (follow_nil h v))

/-! ## Clashes -/

/-- The elements of two lists are alike before the index `k`. -/
def AlikeBefore (h : Heap) (xs ys : List Value) (k : Nat) : Prop :=
  ∀ l < k, ∀ x y : Value, xs[l]? = some x → ys[l]? = some y → x.Alike h h y

theorem AlikeBefore.symm {xs ys : List Value} (hxy : AlikeBefore h xs ys k) :
    AlikeBefore h ys xs k := fun l hl y x hy hx => (hxy l hl x y hx hy).symm

theorem alikeBefore_succ {xs ys : List Value} :
    AlikeBefore h (x :: xs) (y :: ys) (k + 1) ↔ x.Alike h h y ∧ AlikeBefore h xs ys k := by
  constructor
  · intro hxy
    exact ⟨hxy 0 (Nat.succ_pos k) x y rfl rfl, fun l hl => hxy (l + 1) (Nat.succ_lt_succ hl)⟩
  · rintro ⟨hxy, hrest⟩ (_ | l) hl u w hu hw
    · cases hu
      cases hw
      exact hxy
    · exact hrest l (Nat.lt_of_succ_lt_succ hl) u w hu hw

/-- The comparison of two values meets unlike kinds: those of the values, or
those that the comparison of two elements meets, where the arrays have one
length and all elements before are alike. -/
inductive Clash (h : Heap) : Value → Value → Prop
  | kinds {a b : Value} (hkind : a.kind ≠ b.kind) : Clash h a b
  | elements {i j : ArrayId} {k : Nat} {x y : Value} (hsize : (h.get i).size = (h.get j).size)
      (hx : (h.get i).toList[k]? = some x) (hy : (h.get j).toList[k]? = some y)
      (hbefore : AlikeBefore h (h.get i).toList (h.get j).toList k) (hclash : Clash h x y) :
      Clash h (.array i) (.array j)

theorem Clash.symm (hab : Clash h a b) : Clash h b a := by
  induction hab with
  | kinds hkind => exact .kinds hkind.symm
  | elements hsize hx hy hbefore _ ih => exact .elements hsize.symm hy hx hbefore.symm ih

/-- The first pair of elements that are not alike, of two arrays of one
length, is of unlike kinds. -/
def FirstOfUnlikeKinds (h : Heap) (i j : ArrayId) : Prop :=
  (h.get i).size = (h.get j).size ∧ ∃ (k : Nat) (x y : Value),
    (h.get i).toList[k]? = some x ∧ (h.get j).toList[k]? = some y ∧ x.kind ≠ y.kind ∧
      AlikeBefore h (h.get i).toList (h.get j).toList k

/-- A clash is one of the values themselves, or one between elements at the
same place of both. -/
theorem Clash.exists_place (hab : Clash h a b) : a.kind ≠ b.kind ∨
    ∃ path i j, a.follow h path = some (.array i) ∧ b.follow h path = some (.array j) ∧
      FirstOfUnlikeKinds h i j := by
  induction hab with
  | kinds hkind => exact .inl hkind
  | @elements i j k x y hsize hx hy hbefore _ ih =>
    right
    rcases ih with hkind | ⟨path, i', j', hi', hj', hfirst⟩
    · exact ⟨[], i, j, follow_nil _ _, follow_nil _ _, hsize, k, x, y, hx, hy, hkind, hbefore⟩
    · rw [Array.getElem?_toList] at hx hy
      exact ⟨k :: path, i', j', (follow_of_getElem? hx).trans hi',
        (follow_of_getElem? hy).trans hj', hfirst⟩

/-- Some elements of the lists clash, and those before are alike. -/
def ClashIn (h : Heap) (xs ys : List Value) : Prop :=
  ∃ (k : Nat) (x y : Value), xs[k]? = some x ∧ ys[k]? = some y ∧ AlikeBefore h xs ys k ∧ Clash h x y

theorem clash_array_iff : Clash h (.array i) (.array j) ↔
    (h.get i).size = (h.get j).size ∧ ClashIn h (h.get i).toList (h.get j).toList := by
  constructor
  · rintro (hkind | ⟨hsize, hx, hy, hbefore, hclash⟩)
    · exact absurd rfl hkind
    · exact ⟨hsize, _, _, _, hx, hy, hbefore, hclash⟩
  · rintro ⟨hsize, k, x, y, hx, hy, hbefore, hclash⟩
    exact .elements hsize hx hy hbefore hclash

theorem clashIn_cons {xs ys : List Value} : ClashIn h (x :: xs) (y :: ys) ↔
    Clash h x y ∨ x.Alike h h y ∧ ClashIn h xs ys := by
  constructor
  · rintro ⟨_ | k, u, w, hu, hw, hbefore, hclash⟩
    · cases hu
      cases hw
      exact .inl hclash
    · obtain ⟨hxy, hrest⟩ := alikeBefore_succ.mp hbefore
      exact .inr ⟨hxy, k, u, w, hu, hw, hrest, hclash⟩
  · rintro (hclash | ⟨hxy, k, u, w, hu, hw, hrest, hclash⟩)
    · exact ⟨0, x, y, rfl, rfl, fun l hl => absurd hl (Nat.not_lt_zero l), hclash⟩
    · exact ⟨k + 1, u, w, hu, hw, alikeBefore_succ.mpr ⟨hxy, hrest⟩, hclash⟩

/-! ## Verdicts -/

/-- The answer is that the values are alike exactly if they are, and there is
none exactly if they clash. -/
structure Judges (h : Heap) (a b : Value) (r : Except OpError Bool) : Prop where
  true_iff : r = .ok true ↔ a.Alike h h b
  error_iff : ∀ e, r = .error e ↔ e = .unsupported ∧ Clash h a b

theorem Judges.symm {r : Except OpError Bool} (hr : Judges h a b r) : Judges h b a r where
  true_iff := hr.true_iff.trans ⟨.symm, .symm⟩
  error_iff e := (hr.error_iff e).trans (and_congr_right fun _ => ⟨.symm, .symm⟩)

/-- There is only one right answer. -/
theorem Judges.unique {r s : Except OpError Bool} (hr : Judges h a b r) (hs : Judges h a b s) :
    r = s := by
  rcases r with e | x
  · exact ((hs.error_iff e).mpr ((hr.error_iff e).mp rfl)).symm
  · rcases s with e | y
    · exact absurd ((hr.error_iff e).mpr ((hs.error_iff e).mp rfl)) nofun
    · have hxy : x = true ↔ y = true := by simpa using hr.true_iff.trans hs.true_iff.symm
      rw [Bool.eq_iff_iff.mpr hxy]

/-- Where there is an answer, there is no clash. -/
theorem Judges.not_clash {answer : Bool} (hr : Judges h a b (.ok answer)) : ¬ Clash h a b :=
  fun hclash => absurd ((hr.error_iff .unsupported).mpr ⟨rfl, hclash⟩) nofun

/-! ## Comparing values -/

/-- Elements that are compared rightly make lists that are. -/
theorem equalElements_judges {eq : Value → Value → Except OpError Bool} {xs ys : List Value}
    (hlength : xs.length = ys.length) (heq : ∀ x ∈ xs, ∀ y ∈ ys, Judges h x y (eq x y)) :
    (equalElements eq xs ys = .ok true ↔ List.Forall₂ (fun x y => Alike h x h y) xs ys) ∧
      ∀ e, equalElements eq xs ys = .error e ↔ e = .unsupported ∧ ClashIn h xs ys := by
  induction xs generalizing ys with
  | nil =>
    obtain rfl := List.length_eq_zero_iff.mp hlength.symm
    exact ⟨iff_of_true rfl .nil, fun e => iff_of_false nofun (by simp [ClashIn])⟩
  | cons x xs ih =>
    obtain _ | ⟨y, ys⟩ := ys
    · cases hlength
    have hxy := heq x List.mem_cons_self y List.mem_cons_self
    have hrest := ih (Nat.succ.inj hlength) fun u hu w hw =>
      heq u (List.mem_cons_of_mem x hu) w (List.mem_cons_of_mem y hw)
    rw [List.forall₂_cons]
    simp only [clashIn_cons, equalElements]
    rcases hr : eq x y with e | (_ | _)
    · rw [hr] at hxy
      obtain ⟨rfl, hclash⟩ := (hxy.error_iff e).mp rfl
      have hnot : ¬ x.Alike h h y := fun hab => absurd (hxy.true_iff.mpr hab) nofun
      refine ⟨iff_of_false nofun fun hall => hnot hall.1, fun e => ?_⟩
      simp [bind, Except.bind, hclash, eq_comm]
    · rw [hr] at hxy
      have hnot : ¬ x.Alike h h y := fun hab => absurd (hxy.true_iff.mpr hab) nofun
      refine ⟨iff_of_false nofun fun hall => hnot hall.1, fun e => iff_of_false nofun ?_⟩
      rintro ⟨-, hclash | ⟨hab, -⟩⟩
      · exact hxy.not_clash hclash
      · exact hnot hab
    · rw [hr] at hxy
      have hab : x.Alike h h y := hxy.true_iff.mp rfl
      simpa [bind, Except.bind, hab, hxy.not_clash] using hrest

/-- Values of unlike kinds are not compared. -/
theorem equalWithin_of_kind_ne (ha : a.kind ∈ exactKinds) (hb : b.kind ∈ exactKinds)
    (hkind : a.kind ≠ b.kind) : equalWithin h depth a b = .error .unsupported := by
  cases a <;> cases b <;> simp_all [exactKinds, kind, equalWithin, asFloat?]

theorem equalWithin_leaf (ha : a.kind ∈ exactKinds) (hleaf : a.kind ≠ .array)
    (hkind : a.kind = b.kind) : ∃ r, equalWithin h depth a b = .ok r ∧ (r = true ↔ a = b) := by
  cases a <;> cases b <;> simp_all [exactKinds, kind, equalWithin, pure, Except.pure]

theorem equalWithin_array_judges
    (helements : ∀ x ∈ h.get i, ∀ y ∈ h.get j, Judges h x y (equalWithin h depth x y)) :
    Judges h (.array i) (.array j) (equalWithin h (depth + 1) (.array i) (.array j)) := by
  rw [equalWithin]
  by_cases hsize : (h.get i).size = (h.get j).size
  · obtain ⟨htrue, herror⟩ := equalElements_judges (by simpa using hsize) fun x hx y hy =>
      helements x (Array.mem_toList_iff.mp hx) y (Array.mem_toList_iff.mp hy)
    rw [if_neg (not_not_intro hsize)]
    refine ⟨htrue.trans alike_array_iff.symm, fun e => (herror e).trans ?_⟩
    rw [clash_array_iff, and_iff_right hsize]
  · rw [if_pos hsize]
    refine ⟨iff_of_false nofun fun hab => hsize (Sum.inl.inj hab.face_eq), fun e => ?_⟩
    exact iff_of_false nofun fun hclash => hsize (clash_array_iff.mp hclash.2).1

/-- The comparison of values within a depth that it does not reach. -/
theorem equalWithin_judges (ha : a.Comparable h) (hb : b.Comparable h)
    (hdepth : a.Shallow h depth) : Judges h a b (equalWithin h depth a b) := by
  induction depth generalizing a b with
  | zero => exact absurd hdepth not_shallow_zero
  | succ depth ih =>
    by_cases hkind : a.kind = b.kind
    · by_cases hleaf : a.kind = .array
      · obtain ⟨i, rfl⟩ := exists_array hleaf
        obtain ⟨j, rfl⟩ := exists_array (hkind.symm.trans hleaf)
        exact equalWithin_array_judges fun x hx y hy =>
          ih (ha.element hx) (hb.element hy) (hdepth.element hx)
      · obtain ⟨r, hr, htrue⟩ := equalWithin_leaf ha.kind_mem hleaf hkind
        rw [hr]
        refine ⟨by simpa [alike_leaf_iff hleaf] using htrue, fun e => iff_of_false nofun ?_⟩
        rintro ⟨-, hne | _⟩
        · exact hne hkind
        · exact hleaf rfl
    · rw [equalWithin_of_kind_ne ha.kind_mem hb.kind_mem hkind]
      refine ⟨iff_of_false nofun fun hab => hkind hab.kind_eq, fun e => ?_⟩
      simp [Clash.kinds hkind, eq_comm]

/-! ## Comparing from outside -/

theorem sameElements_iff {same : Value → Value → Bool} {xs ys : List Value}
    (hsame : ∀ x ∈ xs, ∀ y ∈ ys, same x y = true ↔ x.Alike h h y) :
    sameElements same xs ys = true ↔ List.Forall₂ (fun x y => Alike h x h y) xs ys := by
  induction xs generalizing ys with
  | nil => cases ys <;> simp [sameElements]
  | cons x xs ih =>
    obtain _ | ⟨y, ys⟩ := ys
    · simp [sameElements]
    rw [sameElements, Bool.and_eq_true, List.forall₂_cons, hsame x List.mem_cons_self y
      List.mem_cons_self, ih fun u hu w hw =>
        hsame u (List.mem_cons_of_mem x hu) w (List.mem_cons_of_mem y hw)]

theorem sameWithin_of_kind_ne (hkind : a.kind ≠ b.kind) : sameWithin h depth a b = false := by
  cases a <;> cases b <;> simp_all [kind, sameWithin]

theorem sameWithin_leaf (ha : a.kind ∈ exactKinds) (hleaf : a.kind ≠ .array)
    (hkind : a.kind = b.kind) : sameWithin h depth a b = true ↔ a = b := by
  cases a <;> cases b <;> simp_all [exactKinds, kind, sameWithin]

/-- From outside, values are the same if they are alike. -/
theorem sameWithin_iff (ha : a.Comparable h) (hb : b.Comparable h) (hdepth : a.Shallow h depth) :
    sameWithin h depth a b = true ↔ a.Alike h h b := by
  induction depth generalizing a b with
  | zero => exact absurd hdepth not_shallow_zero
  | succ depth ih =>
    by_cases hkind : a.kind = b.kind
    · by_cases hleaf : a.kind = .array
      · obtain ⟨i, rfl⟩ := exists_array hleaf
        obtain ⟨j, rfl⟩ := exists_array (hkind.symm.trans hleaf)
        have helements : ∀ x ∈ (h.get i).toList, ∀ y ∈ (h.get j).toList,
            sameWithin h depth x y = true ↔ x.Alike h h y := fun x hx y hy =>
          ih (ha.element (Array.mem_toList_iff.mp hx)) (hb.element (Array.mem_toList_iff.mp hy))
            (hdepth.element (Array.mem_toList_iff.mp hx))
        rw [sameWithin, Bool.or_eq_true, beq_iff_eq, sameElements_iff helements, ← alike_array_iff]
        -- an array is alike to itself, so its elements need no look
        refine or_iff_right_of_imp ?_
        rintro rfl
        exact .refl h _
      · rw [sameWithin_leaf ha.kind_mem hleaf hkind, alike_leaf_iff hleaf]
    · rw [sameWithin_of_kind_ne hkind]
      exact iff_of_false nofun fun hab => hkind hab.kind_eq

/-! ## Both equalities -/

theorem size_lt_comparisonDepth (h : Heap) : h.size < comparisonDepth h :=
  Nat.lt_succ_of_le (Nat.le_mul_self h.size)

/-- For all values that are built from integers, truth values, strings and
arrays without cycles, in every store: equality in programs is symmetric, its
errors included, and inequality is its negation or has the same error. Values
are equal exactly if they are alike at every place. Where programs get an
answer, equality from outside gives the same one, though it does not look into
an array that is compared with itself. There is no answer exactly if the
values clash; then they are of unlike kinds, or at some place of both there
are arrays of one length whose first elements that are not alike are. No
comparison goes as deep as its bound. -/
theorem equality_agrees {h : Heap} {a b : Value} (ha : a.Comparable h) (hb : b.Comparable h) :
    equal h a b = equal h b a ∧
    binary h .eq a b = (equal h a b).map (fun answer => .plain (.bool answer)) ∧
    binary h .ne a b = (equal h a b).map (fun answer => .plain (.bool (!answer))) ∧
    (equal h a b = .ok true ↔ a.Alike h h b) ∧
    (∀ answer, equal h a b = .ok answer → same h a b = answer) ∧
    (∀ e, equal h a b = .error e ↔ e = .unsupported ∧ Clash h a b) ∧
    (∀ e, equal h a b = .error e → a.kind ≠ b.kind ∨
      ∃ path i j, a.follow h path = some (.array i) ∧ b.follow h path = some (.array j) ∧
        FirstOfUnlikeKinds h i j) ∧
    ∀ depth, h.size < depth →
      equalWithin h depth a b = equal h a b ∧ sameWithin h depth a b = same h a b := by
  have hjudges : ∀ depth, h.size < depth → Judges h a b (equalWithin h depth a b) :=
    fun depth hdepth => equalWithin_judges ha hb (ha.shallow hdepth)
  have hsame : ∀ depth, h.size < depth → (sameWithin h depth a b = true ↔ a.Alike h h b) :=
    fun depth hdepth => sameWithin_iff ha hb (ha.shallow hdepth)
  have hdeep := size_lt_comparisonDepth h
  have hequal : Judges h a b (equal h a b) := hjudges _ hdeep
  have houtside : same h a b = true ↔ a.Alike h h b := hsame _ hdeep
  have hswap : Judges h b a (equal h b a) := equalWithin_judges hb ha (hb.shallow hdeep)
  refine ⟨hequal.unique hswap.symm, ?_, ?_, hequal.true_iff, ?_, hequal.error_iff, ?_, ?_⟩
  · cases hr : equal h a b <;> simp [binary, hr, bind, Except.bind, pure, Except.pure, Except.map]
  · cases hr : equal h a b <;> simp [binary, hr, bind, Except.bind, pure, Except.pure, Except.map]
  · intro answer hanswer
    have htrue := houtside.trans hequal.true_iff.symm
    rw [hanswer] at htrue
    exact Bool.eq_iff_iff.mpr (by simpa using htrue)
  · exact fun e he => ((hequal.error_iff e).mp he).2.exists_place
  · intro depth hdepth
    exact ⟨(hjudges depth hdepth).unique hequal,
      Bool.eq_iff_iff.mpr ((hsame depth hdepth).trans houtside.symm)⟩

/-- An array and one with the same elements are equal. Arrays that hold them
and then a truth value or an integer are not compared: the first two pairs are
alike, and the third is of unlike kinds. -/
theorem equality_agrees_nested :
    let h : Heap := ⟨#[#[.int 1, .string "é"], #[.int 1, .string "é"],
      #[.array 0, .array 0, .bool true], #[.array 0, .array 1, .int 5]], 0⟩
    (array 0).Comparable h ∧ (array 1).Comparable h ∧ (array 2).Comparable h ∧
    (array 3).Comparable h ∧ (array 0).Alike h h (.array 1) ∧ same h (.array 0) (.array 1) = true ∧
    equal h (.array 2) (.array 3) = .error .unsupported ∧
    ∃ path i j, (array 2).follow h path = some (.array i) ∧
      (array 3).follow h path = some (.array j) ∧ FirstOfUnlikeKinds h i j := by
  intro h
  have hold : ∀ id, ∀ x ∈ h.get id, x.kind ∈ exactKinds ∧ x.age ≤ id := by
    rintro (_ | _ | _ | _ | id)
    · decide
    · decide
    · decide
    · decide
    · simp [h, Heap.get]
  have hall : ∀ id, (array id).Comparable h := fun id =>
    comparable_of_older hold (show Kind.array ∈ exactKinds by decide)
  obtain ⟨-, -, -, halike, hsame, -⟩ := equality_agrees (hall 0) (hall 1)
  obtain ⟨-, -, -, -, -, -, hplace, -⟩ := equality_agrees (hall 2) (hall 3)
  have hequal : equal h (.array 0) (.array 1) = .ok true := by rfl
  have herror : equal h (.array 2) (.array 3) = .error .unsupported := by rfl
  exact ⟨hall 0, hall 1, hall 2, hall 3, halike.mp hequal, hsame true hequal, herror,
    (hplace _ herror).resolve_left fun hkind => hkind rfl⟩

end Value

end Quill

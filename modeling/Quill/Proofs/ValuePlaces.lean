-- Places inside values. Indices lead from a value through its arrays to what
-- lies inside it, and an array that is shared lies at several places. What
-- is found along indices depends on no array that the value does not reach.
-- Values are alike if the same is found in both at every place.
import Mathlib
import Quill.Proofs.ValueTrees

namespace Quill

namespace Value

/-! ## Following indices -/

/-- What lies inside a value at a place, which is named by the indices from
the outermost array to the innermost. -/
def follow (h : Heap) : Value → List Nat → Option Value
  | v, [] => some v
  | array id, k :: ks => ((h.get id)[k]?).bind (follow h · ks)
  | _, _ :: _ => none

/-- The arrays that lie around a place, from the outermost to the
innermost. -/
def around (h : Heap) : Value → List Nat → List ArrayId
  | array id, k :: ks => id :: ((h.get id)[k]?).elim [] (around h · ks)
  | _, _ => []

/-- What can be seen of a value without a look at its elements: how many it
has if it is an array, or else the value. -/
def face (h : Heap) : Value → Nat ⊕ Value
  | array id => .inl (h.get id).size
  | v => .inr v

variable {h h' h'' : Heap} {v w u : Value} {id : ArrayId} {k : Nat} {ks path : List Nat}

@[simp] theorem follow_nil (h : Heap) (v : Value) : v.follow h [] = some v := by cases v <;> rfl

@[simp] theorem around_nil (h : Heap) (v : Value) : v.around h [] = [] := by cases v <;> rfl

theorem follow_of_getElem? (hw : (h.get id)[k]? = some w) :
    (array id).follow h (k :: ks) = w.follow h ks := by simp [follow, hw]

theorem around_of_getElem? (hw : (h.get id)[k]? = some w) :
    (array id).around h (k :: ks) = id :: w.around h ks := by simp [around, hw]

/-- A place that is not the value itself lies in one of its elements. -/
theorem follow_cons_eq_some {u : Value} (hu : v.follow h (k :: ks) = some u) :
    ∃ id w, v = .array id ∧ (h.get id)[k]? = some w ∧ w.follow h ks = some u := by
  cases v with
  | array id =>
    obtain ⟨w, hw, hfollow⟩ := Option.bind_eq_some_iff.mp hu
    exact ⟨id, w, rfl, hw, hfollow⟩
  | _ => cases hu

/-! ## Places and what is reached -/

theorem reaches_of_follow {path : List Nat} {v : Value} (hw : v.follow h path = some w) :
    v.Reaches h w := by
  induction path generalizing v with
  | nil =>
    rw [follow_nil] at hw
    cases hw
    exact .refl
  | cons k ks ih =>
    obtain ⟨id, u, rfl, hu, hfollow⟩ := follow_cons_eq_some hw
    exact .head (holds_array (Array.mem_of_getElem? hu)) (ih hfollow)

theorem exists_follow (hw : v.Reaches h w) : ∃ path, v.follow h path = some w := by
  induction hw using Relation.ReflTransGen.head_induction_on with
  | refl => exact ⟨[], follow_nil h w⟩
  | head hstep _ ih =>
    obtain ⟨id, rfl, hmem⟩ := hstep
    obtain ⟨k, hk⟩ := Array.mem_iff_getElem?.mp hmem
    obtain ⟨path, hpath⟩ := ih
    exact ⟨k :: path, (follow_of_getElem? hk).trans hpath⟩

/-- The arrays around a place lie around what is found there. -/
theorem transGen_of_mem_around {path : List Nat} {v : Value} (hw : v.follow h path = some w)
    (hid : id ∈ v.around h path) : Relation.TransGen (Holds h) (.array id) w := by
  induction path generalizing v with
  | nil => simp at hid
  | cons k ks ih =>
    obtain ⟨a, u, rfl, hu, hfollow⟩ := follow_cons_eq_some hw
    rw [around_of_getElem? hu] at hid
    rcases List.mem_cons.mp hid with rfl | hid
    · exact .head' (holds_array (Array.mem_of_getElem? hu)) (reaches_of_follow hfollow)
    · exact ih hfollow hid

theorem reaches_of_mem_around {path : List Nat} {v : Value} (hid : id ∈ v.around h path) :
    v.Reaches h (.array id) := by
  induction path generalizing v with
  | nil => simp at hid
  | cons k ks ih =>
    cases v with
    | array a =>
      rcases List.mem_cons.mp hid with rfl | hid
      · exact .refl
      · rcases hu : (h.get a)[k]? with _ | u
        · simp [hu] at hid
        · rw [hu] at hid
          exact .head (holds_array (Array.mem_of_getElem? hu)) (ih hid)
    | _ => cases hid

/-- Where there is no cycle, no array lies around a place twice. -/
theorem Acyclic.nodup_around {path : List Nat} {v : Value} (hv : v.Acyclic h)
    (hw : v.follow h path = some w) : (v.around h path).Nodup := by
  induction path generalizing v with
  | nil => simp
  | cons k ks ih =>
    obtain ⟨a, u, rfl, hu, hfollow⟩ := follow_cons_eq_some hw
    have hheld := holds_array (Array.mem_of_getElem? hu)
    rw [around_of_getElem? hu, List.nodup_cons]
    refine ⟨fun hmem => ?_, ih (hv.element hheld) hfollow⟩
    exact hv (.array a) .refl (.head' hheld (reaches_of_mem_around hmem))

theorem length_around {path : List Nat} {v : Value} (hw : v.follow h path = some w) :
    (v.around h path).length = path.length := by
  induction path generalizing v with
  | nil => simp
  | cons k ks ih =>
    obtain ⟨a, u, rfl, hu, hfollow⟩ := follow_cons_eq_some hw
    rw [around_of_getElem? hu, List.length_cons, List.length_cons, ih hfollow]

theorem lt_size_of_mem_around {path : List Nat} {v : Value} (hw : v.follow h path = some w)
    (hid : id ∈ v.around h path) : id < h.size := by
  induction path generalizing v with
  | nil => simp at hid
  | cons k ks ih =>
    obtain ⟨a, u, rfl, hu, hfollow⟩ := follow_cons_eq_some hw
    rw [around_of_getElem? hu] at hid
    rcases List.mem_cons.mp hid with rfl | hid
    · exact Heap.lt_size_of_get (Array.size_pos_of_mem (Array.mem_of_getElem? hu))
    · exact ih hfollow hid

/-- Where there is no cycle, no place lies inside more arrays than there
are. -/
theorem Acyclic.length_le {path : List Nat} (hv : v.Acyclic h) (hw : v.follow h path = some w) :
    path.length ≤ h.size := by
  rw [← length_around hw]
  exact Heap.length_le_size (hv.nodup_around hw) fun a ha => lt_size_of_mem_around hw ha

/-! ## Stores that agree -/

/-- The same is found at every place if the stores agree on all arrays that
the value reaches. -/
theorem follow_congr {path : List Nat} {v : Value}
    (hget : ∀ id, v.Reaches h (.array id) → h'.get id = h.get id) :
    v.follow h' path = v.follow h path := by
  induction path generalizing v with
  | nil => rw [follow_nil, follow_nil]
  | cons k ks ih =>
    cases v with
    | array id =>
      rw [follow, follow, hget id .refl]
      refine Option.bind_congr fun w hw => ih fun a ha => hget a (.head ?_ ha)
      exact holds_array (Array.mem_of_getElem? hw)
    | _ => rfl

/-! ## Values that are alike -/

/-- At every place one value has what the other has there: arrays of one
length, or a value that is no array. The two may belong to different
stores. -/
def Alike (h : Heap) (v : Value) (h' : Heap) (w : Value) : Prop :=
  ∀ path, (v.follow h path).map (face h) = (w.follow h' path).map (face h')

theorem Alike.refl (h : Heap) (v : Value) : v.Alike h h v := fun _ => rfl

theorem Alike.symm (hvw : v.Alike h h' w) : w.Alike h' h v := fun path => (hvw path).symm

theorem Alike.trans (hvw : v.Alike h h' w) (hwu : w.Alike h' h'' u) : v.Alike h h'' u :=
  fun path => (hvw path).trans (hwu path)

theorem Alike.face_eq (hvw : v.Alike h h' w) : v.face h = w.face h' := by
  simpa using hvw []

theorem Alike.kind_eq (hvw : v.Alike h h' w) : v.kind = w.kind := by
  have hface := hvw.face_eq
  cases v <;> cases w <;> simp [face] at hface ⊢ <;> rfl

/-- A value that is no array is alike to itself only. -/
theorem alike_leaf_iff (hv : v.kind ≠ .array) : v.Alike h h' w ↔ v = w := by
  constructor
  · intro hvw
    have hface := hvw.face_eq
    cases v with
    | array id => exact absurd rfl hv
    | _ => cases w <;> simp_all [face]
  · rintro rfl path
    cases v with
    | array id => exact absurd rfl hv
    | _ => cases path <;> rfl

/-- Arrays are alike if their elements are, one by one. -/
theorem alike_array_iff {a b : ArrayId} : (array a).Alike h h' (.array b) ↔
    List.Forall₂ (fun x y => Alike h x h' y) (h.get a).toList (h'.get b).toList := by
  rw [List.forall₂_iff_get]
  constructor
  · intro hab
    have hsize : (h.get a).size = (h'.get b).size := Sum.inl.inj hab.face_eq
    refine ⟨by simpa using hsize, fun k hk hk' path => ?_⟩
    have hplace := hab (k :: path)
    rw [Array.length_toList] at hk hk'
    rwa [follow_of_getElem? (Array.getElem?_eq_getElem hk),
      follow_of_getElem? (Array.getElem?_eq_getElem hk')] at hplace
  · rintro ⟨hsize, helements⟩ path
    rw [Array.length_toList, Array.length_toList] at hsize
    cases path with
    | nil => simp [face, hsize]
    | cons k ks =>
      by_cases hk : k < (h.get a).size
      · have hk' : k < (h'.get b).size := hsize ▸ hk
        rw [follow_of_getElem? (Array.getElem?_eq_getElem hk),
          follow_of_getElem? (Array.getElem?_eq_getElem hk')]
        exact helements k (by simpa using hk) (by simpa using hk') ks
      · have hk' : ¬ k < (h'.get b).size := hsize ▸ hk
        simp [follow, Array.getElem?_eq_none (Nat.le_of_not_lt hk),
          Array.getElem?_eq_none (Nat.le_of_not_lt hk')]

end Value

end Quill

-- Values written out as trees. An array may be shared, but where no array
-- lies inside itself a value stands for a finite tree, no deeper than there
-- are arrays. Equal trees mean equal values.
import Mathlib
import Quill.Proofs.ArrayStorage

namespace Quill

/-- There are no more distinct arrays than the store has. -/
theorem Heap.length_le_size {h : Heap} {ids : List ArrayId} (hnodup : ids.Nodup)
    (hstored : ∀ a ∈ ids, a < h.size) : ids.length ≤ h.size := by
  have hsub : ids ⊆ List.range h.size := fun a ha => List.mem_range.mpr (hstored a ha)
  simpa using (hnodup.subperm hsub).length_le

/-! ## What lies inside a value -/

namespace Value

/-- The array `v` has `w` as an element. -/
def Holds (h : Heap) (v w : Value) : Prop := ∃ id, v = .array id ∧ w ∈ h.get id

/-- The value `w` is `v` or lies inside it. -/
def Reaches (h : Heap) : Value → Value → Prop := Relation.ReflTransGen (Holds h)

/-- Nothing that lies inside the value lies inside itself. -/
def Acyclic (h : Heap) (v : Value) : Prop :=
  ∀ w, Reaches h v w → ¬ Relation.TransGen (Holds h) w w

/-- All arrays that lie inside the value are in the store. -/
def Stored (h : Heap) (v : Value) : Prop := ∀ id, Reaches h v (.array id) → id < h.size

variable {h : Heap} {v w : Value} {id : ArrayId}

theorem holds_array (hw : w ∈ h.get id) : Holds h (.array id) w := ⟨id, rfl, hw⟩

/-- How late an array was made; other values come before all arrays. -/
def age : Value → Nat
  | .array id => id + 1
  | _ => 0

/-- There are no cycles where arrays hold only older arrays. -/
theorem acyclic_of_older (hold : ∀ id k, .array k ∈ h.get id → k < id) (v : Value) :
    Acyclic h v := by
  have hstep : ∀ {a b : Value}, Holds h a b → age b < age a := by
    rintro _ b ⟨id, rfl, hb⟩
    cases b with
    | array k => exact Nat.succ_lt_succ (hold id k hb)
    | _ => exact Nat.succ_pos id
  have hage : ∀ {a b : Value}, Relation.TransGen (Holds h) a b → age b < age a := by
    intro a b hab
    induction hab with
    | single h => exact hstep h
    | tail _ h ih => exact (hstep h).trans ih
  exact fun w _ hcycle => Nat.lt_irrefl _ (hage hcycle)

/-- There are no dangling arrays either. -/
theorem stored_of_older (hold : ∀ id k, .array k ∈ h.get id → k < id) (hv : v.age ≤ h.size) :
    Stored h v := by
  intro id hid
  rcases Relation.ReflTransGen.cases_tail hid with rfl | ⟨_, -, outer, -, hmem⟩
  · exact hv
  · exact (hold outer id hmem).trans (Heap.lt_size_of_get (Array.size_pos_of_mem hmem))

theorem Acyclic.element (hv : Acyclic h v) (hw : Holds h v w) : Acyclic h w :=
  fun u hu => hv u (.head hw hu)

theorem Stored.element (hv : Stored h v) (hw : Holds h v w) : Stored h w :=
  fun u hu => hv u (.head hw hu)

end Value

/-! ## Trees -/

/-- A value with its arrays written out. -/
inductive Tree where
  | leaf (v : Value)
  | array (elements : List Tree)

namespace Tree

mutual

/-- How many arrays lie inside each other. -/
def height : Tree → Nat
  | leaf _ => 0
  | array elements => heightAll elements + 1

def heightAll : List Tree → Nat
  | [] => 0
  | t :: ts => max t.height (heightAll ts)

end

mutual

/-- All leaves have a property. -/
def AllLeaves (P : Value → Prop) : Tree → Prop
  | leaf v => P v
  | array elements => EachAllLeaves P elements

def EachAllLeaves (P : Value → Prop) : List Tree → Prop
  | [] => True
  | t :: ts => t.AllLeaves P ∧ EachAllLeaves P ts

end

mutual

/-- The value stands for the tree. -/
def Of (h : Heap) : Tree → Value → Prop
  | leaf v, w => w = v ∧ v.kind ≠ .array
  | array elements, w => ∃ id, w = .array id ∧ id < h.size ∧ EachOf h elements (h.get id).toList

/-- The values stand for the trees, one for one. -/
def EachOf (h : Heap) : List Tree → List Value → Prop
  | [], [] => True
  | t :: ts, w :: ws => t.Of h w ∧ EachOf h ts ws
  | _, _ => False

end

variable {h : Heap} {v w : Value} {t : Tree} {ts : List Tree} {vs ws : List Value}
  {P : Value → Prop}

/-! ## Every value without cycles has a tree -/

theorem exists_each {n : Nat} (hws : ∀ w ∈ ws, ∃ t : Tree, t.Of h w ∧ t.height ≤ n) :
    ∃ ts, EachOf h ts ws ∧ heightAll ts ≤ n := by
  induction ws with
  | nil => exact ⟨[], trivial, Nat.zero_le n⟩
  | cons w ws ih =>
    obtain ⟨t, ht, hheight⟩ := hws w List.mem_cons_self
    obtain ⟨ts, hts, hheights⟩ := ih fun u hu => hws u (List.mem_cons_of_mem w hu)
    exact ⟨t :: ts, ⟨ht, hts⟩, max_le hheight hheights⟩

/-- The arrays `opened` lie around the value, and each is met once. -/
structure Around (h : Heap) (opened : List ArrayId) (v : Value) : Prop where
  nodup : opened.Nodup
  stored : ∀ a ∈ opened, a < h.size
  inside : ∀ a ∈ opened, Relation.TransGen (Value.Holds h) (.array a) v

namespace Around

variable {opened : List ArrayId} {id : ArrayId}

theorem nil (h : Heap) (v : Value) : Around h [] v := ⟨.nil, nofun, nofun⟩

theorem notMem (ha : Around h opened (.array id)) (hacyclic : (Value.array id).Acyclic h) :
    id ∉ opened := fun hmem => hacyclic _ .refl (ha.inside id hmem)

/-- There are more arrays in the store than lie around one of them. -/
theorem length_lt (ha : Around h opened (.array id)) (hid : id < h.size)
    (hacyclic : (Value.array id).Acyclic h) : opened.length < h.size :=
  Heap.length_le_size (List.nodup_cons.mpr ⟨ha.notMem hacyclic, ha.nodup⟩)
    (List.forall_mem_cons.mpr ⟨hid, ha.stored⟩)

theorem element (ha : Around h opened (.array id)) (hid : id < h.size)
    (hacyclic : (Value.array id).Acyclic h) (hw : w ∈ h.get id) : Around h (id :: opened) w where
  nodup := List.nodup_cons.mpr ⟨ha.notMem hacyclic, ha.nodup⟩
  stored := List.forall_mem_cons.mpr ⟨hid, ha.stored⟩
  inside := List.forall_mem_cons.mpr
    ⟨.single (Value.holds_array hw), fun a hmem => (ha.inside a hmem).tail (Value.holds_array hw)⟩

end Around

/-- A tree goes no deeper than there are arrays left to open. -/
theorem exists_tree_within {v : Value} {opened : List ArrayId} (hopened : Around h opened v)
    (hacyclic : v.Acyclic h) (hstored : v.Stored h) :
    ∃ t : Tree, t.Of h v ∧ t.height ≤ h.size - opened.length := by
  -- the induction is on how many arrays are left to open
  cases v with
  | array id =>
    have hid : id < h.size := hstored id .refl
    have hroom : opened.length < h.size := hopened.length_lt hid hacyclic
    obtain ⟨ts, hts, hheights⟩ := exists_each (n := h.size - (id :: opened).length)
      fun w (hmem : w ∈ (h.get id).toList) => by
        have hw : w ∈ h.get id := Array.mem_toList_iff.mp hmem
        have hheld := Value.holds_array hw
        exact exists_tree_within (hopened.element hid hacyclic hw) (hacyclic.element hheld)
          (hstored.element hheld)
    refine ⟨array ts, ⟨id, rfl, hid, hts⟩, ?_⟩
    rw [List.length_cons] at hheights
    rw [height]
    omega
  | _ => exact ⟨leaf _, ⟨rfl, nofun⟩, Nat.zero_le _⟩
termination_by h.size - opened.length
decreasing_by
  rw [List.length_cons]
  omega

theorem exists_tree (hacyclic : v.Acyclic h) (hstored : v.Stored h) :
    ∃ t : Tree, t.Of h v ∧ t.height ≤ h.size :=
  exists_tree_within (.nil h v) hacyclic hstored

/-! ## Leaves, larger stores and equality -/

mutual

/-- The leaves of a tree lie inside the value. -/
theorem Of.allLeaves : ∀ {t : Tree} {v : Value}, t.Of h v →
    (∀ w, v.Reaches h w → w.kind ≠ .array → P w) → t.AllLeaves P
  | leaf _, _, ⟨rfl, hkind⟩, hP => hP _ .refl hkind
  | array _, _, ⟨_, rfl, _, hall⟩, hP =>
    EachOf.allLeaves hall fun _ hmem w hw =>
      hP w (.head (Value.holds_array (Array.mem_toList_iff.mp hmem)) hw)

theorem EachOf.allLeaves : ∀ {ts : List Tree} {vs : List Value}, EachOf h ts vs →
    (∀ u ∈ vs, ∀ w, u.Reaches h w → w.kind ≠ .array → P w) → EachAllLeaves P ts
  | [], [], _, _ => trivial
  | _ :: _, u :: _, ⟨ht, hts⟩, hP =>
    ⟨Of.allLeaves ht (hP u List.mem_cons_self),
      EachOf.allLeaves hts fun w hw => hP w (List.mem_cons_of_mem u hw)⟩

end

mutual

/-- More arrays in the store change no tree. -/
theorem Of.extend (fresh : Array (Array Value)) : ∀ {t : Tree} {v : Value}, t.Of h v →
    t.Of (h.extend fresh) v
  | leaf _, _, hleaf => hleaf
  | array _, _, ⟨id, rfl, hid, hall⟩ => by
    refine ⟨id, rfl, ?_, ?_⟩
    · rw [Heap.size_extend]
      exact Nat.lt_add_right fresh.size hid
    · rw [Heap.get_extend_of_lt fresh hid]
      exact EachOf.extend fresh hall

theorem EachOf.extend (fresh : Array (Array Value)) : ∀ {ts : List Tree} {vs : List Value},
    EachOf h ts vs → EachOf (h.extend fresh) ts vs
  | [], [], _ => trivial
  | _ :: _, _ :: _, ⟨ht, hts⟩ => ⟨Of.extend fresh ht, EachOf.extend fresh hts⟩

end

theorem EachOf.length_eq : ∀ {ts : List Tree} {vs : List Value}, EachOf h ts vs →
    vs.length = ts.length
  | [], [], _ => rfl
  | _ :: _, _ :: _, ⟨_, hts⟩ => congrArg (· + 1) (EachOf.length_eq hts)

mutual

/-- Values that stand for one tree are equal, if every leaf is equal to
itself. -/
theorem Of.equalWithin : ∀ {t : Tree} {v w : Value} (depth : Nat), t.Of h v → t.Of h w →
    t.AllLeaves (fun u => ∀ d, Value.equalWithin h d u u = .ok true) →
    Value.equalWithin h depth v w = .ok true
  | leaf _, _, _, depth, ⟨rfl, _⟩, ⟨rfl, _⟩, hself => hself depth
  -- arrays below the last depth are taken for equal, so no depth is too small here
  | array _, _, _, 0, ⟨_, rfl, _⟩, ⟨_, rfl, _⟩, _ => rfl
  | array ts, _, _, depth + 1, ⟨a, rfl, _, ha⟩, ⟨b, rfl, _, hb⟩, hself => by
    have hsize : (h.get a).size = (h.get b).size := by
      rw [← Array.length_toList, ← Array.length_toList, ha.length_eq, hb.length_eq]
    rw [Value.equalWithin, if_neg (not_not_intro hsize)]
    exact EachOf.equalWithin depth ha hb hself

theorem EachOf.equalWithin : ∀ {ts : List Tree} {vs ws : List Value} (depth : Nat),
    EachOf h ts vs → EachOf h ts ws →
    EachAllLeaves (fun u => ∀ d, Value.equalWithin h d u u = .ok true) ts →
    Value.equalElements (Value.equalWithin h depth) vs ws = .ok true
  | [], [], [], _, _, _, _ => rfl
  | _ :: _, v :: vs, w :: ws, depth, ⟨hv, hvs⟩, ⟨hw, hws⟩, ⟨hself, hselfs⟩ => by
    simp only [Value.equalElements, Of.equalWithin depth hv hw hself, bind, Except.bind,
      ↓reduceIte]
    exact EachOf.equalWithin depth hvs hws hselfs

end

end Tree

end Quill

-- What is seen in a tree of scopes. In a well-formed tree every scope but
-- the global one has a parent with a smaller number, so a lookup is a walk
-- outwards that ends, and each step on a tree changes what is seen from
-- which scope in a way that can be said in one line.
import Mathlib
import Quill.Scope

namespace Quill

/-! ## One scope -/

namespace Scope

variable {α : Type}

/-- The names bound in a scope, in the order in which they were bound
first. -/
def names (s : Scope α) : List String := s.bindings.map (·.name)

theorem binds_eq_isSome (s : Scope α) (n : String) : s.binds n = (s.find? n).isSome := by
  rw [Bool.eq_iff_iff, binds, find?, List.find?_isSome, List.any_eq_true]

theorem find?_put_self (b : Binding α) (bs : List (Binding α)) :
    (put b bs).find? (·.name == b.name) = some b := by
  induction bs with
  | nil => simp [put]
  | cons c cs ih =>
    by_cases hc : c.name = b.name
    · simp [put, hc]
    · simp [put, hc, ih]

theorem find?_put_of_ne {b : Binding α} {n : String} (hn : n ≠ b.name) (bs : List (Binding α)) :
    (put b bs).find? (·.name == n) = bs.find? (·.name == n) := by
  induction bs with
  | nil => simp [put, hn.symm]
  | cons c cs ih =>
    by_cases hc : c.name = b.name
    · simp [put, hc, hn.symm]
    · by_cases hcn : c.name = n
      · have hb : ¬ n = b.name := hn
        simp [put, hcn, hb]
      · simp [put, hc, hcn, ih]

@[simp] theorem find?_insert_self (s : Scope α) (n : String) (v : Option α) :
    (s.insert ⟨n, v⟩).find? n = some ⟨n, v⟩ := find?_put_self ⟨n, v⟩ s.bindings

theorem find?_insert_of_ne (s : Scope α) {n m : String} (v : Option α) (h : m ≠ n) :
    (s.insert ⟨n, v⟩).find? m = s.find? m := find?_put_of_ne h s.bindings

/-- A binding that was there keeps its place, and a new one comes last. -/
theorem names_insert (s : Scope α) (n : String) (v : Option α) :
    (s.insert ⟨n, v⟩).names = if s.binds n then s.names else s.names ++ [n] := by
  obtain ⟨bs, p, g, l, f⟩ := s
  simp only [names, insert, binds]
  induction bs with
  | nil => simp [put]
  | cons c cs ih =>
    by_cases hc : c.name = n
    · simp [put, hc]
    · by_cases hb : cs.any (·.name == n) = true
      · simp [put, hc, hb, ih]
      · simp [put, hc, hb, ih]

end Scope

namespace ScopeTree

variable {α : Type} {t u : ScopeTree α} {i j p : Nat} {s : Scope α} {n m : String}

/-! ## Which scopes there are -/

/-- What never changes about a scope once it is there: its parent, the
global scope that it names, and whether it lies in a loop or in a function. -/
def shape (t : ScopeTree α) : List (Option ScopeId × Option ScopeId × Bool × Bool) :=
  t.scopes.toList.map fun s => (s.parent, s.global, s.inLoop, s.inFunction)

theorem length_shape (t : ScopeTree α) : t.shape.length = t.size := by simp [shape, size]

theorem size_eq_of_shape (h : u.shape = t.shape) : u.size = t.size := by
  rw [← length_shape u, ← length_shape t, h]

theorem shape_getElem? (t : ScopeTree α) (i : Nat) :
    t.shape[i]? = (t.get? i).map fun s => (s.parent, s.global, s.inLoop, s.inFunction) := by
  simp [shape, get?]

theorem ext_get? (h : ∀ i : Nat, t.get? i = u.get? i) : t = u := by
  obtain ⟨scopes⟩ := t
  obtain ⟨scopes'⟩ := u
  exact congrArg mk (Array.ext_getElem? h)

theorem get?_eq_none_iff : t.get? i = none ↔ t.size ≤ i := by simp [get?, size]

theorem lt_size_of_get? (h : t.get? i = some s) : i < t.size := by
  by_contra hi
  rw [get?_eq_none_iff.mpr (by omega)] at h
  cases h

theorem get?_of_lt (h : i < t.size) : ∃ s, t.get? i = some s := by
  rcases hs : t.get? i with _ | s
  · have := get?_eq_none_iff.mp hs
    omega
  · exact ⟨s, rfl⟩

/-- A scope has its parent in every tree of the same shape. -/
theorem get?_of_shape (h : u.shape = t.shape) (hs : t.get? i = some s) :
    ∃ s', u.get? i = some s' ∧ s'.parent = s.parent ∧ s'.global = s.global ∧
      s'.inLoop = s.inLoop ∧ s'.inFunction = s.inFunction := by
  have hi := shape_getElem? u i
  rw [h, shape_getElem?, hs] at hi
  rcases hu : u.get? i with _ | s'
  · simp [hu] at hi
  · simp only [hu, Option.map_some, Option.some.injEq, Prod.mk.injEq] at hi
    exact ⟨s', rfl, hi.1.symm, hi.2.1.symm, hi.2.2.1.symm, hi.2.2.2.symm⟩

theorem globalOf_eq_of_shape (h : u.shape = t.shape) (i : Nat) : u.globalOf i = t.globalOf i := by
  rcases hs : t.get? i with _ | s
  · have hu : u.get? i = none := by
      rw [get?_eq_none_iff, size_eq_of_shape h]
      exact get?_eq_none_iff.mp hs
    simp [globalOf, hs, hu]
  · obtain ⟨s', hs', -, hglobal, -⟩ := get?_of_shape h hs
    simp [globalOf, hs, hs', hglobal]

/-! ## Steps on trees -/

theorem get?_insert_self (t : ScopeTree α) (i : Nat) (n : String) (v : Option α) :
    (t.insert i n v).get? i = (t.get? i).map (·.insert ⟨n, v⟩) := by
  simp [get?, insert, Array.getElem?_modify]

theorem get?_insert_of_ne (n : String) (v : Option α) (h : j ≠ i) :
    (t.insert i n v).get? j = t.get? j := by
  simp [get?, insert, Array.getElem?_modify, h.symm]

@[simp] theorem size_insert (t : ScopeTree α) (i : Nat) (n : String) (v : Option α) :
    (t.insert i n v).size = t.size := by simp [size, insert]

@[simp] theorem shape_insert (t : ScopeTree α) (i : Nat) (n : String) (v : Option α) :
    (t.insert i n v).shape = t.shape := by
  apply List.ext_getElem?
  intro j
  rw [shape_getElem?, shape_getElem?]
  by_cases hj : j = i
  · subst hj
    rw [get?_insert_self]
    cases t.get? j <;> rfl
  · rw [get?_insert_of_ne n v hj]

@[simp] theorem size_addChild (t : ScopeTree α) (p : Nat) (l f : Bool) :
    (t.addChild p l f).size = t.size + 1 := by simp [size, addChild]

theorem get?_addChild_self (t : ScopeTree α) (p : Nat) (l f : Bool) :
    (t.addChild p l f).get? t.size = some ⟨[], some p, some (t.globalOf p), l, f⟩ := by
  simp [get?, size, addChild]

theorem get?_addChild_of_lt (p : Nat) (l f : Bool) (h : i < t.size) :
    (t.addChild p l f).get? i = t.get? i := by
  simp only [size] at h
  simp [get?, addChild, Array.getElem?_push, Nat.ne_of_lt h]

theorem shape_addChild (t : ScopeTree α) (p : Nat) (l f : Bool) :
    (t.addChild p l f).shape = t.shape ++ [(some p, some (t.globalOf p), l, f)] := by
  simp [shape, addChild]

theorem get?_keep (t : ScopeTree α) (k i : Nat) :
    (t.keep k).get? i = if i < k then t.get? i else none := by
  unfold get? keep
  by_cases hi : i < t.scopes.size
  · simp [Array.getElem?_extract, hi]
  · simp [hi]

theorem get?_keep_of_lt {k : Nat} (h : i < k) : (t.keep k).get? i = t.get? i := by
  simp [get?_keep, h]

theorem shape_keep (t : ScopeTree α) (k : Nat) : (t.keep k).shape = t.shape.take k := by
  simp [shape, keep]

/-- A tree is as before when its newest scope has been left. -/
theorem keep_addChild (t : ScopeTree α) (p : Nat) (l f : Bool) :
    (t.addChild p l f).keep t.size = t := by
  obtain ⟨scopes⟩ := t
  simp [keep, addChild, size]

/-- What is bound in a scope is gone when the scope has been left. -/
theorem keep_insert_of_le {k : Nat} (t : ScopeTree α) (n : String) (v : Option α) (h : k ≤ i) :
    (t.insert i n v).keep k = t.keep k := by
  apply ext_get?
  intro j
  by_cases hj : j < k
  · rw [get?_keep_of_lt hj, get?_keep_of_lt hj, get?_insert_of_ne n v (by omega)]
  · rw [get?_keep, get?_keep, if_neg hj, if_neg hj]

/-- Whatever happens to the tree in a new scope, the shape is as before
when the scope has been left. -/
theorem shape_keep_of_addChild {l f : Bool}
    (h : u.shape = (t.addChild p l f).shape) : (u.keep t.size).shape = t.shape := by
  rw [shape_keep, h, shape_addChild, ← length_shape t, List.take_left]

/-! ## Well-formed trees -/

/-- A parent has a smaller number than its child, and only the global
scope has none. -/
structure WellFormed (t : ScopeTree α) : Prop where
  global_lt : 0 < t.size
  parent_lt : ∀ {i s} {p : Nat}, t.get? i = some s → s.parent = some p → p < i
  root_eq : ∀ {i s}, t.get? i = some s → s.parent = none → i = globalId

namespace WellFormed

theorem of_shape (h : t.WellFormed) (hs : u.shape = t.shape) : u.WellFormed := by
  refine ⟨?_, ?_, ?_⟩
  · rw [size_eq_of_shape hs]
    exact h.global_lt
  · intro i s p hi hp
    obtain ⟨s', hs', hp', _⟩ := get?_of_shape hs.symm hi
    exact h.parent_lt hs' (by rw [hp', hp])
  · intro i s hi hp
    obtain ⟨s', hs', hp', _⟩ := get?_of_shape hs.symm hi
    exact h.root_eq hs' (by rw [hp', hp])

theorem insert (h : t.WellFormed) (i : Nat) (n : String) (v : Option α) :
    (t.insert i n v).WellFormed := h.of_shape (shape_insert t i n v)

theorem empty : (ScopeTree.empty : ScopeTree α).WellFormed := by
  have hget : ∀ {i : Nat} {s : Scope α}, ScopeTree.empty.get? i = some s →
      i = globalId ∧ s.parent = none := by
    intro i s hi
    rcases i with _ | i
    · simp only [get?, ScopeTree.empty] at hi
      cases hi
      exact ⟨rfl, rfl⟩
    · simp [get?, ScopeTree.empty] at hi
  refine ⟨by simp [size, ScopeTree.empty], ?_, ?_⟩
  · intro i s p hi hp
    rw [(hget hi).2] at hp
    cases hp
  · intro i s hi _
    exact (hget hi).1

theorem addChild (h : t.WellFormed) (hp : p < t.size) (l f : Bool) :
    (t.addChild p l f).WellFormed := by
  have hget : ∀ {i : Nat} {s}, (t.addChild p l f).get? i = some s →
      t.get? i = some s ∨ (i = t.size ∧ s.parent = some p) := by
    intro i s hi
    have hlt := lt_size_of_get? hi
    rw [size_addChild] at hlt
    by_cases hit : i < t.size
    · rw [get?_addChild_of_lt p l f hit] at hi
      exact Or.inl hi
    · have : i = t.size := by omega
      subst this
      rw [get?_addChild_self] at hi
      cases hi
      exact Or.inr ⟨rfl, rfl⟩
  refine ⟨?_, ?_, ?_⟩
  · have := h.global_lt
    rw [size_addChild]
    omega
  · intro i s q hi hq
    rcases hget hi with hi | ⟨rfl, hp'⟩
    · exact h.parent_lt hi hq
    · rw [hp'] at hq
      cases hq
      exact hp
  · intro i s hi hq
    rcases hget hi with hi | ⟨_, hp'⟩
    · exact h.root_eq hi hq
    · rw [hp'] at hq
      cases hq

/-- The global scope has no parent. -/
theorem global_parent (h : t.WellFormed) (hs : t.get? globalId = some s) : s.parent = none := by
  rcases hp : s.parent with _ | p
  · rfl
  · exact absurd (h.parent_lt hs hp) (Nat.not_lt_zero p)

end WellFormed

/-! ## Lookups as walks outwards -/

/-- The first scope that binds a name among `steps` scopes from `i`
outwards. -/
def ownerWithin (t : ScopeTree α) (name : String) : Nat → ScopeId → Option ScopeId
  | 0, _ => none
  | steps + 1, i =>
    match t.get? i with
    | none => none
    | some s =>
      if s.binds name then some i
      else
        match s.parent with
        | none => none
        | some p => t.ownerWithin name steps p

/-- The first scope from `i` outwards that binds a name. -/
def owner? (t : ScopeTree α) (i : ScopeId) (name : String) : Option ScopeId :=
  t.ownerWithin name (i + 1) i

/-- A lookup gives the binding of the owner. -/
theorem findWithin_eq (t : ScopeTree α) (n : String) (k i : Nat) :
    t.findWithin n k i = (t.ownerWithin n k i).bind (t.findIn? · n) := by
  induction k generalizing i with
  | zero => rfl
  | succ k ih =>
    unfold findWithin ownerWithin
    rcases hs : t.get? i with _ | s
    · rfl
    · rcases hf : s.find? n with _ | b
      · have hb : s.binds n = false := by simp [Scope.binds_eq_isSome, hf]
        rcases hp : s.parent with _ | p
        · simp [hf, hb, hp]
        · simpa [hf, hb, hp] using ih p
      · have hb : s.binds n = true := by simp [Scope.binds_eq_isSome, hf]
        simp [hb, findIn?, hs, hf]

theorem find?_eq (t : ScopeTree α) (i : Nat) (n : String) :
    t.find? i n = (t.owner? i n).bind (t.findIn? · n) := t.findWithin_eq n (i + 1) i

/-- A name is bound where it has an owner. -/
theorem bindsWithin_eq (t : ScopeTree α) (n : String) (k i : Nat) :
    t.bindsWithin n k i = (t.ownerWithin n k i).isSome := by
  induction k generalizing i with
  | zero => rfl
  | succ k ih =>
    unfold bindsWithin ownerWithin
    rcases hs : t.get? i with _ | s
    · rfl
    · by_cases hb : s.binds n = true
      · simp [hb]
      · rcases hp : s.parent with _ | p
        · simp [hb, hp]
        · simpa [hb, hp] using ih p

theorem binds_eq (t : ScopeTree α) (i : Nat) (n : String) :
    t.binds i n = (t.owner? i n).isSome := t.bindsWithin_eq n (i + 1) i

/-- An assignment binds the name anew in the scope of its owner, and does
nothing without one. -/
theorem assignWithin_eq (t : ScopeTree α) (n : String) (v : α) (k i : Nat) :
    t.assignWithin n v k i =
      ((t.ownerWithin n k i).isSome,
        ((t.ownerWithin n k i).map (t.insert · n (some v))).getD t) := by
  induction k generalizing i with
  | zero => rfl
  | succ k ih =>
    unfold assignWithin ownerWithin
    rcases hs : t.get? i with _ | s
    · rfl
    · by_cases hb : s.binds n = true
      · simp [hb]
      · rcases hp : s.parent with _ | p
        · simp [hb, hp]
        · simpa [hb, hp] using ih p

theorem assign_eq (t : ScopeTree α) (i : Nat) (n : String) (v : α) :
    t.assign i n v =
      ((t.owner? i n).isSome, ((t.owner? i n).map (t.insert · n (some v))).getD t) :=
  t.assignWithin_eq n v (i + 1) i

/-- A name is bound anew where it is bound already, or else in the scope
itself. -/
theorem assign_or_insert (t : ScopeTree α) (i : Nat) (n : String) (v : α) :
    (if t.binds i n then (t.assign i n v).2 else t.insert i n (some v)) =
      t.insert ((t.owner? i n).getD i) n (some v) := by
  rw [binds_eq, assign_eq]
  rcases t.owner? i n with _ | j
  · rfl
  · rfl

/-- Scope `j` lies on the way from scope `i` outwards. -/
inductive Reaches (t : ScopeTree α) : Nat → Nat → Prop
  | here (i : Nat) : Reaches t i i
  | out {i j p : Nat} {s : Scope α} :
      t.get? i = some s → s.parent = some p → Reaches t p j → Reaches t i j

/-- The owner of a name binds it, and lies on the way outwards. -/
theorem ownerWithin_some {k : Nat} (h : t.ownerWithin n k i = some j) :
    t.Reaches i j ∧ ∃ s, t.get? j = some s ∧ s.binds n = true := by
  induction k generalizing i with
  | zero => simp [ownerWithin] at h
  | succ k ih =>
    unfold ownerWithin at h
    rcases hs : t.get? i with _ | s
    · simp [hs] at h
    · simp only [hs] at h
      split at h
      · rename_i hb
        cases h
        exact ⟨.here _, s, hs, hb⟩
      · rcases hp : s.parent with _ | p
        · simp [hp] at h
        · simp only [hp] at h
          obtain ⟨hr, hb⟩ := ih h
          exact ⟨.out hs hp hr, hb⟩

/-- A walk that is long enough finds the owner. -/
theorem ownerWithin_eq_owner? (h : t.WellFormed) (n : String) (i k : Nat) (hi : i < k) :
    t.ownerWithin n k i = t.owner? i n := by
  induction i using Nat.strongRecOn generalizing k with
  | ind i ih =>
    obtain ⟨k, rfl⟩ : ∃ k', k = k' + 1 := ⟨k - 1, by omega⟩
    unfold owner? ownerWithin
    rcases hs : t.get? i with _ | s
    · rfl
    · rcases hp : s.parent with _ | p
      · simp only [hp]
      · have hlt := h.parent_lt hs hp
        simp only [hp]
        rw [ih p hlt k (by omega), ih p hlt i hlt]

/-- A name is seen from a scope if it is bound there, or else as it is
seen from the parent. -/
theorem find?_eq_or (h : t.WellFormed) (hs : t.get? i = some s) (n : String) :
    t.find? i n = (s.find? n).or (s.parent.bind (t.find? · n)) := by
  rw [find?_eq, owner?, ownerWithin]
  simp only [hs]
  by_cases hb : s.binds n = true
  · have hf : (s.find? n).isSome := by rw [← Scope.binds_eq_isSome]; exact hb
    obtain ⟨b, hb'⟩ := Option.isSome_iff_exists.mp hf
    simp [hb, hb', findIn?, hs]
  · have hf : s.find? n = none := by
      rw [Scope.binds_eq_isSome] at hb
      simpa using hb
    rcases hp : s.parent with _ | p
    · simp [hb, hf]
    · simp only [hb, hf, Option.none_or, Option.bind_some, find?_eq]
      rw [ownerWithin_eq_owner? h n p i (h.parent_lt hs hp)]
      rfl

theorem find?_of_size_le (hi : t.size ≤ i) (n : String) : t.find? i n = none := by
  simp [find?, findWithin, get?_eq_none_iff.mpr hi]

/-- Only scopes with smaller numbers matter to a lookup. -/
theorem find?_congr (ht : t.WellFormed) (hu : u.WellFormed) (i : Nat)
    (h : ∀ j ≤ i, u.get? j = t.get? j) (n : String) : u.find? i n = t.find? i n := by
  induction i using Nat.strongRecOn with
  | ind i ih =>
    rcases hs : t.get? i with _ | s
    · have hus : u.get? i = none := by rw [h i (Nat.le_refl i), hs]
      rw [find?_of_size_le (get?_eq_none_iff.mp hs), find?_of_size_le (get?_eq_none_iff.mp hus)]
    · have hus : u.get? i = some s := by rw [h i (Nat.le_refl i), hs]
      rw [find?_eq_or ht hs, find?_eq_or hu hus]
      rcases hp : s.parent with _ | p
      · rfl
      · have hlt := ht.parent_lt hs hp
        simp only [Option.bind_some]
        rw [ih p hlt (fun j hj => h j (by omega))]

theorem binds_eq_isSome_find? (t : ScopeTree α) (i : Nat) (n : String) :
    t.binds i n = (t.find? i n).isSome := by
  rw [binds_eq, find?_eq]
  rcases ho : t.owner? i n with _ | j
  · rfl
  · obtain ⟨-, s, hs, hb⟩ := ownerWithin_some ho
    simp [findIn?, hs, ← Scope.binds_eq_isSome, hb]

theorem isGlobal_globalId (h : t.WellFormed) : t.isGlobal globalId = true := by
  obtain ⟨s, hs⟩ := get?_of_lt h.global_lt
  have hs : t.get? globalId = some s := hs
  simp [isGlobal, hs, Scope.isGlobal, h.global_parent hs]

/-- In the global scope a name is seen only if it is bound there. -/
theorem bindsIn_of_isGlobal (h : t.WellFormed) (hg : t.isGlobal i = true) (n : String) :
    t.bindsIn i n = (t.find? i n).isSome := by
  rcases hs : t.get? i with _ | s
  · simp [isGlobal, hs] at hg
  · have hp : s.parent = none := by simpa [isGlobal, hs, Scope.isGlobal] using hg
    rw [find?_eq_or h hs, hp]
    simp [bindsIn, hs, Scope.binds_eq_isSome]

/-! ## What each step does to lookups -/

theorem find?_addChild_of_lt (h : t.WellFormed) (hp : p < t.size) (l f : Bool)
    (hi : i < t.size) (n : String) : (t.addChild p l f).find? i n = t.find? i n :=
  find?_congr h (h.addChild hp l f) i (fun j hj => get?_addChild_of_lt p l f (by omega)) n

/-- A new scope sees what its parent sees. -/
theorem find?_addChild_self (h : t.WellFormed) (hp : p < t.size) (l f : Bool)
    (n : String) : (t.addChild p l f).find? t.size n = t.find? p n := by
  rw [find?_eq_or (h.addChild hp l f) (get?_addChild_self t p l f)]
  simp only [Option.bind_some, find?_addChild_of_lt h hp l f hp]
  rfl

theorem find?_keep_of_lt {k : Nat} (h : t.WellFormed) (hk : (t.keep k).WellFormed)
    (hi : i < k) (n : String) : (t.keep k).find? i n = t.find? i n :=
  find?_congr h hk i (fun j hj => get?_keep_of_lt (by omega)) n

theorem find?_insert_of_lt (h : t.WellFormed) (hi : i < j) (n m : String) (v : Option α) :
    (t.insert j n v).find? i m = t.find? i m :=
  find?_congr h (h.insert j n v) i (fun k hk => get?_insert_of_ne n v (by omega)) m

/-- In the scope itself an insertion hides what was seen before. -/
theorem find?_insert_self (h : t.WellFormed) (hi : i < t.size) (n : String) (v : Option α) :
    (t.insert i n v).find? i n = some ⟨n, v⟩ := by
  obtain ⟨s, hs⟩ := get?_of_lt hi
  have hget : (t.insert i n v).get? i = some (s.insert ⟨n, v⟩) := by
    rw [get?_insert_self, hs]
    rfl
  rw [find?_eq_or (h.insert i n v) hget, Scope.find?_insert_self]
  rfl

/-- An insertion is seen by its own name only. -/
theorem find?_insert_of_ne (h : t.WellFormed) (j : Nat) (v : Option α) (hm : m ≠ n)
    (i : Nat) : (t.insert j n v).find? i m = t.find? i m := by
  induction i using Nat.strongRecOn with
  | ind i ih =>
    rcases hs : t.get? i with _ | s
    · have hsize := get?_eq_none_iff.mp hs
      rw [find?_of_size_le hsize, find?_of_size_le (by rw [size_insert]; exact hsize)]
    · obtain ⟨s', hs', hfind, hparent⟩ : ∃ s', (t.insert j n v).get? i = some s' ∧
          s'.find? m = s.find? m ∧ s'.parent = s.parent := by
        by_cases hij : i = j
        · subst hij
          refine ⟨s.insert ⟨n, v⟩, ?_, Scope.find?_insert_of_ne s v hm, rfl⟩
          rw [get?_insert_self, hs]
          rfl
        · exact ⟨s, by rw [get?_insert_of_ne n v hij, hs], rfl, rfl⟩
      rw [find?_eq_or h hs, find?_eq_or (h.insert j n v) hs', hfind, hparent]
      rcases hp : s.parent with _ | p
      · rfl
      · simp only [Option.bind_some]
        rw [ih p (h.parent_lt hs hp)]

/-- After an insertion a name is seen as before, or as it was inserted. -/
theorem find?_insert_cases (h : t.WellFormed) (j : Nat) (n : String) (v : Option α) (i : Nat) :
    (t.insert j n v).find? i n = t.find? i n ∨ (t.insert j n v).find? i n = some ⟨n, v⟩ := by
  induction i using Nat.strongRecOn with
  | ind i ih =>
    by_cases hij : i = j
    · subst hij
      by_cases hi : i < t.size
      · exact Or.inr (find?_insert_self h hi n v)
      · have hsize : t.size ≤ i := by omega
        rw [find?_of_size_le hsize, find?_of_size_le (by rw [size_insert]; exact hsize)]
        exact Or.inl rfl
    · have hget := get?_insert_of_ne (t := t) n v hij
      rcases hs : t.get? i with _ | s
      · have hsize := get?_eq_none_iff.mp hs
        rw [find?_of_size_le hsize, find?_of_size_le (by rw [size_insert]; exact hsize)]
        exact Or.inl rfl
      · rw [find?_eq_or h hs, find?_eq_or (h.insert j n v) (hget.trans hs)]
        rcases s.find? n with _ | b
        · rcases hp : s.parent with _ | p
          · exact Or.inl rfl
          · simpa using ih p (h.parent_lt hs hp)
        · exact Or.inl rfl

/-- The owner of a name stays its owner when the name is bound there
again. -/
theorem ownerWithin_insert {k : Nat} (v : Option α) (ho : t.ownerWithin n k i = some j) :
    (t.insert j n v).ownerWithin n k i = some j := by
  induction k generalizing i with
  | zero => cases ho
  | succ k ih =>
    unfold ownerWithin at ho ⊢
    rcases hs : t.get? i with _ | s
    · simp [hs] at ho
    · simp only [hs] at ho
      by_cases hij : i = j
      · subst hij
        rw [get?_insert_self, hs]
        simp [Scope.binds_eq_isSome, Scope.find?_insert_self]
      · rw [get?_insert_of_ne n v hij, hs]
        split at ho
        · cases ho
          exact absurd rfl hij
        · rename_i hb
          rcases hp : s.parent with _ | p
          · simp [hp] at ho
          · simp only [hp] at ho
            simpa [hb, hp] using ih ho

/-- A name that is assigned to is seen with its new value. -/
theorem find?_assign_self (h : t.WellFormed) (hi : i < t.size) (n : String) (v : Option α) :
    (t.insert ((t.owner? i n).getD i) n v).find? i n = some ⟨n, v⟩ := by
  rcases ho : t.owner? i n with _ | o
  · exact find?_insert_self h hi n v
  · have ho' : (t.insert o n v).owner? i n = some o := ownerWithin_insert v ho
    obtain ⟨_, s, hs, _⟩ := ownerWithin_some ho
    simp [find?_eq, ho', findIn?, get?_insert_self, hs, Scope.find?_insert_self]

/-! ## Bindings of one scope -/

theorem findIn?_insert_self (hi : i < t.size) (n : String) (v : Option α) :
    (t.insert i n v).findIn? i n = some ⟨n, v⟩ := by
  obtain ⟨s, hs⟩ := get?_of_lt hi
  simp [findIn?, get?_insert_self, hs]

theorem findIn?_insert_of_ne (j : Nat) (v : Option α) (h : m ≠ n) (i : Nat) :
    (t.insert j n v).findIn? i m = t.findIn? i m := by
  by_cases hij : i = j
  · subst hij
    rw [findIn?, findIn?, get?_insert_self]
    cases t.get? i with
    | none => rfl
    | some s => exact s.find?_insert_of_ne v h
  · rw [findIn?, findIn?, get?_insert_of_ne n v hij]

/-- A binding after an insertion is the new one or was there before. -/
theorem findIn?_insert_cases {b : Binding α} (j : Nat) (v : Option α)
    (h : (t.insert j n v).findIn? i m = some b) :
    (i = j ∧ b = ⟨n, v⟩) ∨ t.findIn? i m = some b := by
  by_cases hij : i = j
  · subst hij
    by_cases hmn : m = n
    · subst hmn
      rcases hs : t.get? i with _ | s
      · simp [findIn?, get?_insert_self, hs] at h
      · simp only [findIn?, get?_insert_self, hs, Option.map_some, Option.bind_some,
          Scope.find?_insert_self, Option.some.injEq] at h
        exact Or.inl ⟨rfl, h.symm⟩
    · rw [findIn?_insert_of_ne i v hmn] at h
      exact Or.inr h
  · rw [findIn?, get?_insert_of_ne n v hij] at h
    exact Or.inr h

theorem findIn?_of_keep {k : Nat} {b : Binding α} (h : (t.keep k).findIn? i n = some b) :
    i < k ∧ t.findIn? i n = some b := by
  by_cases hi : i < k
  · rw [findIn?, get?_keep_of_lt hi] at h
    exact ⟨hi, h⟩
  · simp [findIn?, get?_keep, hi] at h

end ScopeTree

end Quill

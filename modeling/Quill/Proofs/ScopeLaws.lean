-- The laws of the trees that the operations on scopes build from the global
-- scope alone. The three walks outwards that ask for a binding, look it up and
-- assign to it agree, an assignment changes the value of one binding and
-- nothing else, and the global scope that every scope keeps from its making is
-- where the links to the parents lead.
import Mathlib
import Quill.Proofs.ScopeFrame

namespace Quill.ScopeTree

variable {α : Type} {t u : ScopeTree α} {i j k p : Nat} {s : Scope α} {n m : String} {v : α}

/-! ## Built trees -/

/-- The trees that arise from the global scope alone by new scopes inside
those that are there, insertions and assignments. -/
inductive Built : ScopeTree α → Prop
  | global : Built empty
  | child {t : ScopeTree α} {p : ScopeId} (inLoop inFunction : Bool) :
      Built t → p < t.size → Built (t.addChild p inLoop inFunction)
  | block {t : ScopeTree α} {p : ScopeId} : Built t → p < t.size → Built (t.addBlock p)
  | loop {t : ScopeTree α} {p : ScopeId} : Built t → p < t.size → Built (t.addLoop p)
  | insert {t : ScopeTree α} {i : ScopeId} (n : String) (v : Option α) :
      Built t → i < t.size → Built (t.insert i n v)
  | assign {t : ScopeTree α} {i : ScopeId} (n : String) (v : α) :
      Built t → i < t.size → Built (t.assign i n v).2

/-- An assignment changes nothing, or it binds the name anew in the scope of
its owner. -/
theorem assign_cases (t : ScopeTree α) (i : ScopeId) (n : String) (v : α) :
    (t.owner? i n = none ∧ t.assign i n v = (false, t)) ∨
      ∃ j, t.owner? i n = some j ∧ t.assign i n v = (true, t.insert j n (some v)) := by
  rw [assign_eq]
  rcases t.owner? i n with _ | j
  · exact .inl ⟨rfl, rfl⟩
  · exact .inr ⟨j, rfl, rfl⟩

/-- What is there of a tree under an assignment is not touched by it. -/
theorem shape_assign (t : ScopeTree α) (i : ScopeId) (n : String) (v : α) :
    (t.assign i n v).2.shape = t.shape := by
  rcases t.assign_cases i n v with ⟨-, h⟩ | ⟨j, -, h⟩
  · rw [h]
  · rw [h, shape_insert]

theorem Built.wellFormed (h : t.Built) : t.WellFormed := by
  induction h with
  | global => exact WellFormed.empty
  | child l f _ hp ih => exact ih.addChild hp l f
  | block _ hp ih => exact ih.addChild hp _ _
  | loop _ hp ih => exact ih.addChild hp _ _
  | insert n v _ _ ih => exact ih.insert _ n v
  | assign n v _ _ ih => exact ih.of_shape (shape_assign _ _ n v)

/-! ## The first binding of a name -/

/-- Scope `j` is the first from scope `i` outwards that binds the name. -/
inductive FirstBinds (t : ScopeTree α) (n : String) : ScopeId → ScopeId → Prop
  | here {i : ScopeId} : t.bindsIn i n = true → FirstBinds t n i i
  | out {i j p : ScopeId} {s : Scope α} : t.get? i = some s → s.parent = some p →
      t.bindsIn i n = false → FirstBinds t n p j → FirstBinds t n i j

theorem bindsIn_of_get? (hs : t.get? i = some s) (n : String) : t.bindsIn i n = s.binds n := by
  simp [bindsIn, hs]

theorem owner?_of_get? (h : t.WellFormed) (hs : t.get? i = some s) (n : String) :
    t.owner? i n = if t.bindsIn i n then some i else s.parent.bind (t.owner? · n) := by
  rw [bindsIn_of_get? hs, owner?, ownerWithin, hs]
  rcases hp : s.parent with _ | p
  · simp [hp]
  · simp [hp, ownerWithin_eq_owner? h n p i (h.parent_lt hs hp)]

theorem owner?_eq_some_iff (h : t.WellFormed) : t.owner? i n = some j ↔ t.FirstBinds n i j := by
  constructor
  · intro ho
    induction i using Nat.strongRecOn with
    | ind i ih =>
      rcases hs : t.get? i with _ | s
      · simp [owner?, ownerWithin, hs] at ho
      · rw [owner?_of_get? h hs] at ho
        by_cases hb : t.bindsIn i n = true
        · simp only [hb, ↓reduceIte, Option.some.injEq] at ho
          exact ho ▸ .here hb
        · rcases hp : s.parent with _ | p
          · simp [hb, hp] at ho
          · simp only [hb, hp, Bool.false_eq_true, ↓reduceIte, Option.bind_some] at ho
            exact .out hs hp (by simpa using hb) (ih p (h.parent_lt hs hp) ho)
  · intro hf
    induction hf with
    | @here i hb =>
      obtain ⟨s, hs⟩ : ∃ s, t.get? i = some s := by
        rcases hs : t.get? i with _ | s
        · simp [bindsIn, hs] at hb
        · exact ⟨s, rfl⟩
      simp [owner?_of_get? h hs, hb]
    | out hs hp hb _ ih => simp [owner?_of_get? h hs, hb, hp, ih]

/-! ## Assignments -/

/-- The same names are bound in the same scopes, and only the binding of `n`
in scope `j` has a new value. -/
structure Reassigned (j : ScopeId) (n : String) (v : α) (t u : ScopeTree α) : Prop where
  shape : u.shape = t.shape
  names : ∀ k, u.namesIn k = t.namesIn k
  value : u.findIn? j n = some ⟨n, some v⟩
  rest : ∀ k m, k ≠ j ∨ m ≠ n → u.findIn? k m = t.findIn? k m

theorem bindsIn_iff_mem_namesIn (t : ScopeTree α) (i : ScopeId) (n : String) :
    t.bindsIn i n = true ↔ n ∈ t.namesIn i := by
  unfold bindsIn namesIn
  cases t.get? i with
  | none => simp
  | some s => simp [Scope.binds, Scope.names]

theorem reassigned_of_owner? (ho : t.owner? i n = some j) (v : α) :
    Reassigned j n v t (t.insert j n (some v)) := by
  obtain ⟨_, s, hs, hb⟩ := ownerWithin_some ho
  have hframe := Framed.insert_of_binds hs hb (some v)
  refine ⟨hframe.shape, fun k => hframe.names k id, ?_, ?_⟩
  · exact findIn?_insert_self (lt_size_of_get? hs) n (some v)
  · intro k m hkm
    by_cases hm : m = n
    · have hk : k ≠ j := hkm.resolve_right (not_not_intro hm)
      rw [findIn?, findIn?, get?_insert_of_ne n (some v) hk]
    · exact findIn?_insert_of_ne j (some v) hm k

namespace Reassigned

theorem bindsIn_eq (h : Reassigned j n v t u) (k : ScopeId) (m : String) :
    u.bindsIn k m = t.bindsIn k m := by
  rw [Bool.eq_iff_iff, bindsIn_iff_mem_namesIn, bindsIn_iff_mem_namesIn, h.names]

/-- The way outwards and the names on it are the same, so the first binding
of a name is where it was. -/
theorem firstBinds_iff (h : Reassigned j n v t u) : u.FirstBinds m i k ↔ t.FirstBinds m i k := by
  constructor
  · intro hf
    induction hf with
    | here hb => exact .here (by rw [← h.bindsIn_eq]; exact hb)
    | out hs hp hb _ ih =>
      obtain ⟨s, hs', hp', _⟩ := get?_of_shape h.shape.symm hs
      exact .out hs' (hp'.trans hp) (by rw [← h.bindsIn_eq]; exact hb) ih
  · intro hf
    induction hf with
    | here hb => exact .here (by rw [h.bindsIn_eq]; exact hb)
    | out hs hp hb _ ih =>
      obtain ⟨s, hs', hp', _⟩ := get?_of_shape h.shape hs
      exact .out hs' (hp'.trans hp) (by rw [h.bindsIn_eq]; exact hb) ih

theorem owner?_eq (h : Reassigned j n v t u) (ht : t.WellFormed) (k : ScopeId) (m : String) :
    u.owner? k m = t.owner? k m := by
  ext o
  rw [owner?_eq_some_iff (ht.of_shape h.shape), owner?_eq_some_iff ht, h.firstBinds_iff]

theorem find?_of_ne (h : Reassigned j n v t u) (ht : t.WellFormed) (hm : m ≠ n) (k : ScopeId) :
    u.find? k m = t.find? k m := by
  rw [find?_eq, find?_eq, h.owner?_eq ht]
  cases t.owner? k m with
  | none => rfl
  | some o => exact h.rest o m (Or.inr hm)

/-- A scope that sees another binding of the name sees it as before. -/
theorem find?_of_not_firstBinds (h : Reassigned j n v t u) (ht : t.WellFormed)
    (hk : ¬t.FirstBinds n k j) : u.find? k n = t.find? k n := by
  rw [find?_eq, find?_eq, h.owner?_eq ht]
  rcases ho : t.owner? k n with _ | o
  · rfl
  · refine h.rest o n (Or.inl ?_)
    rintro rfl
    exact hk ((owner?_eq_some_iff ht).mp ho)

theorem find?_of_firstBinds (h : Reassigned j n v t u) (ht : t.WellFormed)
    (hk : t.FirstBinds n k j) : u.find? k n = some ⟨n, some v⟩ := by
  rw [find?_eq, h.owner?_eq ht, (owner?_eq_some_iff ht).mpr hk]
  exact h.value

end Reassigned

theorem find?_eq_findIn? (h : t.WellFormed) (hf : t.FirstBinds n i j) :
    t.find? i n = t.findIn? j n := by
  rw [find?_eq, (owner?_eq_some_iff h).mpr hf]
  rfl

/-! ## The global scope -/

theorem isGlobal_of_shape (hs : u.shape = t.shape) (i : ScopeId) : u.isGlobal i = t.isGlobal i := by
  rcases hi : t.get? i with _ | s
  · have hu : u.get? i = none := by
      rw [get?_eq_none_iff, size_eq_of_shape hs]
      exact get?_eq_none_iff.mp hi
    simp [isGlobal, hi, hu]
  · obtain ⟨s', hi', hp, -⟩ := get?_of_shape hs hi
    simp [isGlobal, hi, hi', Scope.isGlobal, hp]

theorem eq_globalId_of_isGlobal (h : t.WellFormed) (hi : t.isGlobal i = true) : i = globalId := by
  rcases hs : t.get? i with _ | s
  · simp [isGlobal, hs] at hi
  · exact h.root_eq hs (by simpa [isGlobal, hs, Scope.isGlobal] using hi)

/-- Each scope keeps the scope without a parent that the links to the parents
lead to. -/
def Rooted (t : ScopeTree α) : Prop :=
  ∀ i < t.size, t.Reaches i (t.globalOf i) ∧ t.isGlobal (t.globalOf i) = true

theorem Rooted.empty : (ScopeTree.empty : ScopeTree α).Rooted := by
  intro i hi
  obtain rfl : i = 0 := Nat.lt_one_iff.mp hi
  exact ⟨.here 0, rfl⟩

theorem Rooted.of_shape (h : t.Rooted) (hs : u.shape = t.shape) : u.Rooted := by
  intro i hi
  obtain ⟨hreach, hglobal⟩ := h i (size_eq_of_shape hs ▸ hi)
  rw [globalOf_eq_of_shape hs, isGlobal_of_shape hs]
  exact ⟨reaches_of_shape hs hreach, hglobal⟩

theorem Reaches.addChild (h : t.Reaches i j) (l f : Bool) : (t.addChild p l f).Reaches i j := by
  induction h with
  | here i => exact .here i
  | out hi hp _ ih =>
    exact .out ((get?_addChild_of_lt p l f (lt_size_of_get? hi)).trans hi) hp ih

/-- A new scope takes over what its parent keeps. -/
theorem Rooted.addChild (h : t.Rooted) (hp : p < t.size) (l f : Bool) :
    (t.addChild p l f).Rooted := by
  have hother : ∀ i < t.size, (t.addChild p l f).Reaches i (t.globalOf i) ∧
      (t.addChild p l f).isGlobal (t.globalOf i) = true := by
    intro i hi
    obtain ⟨hreach, hglobal⟩ := h i hi
    have hlt : t.globalOf i < t.size := by
      by_contra hge
      simp [isGlobal, get?_eq_none_iff.mpr (Nat.le_of_not_lt hge)] at hglobal
    exact ⟨hreach.addChild l f, by rw [isGlobal, get?_addChild_of_lt p l f hlt]; exact hglobal⟩
  intro i hi
  rw [size_addChild] at hi
  by_cases hnew : i = t.size
  · subst hnew
    have hself := get?_addChild_self t p l f
    have hkept : (t.addChild p l f).globalOf t.size = t.globalOf p := by simp [globalOf, hself]
    rw [hkept]
    exact ⟨.out hself rfl (hother p hp).1, (hother p hp).2⟩
  · have hlt : i < t.size := by omega
    have hkept : (t.addChild p l f).globalOf i = t.globalOf i := by
      rw [globalOf, globalOf, get?_addChild_of_lt p l f hlt]
    rw [hkept]
    exact hother i hlt

theorem Built.rooted (h : t.Built) : t.Rooted := by
  induction h with
  | global => exact .empty
  | child l f _ hp ih => exact ih.addChild hp l f
  | block _ hp ih => exact ih.addChild hp _ _
  | loop _ hp ih => exact ih.addChild hp _ _
  | insert n v _ _ ih => exact ih.of_shape (shape_insert _ _ n v)
  | assign n v _ _ ih => exact ih.of_shape (shape_assign _ _ n v)

/-! ## The laws -/

/-- In a built tree a name is bound where it is found, and it can be assigned
to where it is found. An assignment gives the first binding of the name a
new value and changes nothing else, so other names are seen as before, and
this name too wherever another binding of it comes first; one that fails
changes nothing. The global scope that a scope keeps is the only scope without
a parent that the links to the parents lead to. -/
theorem Built.scope_laws (h : t.Built) (hi : i < t.size) (n : String) (v : α) :
    (t.binds i n = true ↔ ∃ b, t.find? i n = some b) ∧
    ((t.assign i n v).1 = true ↔ ∃ b, t.find? i n = some b) ∧
    ((t.assign i n v).1 = true → ∃ j, t.FirstBinds n i j ∧ t.find? i n = t.findIn? j n ∧
      Reassigned j n v t (t.assign i n v).2 ∧
      (∀ k m, m ≠ n → (t.assign i n v).2.find? k m = t.find? k m) ∧
      (∀ k, ¬t.FirstBinds n k j → (t.assign i n v).2.find? k n = t.find? k n) ∧
      ∀ k, t.FirstBinds n k j → (t.assign i n v).2.find? k n = some ⟨n, some v⟩) ∧
    ((t.assign i n v).1 = false → (t.assign i n v).2 = t) ∧
    t.Reaches i (t.globalOf i) ∧ t.isGlobal (t.globalOf i) = true ∧
    ∀ j, t.Reaches i j → t.isGlobal j = true → j = t.globalOf i := by
  have hw := h.wellFormed
  have hbinds := t.binds_eq_isSome_find? i n
  have hassign : (t.assign i n v).1 = t.binds i n := by rw [assign_eq, binds_eq]
  refine ⟨?_, ?_, ?_, ?_, ?_⟩
  · rw [hbinds, Option.isSome_iff_exists]
  · rw [hassign, hbinds, Option.isSome_iff_exists]
  · intro hdone
    rcases t.assign_cases i n v with ⟨-, hfail⟩ | ⟨j, ho, hu⟩
    · rw [hfail] at hdone
      cases hdone
    · rw [hu]
      have hfirst := (owner?_eq_some_iff hw).mp ho
      have hre := reassigned_of_owner? ho v
      exact ⟨j, hfirst, find?_eq_findIn? hw hfirst, hre, fun k m hm => hre.find?_of_ne hw hm k,
        fun k hk => hre.find?_of_not_firstBinds hw hk, fun k hk => hre.find?_of_firstBinds hw hk⟩
  · intro hfailed
    rcases t.assign_cases i n v with ⟨-, hfail⟩ | ⟨j, -, hu⟩
    · rw [hfail]
    · rw [hu] at hfailed
      cases hfailed
  · obtain ⟨hreach, hglobal⟩ := h.rooted i hi
    refine ⟨hreach, hglobal, ?_⟩
    intro j _ hj
    rw [eq_globalId_of_isGlobal hw hj, eq_globalId_of_isGlobal hw hglobal]

/-- Two blocks next to each other, the first with an `x` of its own: an
assignment from the second is not seen in the first. A name that nothing
binds is not assigned to. -/
theorem scope_laws_siblings :
    let t := (((empty.insert 0 "x" (some 1)).addBlock 0).insert 1 "x" none).addLoop 0
    let u := (t.assign 2 "x" 7).2
    t.FirstBinds "x" 2 0 ∧ u.find? 0 "x" = some ⟨"x", some 7⟩ ∧
      u.find? 1 "x" = some ⟨"x", none⟩ ∧ (t.assign 2 "y" 7).2 = t ∧ t.Reaches 2 (t.globalOf 2) := by
  intro t u
  have hbuilt : t.Built :=
    .loop (.insert "x" none (.block (.insert "x" (some 1) .global (by decide)) (by decide))
      (by decide)) (by decide)
  have htwo : 2 < t.size := by decide
  obtain ⟨-, hdone, hassign, -, hreach, -⟩ := hbuilt.scope_laws htwo "x" 7
  obtain ⟨j, hfirst, -, -, -, hother, hsame⟩ := hassign (hdone.mpr ⟨⟨"x", some 1⟩, rfl⟩)
  obtain ⟨-, -, -, hfailed, -⟩ := hbuilt.scope_laws htwo "y" 7
  obtain rfl : 0 = j := Option.some.inj ((owner?_eq_some_iff hbuilt.wellFormed).mpr hfirst)
  have hhidden : ¬t.FirstBinds "x" 1 0 := by
    rw [← owner?_eq_some_iff hbuilt.wellFormed]
    decide
  exact ⟨hfirst, hsame 0 (.here rfl), hother 1 hhidden, hfailed rfl, hreach⟩

end Quill.ScopeTree

-- Runs in which names are what a site says. A value that is seen may be
-- replaced by another one on the way, and then by data only; a function is
-- replaced only under a name that passes a test `T`. Steps that keep to
-- this, and that fail only in ways that are allowed, are safe.
import Mathlib
import Quill.Proofs.DataValues
import Quill.Proofs.FitPrograms
import Quill.Proofs.RunLogic

namespace Quill

/-! ## Values that are seen -/

namespace ScopeTree

variable {t : ScopeTree Value} {d j p : Nat} {m n : String} {v : Value}

/-- The value of a name as it is seen from a scope. -/
def seen (t : ScopeTree Value) (d : ScopeId) (n : String) : Option Value :=
  (t.find? d n).bind (·.value)

theorem seen_insert_self (h : t.WellFormed) (hd : d < t.size) (n : String) (v : Value) :
    (t.insert d n (some v)).seen d n = some v := by
  rw [seen, find?_insert_self h hd]
  rfl

theorem seen_insert_of_ne (h : t.WellFormed) (j : Nat) (v : Value) (hm : m ≠ n) (d : Nat) :
    (t.insert j n (some v)).seen d m = t.seen d m := by
  rw [seen, find?_insert_of_ne h j (some v) hm, seen]

theorem seen_insert_of_lt (h : t.WellFormed) (hd : d < j) (n m : String) (v : Value) :
    (t.insert j n (some v)).seen d m = t.seen d m := by
  rw [seen, find?_insert_of_lt h hd, seen]

theorem seen_insert_cases (h : t.WellFormed) (j : Nat) (n : String) (v : Value) (d : Nat) :
    (t.insert j n (some v)).seen d n = t.seen d n ∨
      (t.insert j n (some v)).seen d n = some v := by
  simp only [seen]
  rcases find?_insert_cases h j n (some v) d with hf | hf
  · exact Or.inl (by rw [hf])
  · exact Or.inr (by rw [hf]; rfl)

theorem seen_assign_self (h : t.WellFormed) (hd : d < t.size) (n : String) (v : Value) :
    (t.insert ((t.owner? d n).getD d) n (some v)).seen d n = some v := by
  rw [seen, find?_assign_self h hd]
  rfl

theorem seen_addChild_of_lt (h : t.WellFormed) (hp : p < t.size) (l f : Bool) (hd : d < t.size)
    (n : String) : (t.addChild p l f).seen d n = t.seen d n := by
  rw [seen, find?_addChild_of_lt h hp l f hd, seen]

theorem seen_addChild_self (h : t.WellFormed) (hp : p < t.size) (l f : Bool) (n : String) :
    (t.addChild p l f).seen t.size n = t.seen p n := by
  rw [seen, find?_addChild_self h hp l f, seen]

theorem seen_keep_of_lt {k : Nat} (h : t.WellFormed) (hk : (t.keep k).WellFormed) (hd : d < k)
    (n : String) : (t.keep k).seen d n = t.seen d n := by
  rw [seen, find?_keep_of_lt h hk hd, seen]

/-! ## Functions that are bound -/

/-- The function that a name holds in a scope itself. -/
def functionIn? (t : ScopeTree Value) (i : ScopeId) (n : String) : Option Function :=
  match (t.findIn? i n).bind (·.value) with
  | some (.function f _) => some f
  | _ => none

theorem functionIn?_eq_some {i : Nat} {f : Function} :
    t.functionIn? i n = some f ↔ ∃ m id, t.findIn? i n = some ⟨m, some (.function f id)⟩ := by
  unfold functionIn?
  constructor
  · intro h
    split at h
    · rename_i g id hv
      obtain ⟨⟨m, v⟩, hb, rfl⟩ := Option.bind_eq_some_iff.mp hv
      cases h
      exact ⟨m, id, hb⟩
    · cases h
  · rintro ⟨m, id, hb⟩
    simp [hb]

/-- A function that is seen is bound in some scope. -/
theorem exists_functionIn? {f : Function} {id : Nat} (h : t.seen d n = some (.function f id)) :
    ∃ i, t.functionIn? i n = some f := by
  obtain ⟨⟨name, value⟩, hb, hv⟩ := Option.bind_eq_some_iff.mp h
  rw [find?_eq] at hb
  obtain ⟨i, -, hi⟩ := Option.bind_eq_some_iff.mp hb
  obtain rfl : value = some (.function f id) := hv
  exact ⟨i, functionIn?_eq_some.mpr ⟨name, id, hi⟩⟩

theorem functionIn?_insert_cases {i : Nat} {f : Function}
    (h : (t.insert j n (some v)).functionIn? i m = some f) :
    (i = j ∧ ∃ id, v = .function f id) ∨ t.functionIn? i m = some f := by
  obtain ⟨name, id, hb⟩ := functionIn?_eq_some.mp h
  rcases findIn?_insert_cases j (some v) hb with ⟨hi, heq⟩ | hb
  · cases heq
    exact Or.inl ⟨hi, id, rfl⟩
  · exact Or.inr (functionIn?_eq_some.mpr ⟨name, id, hb⟩)

theorem functionIn?_of_addChild {i : Nat} {f : Function} {l g : Bool}
    (h : (t.addChild p l g).functionIn? i n = some f) : t.functionIn? i n = some f := by
  rcases Nat.lt_trichotomy i t.size with hi | rfl | hi
  · rwa [functionIn?, findIn?, get?_addChild_of_lt p l g hi] at h
  · rw [functionIn?, findIn?, get?_addChild_self] at h
    cases h
  · have hnone : (t.addChild p l g).get? i = none := by
      simp only [size] at hi
      simp [get?, addChild]
      omega
    rw [functionIn?, findIn?, hnone] at h
    cases h

theorem functionIn?_of_keep {i k : Nat} {f : Function} (h : (t.keep k).functionIn? i n = some f) :
    t.functionIn? i n = some f := by
  obtain ⟨name, id, hb⟩ := functionIn?_eq_some.mp h
  exact functionIn?_eq_some.mpr ⟨name, id, (findIn?_of_keep hb).2⟩

end ScopeTree

/-- A value that leaves a function is data. -/
def Signal.IsData : Signal → Prop
  | .return v => v.IsData
  | _ => True

namespace Run

variable {T : String → Prop} {Γ Δ : Site} {s t u : State} {k d : Nat}

/-! ## Names that are what they should be -/

/-- A variable has data for its value. The name of a function has this
function, or data if it passes the test. -/
def Suits (T : String → Prop) (n : String) : Option Function → Value → Prop
  | none, v => v.IsData
  | some f, v => (∃ id, v = .function f id) ∨ (T n ∧ v.IsData)

/-- Every name of the site is seen with a value that suits it. -/
def Models (T : String → Prop) (Γ : Site) (t : ScopeTree Value) (d : Nat) : Prop :=
  ∀ n what, Γ.names n = some what → ∃ v, t.seen d n = some v ∧ Suits T n what v

/-- What may become of a value that is seen under a name. -/
def Fades (T : String → Prop) (n : String) (v w : Value) : Prop :=
  w = v ∨ (w.IsData ∧ (v.IsData ∨ T n))

theorem Fades.trans {n : String} {v w x : Value} (h : Fades T n v w) (h' : Fades T n w x) :
    Fades T n v x := by
  rcases h with rfl | ⟨hw, hv⟩
  · exact h'
  · rcases h' with rfl | ⟨hx, _⟩
    · exact Or.inr ⟨hw, hv⟩
    · exact Or.inr ⟨hx, hv⟩

theorem Suits.fade {n : String} {what : Option Function} {v w : Value} (h : Suits T n what v)
    (hf : Fades T n v w) : Suits T n what w := by
  rcases hf with rfl | ⟨hw, hv⟩
  · exact h
  · cases what with
    | none => exact hw
    | some f =>
      rcases h with ⟨id, rfl⟩ | ⟨hT, _⟩
      · exact Or.inr ⟨hv.resolve_left (by simp [Value.IsData, Value.kind]), hw⟩
      · exact Or.inr ⟨hT, hw⟩

/-- A site that knows less is modelled where one that knows more is. -/
theorem Models.weaken {t : ScopeTree Value} (h : Models T Γ t d)
    (hle : ∀ n what, Δ.names n = some what → Γ.names n = some what) : Models T Δ t d :=
  fun n what hn => h n what (hle n what hn)

/-- A name that is seen with a value of its own can be added to the
site. -/
theorem Models.bind {t u : ScopeTree Value} (h : Models T Γ t d) {n : String}
    {what : Option Function} {v : Value} (hn : u.seen d n = some v)
    (hrest : ∀ m, m ≠ n → u.seen d m = t.seen d m) (hv : Suits T n what v) :
    Models T (Γ.bind n what) u d := by
  intro m what' hm
  rcases Site.names_bind_cases hm with ⟨rfl, rfl⟩ | ⟨hmn, hm⟩
  · exact ⟨v, hn, hv⟩
  · rw [hrest m hmn]
    exact h m what' hm

theorem Models.insert {t : ScopeTree Value} (h : Models T Γ t d) (ht : t.WellFormed)
    (hd : d < t.size) {n : String} {what : Option Function} {v : Value} (hv : Suits T n what v) :
    Models T (Γ.bind n what) (t.insert d n (some v)) d :=
  h.bind (ScopeTree.seen_insert_self ht hd n v)
    (fun _ hm => ScopeTree.seen_insert_of_ne ht d v hm d) hv

/-! ## What a step keeps -/

/-- The scopes stay, what is seen from the first `k` of them fades at
most, and arrays stay without functions. -/
structure Keeps (T : String → Prop) (k : Nat) (s t : State) : Prop where
  shape : t.scopes.shape = s.scopes.shape
  seen : ∀ d < k, ∀ n v, s.scopes.seen d n = some v →
    ∃ w, t.scopes.seen d n = some w ∧ Fades T n v w
  heap : s.heap.Data → t.heap.Data

theorem Keeps.of_scopes (hs : t.scopes = s.scopes) (hh : s.heap.Data → t.heap.Data) :
    Keeps T k s t :=
  ⟨by rw [hs], fun d _ n v hv => ⟨v, by rw [hs, hv], Or.inl rfl⟩, hh⟩

theorem Keeps.refl (s : State) : Keeps T k s s := Keeps.of_scopes rfl id

theorem Keeps.trans (h : Keeps T k s t) (h' : Keeps T k t u) : Keeps T k s u := by
  refine ⟨h'.shape.trans h.shape, ?_, fun hs => h'.heap (h.heap hs)⟩
  intro d hd n v hv
  obtain ⟨w, hw, hvw⟩ := h.seen d hd n v hv
  obtain ⟨x, hx, hwx⟩ := h'.seen d hd n w hw
  exact ⟨x, hx, hvw.trans hwx⟩

theorem Keeps.mono {k' : Nat} (h : Keeps T k s t) (hk : k' ≤ k) : Keeps T k' s t :=
  ⟨h.shape, fun d hd => h.seen d (Nat.lt_of_lt_of_le hd hk), h.heap⟩

theorem Models.keep (h : Models T Γ s.scopes d) (ht : Keeps T k s t) (hd : d < k) :
    Models T Γ t.scopes d := by
  intro n what hn
  obtain ⟨v, hv, hsuits⟩ := h n what hn
  obtain ⟨w, hw, hfades⟩ := ht.seen d hd n v hv
  exact ⟨w, hw, hsuits.fade hfades⟩

/-- A binding in a scope with a larger number is not seen. -/
theorem Keeps.insert_above (hs : s.scopes.WellFormed) {j : Nat} (hj : k ≤ j) (n : String)
    (v : Value) : Keeps T k s { s with scopes := s.scopes.insert j n (some v) } := by
  refine ⟨ScopeTree.shape_insert _ _ _ _, ?_, id⟩
  intro d hd m w hw
  exact ⟨w, by rw [ScopeTree.seen_insert_of_lt hs (by omega), hw], Or.inl rfl⟩

/-- Data may be given to a name that passes the test, wherever it is
bound. -/
theorem Keeps.insert_data (hs : s.scopes.WellFormed) (j : Nat) {n : String} {v : Value}
    (hT : T n) (hv : v.IsData) :
    Keeps T k s { s with scopes := s.scopes.insert j n (some v) } := by
  refine ⟨ScopeTree.shape_insert _ _ _ _, ?_, id⟩
  intro d _ m w hw
  by_cases hmn : m = n
  · subst hmn
    rcases ScopeTree.seen_insert_cases hs j m v d with h | h
    · exact ⟨w, by rw [h, hw], Or.inl rfl⟩
    · exact ⟨v, h, Or.inr ⟨hv, Or.inr hT⟩⟩
  · exact ⟨w, by rw [ScopeTree.seen_insert_of_ne hs j v hmn, hw], Or.inl rfl⟩

/-- What happened in a new scope is kept by the others, once the scope
has been left. -/
theorem Keeps.leave {p : Nat} {l f : Bool} (hs : s.scopes.WellFormed) (hp : p < s.scopes.size)
    (hk : k ≤ s.scopes.size)
    (h : Keeps T k { s with scopes := s.scopes.addChild p l f } t) :
    Keeps T k s (t.leave s.scopes.size) := by
  have hchild := hs.addChild hp l f
  have ht : t.scopes.WellFormed := hchild.of_shape h.shape
  have hshape : (t.scopes.keep s.scopes.size).shape = s.scopes.shape :=
    ScopeTree.shape_keep_of_addChild h.shape
  refine ⟨hshape, ?_, h.heap⟩
  intro d hd n v hv
  have hd' : d < s.scopes.size := by omega
  obtain ⟨w, hw, hfades⟩ := h.seen d hd n v (by
    rw [ScopeTree.seen_addChild_of_lt hs hp l f hd', hv])
  refine ⟨w, ?_, hfades⟩
  show (t.scopes.keep s.scopes.size).seen d n = some w
  rw [ScopeTree.seen_keep_of_lt ht (hs.of_shape hshape) hd', hw]

/-! ## Safe steps -/

/-- How a run may halt. No name is unknown, no function is taken for a
variable and no call has the wrong number of arguments; a variable is
called only under a name that passes the test. -/
def Halt.Allowed (T : String → Prop) : Halt → Prop
  | .fatal ⟨.undeclared _, _⟩ | .fatal ⟨.isFunction _, _⟩ | .fatal ⟨.arity _, _⟩ => False
  | .fatal ⟨.notFunction n, _⟩ => T n
  | _ => True

variable {α β : Type} {m : Run α} {f : α → Run β} {P : α → State → Prop} {Q : β → State → Prop}

/-- The step keeps what it should and has a result with `P`, or it halts
as it may. -/
def Safe (T : String → Prop) (k : Nat) (m : Run α) (s : State) (P : α → State → Prop) : Prop :=
  Ends m s (fun x t => Keeps T k s t ∧ P x t) (fun e _ => e.Allowed T)

theorem Safe.pure {x : α} (h : P x s) : Safe T k (pure x) s P := ⟨Keeps.refl s, h⟩

theorem Safe.bind (h : Safe T k m s P)
    (hf : ∀ x t, Keeps T k s t → P x t → Safe T k (f x) t Q) : Safe T k (m >>= f) s Q := by
  refine Ends.bind h ?_
  rintro x t ⟨ht, hx⟩
  exact (hf x t ht hx).imp fun y u ⟨hu, hy⟩ => ⟨ht.trans hu, hy⟩

theorem Safe.imp {P' : α → State → Prop} (h : Safe T k m s P) (hP : ∀ x t, P x t → P' x t) :
    Safe T k m s P' := Ends.imp h fun x t ⟨ht, hx⟩ => ⟨ht, hP x t hx⟩

/-- What is kept by more scopes can be remembered. -/
theorem Safe.mono {k' : Nat} (h : Safe T k m s P) (hk : k' ≤ k) :
    Safe T k' m s fun x t => P x t ∧ Keeps T k s t :=
  Ends.imp h fun _ _ ⟨ht, hx⟩ => ⟨ht.mono hk, hx, ht⟩

theorem Safe.deeper {limit : Nat} {span : Span} {P : α → Prop}
    (h : Safe T k m { s with depth := s.depth + 1 } fun x _ => P x) :
    Safe T k (deeper limit span m) s fun x _ => P x :=
  Ends.deeper trivial (Ends.imp h fun _ _ ⟨ht, hx⟩ => ⟨⟨ht.shape, ht.seen, ht.heap⟩, hx⟩)

theorem Safe.within {enter : ScopeTree Value → ScopeTree Value} {body : ScopeId → Run α} {p : Nat}
    {l f : Bool} {P : α → Prop} (hs : s.scopes.WellFormed) (hk : k ≤ s.scopes.size)
    (hp : p < s.scopes.size) (henter : enter s.scopes = s.scopes.addChild p l f)
    (hbody : Safe T k (body s.scopes.size) { s with scopes := s.scopes.addChild p l f }
      fun x _ => P x) :
    Safe T k (Mode.plain.within enter body) s fun x _ => P x := by
  refine ends_within.mpr ?_
  rw [henter]
  exact Ends.imp hbody fun x t ⟨ht, hx⟩ => ⟨ht.leave hs hp hk, hx⟩

/-! ## Safe lists and loops -/

theorem Safe.mapM {g : α → Run β} {xs : List α} {P : β → Prop}
    (h : ∀ x ∈ xs, ∀ t, Keeps T k s t → Safe T k (g x) t fun y _ => P y) :
    Safe T k (xs.mapM g) s fun ys _ => ys.length = xs.length ∧ ∀ y ∈ ys, P y := by
  refine (Ends.mapM (I := Keeps T k s) (Keeps.refl s) ?_).imp
    fun ys t ⟨hlen, hys, ht⟩ => ⟨ht, hlen, hys⟩
  intro x hx t ht
  exact Ends.imp (h x hx t ht) fun y u ⟨hu, hy⟩ => ⟨hy, ht.trans hu⟩

theorem leaves_isData {x y : Signal} (hx : x.IsData) (hl : leaves x = some y) : y.IsData := by
  cases x with
  | normal => cases hl
  | next => cases hl
  | stop =>
    cases hl
    trivial
  | «return» v =>
    cases hl
    exact hx

/-- Turns of a loop are safe if each of them is, from every state with the
invariant `I`. -/
theorem Safe.times {body : Run Signal} {I : State → Prop}
    (h : ∀ t, I t → Safe T k body t fun x u => x.IsData ∧ I u) (count : Nat)
    (hs : I s) : Safe T k (times body count) s fun x _ => x.IsData := by
  refine (Ends.times (P := Signal.IsData) (I := fun t => Keeps T k s t ∧ I t) trivial
    (fun _ _ => leaves_isData) ?_ count ⟨Keeps.refl s, hs⟩).imp
    fun x t ⟨hx, ht, _⟩ => ⟨ht, hx⟩
  rintro t ⟨ht, hI⟩
  exact Ends.imp (h t hI) fun x u ⟨hu, hx, hI'⟩ => ⟨hx, ht.trans hu, hI'⟩

theorem Safe.whileTrue {test : Nat → Run Bool} {body : Nat → Run Signal} {I : State → Prop}
    (htest : ∀ j t, I t → Safe T k (test j) t fun _ u => I u)
    (hbody : ∀ j t, I t → Safe T k (body j) t fun x u => x.IsData ∧ I u) (first fuel : Nat)
    (hs : I s) : Safe T k (whileTrue test body first fuel) s fun x _ => x.IsData := by
  refine (Ends.whileTrue (P := Signal.IsData) (I := fun t => Keeps T k s t ∧ I t) trivial
    (fun _ _ => leaves_isData) (fun _ _ => trivial) ?_ ?_ first fuel ⟨Keeps.refl s, hs⟩).imp
    fun x t ⟨hx, ht, _⟩ => ⟨ht, hx⟩
  · rintro j t ⟨ht, hI⟩
    exact Ends.imp (htest j t hI) fun x u ⟨hu, hI'⟩ => ⟨ht.trans hu, hI'⟩
  · rintro j t ⟨ht, hI⟩
    exact Ends.imp (hbody j t hI) fun x u ⟨hu, hx, hI'⟩ => ⟨hx, ht.trans hu, hI'⟩

/-! ## Safe operations on values -/

theorem Safe.fail {fault : Fault} {span : Span}
    (h : Halt.Allowed T (.fatal ⟨fault, span⟩)) : Safe T k (fail fault span) s P := h

theorem Safe.orFail {r : Except OpError α} {fault : OpError → Fault} {span : Span} {P : α → Prop}
    (hr : ∀ x, r = .ok x → P x) (hf : ∀ e, Halt.Allowed T (.fatal ⟨fault e, span⟩)) :
    Safe T k (orFail r fault span) s fun x _ => P x :=
  Ends.orFail (fun x hx => ⟨Keeps.refl s, hr x hx⟩) hf fun _ => trivial

theorem Safe.settle {m : Made} (hm : m.Data) : Safe T k (settle m) s fun v _ => v.IsData :=
  ⟨Keeps.of_scopes rfl fun hs => hs.extend hm.fresh, hm.value⟩

/-- The result of an operation that makes no function. -/
theorem Safe.operation {r : Heap → Except OpError Made} {fault : OpError → Fault} {span : Span}
    (hr : Value.OkData (r s.heap)) (hf : ∀ e, Halt.Allowed T (.fatal ⟨fault e, span⟩)) :
    Safe T k (do Run.settle (← Run.orFail (← withHeap r) fault span)) s fun v _ => v.IsData := by
  refine Safe.bind (P := fun x _ => x = r s.heap) ⟨Keeps.refl s, rfl⟩ ?_
  rintro _ t _ rfl
  refine Safe.bind (Safe.orFail hr hf) ?_
  intro m t _ hm
  exact Safe.settle hm

theorem Safe.subscript (hs : s.heap.Data) (v i : Value) (span : Span) :
    Safe T k (subscript v i span) s fun w _ => w.IsData := by
  refine Safe.bind (P := fun x _ => x = Value.subscript s.heap v i) ⟨Keeps.refl s, rfl⟩ ?_
  rintro _ t _ rfl
  exact Safe.orFail (fun w hw => Value.subscript_data hs hw) fun _ => trivial

/-- Data is stored in a slot that there is. -/
theorem Safe.store (a i : Value) {v : Value} (hv : v.IsData) (span : Span) :
    Safe T k (store a i v span) s fun _ _ => True := by
  refine Safe.bind (P := fun _ _ => True) ⟨Keeps.refl s, trivial⟩ ?_
  intro r t _ _
  refine Safe.bind (Safe.orFail (P := fun _ => True) (fun _ _ => trivial) fun _ => trivial) ?_
  intro slot u _ _
  exact ⟨Keeps.of_scopes rfl fun hd => hd.write slot hv, trivial⟩

theorem Safe.newArray {elements : Array Value} (he : ∀ v ∈ elements, v.IsData) :
    Safe T k (newArray elements) s fun v _ => v.IsData :=
  Safe.settle (Made.Data.newArray s.heap he)

theorem Safe.truth (v : Value) (span : Span) : Safe T k (truth v span) s fun _ _ => True := by
  cases v with
  | bool b => exact Safe.pure trivial
  | _ => exact Safe.fail trivial

theorem Safe.turnCount (v : Value) (span : Span) :
    Safe T k (turnCount v span) s fun _ _ => True := by
  cases v with
  | int n => exact Safe.pure trivial
  | _ => exact Safe.fail trivial

theorem Safe.iterable (v : Value) (span : Span) :
    Safe T k (iterable v span) s fun _ _ => True := by
  cases v with
  | array _ => exact Safe.pure trivial
  | string _ => exact Safe.pure trivial
  | _ => exact Safe.fail trivial

theorem Safe.range (first last : Value) (span : Span) :
    Safe T k (range first last span) s fun v _ => v.IsData := by
  unfold Run.range
  split
  · refine Ends.bind (Ends.orCrash (fun elements h => ?_) fun _ => trivial) fun _ _ h => h
    exact Safe.newArray (Value.rangeElements_data h)
  · exact Safe.fail trivial
  · exact Safe.fail trivial

/-! ## Safe names -/

/-- A name that stands for a variable has a value, and it is data. -/
theorem Safe.variableValue (h : Models T Γ s.scopes d) {name : String} (span : Span)
    (hn : Γ.names name = some none) :
    Safe T k (variableValue d name span) s fun v _ => v.IsData := by
  obtain ⟨v, hv, hdata⟩ := h name none hn
  refine Safe.bind (P := fun x t => x = some v ∧ t = s) ⟨Keeps.refl s, hv, rfl⟩ ?_
  rintro _ t _ ⟨rfl, rfl⟩
  cases v with
  | function f id => exact absurd rfl hdata
  | _ => exact Safe.pure hdata

/-- A name that stands for a function gives this function, unless it has
been assigned to. -/
theorem Safe.callee (h : Models T Γ s.scopes d) {name : Name} {f : Function}
    (hn : Γ.names name.text = some (some f)) :
    Safe T k (callee d name) s fun g _ => g = f := by
  obtain ⟨v, hv, hsuits⟩ := h name.text (some f) hn
  refine Safe.bind (P := fun x t => x = some v ∧ t = s) ⟨Keeps.refl s, hv, rfl⟩ ?_
  rintro _ t _ ⟨rfl, rfl⟩
  rcases hsuits with ⟨id, rfl⟩ | ⟨hT, hdata⟩
  · exact Safe.pure rfl
  · cases v with
    | function g id => exact absurd rfl hdata
    | _ => exact Safe.fail hT

/-! ## Safe built-in functions -/

theorem Safe.ask (r : Request) : Safe T k (ask r) s fun _ _ => True :=
  Ends.ask (fun _ _ => ⟨Keeps.of_scopes rfl id, trivial⟩) trivial

theorem Safe.path (b : Builtin) (v : Value) (span : Span) :
    Safe T k (path b v span) s fun _ _ => True := by
  cases v with
  | string x => exact Safe.pure trivial
  | _ => exact Safe.fail trivial

theorem Safe.outputLine (v : Value) (span : Span) :
    Safe T k (outputLine v span) s fun w _ => w.IsData := by
  refine Safe.bind (P := fun _ _ => True) ⟨Keeps.refl s, trivial⟩ ?_
  intro text t _ _
  refine Safe.bind (P := fun _ _ => True) (Ends.print (fun sink => ?_) fun _ => trivial) ?_
  · exact ⟨Keeps.of_scopes rfl id, trivial⟩
  · exact fun _ u _ _ => Safe.pure Value.isData_void

theorem Safe.inputLine (span : Span) : Safe T k (inputLine span) s fun w _ => w.IsData := by
  refine Safe.bind (P := fun _ _ => True) (Ends.flush ⟨Keeps.refl s, trivial⟩ fun _ => trivial) ?_
  intro _ t _ _
  refine Safe.bind (Safe.ask .line) ?_
  intro a t _ _
  rcases a.bind decode with e | text
  · exact Safe.fail trivial
  · exact Safe.pure (Value.isData_string _)

theorem Safe.readFile (p : String) (span : Span) :
    Safe T k (readFile p span) s fun w _ => w.IsData := by
  refine Safe.bind (Safe.ask (.read p)) ?_
  intro a t _ _
  rcases a.bind decode with e | text
  · exact Safe.fail trivial
  · exact Safe.pure (Value.isData_string _)

theorem Safe.writeFile (p : String) (v : Value) (span : Span) :
    Safe T k (writeFile p v span) s fun w _ => w.IsData := by
  refine Safe.bind (P := fun _ _ => True) ⟨Keeps.refl s, trivial⟩ ?_
  intro text t _ _
  refine Safe.bind (Safe.ask _) ?_
  intro a u _ _
  rcases a with e | written
  · exact Safe.fail trivial
  · exact Safe.pure Value.isData_void

theorem Safe.lengthOf (v : Value) (span : Span) :
    Safe T k (lengthOf v span) s fun w _ => w.IsData := by
  refine Safe.bind (P := fun _ _ => True) ⟨Keeps.refl s, trivial⟩ ?_
  intro n t _ _
  cases n with
  | none => exact Safe.fail trivial
  | some n =>
    by_cases hn : n ≤ Int64.maxValue.toInt.toNat
    · simp only [hn, ↓reduceIte]
      exact Safe.pure (Value.isData_int _)
    · simp only [hn, ↓reduceIte]
      exact Safe.fail trivial

/-- A built-in function that is called with the right number of
arguments. -/
theorem Safe.invoke (b : Builtin) {args : List Value} (hlen : args.length = b.arity)
    (span : Span) : Safe T k (invoke b.name args span) s fun w _ => w.IsData := by
  have hname : Builtin.ofName? b.name = some b := by cases b <;> decide
  unfold Run.invoke
  rw [hname]
  cases b with
  | output =>
    obtain ⟨v, rfl⟩ := List.length_eq_one_iff.mp hlen
    exact Safe.outputLine v span
  | input =>
    obtain rfl := List.length_eq_zero_iff.mp hlen
    exact Safe.inputLine span
  | read =>
    obtain ⟨v, rfl⟩ := List.length_eq_one_iff.mp hlen
    exact Safe.bind (Safe.path .read v span) fun p _ _ _ => Safe.readFile p span
  | write =>
    obtain ⟨v, w, rfl⟩ := List.length_eq_two.mp hlen
    exact Safe.bind (Safe.path .write v span) fun p _ _ _ => Safe.writeFile p w span
  | length =>
    obtain ⟨v, rfl⟩ := List.length_eq_one_iff.mp hlen
    exact Safe.lengthOf v span

end Run

end Quill

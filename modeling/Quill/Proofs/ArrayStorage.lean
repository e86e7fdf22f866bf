-- The law of the store. An array keeps its length for ever, the only step
-- that changes one is the assignment to an element, which overwrites that
-- slot alone, and an operation that fails changes no array.
import Mathlib
import Quill.Proofs.LexedTexts
import Quill.Proofs.OperationErrors
import Quill.Proofs.RecordedRuns

namespace Quill

/-! ## The store -/

namespace Heap

variable {h h' h'' : Heap} {id other : ArrayId}

@[simp] theorem size_extend (h : Heap) (fresh : Array (Array Value)) :
    (h.extend fresh).size = h.size + fresh.size := by simp [extend, size]

@[simp] theorem size_write (h : Heap) (slot : Slot) (v : Value) :
    (h.write slot v).size = h.size := by simp [write, size]

theorem get_extend_of_lt (fresh : Array (Array Value)) (hid : id < h.size) :
    (h.extend fresh).get id = h.get id := by
  unfold size at hid
  simp [get, extend, Array.getElem?_append_left hid]

theorem get_extend_size (h : Heap) (elements : Array Value) :
    (h.extend #[elements]).get h.size = elements := by
  simp [get, extend, size]

theorem extend_extend (h : Heap) (fresh more : Array (Array Value)) :
    (h.extend fresh).extend more = h.extend (fresh ++ more) := by
  simp [extend, Array.append_assoc]

theorem get_write_self (hid : id < h.size) (k : Nat) (v : Value) :
    (h.write ⟨id, k⟩ v).get id = (h.get id).setIfInBounds k v := by
  unfold size at hid
  simp [get, write, Array.getElem_modify, hid]

theorem get_write_of_ne (k : Nat) (v : Value) (hother : other ≠ id) :
    (h.write ⟨id, k⟩ v).get other = h.get other := by
  simp [get, write, Array.getElem?_modify, hother.symm]

/-- There is nothing in an array that is not there. -/
theorem lt_size_of_get (hid : 0 < (h.get id).size) : id < h.size := by
  by_contra hsize
  rw [get, Array.getElem?_eq_none (Nat.le_of_not_lt hsize)] at hid
  cases hid

/-- All arrays are still there, with their lengths. -/
structure Lasts (h h' : Heap) : Prop where
  size_le : h.size ≤ h'.size
  length_eq : ∀ id < h.size, (h'.get id).size = (h.get id).size

theorem Lasts.refl (h : Heap) : h.Lasts h := ⟨le_rfl, fun _ _ => rfl⟩

theorem Lasts.trans (hh : h.Lasts h') (hh' : h'.Lasts h'') : h.Lasts h'' where
  size_le := hh.size_le.trans hh'.size_le
  length_eq id hid := (hh'.length_eq id (hid.trans_le hh.size_le)).trans (hh.length_eq id hid)

theorem Lasts.extend (h : Heap) (fresh : Array (Array Value)) : h.Lasts (h.extend fresh) where
  size_le := by simp
  length_eq id hid := by rw [get_extend_of_lt fresh hid]

theorem Lasts.write (h : Heap) (slot : Slot) (v : Value) : h.Lasts (h.write slot v) where
  size_le := by simp
  length_eq id hid := by
    by_cases hother : id = slot.array
    · subst hother
      rw [get_write_self hid, Array.size_setIfInBounds]
    · rw [get_write_of_ne slot.index v hother]

end Heap

namespace Value

variable {h : Heap} {a i : Value} {slot : Slot}

theorem place_eq_ok_iff {index : Int64} {length k : Nat} :
    place index length = .ok k ↔ index.toInt = k ∧ k < length := by
  unfold place
  split
  · rename_i hin
    simp only [pure, Except.pure, Except.ok.injEq]
    omega
  · rename_i hout
    simp only [reduceCtorEq, false_iff]
    omega

/-- Only an integer within the length of an array names a slot of it. -/
theorem slot_eq_ok_iff : Value.slot h a i = .ok slot ↔
    ∃ n, a = .array slot.array ∧ i = .int n ∧ n.toInt = slot.index ∧
      slot.index < (h.get slot.array).size := by
  constructor
  · intro hslot
    cases a with
    | array id =>
      cases i with
      | int n =>
        rcases hk : place n (h.get id).size with e | k
        · simp [Value.slot, hk, bind, Except.bind] at hslot
        · simp only [Value.slot, hk, bind, Except.bind, pure, Except.pure] at hslot
          cases hslot
          exact ⟨n, rfl, rfl, place_eq_ok_iff.mp hk⟩
      | _ => cases hslot
    | _ => cases hslot
  · rintro ⟨n, rfl, rfl, hplace⟩
    simp only [Value.slot, place_eq_ok_iff.mpr hplace, bind, Except.bind, pure, Except.pure]

/-- What has been written is read back at the same index. -/
theorem subscript_write (hslot : Value.slot h a i = .ok slot) (v : Value) :
    subscript (h.write slot v) a i = .ok v := by
  obtain ⟨n, rfl, rfl, hn, hlt⟩ := slot_eq_ok_iff.mp hslot
  have hget := Heap.get_write_self (Heap.lt_size_of_get (Nat.zero_lt_of_lt hlt)) slot.index v
  have hplace : place n ((h.get slot.array).setIfInBounds slot.index v).size = .ok slot.index :=
    place_eq_ok_iff.mpr ⟨hn, by simpa using hlt⟩
  simp only [subscript, hget, hplace, bind, Except.bind,
    Array.getElem?_setIfInBounds_self_of_lt hlt, pure, Except.pure]

end Value

namespace Run

variable {limit fuel : Nat} {s t u : State} {event : Event}

/-! ## What an event does to the arrays -/

theorem Law.lasts (h : Law limit s event t) : s.heap.Lasts t.heap := by
  cases h with
  | made fresh _ => exact .extend s.heap fresh
  | stored _ _ => exact .write s.heap _ _
  | _ => exact ⟨le_rfl, fun _ _ => rfl⟩

/-- The event overwrites an element. -/
def Event.isUpdate : Event → Bool
  | .stored _ _ _ => true
  | _ => false

theorem Event.exists_stored (h : event.isUpdate = true) : ∃ a i v, event = .stored a i v := by
  cases event with
  | stored a i v => exact ⟨a, i, v, rfl⟩
  | _ => cases h

/-- An event that overwrites no element changes no array. -/
theorem Law.get_eq (h : Law limit s event t) (hevent : event.isUpdate = false) {id : ArrayId}
    (hid : id < s.heap.size) : t.heap.get id = s.heap.get id := by
  cases h with
  | made fresh _ => exact Heap.get_extend_of_lt fresh hid
  | stored _ _ => cases hevent
  | _ => rfl

/-- The state `t` is `s` with the element of `a` at the index `i`
overwritten by `v`, and with nothing else changed. -/
def State.Stores (s : State) (a i v : Value) (t : State) : Prop :=
  ∃ (id : ArrayId) (k : Nat) (n : Int64),
    a = .array id ∧ i = .int n ∧ n.toInt = k ∧ id < s.heap.size ∧ k < (s.heap.get id).size ∧
    t.heap.get id = (s.heap.get id).setIfInBounds k v ∧
    (∀ other, other ≠ id → t.heap.get other = s.heap.get other) ∧
    t.heap.size = s.heap.size ∧ t.scopes = s.scopes

theorem Law.stores {a i v : Value} (h : Law limit s (.stored a i v) t) :
    s.Stores a i v t ∧ Value.subscript t.heap a i = .ok v := by
  cases h with
  | @stored _ _ _ slot _ hslot =>
    obtain ⟨n, ha, hi, hn, hlt⟩ := Value.slot_eq_ok_iff.mp hslot
    have hid : slot.array < s.heap.size := Heap.lt_size_of_get (Nat.zero_lt_of_lt hlt)
    exact ⟨⟨slot.array, slot.index, n, ha, hi, hn, hid, hlt,
      Heap.get_write_self hid slot.index v, fun _ => Heap.get_write_of_ne slot.index v,
      Heap.size_write s.heap slot v, rfl⟩, Value.subscript_write hslot v⟩

theorem History.lasts {past : List Moment} (h : History limit s past t) : s.heap.Lasts t.heap := by
  induction h with
  | start s => exact .refl s.heap
  | step hlaw _ ih => exact hlaw.lasts.trans ih

/-! ## Operations that fail -/

/-- From the state `s`, the operands of an operation have values, and in
the state `u` that they lead to the operation on these values fails. -/
inductive OpFails (limit fuel : Nat) (scope : ScopeId) (s : State) (err : OpError) :
    Expr → State → Prop
  | binary {op : BinaryOp} {left right : Expr} {span : Span} {a b : Value} {t u : State} :
      eval limit fuel scope left s = .ok a t → eval limit fuel scope right t = .ok b u →
      Value.binary u.heap op a b = .error err →
      OpFails limit fuel scope s err ⟨.binary left op right, span⟩ u
  | unary {op : UnaryOp} {operand : Expr} {span : Span} {v : Value} {u : State} :
      eval limit fuel scope operand s = .ok v u → Value.unary op v = .error err →
      OpFails limit fuel scope s err ⟨.unary op operand, span⟩ u
  | cast {target : TypeName} {operand : Expr} {span : Span} {v : Value} {u : State} :
      eval limit fuel scope operand s = .ok v u → Value.cast u.heap v target = .error err →
      OpFails limit fuel scope s err ⟨.cast target operand, span⟩ u
  | subscript {base index : Expr} {span : Span} {v i : Value} {t u : State} :
      eval limit fuel scope base s = .ok v t → eval limit fuel scope index t = .ok i u →
      Value.subscript u.heap v i = .error err →
      OpFails limit fuel scope s err ⟨.index base index, span⟩ u

/-- An operation that does not crash fails as an error of the program. -/
theorem orFail_error {α : Type} {r : Except OpError α} {err : OpError} (hr : Value.Uncrashed r)
    (herr : r = .error err) (fault : OpError → Fault) (span : Span) (s : State) :
    orFail r fault span s = .error (.fatal ⟨fault err, span⟩) s := by
  subst herr
  cases err with
  | crash cause => exact absurd rfl (hr cause)
  | _ => rfl

theorem OpFails.eval_eq {scope : ScopeId} {err : OpError} {e : Expr}
    (h : OpFails limit fuel scope s err e u) :
    ∃ fault : Fault, eval limit (fuel + 1) scope e s = .error (.fatal ⟨fault, e.span⟩) u := by
  cases h with
  | @binary op left right span a b t u ha hb hop =>
    refine ⟨.binary op a.kind b.kind err, ?_⟩
    have hfail := orFail_error (Value.binary_uncrashed u.heap op a b) hop (.binary op a.kind b.kind)
      span u
    rw [eval] at ha hb ⊢
    simp only [Mode.eval, plain_noting, plain_act, bind, EStateM.bind, ha, hb, Run.binary, withHeap,
      hfail]
  | @unary op operand span v u hv hop =>
    refine ⟨.unary op v.kind err, ?_⟩
    have hfail := orFail_error (Value.unary_uncrashed op v) hop (.unary op v.kind) span u
    rw [eval] at hv ⊢
    simp only [Mode.eval, plain_noting, plain_look, bind, EStateM.bind, hv, hfail]
  | @cast target operand span v u hv hop =>
    refine ⟨.cast v.kind target err, ?_⟩
    have hfail := orFail_error (Value.cast_uncrashed u.heap v target) hop (.cast v.kind target)
      span u
    rw [eval] at hv ⊢
    simp only [Mode.eval, plain_noting, plain_act, bind, EStateM.bind, hv, Run.cast, withHeap,
      hfail]
  | @subscript base index span v i t u hv hi hop =>
    refine ⟨.subscript v.kind i.kind err, ?_⟩
    have hfail := orFail_error (Value.subscript_uncrashed u.heap v i) hop (.subscript v.kind i.kind)
      span u
    rw [eval] at hv hi ⊢
    simp only [Mode.eval, plain_noting, plain_look, bind, EStateM.bind, hv, hi, Run.subscript,
      withHeap, hfail]

/-- An element is not overwritten where the index names no slot. -/
theorem exec_update_fails {scope : ScopeId} {base index e : Expr} {targetSpan span : Span}
    {v a i : Value} {r : State} {err : OpError}
    (hv : eval limit fuel scope e s = .ok v r) (hvoid : v.kind ≠ .void)
    (ha : eval limit fuel scope base r = .ok a t) (hi : eval limit fuel scope index t = .ok i u)
    (hslot : Value.slot u.heap a i = .error err) :
    exec limit (fuel + 1) scope ⟨.assign ⟨.element base index, targetSpan⟩ e, span⟩ s =
      .error (.fatal ⟨.subscript a.kind i.kind err, targetSpan⟩) u := by
  have hfail := orFail_error (Value.slot_uncrashed u.heap a i) hslot (.subscript a.kind i.kind)
    targetSpan u
  rw [eval] at hv ha hi
  rw [exec]
  simp only [Mode.exec, plain_act, bind, EStateM.bind, hv, if_neg hvoid, ha, hi, store, withHeap,
    hfail]

/-! ## Every run -/

/-- In every run from every state that runs can start from, between any two
moments all arrays stay there with their lengths. From one moment to the
next, no array changes unless an element is overwritten, and then nothing
but that one slot of that one array does: under the array's own number,
which is all that any value that shares it holds, the new element is read.
An operator, a cast, a subscript or an update that fails leaves the state
as its operands have left it. -/
theorem arrays_change_by_element_only {outside : Outside} {s : State} (hs : Reached outside s)
    (p : Program) (limit fuel : Nat) :
    endIn Tape.state (p.recorded limit fuel ⟨s, []⟩) = p.run limit fuel s ∧
    stateAfter s (p.history limit fuel s) = after (p.run limit fuel) s ∧
    (∀ before more later, p.history limit fuel s = before ++ more ++ later →
      (stateAfter s before).heap.Lasts (stateAfter s (before ++ more)).heap) ∧
    (∀ before m later, p.history limit fuel s = before ++ m :: later →
      m.event.isUpdate = false → ∀ id < (stateAfter s before).heap.size,
        m.state.heap.get id = (stateAfter s before).heap.get id) ∧
    (∀ before m later a i v, p.history limit fuel s = before ++ m :: later →
      m.event = .stored a i v →
      (stateAfter s before).Stores a i v m.state ∧ Value.subscript m.state.heap a i = .ok v) ∧
    (∀ depth scope t e u err, OpFails limit depth scope t err e u →
      ∃ fault : Fault,
        eval limit (depth + 1) scope e t = .error (.fatal ⟨fault, e.span⟩) u) ∧
    ∀ depth scope base index e targetSpan span t t' t'' u v a i err,
      eval limit depth scope e t = .ok v t' → v.kind ≠ .void →
      eval limit depth scope base t' = .ok a t'' → eval limit depth scope index t'' = .ok i u →
      Value.slot u.heap a i = .error err →
      exec limit (depth + 1) scope ⟨.assign ⟨.element base index, targetSpan⟩ e, span⟩ t =
        .error (.fatal ⟨.subscript a.kind i.kind err, targetSpan⟩) u := by
  have hground : s.Grounded := (hs.invariant trivial fun _ _ => trivial).1
  have hleads := p.history_leads limit fuel hground
  refine ⟨p.endIn_recorded limit fuel hground, hleads.stateAfter_eq, ?_, ?_, ?_, ?_, ?_⟩
  · intro before more later hsplit
    rw [hsplit] at hleads
    obtain ⟨hmore, -⟩ := hleads.split
    exact hmore.split.2.lasts
  · intro before m later hsplit hevent id hid
    rw [hsplit] at hleads
    exact hleads.law.get_eq hevent hid
  · intro before m later a i v hsplit hevent
    rw [hsplit] at hleads
    have hlaw := hleads.law
    rw [hevent] at hlaw
    exact hlaw.stores
  · exact fun depth scope t e u err h => h.eval_eq
  · intro depth scope base index e targetSpan span t t' t'' u v a i err hv hvoid ha hi hslot
    exact exec_update_fails hv hvoid ha hi hslot

/-- The first element of an array is overwritten through the second of two
places that share it, and a later update fails. -/
theorem arrays_change_by_element_only_shared :
    let s := State.initial (.replay [])
    ∃ p before m later a i v,
      parseSource "a <- [1, 2]\nb <- [a, a]\nb[1][0] <- 5\na[2] <- 0" = .ok p ∧
      Reached (.replay []) s ∧ p.history 10 20 s = before ++ m :: later ∧
      m.event = .stored a i v ∧
      (stateAfter s before).Stores a i v m.state ∧ Value.subscript m.state.heap a i = .ok v := by
  intro s
  obtain ⟨p, hp, hany⟩ := exists_of_toOption_any
    (r := parseSource "a <- [1, 2]\nb <- [a, a]\nb[1][0] <- 5\na[2] <- 0")
    (P := fun p => (p.history 10 20 s).any (·.event.isUpdate)) (by decide +kernel)
  obtain ⟨m, hm, hupdate⟩ := List.any_eq_true.mp hany
  obtain ⟨a, i, v, hevent⟩ := Event.exists_stored hupdate
  obtain ⟨before, later, hsplit⟩ := List.append_of_mem hm
  have hs : Reached (.replay []) s := .initial
  obtain ⟨hstores, hread⟩ := (arrays_change_by_element_only hs p 10 20).2.2.2.2.1
    before m later a i v hsplit hevent
  exact ⟨p, before, m, later, a, i, v, hp, hs, hsplit, hevent, hstores, hread⟩

end Run

end Quill

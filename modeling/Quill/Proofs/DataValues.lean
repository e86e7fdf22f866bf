-- Values that are no functions. A program can name a function but never
-- hold one: whatever an operation makes of arrays without functions has no
-- functions in it either.
import Mathlib
import Quill.Value.Cast
import Quill.Value.Element

namespace Quill

/-! ## Values and arrays without functions -/

/-- The value is no function. -/
def Value.IsData (v : Value) : Prop := v.kind ≠ .function

instance (v : Value) : Decidable v.IsData := inferInstanceAs (Decidable (_ ≠ _))

@[simp] theorem Value.isData_int (n : Int64) : (Value.int n).IsData := nofun

@[simp] theorem Value.isData_float (x : Float) : (Value.float x).IsData := nofun

@[simp] theorem Value.isData_bool (b : Bool) : (Value.bool b).IsData := nofun

@[simp] theorem Value.isData_string (s : String) : (Value.string s).IsData := nofun

@[simp] theorem Value.isData_array (id : ArrayId) : (Value.array id).IsData := nofun

@[simp] theorem Value.isData_void : Value.void.IsData := nofun

/-- No function is an element of one of these arrays. -/
def AllData (arrays : Array (Array Value)) : Prop := ∀ a ∈ arrays, ∀ v ∈ a, v.IsData

theorem AllData.empty : AllData #[] := by
  intro a ha
  simp at ha

theorem AllData.append {xs ys : Array (Array Value)} (hx : AllData xs) (hy : AllData ys) :
    AllData (xs ++ ys) := by
  intro a ha
  rcases Array.mem_append.mp ha with ha | ha
  · exact hx a ha
  · exact hy a ha

theorem AllData.push {xs : Array (Array Value)} {a : Array Value} (hx : AllData xs)
    (ha : ∀ v ∈ a, v.IsData) : AllData (xs.push a) := by
  intro b hb
  rcases Array.mem_push.mp hb with hb | rfl
  · exact hx b hb
  · exact ha

namespace Heap

/-- No array holds a function. -/
def Data (h : Heap) : Prop := AllData h.arrays

variable {h : Heap}

theorem Data.get (hh : h.Data) (id : ArrayId) : ∀ v ∈ h.get id, v.IsData := by
  intro v hv
  unfold Heap.get at hv
  rcases ha : h.arrays[id]? with _ | a
  · simp [ha] at hv
  · rw [ha] at hv
    exact hh a (Array.mem_of_getElem? ha) v hv

theorem Data.extend (hh : h.Data) {fresh : Array (Array Value)} (hf : AllData fresh) :
    (h.extend fresh).Data := AllData.append hh hf

theorem Data.write (hh : h.Data) (slot : Slot) {v : Value} (hv : v.IsData) :
    (h.write slot v).Data := by
  intro a ha
  obtain ⟨k, hk, rfl⟩ := Array.mem_iff_getElem.mp ha
  simp only [Heap.write, Array.size_modify] at hk
  have hold : ∀ w ∈ h.arrays[k], w.IsData := hh _ (Array.getElem_mem hk)
  simp only [Heap.write, Array.getElem_modify]
  intro w hw
  split at hw
  · rcases Array.mem_or_eq_of_mem_setIfInBounds hw with hw | rfl
    · exact hold w hw
    · exact hv
  · exact hold w hw

end Heap

/-- Nothing that was made is or holds a function. -/
structure Made.Data (m : Made) : Prop where
  value : m.value.IsData
  fresh : AllData m.fresh

theorem Made.Data.plain {v : Value} (hv : v.IsData) : (Made.plain v).Data := ⟨hv, AllData.empty⟩

theorem Made.Data.newArray (h : Heap) {elements : Array Value} (he : ∀ v ∈ elements, v.IsData) :
    (h.newArray elements).Data := by
  refine ⟨Value.isData_array _, ?_⟩
  intro a ha
  obtain rfl : a = elements := by simpa [Heap.newArray] using ha
  exact he

namespace Value

variable {h : Heap} {v a b : Value} {m : Made}

/-! ## Copies -/

/-- The step copies into a value without functions, and adds no array
with one. -/
def CopiesData (c : Copying Value) : Prop :=
  ∀ fresh, AllData fresh → (c fresh).1.IsData ∧ AllData (c fresh).2

theorem CopiesData.made {c : Copying Value} (hc : CopiesData c) : (made c).Data :=
  ⟨(hc #[] AllData.empty).1, (hc #[] AllData.empty).2⟩

/-- An array of copies, made after all of them. -/
theorem CopiesData.newArrayIn {f : Value → Copying Value} {vs : List Value}
    (hf : ∀ v ∈ vs, CopiesData (f v)) : CopiesData (do newArrayIn h (← vs.mapM f)) := by
  have hmap : ∀ fresh, AllData fresh →
      (∀ w ∈ (vs.mapM f fresh).1, w.IsData) ∧ AllData (vs.mapM f fresh).2 := by
    induction vs with
    | nil => exact fun fresh hfresh => ⟨by rintro w (_ | _), hfresh⟩
    | cons v vs ih =>
      intro fresh hfresh
      obtain ⟨hv, hfresh'⟩ := hf v List.mem_cons_self fresh hfresh
      obtain ⟨hvs, hend⟩ := ih (fun w hw => hf w (List.mem_cons_of_mem v hw)) _ hfresh'
      rw [List.mapM_cons]
      refine ⟨?_, hend⟩
      intro w hw
      rcases List.mem_cons.mp hw with rfl | hw
      · exact hv
      · exact hvs w hw
  intro fresh hfresh
  obtain ⟨hvs, hend⟩ := hmap fresh hfresh
  refine ⟨isData_array _, ?_⟩
  apply AllData.push hend
  intro w hw
  exact hvs w (List.mem_toArray.mp hw)

theorem copyWithin_data (hh : h.Data) (depth : Nat) (hv : v.IsData) :
    CopiesData (copyWithin h depth v) := by
  induction depth generalizing v with
  | zero => exact fun fresh hfresh => ⟨hv, hfresh⟩
  | succ depth ih =>
    cases v with
    | array id =>
      apply CopiesData.newArrayIn
      intro w hw
      exact ih (hh.get id w (Array.mem_toList_iff.mp hw))
    | _ => exact fun fresh hfresh => ⟨hv, hfresh⟩

theorem duplicate_data (hh : h.Data) (hv : v.IsData) : (duplicate h v).Data :=
  (copyWithin_data hh h.size hv).made

/-- The elements in turn are elements. -/
theorem mem_of_cycled {elements : Array Value} {total : Nat} {values : List Value}
    (hvalues : cycled elements total = .ok values) : ∀ v ∈ values, v ∈ elements := by
  unfold cycled at hvalues
  generalize List.range total = places at hvalues
  induction places generalizing values with
  | nil =>
    cases hvalues
    exact fun _ => nofun
  | cons i places ih =>
    rw [List.mapM_cons] at hvalues
    simp only [bind, Except.bind, pure, Except.pure] at hvalues
    split at hvalues
    · cases hvalues
    · rename_i w hw
      split at hvalues
      · cases hvalues
      · rename_i ws hws
        cases hvalues
        intro v hv
        rcases List.mem_cons.mp hv with rfl | hv
        · split at hw
          · cases hw
          · unfold elementAt at hw
            split at hw
            · rename_i hget
              cases hw
              exact Array.mem_of_getElem? hget
            · cases hw
        · exact ih hws v hv

theorem replicate_data (hh : h.Data) {elements : Array Value} (he : ∀ v ∈ elements, v.IsData)
    {total : Nat} (hm : replicate h elements total = .ok m) : m.Data := by
  unfold replicate at hm
  rcases hvalues : cycled elements total with e | values
  · rw [hvalues] at hm
    cases hm
  · rw [hvalues] at hm
    cases hm
    refine CopiesData.made (CopiesData.newArrayIn fun w hw => ?_)
    exact copyWithin_data hh h.size (he w (mem_of_cycled hvalues w hw))

/-! ## Operators -/

/-- The operation fails or makes nothing with a function in it. -/
def OkData (r : Except OpError Made) : Prop := ∀ m, r = .ok m → m.Data

theorem OkData.ok (hm : m.Data) : OkData (.ok m) := by
  rintro _ ⟨⟩
  exact hm

theorem OkData.error (e : OpError) : OkData (.error e) := nofun

theorem OkData.bind {α : Type} {r : Except OpError α} {f : α → Except OpError Made}
    (hf : ∀ x, OkData (f x)) : OkData (r >>= f) := by
  cases r with
  | error e => exact OkData.error e
  | ok x => exact hf x

/-- What may crash becomes an operation with an error for that. -/
theorem OkData.mapError {r : Except Crash Made} (hr : ∀ m, r = .ok m → m.Data) :
    OkData (r.mapError .crash) := by
  cases r with
  | error cause => exact OkData.error _
  | ok m => exact OkData.ok (hr m rfl)

theorem onFloats_data (f : Float → Float → Float) (a b : Value) : OkData (onFloats f a b) := by
  unfold onFloats
  split
  · exact OkData.ok (.plain (isData_float _))
  · exact OkData.error _

theorem onInts_data (f : Int64 → Int64 → Int64) (a b : Value) : OkData (onInts f a b) := by
  unfold onInts
  split
  · exact OkData.ok (.plain (isData_int _))
  · exact OkData.error _

theorem onBools_data (f : Bool → Bool → Bool) (a b : Value) : OkData (onBools f a b) := by
  unfold onBools
  split
  · exact OkData.ok (.plain (isData_bool _))
  · exact OkData.error _

theorem ordered_data (test : Ordering → Bool) (a b : Value) : OkData (ordered test a b) :=
  OkData.bind fun _ => OkData.ok (.plain (isData_bool _))

theorem add_data (hh : h.Data) (a b : Value) : OkData (add h a b) := by
  unfold add
  split
  · exact OkData.bind fun _ => OkData.ok (.plain (isData_int _))
  · exact OkData.ok (.plain (isData_string _))
  · rename_i x y
    refine OkData.ok (.newArray h ?_)
    intro v hv
    rcases Array.mem_append.mp hv with hv | hv
    · exact hh.get x v hv
    · exact hh.get y v hv
  · exact onFloats_data _ _ _

theorem subtract_data (a b : Value) : OkData (subtract a b) := by
  unfold subtract
  split
  · exact OkData.bind fun _ => OkData.ok (.plain (isData_int _))
  · exact onFloats_data _ _ _

theorem multiply_data (hh : h.Data) (a b : Value) : OkData (multiply h a b) := by
  unfold multiply
  split
  · exact OkData.bind fun _ => OkData.ok (.plain (isData_int _))
  · exact OkData.bind fun _ => OkData.bind fun _ => OkData.ok (.plain (isData_string _))
  · rename_i id n
    exact OkData.bind fun _ => OkData.bind fun _ => OkData.mapError fun _ hm =>
      replicate_data hh (hh.get id) hm
  · exact onFloats_data _ _ _

theorem divide_data (a b : Value) : OkData (divide a b) := by
  unfold divide
  split
  · exact OkData.bind fun _ => OkData.ok (.plain (isData_int _))
  · exact onFloats_data _ _ _

theorem modulo_data (a b : Value) : OkData (modulo a b) := by
  unfold modulo
  split
  · exact OkData.bind fun _ => OkData.ok (.plain (isData_int _))
  · exact OkData.error _

/-- No operator makes a function. -/
theorem binary_data (hh : h.Data) (op : BinaryOp) (a b : Value) : OkData (binary h op a b) := by
  cases op with
  | add => exact add_data hh a b
  | sub => exact subtract_data a b
  | mul => exact multiply_data hh a b
  | div => exact divide_data a b
  | mod => exact modulo_data a b
  | bitAnd => exact onInts_data _ a b
  | bitOr => exact onInts_data _ a b
  | bitXor => exact onInts_data _ a b
  | eq => exact OkData.bind fun _ => OkData.ok (.plain (isData_bool _))
  | ne => exact OkData.bind fun _ => OkData.ok (.plain (isData_bool _))
  | lt => exact ordered_data _ a b
  | gt => exact ordered_data _ a b
  | le => exact ordered_data _ a b
  | ge => exact ordered_data _ a b
  | and => exact onBools_data _ a b
  | or => exact onBools_data _ a b

theorem unary_data {op : UnaryOp} (hr : unary op v = .ok a) : a.IsData := by
  unfold unary at hr
  split at hr
  · cases hr
    exact isData_int _
  · cases hr
    exact isData_float _
  · rename_i n
    rcases hn : fit (-n.toInt) with e | k
    · simp [hn, bind, Except.bind] at hr
    · simp only [hn] at hr
      cases hr
      exact isData_int _
  · cases hr
    exact isData_float _
  · cases hr
    exact isData_int _
  · cases hr
    exact isData_bool _
  · cases hr

/-! ## Casts, subscripts and ranges -/

theorem OkData.convert {α : Type} {make : α → Value} (hm : ∀ x, (make x).IsData) (e : OpError)
    (o : Option α) :
    OkData (match o with
      | some x => .ok (.plain (make x))
      | none => .error e) := by
  cases o with
  | none => exact OkData.error e
  | some x => exact OkData.ok (.plain (hm x))

theorem cast_data (hh : h.Data) (v : Value) (target : TypeName) : OkData (cast h v target) := by
  cases v with
  | void => exact OkData.error _
  | function f id => exact OkData.error _
  | array id =>
    cases target with
    | array => exact OkData.ok (duplicate_data hh (isData_array id))
    | _ => exact OkData.error _
  | int n =>
    cases target with
    | array => exact OkData.error _
    | int => exact OkData.ok (.plain (isData_int _))
    | float => exact OkData.ok (.plain (isData_float _))
    | bool => exact OkData.ok (.plain (isData_bool _))
    | string => exact OkData.ok (.plain (isData_string _))
  | float x =>
    cases target with
    | array => exact OkData.error _
    | int => exact OkData.convert isData_int _ (intOfFloat? x)
    | float => exact OkData.ok (.plain (isData_float _))
    | bool => exact OkData.ok (.plain (isData_bool _))
    | string => exact OkData.ok (.plain (isData_string _))
  | bool b =>
    cases target with
    | array => exact OkData.error _
    | int => exact OkData.ok (.plain (isData_int _))
    | float => exact OkData.ok (.plain (isData_float _))
    | bool => exact OkData.ok (.plain (isData_bool _))
    | string => exact OkData.ok (.plain (isData_string _))
  | string s =>
    cases target with
    | array => exact OkData.error _
    | int => exact OkData.convert isData_int _ (intOfText? s)
    | float => exact OkData.convert isData_float _ (floatOfText? s)
    | bool => exact OkData.convert isData_bool _ (boolOfText? s)
    | string => exact OkData.ok (.plain (isData_string _))

theorem subscript_data (hh : h.Data) (hr : subscript h v a = .ok b) : b.IsData := by
  unfold subscript at hr
  split at hr
  · rename_i id i
    rcases hk : place i (h.get id).size with e | k
    · simp [hk, bind, Except.bind] at hr
    · simp only [hk, bind, Except.bind] at hr
      split at hr
      · rename_i hw
        cases hr
        exact hh.get id _ (Array.mem_of_getElem? hw)
      · cases hr
  · rename_i x i
    rcases hk : place i x.length with e | k
    · simp [hk, bind, Except.bind] at hr
    · simp only [hk, bind, Except.bind] at hr
      split at hr
      · cases hr
        exact isData_string _
      · cases hr
  · cases hr

theorem ascend_data (low high : Int64) {elements : Array Value} (he : ∀ v ∈ elements, v.IsData) :
    ∀ v ∈ ascend low high elements, v.IsData := by
  fun_induction ascend low high elements with
  | case1 low elements _ ih =>
    refine ih fun v hv => ?_
    rcases Array.mem_push.mp hv with hv | rfl
    · exact he v hv
    · exact isData_int low
  | case2 low elements _ =>
    intro v hv
    rcases Array.mem_push.mp hv with hv | rfl
    · exact he v hv
    · exact isData_int low

theorem descend_data (low high : Int64) {elements : Array Value} (he : ∀ v ∈ elements, v.IsData) :
    ∀ v ∈ descend low high elements, v.IsData := by
  fun_induction descend low high elements with
  | case1 high elements _ ih =>
    refine ih fun v hv => ?_
    rcases Array.mem_push.mp hv with hv | rfl
    · exact he v hv
    · exact isData_int high
  | case2 high elements _ =>
    intro v hv
    rcases Array.mem_push.mp hv with hv | rfl
    · exact he v hv
    · exact isData_int high

theorem rangeElements_data {first last : Int64} {elements : Array Value}
    (h : rangeElements first last = .ok elements) : ∀ v ∈ elements, v.IsData := by
  unfold rangeElements roomFor at h
  split at h
  · split at h
    · cases h
      exact ascend_data first last (by simp)
    · cases h
  · split at h
    · cases h
      exact descend_data last first (by simp)
    · cases h

end Value

end Quill
